import LiteralSieve.Proofs.Automaton.Lookup
import LiteralSieve.Proofs.Matcher.Candidates
import LiteralSieve.Proofs.Matcher.Records

namespace LiteralSieve

/-!
# Pieces and frames

Every piece has one frame for each of its literals, and a link leads from each frame to the one of
the literal before. The terminals of a group list the frames that wait for their keys. While a group
is there, each frame of its patterns stands in one list, once.
-/

/-! ## Numbers of labels -/

section Labels

variable {branches : List StoredBranch}

/-- The frame of the literal before comes next. -/
theorem getElem?_succ_allLabels {id j : Nat} {label : Label}
    (hlabel : (allLabels branches)[id]? = some label) (hposition : label.position = j + 1) :
    ∃ next, (allLabels branches)[id + 1]? = some next ∧ next.piece = label.piece ∧
      next.position = j := by
  induction branches using List.reverseRecOn with
  | nil => simp [allLabels] at hlabel
  | append_singleton branches branch ih =>
      rw [allLabels_concat] at hlabel ⊢
      by_cases hid : id < (allLabels branches).length
      · rw [List.getElem?_append_left hid] at hlabel
        obtain ⟨next, hnext, hsame⟩ := ih hlabel
        have hlt := (List.getElem?_eq_some_iff.mp hnext).1
        exact ⟨next, (List.getElem?_append_left hlt).trans hnext, hsame⟩
      · obtain ⟨i, rfl⟩ := Nat.exists_eq_add_of_le (Nat.not_lt.mp hid)
        rw [List.getElem?_append_right (Nat.le_add_right _ _), Nat.add_sub_cancel_left] at hlabel
        have hi := (List.getElem?_eq_some_iff.mp hlabel).1
        rw [length_labels] at hi
        rw [getElem?_labels branch _ hi] at hlabel
        obtain rfl := Option.some.inj hlabel
        have hlast : branch.literals.length - 1 - i = j + 1 := hposition
        rw [Nat.add_assoc, List.getElem?_append_right (Nat.le_add_right _ _),
          Nat.add_sub_cancel_left, getElem?_labels branch _ (show i + 1 < _ by omega)]
        refine ⟨_, rfl, rfl, ?_⟩
        change branch.literals.length - 1 - (i + 1) = j
        omega

theorem eq_of_place_eq {i j : Nat} {a b : Label} (ha : (allLabels branches)[i]? = some a)
    (hb : (allLabels branches)[j]? = some b) (hpiece : a.piece = b.piece)
    (hposition : a.position = b.position) : i = j := by
  obtain ⟨hi, rfl⟩ := List.getElem?_eq_some_iff.mp ha
  obtain ⟨hj, rfl⟩ := List.getElem?_eq_some_iff.mp hb
  have hpairs := List.pairwise_iff_getElem.mp (allLabels_pairwise branches)
  rcases Nat.lt_trichotomy i j with hlt | heq | hlt
  · exact absurd hposition (hpairs i j hi hj hlt hpiece).ne'
  · exact heq
  · exact absurd hposition (hpairs j i hj hi hlt hpiece.symm).ne

/-- The number of pieces of a pattern is that of its branches. -/
theorem countP_storedBranches (entries : List Accepted) (id : Nat) :
    (storedBranches entries).countP (·.pattern = id) =
      (entries[id]?.map (·.branches.length)).getD 0 := by
  induction entries using List.reverseRecOn with
  | nil => rfl
  | append_singleton entries entry ih =>
      rw [storedBranches_concat, List.countP_append, ih, List.countP_map]
      rcases Nat.lt_trichotomy id entries.length with hlt | rfl | hlt
      · rw [List.getElem?_append_left hlt, List.countP_eq_zero.mpr, Nat.add_zero]
        intro literals _
        simpa using hlt.ne'
      · rw [List.getElem?_concat_length, List.getElem?_eq_none le_rfl, Option.map_some,
          Option.getD_some]
        refine (Nat.zero_add _).trans (List.countP_eq_length.mpr fun literals _ => ?_)
        simp
      · rw [List.getElem?_eq_none hlt.le, List.getElem?_eq_none (by simpa using hlt),
          List.countP_eq_zero.mpr]
        · rfl
        · intro literals _
          simpa using hlt.ne

theorem nodup_storedBranches {config : AutomatonConfig} {entries : List Accepted}
    (h : ∀ entry ∈ entries, DistinctFolds config entry.branches) :
    ((storedBranches entries).map fun branch => (branch.pattern, branch.folded config)).Nodup := by
  induction entries using List.reverseRecOn with
  | nil => exact .nil
  | append_singleton entries entry ih =>
      rw [storedBranches_concat, List.map_append, List.map_map, List.nodup_append']
      refine ⟨ih fun old hold => h old (List.mem_append_left _ hold), ?_, ?_⟩
      · have hlast := h entry (by simp)
        exact List.pairwise_map.mpr ((List.pairwise_map.mp hlast).imp fun hne heq =>
          hne (congrArg Prod.snd heq))
      · -- The branches of the last pattern have a number that none of the others has.
        intro x hold hnew
        obtain ⟨branch, hbranch, rfl⟩ := List.mem_map.mp hold
        obtain ⟨literals, -, heq⟩ := List.mem_map.mp hnew
        obtain ⟨other, hother, -⟩ := Matcher.mem_storedBranches_iff.mp hbranch
        have hlt := (List.getElem?_eq_some_iff.mp hother).1
        exact hlt.ne (congrArg Prod.fst heq).symm

end Labels

namespace Matcher

variable {P : Type} {matcher : Matcher P} {config : MatcherConfig} {entries : List Accepted}

/-- The frames that a terminal of a group lists. -/
def listedAt (matcher : Matcher P) (g t : Nat) : List FrameId :=
  ((matcher.groups[g]?.bind fun automaton => automaton.terminals.get? t).map (·.value)).getD []

/-- The frames of the matcher belong to its pieces, and these are those of the branches. -/
structure Framed (matcher : Matcher P) (branches : List StoredBranch) : Prop where
  pieces_eq : matcher.pieces.toList = branches.map StoredBranch.piece
  exists_pattern : ∀ {p piece}, matcher.pieces.get? p = some piece →
    ∃ pattern, matcher.patterns.get? piece.pattern = some pattern
  size_pos : ∀ {p piece}, matcher.pieces.get? p = some piece → 1 ≤ piece.size
  exists_piece : ∀ {f frame}, matcher.frames.get? f = some frame →
    ∃ piece, matcher.pieces.get? frame.piece = some piece ∧ frame.position < piece.size
  existsUnique_frame : ∀ {p piece}, matcher.pieces.get? p = some piece → ∀ j < piece.size,
    ∃! f, ∃ frame, matcher.frames.get? f = some frame ∧ frame.piece = p ∧ frame.position = j
  prev_eq_none_iff : ∀ {f frame}, matcher.frames.get? f = some frame →
    (frame.prev = none ↔ frame.position = 0)
  prev_spec : ∀ {f frame before}, matcher.frames.get? f = some frame →
    frame.prev = some before → ∃ earlier, matcher.frames.get? before = some earlier ∧
      earlier.piece = frame.piece ∧ earlier.position + 1 = frame.position
  branches_eq : ∀ {id pattern}, matcher.patterns.get? id = some pattern →
    pattern.branches = matcher.pieces.toList.countP (·.pattern = id)
  /-- A frame is listed at the key that it waits for, in the group of its pattern. -/
  listed_spec : ∀ {g automaton t terminal}, matcher.groups[g]? = some automaton →
    automaton.terminals.get? t = some terminal → ∀ f ∈ terminal.value,
      ∃ frame branch pattern literal, matcher.frames.get? f = some frame ∧
        branches[frame.piece]? = some branch ∧
        matcher.patterns.get? branch.pattern = some pattern ∧ pattern.group = g ∧
        branch.literals[frame.position]? = some literal ∧
        automaton.foldKey terminal.key = automaton.foldKey literal
  listed_pairwise : ∀ g t, (matcher.listedAt g t).Pairwise fun a b => ∀ {first second},
    matcher.frames.get? a = some first → matcher.frames.get? b = some second →
      first.piece = second.piece → second.position < first.position
  distinct : ∀ {p q : Nat} {a b}, branches[p]? = some a → branches[q]? = some b →
    a.pattern = b.pattern → a.folded matcher.config.automatonConfig =
      b.folded matcher.config.automatonConfig → p = q

/-- The frame stands in the list of one terminal, once. -/
def ListedOnce (matcher : Matcher P) (f : FrameId) : Prop :=
  ∃ g t, (matcher.listedAt g t).count f = 1 ∧
    ∀ g' t', f ∈ matcher.listedAt g' t' → g' = g ∧ t' = t

/-! ## Frames and links -/

section Frames

variable (h : matcher.Recorded entries)
include h

theorem Recorded.get?_frame (f : Nat) :
    matcher.frames.get? f = (allLabels (storedBranches entries))[f]?.map (·.frame f) := by
  rw [← Pool.getElem?_toList, h.frames_eq, linkedFrames, List.getElem?_map, List.getElem?_zipIdx,
    Nat.zero_add, Option.map_map]
  rfl

theorem Recorded.exists_label {f : Nat} {frame : Frame}
    (hframe : matcher.frames.get? f = some frame) :
    ∃ label, (allLabels (storedBranches entries))[f]? = some label ∧ frame = label.frame f := by
  rw [h.get?_frame] at hframe
  obtain ⟨label, hlabel, rfl⟩ := Option.map_eq_some_iff.mp hframe
  exact ⟨label, hlabel, rfl⟩

theorem Recorded.prev_spec {f before : Nat} {frame : Frame}
    (hframe : matcher.frames.get? f = some frame) (hprev : frame.prev = some before) :
    ∃ earlier, matcher.frames.get? before = some earlier ∧ earlier.piece = frame.piece ∧
      earlier.position + 1 = frame.position := by
  obtain ⟨label, hlabel, rfl⟩ := h.exists_label hframe
  simp only [Label.frame] at hprev ⊢
  split_ifs at hprev with hzero
  obtain rfl := Option.some.inj hprev
  obtain ⟨j, hj⟩ := Nat.exists_eq_add_one_of_ne_zero hzero
  obtain ⟨next, hnext, hpiece, hposition⟩ := getElem?_succ_allLabels hlabel hj
  refine ⟨next.frame (f + 1), ?_, hpiece, ?_⟩
  · rw [h.get?_frame, hnext, Option.map_some]
  · rw [hj, ← hposition]
    rfl

theorem Recorded.existsUnique_frame {p j : Nat} {branch : StoredBranch}
    (hbranch : (storedBranches entries)[p]? = some branch) (hj : j < branch.literals.length) :
    ∃! f, ∃ frame, matcher.frames.get? f = some frame ∧ frame.piece = p ∧ frame.position = j := by
  have hmem : (⟨branch.group, branch.pattern, p, j, branch.literals[j]⟩ : Label) ∈
      allLabels (storedBranches entries) :=
    mem_allLabels_iff.mpr ⟨branch, hbranch, rfl, rfl, List.getElem?_eq_getElem hj⟩
  obtain ⟨f, hf⟩ := List.getElem?_of_mem hmem
  refine ⟨f, ⟨_, by rw [h.get?_frame, hf]; rfl, rfl, rfl⟩, ?_⟩
  rintro other ⟨frame, hframe, hpiece, hposition⟩
  obtain ⟨label, hlabel, rfl⟩ := h.exists_label hframe
  exact eq_of_place_eq hlabel hf hpiece hposition

end Frames

/-! ## Lists of frames -/

theorem listedAt_eq {g t : Nat} {automaton : GroupAutomaton} {terminal : Terminal (List FrameId)}
    (hgroup : matcher.groups[g]? = some automaton)
    (hterminal : automaton.terminals.get? t = some terminal) :
    matcher.listedAt g t = terminal.value := by
  rw [listedAt, hgroup, Option.bind_some, hterminal]
  rfl

theorem listedAt_eq_nil_or (matcher : Matcher P) (g t : Nat) :
    matcher.listedAt g t = [] ∨ ∃ automaton terminal, matcher.groups[g]? = some automaton ∧
      automaton.terminals.get? t = some terminal ∧ matcher.listedAt g t = terminal.value := by
  cases hgroup : matcher.groups[g]? with
  | none =>
      refine Or.inl ?_
      rw [listedAt, hgroup]
      rfl
  | some automaton =>
      cases hterminal : automaton.terminals.get? t with
      | none =>
          refine Or.inl ?_
          rw [listedAt, hgroup, Option.bind_some, hterminal]
          rfl
      | some terminal => exact Or.inr ⟨_, _, rfl, hterminal, listedAt_eq hgroup hterminal⟩

section Lists

variable (hindexed : matcher.Indexed matcher.config entries)
include hindexed

theorem Indexed.value_eq {g t : Nat} {automaton : GroupAutomaton}
    {terminal : Terminal (List FrameId)} (hgroup : matcher.groups[g]? = some automaton)
    (hterminal : automaton.terminals.get? t = some terminal) :
    terminal.value = (waiting matcher.config.automatonConfig (allLabels (storedBranches entries)) g
      (automaton.foldKey terminal.key)).map Prod.snd :=
  value_of_stored (hindexed.built hgroup).stores hterminal

theorem Indexed.mem_value_iff {g t f : Nat} {automaton : GroupAutomaton}
    {terminal : Terminal (List FrameId)} (hgroup : matcher.groups[g]? = some automaton)
    (hterminal : automaton.terminals.get? t = some terminal) :
    f ∈ terminal.value ↔ ∃ label, (allLabels (storedBranches entries))[f]? = some label ∧
      label.group = g ∧ automaton.foldKey label.literal = automaton.foldKey terminal.key := by
  have hfold : ∀ literal, automaton.foldKey literal =
      literal.map matcher.config.automatonConfig.fold := by
    intro literal
    rw [← (hindexed.built hgroup).stores.config_eq]
    rfl
  rw [hindexed.value_eq hgroup hterminal, waiting, List.mem_map]
  constructor
  · rintro ⟨⟨label, f⟩, hmem, rfl⟩
    obtain ⟨hlabel, hwaits⟩ := List.mem_filter.mp hmem
    obtain ⟨hg, hkey⟩ := of_decide_eq_true hwaits
    exact ⟨label, List.mem_zipIdx_iff_getElem?.mp hlabel, hg, (hfold _).trans hkey⟩
  · rintro ⟨label, hlabel, hg, hkey⟩
    refine ⟨(label, f), List.mem_filter.mpr ⟨List.mem_zipIdx_iff_getElem?.mpr hlabel, ?_⟩, rfl⟩
    exact decide_eq_true ⟨hg, (hfold _).symm.trans hkey⟩

theorem Indexed.listedAt_sublist (g t : Nat) :
    (matcher.listedAt g t).Sublist ((allLabels (storedBranches entries)).zipIdx.map Prod.snd) := by
  rcases listedAt_eq_nil_or matcher g t with hnil | ⟨automaton, terminal, hgroup, hterminal, heq⟩
  · rw [hnil]
    exact List.nil_sublist _
  · rw [heq, hindexed.value_eq hgroup hterminal]
    exact List.filter_sublist.map _

theorem Indexed.listed_pairwise (h : matcher.Recorded entries) (g t : Nat) :
    (matcher.listedAt g t).Pairwise fun a b => ∀ {first second},
      matcher.frames.get? a = some first → matcher.frames.get? b = some second →
        first.piece = second.piece → second.position < first.position := by
  refine List.Pairwise.sublist (hindexed.listedAt_sublist g t) (List.pairwise_map.mpr ?_)
  have hlabels := allLabels_pairwise (storedBranches entries)
  rw [← List.zipIdx_map_fst 0 (allLabels (storedBranches entries))] at hlabels
  refine (List.pairwise_map.mp hlabels).imp_of_mem ?_
  rintro ⟨a, i⟩ ⟨b, j⟩ ha hb hlt first second hfirst hsecond hpiece
  rw [h.get?_frame, List.mem_zipIdx_iff_getElem?.mp ha] at hfirst
  rw [h.get?_frame, List.mem_zipIdx_iff_getElem?.mp hb] at hsecond
  obtain rfl := Option.some.inj hfirst
  obtain rfl := Option.some.inj hsecond
  exact hlt hpiece

theorem Indexed.nodup_listedAt (g t : Nat) : (matcher.listedAt g t).Nodup := by
  refine List.Pairwise.sublist (hindexed.listedAt_sublist g t) ?_
  exact List.pairwise_map.mpr ((zipIdx_pairwise _).imp Nat.ne_of_lt)

/-- A frame of a group that is there is listed by the terminal of its key alone. -/
theorem Indexed.listedOnce {f : Nat} {label : Label}
    (hlabel : (allLabels (storedBranches entries))[f]? = some label)
    (hlt : label.group < matcher.groups.size) : matcher.ListedOnce f := by
  obtain ⟨branch, hbranch, hgroup, -, hliteral⟩ :=
    mem_allLabels_iff.mp (List.mem_of_getElem? hlabel)
  obtain ⟨automaton, hautomaton⟩ : ∃ automaton, matcher.groups[label.group]? = some automaton :=
    ⟨_, Array.getElem?_eq_getElem hlt⟩
  have hstores := (hindexed.built hautomaton).stores
  obtain ⟨entry, hentry⟩ : ∃ entry, Automaton.entryAt? matcher.config.automatonConfig
      (groupTable matcher.config entries label.group)
      (label.literal.map matcher.config.automatonConfig.fold) = some entry :=
    stored_of_branch hbranch hgroup.symm label.literal (List.mem_of_getElem? hliteral)
  obtain ⟨t, terminal, hterminal, hkey, -⟩ := hstores.exists_terminal_key hentry
  have hfold : automaton.foldKey label.literal = automaton.foldKey terminal.key := by
    rw [hkey, ← hstores.config_eq]
    rfl
  have hmem : f ∈ terminal.value :=
    (hindexed.mem_value_iff hautomaton hterminal).mpr ⟨label, hlabel, rfl, hfold⟩
  refine ⟨label.group, t, ?_, fun g' t' hf => ?_⟩
  · refine List.count_eq_one_of_mem (hindexed.nodup_listedAt _ _) ?_
    rwa [listedAt_eq hautomaton hterminal]
  · rcases listedAt_eq_nil_or matcher g' t' with
      hnil | ⟨automaton', terminal', hautomaton', hterminal', heq⟩
    · rw [hnil] at hf
      cases hf
    rw [heq] at hf
    obtain ⟨label', hlabel', rfl, hkey'⟩ :=
      (hindexed.mem_value_iff hautomaton' hterminal').mp hf
    obtain rfl := Option.some.inj (hlabel.symm.trans hlabel')
    obtain rfl := Option.some.inj (hautomaton.symm.trans hautomaton')
    refine ⟨rfl, ?_⟩
    -- Both terminals have the fold of the literal, and a fold has one terminal.
    have hone := hstores.terminalOf?_eq_some_iff.mpr ⟨terminal, hterminal, hfold.symm⟩
    have hother := hstores.terminalOf?_eq_some_iff.mpr ⟨terminal', hterminal', hkey'.symm⟩
    exact Option.some.inj (hother.symm.trans hone)

end Lists

/-! ## All together -/

theorem Indexed.framed (hindexed : matcher.Indexed matcher.config entries)
    (h : matcher.Recorded entries) : matcher.Framed (storedBranches entries) where
  pieces_eq := hindexed.pieces_eq
  exists_pattern := hindexed.closed
  size_pos := by
    intro p piece hpiece
    rw [hindexed.get?_piece] at hpiece
    obtain ⟨branch, hbranch, rfl⟩ := Option.map_eq_some_iff.mp hpiece
    exact List.length_pos_iff.mpr (hindexed.literals_ne_nil _ (List.mem_of_getElem? hbranch))
  exists_piece := by
    intro f frame hframe
    obtain ⟨label, hlabel, rfl⟩ := h.exists_label hframe
    obtain ⟨branch, hbranch, -, -, hliteral⟩ :=
      mem_allLabels_iff.mp (List.mem_of_getElem? hlabel)
    exact ⟨branch.piece, hindexed.get?_piece_of_branch hbranch,
      (List.getElem?_eq_some_iff.mp hliteral).1⟩
  existsUnique_frame := by
    intro p piece hpiece j hj
    rw [hindexed.get?_piece] at hpiece
    obtain ⟨branch, hbranch, rfl⟩ := Option.map_eq_some_iff.mp hpiece
    exact h.existsUnique_frame hbranch hj
  prev_eq_none_iff := by
    intro f frame hframe
    obtain ⟨label, -, rfl⟩ := h.exists_label hframe
    by_cases hzero : label.position = 0 <;> simp [Label.frame, hzero]
  prev_spec := h.prev_spec
  branches_eq := by
    intro id pattern hpattern
    have hcount := congrArg (·[id]?) h.counts_eq
    simp only [List.getElem?_map, Pool.getElem?_toList, hpattern, Option.map_some] at hcount
    rw [hindexed.pieces_eq, List.countP_map]
    exact (Option.getD_some).symm.trans
      ((congrArg (·.getD 0) hcount).trans (countP_storedBranches entries id).symm)
  listed_spec := by
    intro g automaton t terminal hgroup hterminal f hf
    obtain ⟨label, hlabel, hg, hkey⟩ := (hindexed.mem_value_iff hgroup hterminal).mp hf
    obtain ⟨branch, hbranch, hsame, hpattern, hliteral⟩ :=
      mem_allLabels_iff.mp (List.mem_of_getElem? hlabel)
    obtain ⟨entry, hentry, hgroup', -⟩ :=
      mem_storedBranches_iff.mp (List.mem_of_getElem? hbranch)
    obtain ⟨pattern, hget⟩ := hindexed.closed (hindexed.get?_piece_of_branch hbranch)
    have hentryGroup : entry.group = g := hgroup'.symm.trans (hsame.symm.trans hg)
    have hlt : g < matcher.groups.size := (Array.getElem?_eq_some_iff.mp hgroup).1
    refine ⟨label.frame f, branch, pattern, label.literal, ?_, hbranch, hget, ?_, hliteral,
      hkey.symm⟩
    · rw [h.get?_frame, hlabel, Option.map_some]
    · exact (h.group_eq hget hentry (hentryGroup ▸ hlt)).trans hentryGroup
  listed_pairwise := hindexed.listed_pairwise h
  distinct := by
    intro p q a b ha hb hpattern hfolded
    have hlt : p < (storedBranches entries).length := (List.getElem?_eq_some_iff.mp ha).1
    refine (List.getElem?_inj (by rwa [List.length_map]) (nodup_storedBranches h.distinct)).mp ?_
    rw [List.getElem?_map, List.getElem?_map, ha, hb, Option.map_some, Option.map_some, hpattern,
      hfolded]

/-! ## Patterns whose group is still there -/

/-- The group is there after the operation if it was before, with the same patterns and more. -/
def Operation.Keeps (g : Nat) : Operation P → Prop
  | .resize groups => g < groups
  | .clear => False
  | _ => True

/-- The operation adds a pattern to the group, and answers with this identifier. -/
def Adds (matcher : Matcher P) (g : Nat) (id : PatternId) : Operation P → Prop
  | .call (.build (.addPattern g' pattern payload)) =>
    g' = g ∧ (matcher.addPattern g' pattern payload).2 = .ok id
  | .call (.build (.addKeyword g' keyword payload)) =>
    g' = g ∧ (matcher.addKeyword g' keyword payload).2 = .ok id
  | _ => False

/-- The pattern was added to the group, and the group has been there ever since. -/
def Resident [Verifier P] (config : MatcherConfig) (operations : List (Operation P)) (g : Nat)
    (id : PatternId) : Prop :=
  ∃ before operation after, operations = before ++ operation :: after ∧
    (performed config before).Adds g id operation ∧ ∀ later ∈ after, later.Keeps g

theorem size_groups_build (matcher : Matcher P) (call : BuildCall P) :
    (matcher.build call).groups.size = matcher.groups.size := by
  cases call with
  | compile g => exact size_groups_compile matcher g
  | addPattern g pattern payload =>
      rw [Matcher.build, Matcher.addPattern]
      split
      · rfl
      · split
        · rfl
        · split
          · rfl
          · exact Array.size_setIfInBounds
  | addKeyword g keyword payload =>
      rw [Matcher.build, Matcher.addKeyword]
      split
      · rfl
      · split
        · rfl
        · exact Array.size_setIfInBounds

theorem size_groups_perform [Verifier P] (matcher : Matcher P) {operation : Operation P}
    (hresize : ∀ groups, operation ≠ .resize groups) :
    (matcher.perform operation).groups.size = matcher.groups.size := by
  cases operation with
  | call call =>
      cases call with
      | build call => exact size_groups_build matcher call
      | scan call => cases call <;> rfl
  | compileAll => exact size_groups_compileAll matcher
  | searchVerified g text mode => rfl
  | resize groups => exact (hresize groups rfl).elim
  | clear => exact Array.size_map
  | shrink => rfl

theorem heldAll_append [Verifier P] (matcher : Matcher P) (entries : List Accepted)
    (operations more : List (Operation P)) :
    matcher.heldAll entries (operations ++ more) =
      (operations.foldl perform matcher).heldAll (matcher.heldAll entries operations) more := by
  induction operations generalizing matcher entries with
  | nil => rfl
  | cons operation operations ih => exact ih _ _

/-- The entry of a pattern in a group that is there. -/
structure Housed (matcher : Matcher P) (entries : List Accepted) (g : Nat) (id : PatternId) :
    Prop where
  exists_entry : ∃ entry, entries[id]? = some entry ∧ entry.group = g
  lt_size : g < matcher.groups.size

theorem Housed.perform [Verifier P] {g id : Nat} (h : Housed matcher entries g id)
    {operation : Operation P} (hkeeps : operation.Keeps g) :
    Housed (matcher.perform operation) (matcher.held entries operation) g id := by
  obtain ⟨entry, hentry, hgroup⟩ := h.exists_entry
  have hlt := h.lt_size
  cases operation with
  | call call =>
      refine ⟨⟨entry, ?_, hgroup⟩, ?_⟩
      · exact (List.getElem?_append_left (List.getElem?_eq_some_iff.mp hentry).1).trans hentry
      · rw [size_groups_perform matcher (by simp)]
        exact hlt
  | compileAll =>
      refine ⟨⟨entry, hentry, hgroup⟩, ?_⟩
      rw [size_groups_perform matcher (by simp)]
      exact hlt
  | searchVerified g' text mode => exact ⟨h.exists_entry, h.lt_size⟩
  | resize groups =>
      have hkept : g < min matcher.groups.size groups := Nat.lt_min.mpr ⟨hlt, hkeeps⟩
      refine ⟨⟨entry.regroup (refiled (min matcher.groups.size groups) groups), ?_, ?_⟩, ?_⟩
      · rw [held, List.getElem?_map, hentry, Option.map_some]
      · rw [Accepted.regroup, hgroup]
        exact if_pos hkept
      · exact (size_groups_resize matcher groups).symm ▸ hkeeps
  | clear => exact hkeeps.elim
  | shrink => exact h

theorem Housed.performAll [Verifier P] {g id : Nat} (h : Housed matcher entries g id)
    {operations : List (Operation P)} (hkeeps : ∀ operation ∈ operations, operation.Keeps g) :
    Housed (operations.foldl Matcher.perform matcher) (matcher.heldAll entries operations) g
      id := by
  induction operations generalizing matcher entries with
  | nil => exact h
  | cons operation operations ih =>
      exact ih (h.perform (hkeeps operation (by simp))) fun later hlater =>
        hkeeps later (by simp [hlater])

theorem lt_size_of_group {g : Nat} {automaton : GroupAutomaton}
    (h : matcher.group g = .ok automaton) : g < matcher.groups.size :=
  (Array.getElem?_eq_some_iff.mp (getElem?_groups_of_group h)).1

theorem Enters.housed {call : BuildCall P} {g : Nat} {automaton : GroupAutomaton}
    {source : String} {payload : P} {branches : List KeywordBranch}
    (h : Enters matcher call g automaton source payload branches) (entries : List Accepted) :
    Housed (matcher.build call) (entries ++ matcher.accepted call) g entries.length := by
  refine ⟨⟨⟨g, branches⟩, ?_, rfl⟩, ?_⟩
  · rw [h.accepted_eq]
    exact List.getElem?_concat_length
  · rw [size_groups_build]
    exact lt_size_of_group h.group_eq

theorem Indexed.housed_of_adds [Verifier P] (h : matcher.Indexed matcher.config entries)
    {g id : Nat} {operation : Operation P} (hadds : matcher.Adds g id operation) :
    Housed (matcher.perform operation) (matcher.held entries operation) g id := by
  match operation with
  | .call (.build (.addPattern g' pattern payload)) =>
      obtain ⟨rfl, hid⟩ := hadds
      obtain ⟨rfl, automaton, branches, henters⟩ := h.enters_addPattern hid
      exact henters.housed entries
  | .call (.build (.addKeyword g' keyword payload)) =>
      obtain ⟨rfl, hid⟩ := hadds
      obtain ⟨rfl, automaton, henters⟩ := h.enters_addKeyword hid
      exact henters.housed entries

theorem Resident.housed [Verifier P] {operations : List (Operation P)} {g id : Nat}
    (h : Resident config operations g id) :
    Housed (performed config operations) (stored config operations) g id := by
  obtain ⟨before, operation, after, rfl, hadds, hkeeps⟩ := h
  rw [performed, stored, heldAll_append, List.foldl_append]
  exact ((indexed_performed config before).housed_of_adds hadds).performAll hkeeps

end Matcher

end LiteralSieve
