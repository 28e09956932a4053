import LiteralSieve.Proofs.Matcher.Candidates

namespace LiteralSieve

/-!
# A pattern among others

The branches of a pattern are stored one after another. Other patterns give them other numbers and
bring more keys into the automaton of their group. But the keys of the pattern are found where the
text has them, and each of them lists the frames of the pattern as if it were alone.
-/

open Automaton

/-! ## Labels of one pattern -/

/-- The label of a literal in a matcher, from its label in a matcher of its pattern alone. -/
def Label.lodge (g id base : Nat) (label : Label) : Label :=
  ⟨g, id, base + label.piece, label.position, label.literal⟩

def ownLabels (branches : List KeywordBranch) : List Label := allLabels (branches.map (⟨0, 0, ·⟩))

theorem labels_lodge (g id base piece : Nat) (literals : KeywordBranch) :
    (⟨g, id, literals⟩ : StoredBranch).labels (base + piece) =
      ((⟨0, 0, literals⟩ : StoredBranch).labels piece).map (.lodge g id base) := by
  rw [StoredBranch.labels, StoredBranch.labels, List.map_map]
  rfl

theorem allLabels_append_own (before : List StoredBranch) (g id : Nat)
    (branches : List KeywordBranch) :
    allLabels (before ++ branches.map (⟨g, id, ·⟩)) =
      allLabels before ++ (ownLabels branches).map (.lodge g id before.length) := by
  induction branches using List.reverseRecOn with
  | nil => simp [ownLabels, allLabels]
  | append_singleton branches literals ih =>
      have hlast := labels_lodge g id before.length branches.length literals
      simp only [ownLabels, List.map_append, List.map_cons, List.map_nil, ← List.append_assoc,
        allLabels_concat, List.length_append, List.length_map] at ih ⊢
      rw [ih, hlast, List.append_assoc]

theorem exists_allLabels_append (branches more : List StoredBranch) :
    ∃ labels, allLabels (branches ++ more) = allLabels branches ++ labels ∧
      ∀ label ∈ labels, ∃ branch ∈ more, label.pattern = branch.pattern := by
  induction more using List.reverseRecOn with
  | nil => exact ⟨[], by simp, by simp⟩
  | append_singleton more branch ih =>
      obtain ⟨labels, hlabels, hpatterns⟩ := ih
      refine ⟨labels ++ branch.labels (branches ++ more).length, ?_, fun label hlabel => ?_⟩
      · rw [← List.append_assoc, allLabels_concat, hlabels, List.append_assoc]
      · rcases List.mem_append.mp hlabel with hold | hnew
        · obtain ⟨other, hother, heq⟩ := hpatterns label hold
          exact ⟨other, List.mem_append_left _ hother, heq⟩
        · exact ⟨branch, by simp, (mem_labels_iff.mp hnew).2.1⟩

/-- Among all branches those of a pattern stand together, from a number on. -/
structure Lodging (g id base : Nat) (branches : List KeywordBranch)
    (stored : List StoredBranch) : Prop where
  exists_split : ∃ before after, stored = before ++ branches.map (⟨g, id, ·⟩) ++ after ∧
    before.length = base ∧ (∀ branch ∈ before, branch.pattern ≠ id) ∧
      ∀ branch ∈ after, branch.pattern ≠ id

theorem lodging_storedBranches (front : List Accepted) (entry : Accepted) (back : List Accepted) :
    Lodging entry.group front.length (storedBranches front).length entry.branches
      (storedBranches (front ++ entry :: back)) where
  exists_split := by
    suffices h : ∃ after, storedBranches (front ++ entry :: back) = storedBranches front ++
        entry.branches.map (⟨entry.group, front.length, ·⟩) ++ after ∧
          ∀ branch ∈ after, branch.pattern ≠ front.length by
      obtain ⟨after, hsplit, hafter⟩ := h
      refine ⟨storedBranches front, after, hsplit, rfl, fun branch hbranch => ?_, hafter⟩
      obtain ⟨found, hfound, -⟩ := Matcher.mem_storedBranches_iff.mp hbranch
      exact (List.getElem?_eq_some_iff.mp hfound).1.ne
    induction back using List.reverseRecOn with
    | nil => exact ⟨[], by rw [storedBranches_concat, List.append_nil], by simp⟩
    | append_singleton back last ih =>
        obtain ⟨after, hsplit, hafter⟩ := ih
        refine ⟨after ++ last.branches.map (⟨last.group, (front ++ entry :: back).length, ·⟩),
          ?_, fun branch hbranch => ?_⟩
        · rw [← List.cons_append, ← List.append_assoc, storedBranches_concat, hsplit,
            List.append_assoc _ after]
        · rcases List.mem_append.mp hbranch with hold | hnew
          · exact hafter branch hold
          · obtain ⟨literals, -, rfl⟩ := List.mem_map.mp hnew
            simp

namespace Lodging

variable {g id base : Nat} {branches : List KeywordBranch} {stored : List StoredBranch}

theorem getElem? (h : Lodging g id base branches stored) {k : Nat} {literals : KeywordBranch}
    (hk : branches[k]? = some literals) : stored[base + k]? = some ⟨g, id, literals⟩ := by
  obtain ⟨before, after, rfl, rfl, -, -⟩ := h.exists_split
  have hlt := (List.getElem?_eq_some_iff.mp hk).1
  rw [List.append_assoc, List.getElem?_append_right (Nat.le_add_right _ _),
    Nat.add_sub_cancel_left, List.getElem?_append_left (by rwa [List.length_map]),
    List.getElem?_map, hk]
  rfl

theorem exists_of_pattern_eq (h : Lodging g id base branches stored) {p : Nat}
    {branch : StoredBranch} (hp : stored[p]? = some branch) (hpattern : branch.pattern = id) :
    ∃ k literals, p = base + k ∧ branches[k]? = some literals ∧ branch = ⟨g, id, literals⟩ := by
  obtain ⟨before, after, rfl, rfl, hbefore, hafter⟩ := h.exists_split
  rw [List.append_assoc] at hp
  by_cases hlt : p < before.length
  · rw [List.getElem?_append_left hlt] at hp
    exact (hbefore branch (List.mem_of_getElem? hp) hpattern).elim
  · obtain ⟨k, rfl⟩ := Nat.exists_eq_add_of_le (Nat.not_lt.mp hlt)
    rw [List.getElem?_append_right (Nat.le_add_right _ _), Nat.add_sub_cancel_left] at hp
    by_cases hk : k < branches.length
    · rw [List.getElem?_append_left (by rwa [List.length_map]), List.getElem?_map] at hp
      obtain ⟨literals, hliterals, heq⟩ := Option.map_eq_some_iff.mp hp
      exact ⟨k, literals, rfl, hliterals, heq.symm⟩
    · rw [List.getElem?_append_right (by simpa using hk)] at hp
      exact (hafter branch (List.mem_of_getElem? hp) hpattern).elim

theorem exists_labels (h : Lodging g id base branches stored) :
    ∃ front back, allLabels stored = front ++ (ownLabels branches).map (.lodge g id base) ++ back ∧
      (∀ label ∈ front, label.pattern ≠ id) ∧ ∀ label ∈ back, label.pattern ≠ id := by
  obtain ⟨before, after, rfl, rfl, hbefore, hafter⟩ := h.exists_split
  obtain ⟨back, hback, hpatterns⟩ :=
    exists_allLabels_append (before ++ branches.map (⟨g, id, ·⟩)) after
  rw [allLabels_append_own] at hback
  refine ⟨allLabels before, back, hback, fun label hlabel => ?_, fun label hlabel => ?_⟩
  · obtain ⟨branch, hbranch, -, hpattern, -⟩ := mem_allLabels_iff.mp hlabel
    rw [hpattern]
    exact hbefore branch (List.mem_of_getElem? hbranch)
  · obtain ⟨branch, hbranch, hpattern⟩ := hpatterns label hlabel
    rw [hpattern]
    exact hafter branch hbranch

end Lodging

/-! ## Frames of one pattern -/

/-- Where a folded key stands in the branches of a pattern, in the order of the frames. -/
def placesOf (config : AutomatonConfig) (branches : List KeywordBranch) (folded : Bytes) :
    List (Nat × Nat) :=
  ((ownLabels branches).filter fun label => label.literal.map config.fold = folded).map Label.place

/-- The branch, by its place in the pattern, and the position of a label of the pattern. -/
def Label.placeIn (id base : Nat) (label : Label) : Option (Nat × Nat) :=
  if label.pattern = id then some (label.piece - base, label.position) else none

theorem filterMap_zipIdx_filter {α β : Type*} (xs : List α) (p : α → Prop) [DecidablePred p]
    (f : α → Option β) :
    (xs.zipIdx.filter fun x => p x.1).filterMap (fun x => f x.1) =
      (xs.filter fun a => p a).filterMap f := by
  conv_rhs => rw [← List.zipIdx_map_fst 0 xs]
  rw [List.filter_map, List.filterMap_map]
  rfl

theorem filterMap_placeIn_eq_nil {id : Nat} {labels : List Label}
    (h : ∀ label ∈ labels, label.pattern ≠ id) (base : Nat) (p : Label → Bool) :
    (labels.filter p).filterMap (Label.placeIn id base) = [] := by
  refine List.filterMap_eq_nil_iff.mpr fun label hlabel => ?_
  exact if_neg (h label (List.mem_of_mem_filter hlabel))

/-- Of the frames that wait for a key, those of the pattern are the same as in a matcher of its own,
if they are of the group at all. -/
theorem Lodging.filterMap_waiting {g id base : Nat} {branches : List KeywordBranch}
    {stored : List StoredBranch} (h : Lodging g id base branches stored)
    (config : AutomatonConfig) (g' : Nat) (folded : Bytes) :
    (waiting config (allLabels stored) g' folded).filterMap (fun x => x.1.placeIn id base) =
      if g = g' then placesOf config branches folded else [] := by
  obtain ⟨front, back, hlabels, hfront, hback⟩ := h.exists_labels
  rw [waiting, filterMap_zipIdx_filter _
    (fun label : Label => label.group = g' ∧ label.literal.map config.fold = folded), hlabels,
    List.filter_append, List.filter_append, List.filterMap_append, List.filterMap_append,
    filterMap_placeIn_eq_nil hfront, filterMap_placeIn_eq_nil hback, List.nil_append,
    List.append_nil, List.filter_map, List.filterMap_map]
  have hplace : Label.placeIn id base ∘ Label.lodge g id base = fun label => some label.place := by
    funext label
    simp [Label.placeIn, Label.lodge, Label.place]
  rw [hplace, List.filterMap_eq_map']
  split_ifs with hg
  · subst hg
    simp only [Function.comp_def, Label.lodge, true_and]
    rfl
  · simp [Label.lodge, hg, Function.comp_def]

/-! ## Keys of one pattern in a text -/

/-- An occurrence of a folded key: the number of letters up to its end, and its raw offsets. -/
structure KeySpan where
  folded : Bytes
  count : Nat
  offset : Nat
  stop : Nat
deriving DecidableEq

/-- A literal of a pattern that was seen, by the place of its branch in the pattern. -/
structure Sighting where
  branch : Nat
  position : Nat
  offset : Nat
  stop : Nat

namespace KeySpan

def Before (a b : KeySpan) : Prop := Precedes (a.folded, a.count) (b.folded, b.count)

theorem Before.asymm {a b : KeySpan} (hab : a.Before b) (hba : b.Before a) : False :=
  (Precedes.trans hab hba).ne rfl

/-- The text has the key there, between letters that are no part of a word if this is asked for. -/
structure InText (config : MatcherConfig) (letters : List Letter) (span : KeySpan) : Prop where
  exists_split : ∃ front back, letters = front ++ back ∧ span.count = front.length ∧
    span.folded.reverse <+: front.reverse.map (fun l => config.automatonConfig.fold l.byte) ∧
    (config.wholeWord = true → touchesWord front.reverse[span.folded.length]? = false ∧
      touchesWord back.head? = false) ∧
    front.reverse[span.folded.length - 1]?.map (·.start) = some span.offset ∧
    front.reverse.head?.map (·.stop) = some span.stop

/-- Some literal of the pattern has the key. -/
def isOwn (config : AutomatonConfig) (branches : List KeywordBranch) (span : KeySpan) : Bool :=
  placesOf config branches span.folded ≠ []

/-- The literals of the pattern that have this key, in the order in which a scan shows them. -/
def sightings (config : AutomatonConfig) (branches : List KeywordBranch) (span : KeySpan) :
    List Sighting :=
  (placesOf config branches span.folded).map fun place =>
    ⟨place.1, place.2, span.offset, span.stop⟩

end KeySpan

/-- The occurrences of the keys of a pattern in a text, in the order of a scan. -/
structure Spans (config : MatcherConfig) (branches : List KeywordBranch) (letters : List Letter)
    (spans : List KeySpan) : Prop where
  ordered : spans.Pairwise KeySpan.Before
  mem_iff : ∀ span, span ∈ spans ↔
    placesOf config.automatonConfig branches span.folded ≠ [] ∧ span.InText config letters

theorem Spans.unique {config : MatcherConfig} {branches : List KeywordBranch}
    {letters : List Letter} {spans others : List KeySpan} (h : Spans config branches letters spans)
    (h' : Spans config branches letters others) : spans = others := by
  have hperm : spans.Perm others := by
    refine (List.perm_ext_iff_of_nodup ?_ ?_).mpr fun span =>
      (h.mem_iff span).trans (h'.mem_iff span).symm
    · exact h.ordered.imp fun hab heq => (heq ▸ hab).asymm (heq ▸ hab)
    · exact h'.ordered.imp fun hab heq => (heq ▸ hab).asymm (heq ▸ hab)
  exact hperm.eq_of_pairwise (fun _ _ _ _ hab hba => (hab.asymm hba).elim) h.ordered h'.ordered

theorem flatMap_filter_ne_nil {α β : Type*} (xs : List α) (f : α → List β) (p : α → Bool)
    (h : ∀ x ∈ xs, p x = false → f x = []) : (xs.filter p).flatMap f = xs.flatMap f := by
  induction xs with
  | nil => rfl
  | cons x xs ih =>
      have hrest := ih fun y hy => h y (List.mem_cons_of_mem _ hy)
      cases hp : p x with
      | true => rw [List.filter_cons_of_pos hp, List.flatMap_cons, List.flatMap_cons, hrest]
      | false =>
          rw [List.filter_cons_of_neg (by simp [hp]), List.flatMap_cons, hrest,
            h x List.mem_cons_self hp, List.nil_append]

namespace Matcher

variable {P : Type} {config : MatcherConfig} {entries : List Accepted} {matcher : Matcher P}
  {g id base : Nat} {branches : List KeywordBranch} {automaton : GroupAutomaton}

/-- What an event shows to a pattern whose pieces are numbered from a base on. -/
def sighting? (matcher : Matcher P) (id base : Nat) (event : Event) : Option Sighting :=
  (matcher.frames.get? event.2).bind fun frame =>
    (matcher.pieces.get? frame.piece).bind fun piece =>
      if piece.pattern = id then
        some ⟨frame.piece - base, frame.position, event.1.offset, event.1.stop⟩
      else none

theorem Indexed.sighting?_eq (hindexed : matcher.Indexed config entries) {f : Nat} {label : Label}
    (hlabel : (allLabels (storedBranches entries))[f]? = some label)
    (hit : Hit (List FrameId)) :
    matcher.sighting? id base (hit, f) = (label.placeIn id base).map fun place =>
      ⟨place.1, place.2, hit.offset, hit.stop⟩ := by
  obtain ⟨frame, hframe, hpiece, hposition⟩ := hindexed.get?_frame hlabel
  obtain ⟨branch, hbranch, -, hpattern, -⟩ := mem_allLabels_iff.mp (List.mem_of_getElem? hlabel)
  simp only [sighting?, hframe, Option.bind_some, hpiece, hposition,
    hindexed.get?_piece_of_branch hbranch, StoredBranch.piece, Label.placeIn, ← hpattern]
  split_ifs <;> rfl

def spanOf (automaton : GroupAutomaton) (found : Located (List FrameId)) : KeySpan :=
  ⟨automaton.foldKey found.2.terminal.key, found.1, found.2.offset, found.2.stop⟩

theorem Indexed.sightings_of_hit (hindexed : matcher.Indexed config entries)
    (hlodging : Lodging g id base branches (storedBranches entries)) {g' : Nat}
    (h : Stores config.automatonConfig (groupTable config entries g') automaton)
    {found : Located (List FrameId)}
    (hget : automaton.terminals.get? found.2.id = some found.2.terminal) :
    (found.2.terminal.value.map fun f => (found.2, f)).filterMap (matcher.sighting? id base) =
      if g = g' then (spanOf automaton found).sightings config.automatonConfig branches
      else [] := by
  have hwaiting := hlodging.filterMap_waiting config.automatonConfig g'
    (automaton.foldKey found.2.terminal.key)
  rw [value_of_stored h hget, List.map_map, List.filterMap_map]
  have hsame : ∀ x ∈ waiting config.automatonConfig (allLabels (storedBranches entries)) g'
      (automaton.foldKey found.2.terminal.key),
      (matcher.sighting? id base ∘ (fun f => (found.2, f)) ∘ Prod.snd) x =
        (x.1.placeIn id base).map fun place =>
          ⟨place.1, place.2, found.2.offset, found.2.stop⟩ := by
    intro x hx
    have hmem : x ∈ (allLabels (storedBranches entries)).zipIdx := List.mem_of_mem_filter hx
    exact hindexed.sighting?_eq (List.mem_zipIdx_iff_getElem?.mp hmem) found.2
  rw [List.filterMap_congr hsame, ← List.map_filterMap, hwaiting]
  split_ifs <;> rfl

theorem Indexed.sightings_of_hits (hindexed : matcher.Indexed config entries)
    (hlodging : Lodging g id base branches (storedBranches entries)) {g' : Nat}
    (h : Stores config.automatonConfig (groupTable config entries g') automaton)
    {located : List (Located (List FrameId))}
    (hstored : ∀ x ∈ located, automaton.terminals.get? x.2.id = some x.2.terminal) :
    (eventsOf (located.map Prod.snd)).filterMap (matcher.sighting? id base) =
      if g = g' then
        (located.map (spanOf automaton)).flatMap (·.sightings config.automatonConfig branches)
      else [] := by
  induction located with
  | nil => split_ifs <;> rfl
  | cons found located ih =>
      have hfirst := hindexed.sightings_of_hit hlodging h (hstored found List.mem_cons_self)
      have hrest := ih fun x hx => hstored x (List.mem_cons_of_mem _ hx)
      rw [List.map_cons, eventsOf_cons, List.filterMap_append, hfirst, hrest, List.map_cons,
        List.flatMap_cons]
      split_ifs <;> rfl

theorem wholeWord_of_stored
    (h : Stores config.automatonConfig (groupTable config entries g) automaton) {id : Nat}
    {terminal : Terminal (List FrameId)} (hget : automaton.terminals.get? id = some terminal) :
    terminal.wholeWord = config.wholeWord := by
  refine wholeWord_of_entryAt? (fun a ha => ?_) (h.entry_eq hget)
  obtain ⟨x, -, rfl⟩ := List.mem_map.mp ha
  rfl

/-- A key is found where the text has it, whatever else is stored. -/
theorem found_iff_inText
    (h : Stores config.automatonConfig (groupTable config entries g) automaton)
    (letters : List Letter) {found : Located (List FrameId)}
    (hget : automaton.terminals.get? found.2.id = some found.2.terminal) :
    (∃ front back, letters = front ++ back ∧ found.1 = front.length ∧
      automaton.Found front.reverse back.head? found.2) ↔
        (spanOf automaton found).InText config letters := by
  have hlength : (automaton.foldKey found.2.terminal.key).length = found.2.terminal.key.length :=
    List.length_map _
  have hfold : automaton.fold = config.automatonConfig.fold := by
    funext b
    rw [← h.config_eq]
    rfl
  constructor
  · rintro ⟨front, back, hsplit, hcount, hfound⟩
    refine ⟨front, back, hsplit, hcount, ?_, fun hwhole => ?_, ?_, hfound.stop_eq⟩
    · rw [← hfold]
      exact hfound.ends
    · rw [spanOf, hlength]
      exact hfound.limits ((wholeWord_of_stored h hget).trans hwhole)
    · rw [spanOf, hlength]
      exact hfound.offset_eq
  · rintro ⟨front, back, hsplit, hcount, hends, hlimits, hoffset, hstop⟩
    refine ⟨front, back, hsplit, hcount, hget, ?_, fun hwhole => ?_, ?_, hstop⟩
    · rw [← hfold] at hends
      exact hends
    · rw [← hlength]
      exact hlimits ((wholeWord_of_stored h hget).symm.trans hwhole)
    · rw [← hlength]
      exact hoffset

theorem exists_entry_of_places (hlodging : Lodging g id base branches (storedBranches entries))
    {folded : Bytes} (hplaces : placesOf config.automatonConfig branches folded ≠ []) :
    ∃ entry, entryAt? config.automatonConfig (groupTable config entries g) folded =
      some entry := by
  obtain ⟨place, hplace⟩ := List.exists_mem_of_ne_nil _ hplaces
  obtain ⟨label, hlabel, -⟩ := List.mem_map.mp hplace
  obtain ⟨hmem, hfold⟩ := List.mem_filter.mp hlabel
  obtain ⟨branch, hbranch, -, -, hliteral⟩ := mem_allLabels_iff.mp hmem
  rw [List.getElem?_map] at hbranch
  obtain ⟨literals, hliterals, rfl⟩ := Option.map_eq_some_iff.mp hbranch
  rw [← of_decide_eq_true hfold]
  exact stored_of_branch (hlodging.getElem? hliterals) rfl label.literal
    (List.mem_of_getElem? hliteral)

theorem exists_located
    (h : Stores config.automatonConfig (groupTable config entries g) automaton)
    (hcompiled : automaton.compiled = true) (text : Bytes) (mode : EscapeMode) :
    ∃ located : List (Located (List FrameId)),
      events automaton text mode = eventsOf (located.map Prod.snd) ∧
      (∀ x ∈ located, automaton.terminals.get? x.2.id = some x.2.terminal) ∧
      (located.map (spanOf automaton)).Pairwise KeySpan.Before ∧
      ∀ x, automaton.terminals.get? x.2.id = some x.2.terminal →
        (x ∈ located ↔ (spanOf automaton x).InText config (mode.letters text)) := by
  obtain ⟨located, hall, hbefore, hmem⟩ := h.findAll_spec hcompiled text mode
  refine ⟨located, ?_, fun x hx => ?_, ?_, fun x hget => ?_⟩
  · rw [events, hall]
    rfl
  · obtain ⟨_, _, -, -, hfound⟩ := (hmem x.1 x.2).mp hx
    exact hfound.stored
  · have hpairs : (located.map automaton.occurrence).Pairwise Precedes :=
      pairwise_occurrence hbefore
    exact List.pairwise_map.mpr ((List.pairwise_map.mp hpairs).imp id)
  · exact (hmem x.1 x.2).trans (found_iff_inText h _ hget)

/-- A scan of the group shows the pattern what the text has of its keys. -/
theorem Indexed.exists_spans (hindexed : matcher.Indexed config entries)
    (hlodging : Lodging g id base branches (storedBranches entries))
    (hgroup : matcher.groups[g]? = some automaton) (hcompiled : automaton.compiled = true)
    (text : Bytes) (mode : EscapeMode) :
    ∃ spans, Spans config branches (mode.letters text) spans ∧
      (events automaton text mode).filterMap (matcher.sighting? id base) =
        spans.flatMap (·.sightings config.automatonConfig branches) := by
  have h := (hindexed.built hgroup).stores
  obtain ⟨located, hevents, hstored, hordered, hmem⟩ := exists_located h hcompiled text mode
  refine ⟨(located.map (spanOf automaton)).filter (·.isOwn config.automatonConfig branches),
    ⟨hordered.filter _, fun span => ?_⟩, ?_⟩
  · rw [List.mem_filter, KeySpan.isOwn, decide_eq_true_eq, and_comm]
    refine and_congr_right fun hplaces => ?_
    constructor
    · intro hspan
      obtain ⟨found, hfound, rfl⟩ := List.mem_map.mp hspan
      exact (hmem found (hstored found hfound)).mp hfound
    · intro hspan
      obtain ⟨entry, hentry⟩ := exists_entry_of_places hlodging hplaces
      obtain ⟨i, terminal, hget, hkey, -⟩ := h.exists_terminal_key hentry
      let found : Located (List FrameId) := (span.count, ⟨span.offset, span.stop, i, terminal⟩)
      have hsame : spanOf automaton found = span := by
        rw [spanOf, hkey]
      rw [← hsame] at hspan
      exact List.mem_map.mpr ⟨found, (hmem found hget).mpr hspan, hsame⟩
  · -- Keys of other patterns are shown too, but the pattern does not see them.
    rw [hevents, hindexed.sightings_of_hits hlodging h hstored, if_pos rfl, flatMap_filter_ne_nil]
    intro span _ hnone
    have hnil : placesOf config.automatonConfig branches span.folded = [] := by
      simpa [KeySpan.isOwn] using hnone
    rw [KeySpan.sightings, hnil]
    rfl

theorem Indexed.sightings_of_other (hindexed : matcher.Indexed config entries)
    (hlodging : Lodging g id base branches (storedBranches entries)) {g' : Nat} (hne : g ≠ g')
    (hgroup : matcher.groups[g']? = some automaton) (hcompiled : automaton.compiled = true)
    (text : Bytes) (mode : EscapeMode) :
    (events automaton text mode).filterMap (matcher.sighting? id base) = [] := by
  have h := (hindexed.built hgroup).stores
  obtain ⟨located, hevents, hstored, -⟩ := exists_located h hcompiled text mode
  rw [hevents, hindexed.sightings_of_hits hlodging h hstored, if_neg hne]

end Matcher

end LiteralSieve
