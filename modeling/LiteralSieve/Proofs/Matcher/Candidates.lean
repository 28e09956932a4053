import LiteralSieve.Proofs.Matcher.Chains
import LiteralSieve.Proofs.Matcher.Settling
import LiteralSieve.Proofs.Matcher.Waiting

namespace LiteralSieve

/-!
# Candidates

A pattern is a candidate in a text exactly if one of its branches is chained there, and every
chained branch is reported once, with the first place where it is complete.
-/

open Automaton
open scoped List

namespace Matcher

variable {P : Type} {config : MatcherConfig} {entries : List Accepted} {matcher : Matcher P}

/-! ## Pieces and frames of a stored pattern -/

theorem mem_storedBranches_iff {branch : StoredBranch} :
    branch ∈ storedBranches entries ↔ ∃ entry, entries[branch.pattern]? = some entry ∧
      branch.group = entry.group ∧ branch.literals ∈ entry.branches := by
  simp only [storedBranches, List.mem_flatMap, List.mem_map, Prod.exists,
    List.mem_zipIdx_iff_getElem?]
  constructor
  · rintro ⟨entry, id, hget, literals, hliterals, rfl⟩
    exact ⟨entry, hget, rfl, hliterals⟩
  · rintro ⟨entry, hget, hgroup, hliterals⟩
    exact ⟨entry, branch.pattern, hget, branch.literals, hliterals, by rw [← hgroup]⟩

theorem Indexed.get?_piece (h : matcher.Indexed config entries) (p : Nat) :
    matcher.pieces.get? p = (storedBranches entries)[p]?.map StoredBranch.piece := by
  rw [← Pool.getElem?_toList, h.pieces_eq, List.getElem?_map]

theorem Indexed.get?_piece_of_branch (h : matcher.Indexed config entries) {p : Nat}
    {branch : StoredBranch} (hbranch : (storedBranches entries)[p]? = some branch) :
    matcher.pieces.get? p = some branch.piece := by
  rw [h.get?_piece, hbranch]
  rfl

theorem Indexed.closed (h : matcher.Indexed config entries) : matcher.Closed := by
  intro p piece hpiece
  rw [h.get?_piece] at hpiece
  obtain ⟨branch, hbranch, rfl⟩ := Option.map_eq_some_iff.mp hpiece
  obtain ⟨entry, hentry, -⟩ := mem_storedBranches_iff.mp (List.mem_of_getElem? hbranch)
  have hlt : branch.pattern < matcher.patterns.size := by
    rw [h.patterns_size]
    exact (List.getElem?_eq_some_iff.mp hentry).1
  cases hget : matcher.patterns.get? branch.pattern with
  | none => exact (Nat.not_le.mpr hlt (Pool.get?_eq_none_iff.mp hget)).elim
  | some found => exact ⟨found, hget⟩

theorem Indexed.get?_frame (h : matcher.Indexed config entries) {id : Nat} {label : Label}
    (hlabel : (allLabels (storedBranches entries))[id]? = some label) :
    ∃ frame, matcher.frames.get? id = some frame ∧ frame.piece = label.piece ∧
      frame.position = label.position := by
  have hplaces := congrArg (·[id]?) h.frames_eq
  simp only [List.getElem?_map, hlabel, Option.map_some, Pool.getElem?_toList] at hplaces
  obtain ⟨frame, hframe, hplace⟩ := Option.map_eq_some_iff.mp hplaces
  obtain ⟨hpiece, hposition⟩ := Prod.mk.inj hplace
  exact ⟨frame, hframe, hpiece, hposition⟩

/-! ## The places of a key in a piece -/

/-- The positions of a piece whose literals have this fold, in the order of their frames. -/
def positions (config : AutomatonConfig) (labels : List Label) (g : Nat) (folded : Bytes)
    (p : PieceId) : List Nat :=
  (waiting config labels g folded).filterMap fun x =>
    if x.1.piece = p then some x.1.position else none

theorem positions_pairwise (config : AutomatonConfig) (branches : List StoredBranch) (g : Nat)
    (folded : Bytes) (p : PieceId) :
    (positions config (allLabels branches) g folded p).Pairwise (· > ·) := by
  rw [positions, List.pairwise_filterMap]
  have hlabels : (allLabels branches).zipIdx.Pairwise fun a b =>
      a.1.piece = b.1.piece → b.1.position < a.1.position := by
    have hmap := allLabels_pairwise branches
    rw [← List.zipIdx_map_fst 0 (allLabels branches)] at hmap
    exact List.pairwise_map.mp hmap
  refine (hlabels.filter _).imp ?_
  intro a b hlt i hi j hj
  split_ifs at hi hj with ha hb
  obtain rfl := Option.some.inj hi
  obtain rfl := Option.some.inj hj
  exact hlt (ha.trans hb.symm)

theorem mem_positions_iff (config : AutomatonConfig) {branches : List StoredBranch} {p : Nat}
    {branch : StoredBranch} (hbranch : branches[p]? = some branch) (g : Nat) (folded : Bytes)
    (j : Nat) :
    j ∈ positions config (allLabels branches) g folded p ↔
      branch.group = g ∧ (branch.folded config)[j]? = some folded := by
  simp only [positions, waiting, StoredBranch.folded, List.mem_filterMap, List.mem_filter, decide_eq_true_eq,
    List.getElem?_map, Option.map_eq_some_iff, Prod.exists]
  constructor
  · rintro ⟨label, id, ⟨hmem, hgroup, hfold⟩, hposition⟩
    have hlabel : label ∈ allLabels branches := List.fst_mem_of_mem_zipIdx hmem
    split_ifs at hposition with hpiece
    obtain rfl := Option.some.inj hposition
    obtain ⟨branch', hbranch', hgroup', -, hliteral⟩ := mem_allLabels_iff.mp hlabel
    rw [hpiece, hbranch] at hbranch'
    obtain rfl := Option.some.inj hbranch'
    exact ⟨hgroup'.symm.trans hgroup, label.literal, hliteral, hfold⟩
  · rintro ⟨rfl, literal, hliteral, hfold⟩
    let label : Label := ⟨branch.group, branch.pattern, p, j, literal⟩
    have hmem : label ∈ allLabels branches :=
      mem_allLabels_iff.mpr ⟨branch, hbranch, rfl, rfl, hliteral⟩
    obtain ⟨id, hid⟩ := List.getElem?_of_mem hmem
    exact ⟨label, id, ⟨List.mem_zipIdx_iff_getElem?.mpr hid, rfl, hfold⟩, if_pos rfl⟩

/-! ## One piece in a scan -/

def eventsOf (hits : List (Hit (List FrameId))) : List Event :=
  hits.flatMap fun hit => hit.terminal.value.map fun id => (hit, id)

def keyAt (automaton : GroupAutomaton) (hit : Hit (List FrameId)) : Bytes × Nat :=
  (automaton.foldKey hit.terminal.key, hit.offset)

/-- The additions that the group of an indexed matcher made. -/
abbrev groupTable (config : MatcherConfig) (entries : List Accepted) (g : Nat) :
    List (Addition (List FrameId)) :=
  groupAdditions config.wholeWord (allLabels (storedBranches entries)) g

section Group

variable {g : Nat} {automaton : GroupAutomaton}

theorem value_of_stored (h : Stores config.automatonConfig (groupTable config entries g) automaton)
    {id : Nat} {terminal : Terminal (List FrameId)}
    (hget : automaton.terminals.get? id = some terminal) :
    terminal.value = (waiting config.automatonConfig (allLabels (storedBranches entries)) g
      (automaton.foldKey terminal.key)).map Prod.snd := by
  have hvalue := value_entryAt? config.automatonConfig config.wholeWord
    (allLabels (storedBranches entries)) g (automaton.foldKey terminal.key)
  have hentry := h.entry_eq hget
  rw [h.word_state hget, List.reverse_reverse] at hentry
  rw [hentry] at hvalue
  exact hvalue

/-- The frames of a piece that a hit is shown to, with the offset of the hit. -/
theorem places_of_hit (hindexed : matcher.Indexed config entries)
    (h : Stores config.automatonConfig (groupTable config entries g) automaton)
    {hit : Hit (List FrameId)} (hget : automaton.terminals.get? hit.id = some hit.terminal)
    (p : PieceId) :
    (hit.terminal.value.map fun id => (hit, id)).filterMap (matcher.placeAt p) =
      (positions config.automatonConfig (allLabels (storedBranches entries)) g
        (automaton.foldKey hit.terminal.key) p).map (·, hit.offset) := by
  rw [value_of_stored h hget, List.map_map, List.filterMap_map, positions, List.map_filterMap]
  refine List.filterMap_congr fun x hx => ?_
  have hmem : x ∈ (allLabels (storedBranches entries)).zipIdx := List.mem_of_mem_filter hx
  obtain ⟨frame, hframe, hpiece, hposition⟩ :=
    hindexed.get?_frame (List.mem_zipIdx_iff_getElem?.mp hmem)
  simp only [Function.comp_apply, placeAt, hframe, Option.bind_some, hpiece, hposition]
  split_ifs <;> rfl

/-- A piece of the group advances with every hit, and a piece of another group never does. -/
theorem settleAll_eventsOf (hindexed : matcher.Indexed config entries)
    (h : Stores config.automatonConfig (groupTable config entries g) automaton)
    {p : Nat} {branch : StoredBranch} (hbranch : (storedBranches entries)[p]? = some branch)
    (all : PieceId → Progress) (hits : List (Hit (List FrameId)))
    (hhits : ∀ hit ∈ hits, automaton.terminals.get? hit.id = some hit.terminal) :
    matcher.settleAll all (eventsOf hits) p =
      if branch.group = g then
        (hits.map (keyAt automaton)).foldl
          (Progress.advance (branch.folded config.automatonConfig)) (all p)
      else all p := by
  have hpiece := hindexed.get?_piece_of_branch hbranch
  induction hits generalizing all with
  | nil => simp [eventsOf, settleAll]
  | cons hit hits ih =>
      rw [eventsOf, List.flatMap_cons, ← eventsOf, settleAll_append,
        ih _ fun other hother => hhits other (by simp [hother]),
        settleAll_apply hindexed.closed hpiece,
        places_of_hit hindexed h (hhits hit (by simp))]
      have hmem := mem_positions_iff config.automatonConfig hbranch g
        (automaton.foldKey hit.terminal.key)
      -- The key has places in the piece only if the piece is in this group.
      split_ifs with hgroup
      · have hsize : branch.piece.size =
            (branch.folded config.automatonConfig).length :=
          (List.length_map _).symm
        rw [hsize, Progress.foldl_step_eq_advance (positions_pairwise _ _ _ _ _)
          fun j => (hmem j).trans (and_iff_right hgroup)]
        rfl
      · rw [Progress.foldl_step_of_not_mem]
        rw [hmem]
        exact fun hand => hgroup hand.1

theorem seen_eventsOf (hindexed : matcher.Indexed config entries)
    (h : Stores config.automatonConfig (groupTable config entries g) automaton)
    {p : Nat} {branch : StoredBranch} (hbranch : (storedBranches entries)[p]? = some branch)
    (hgroup : branch.group = g) {hits : List (Hit (List FrameId))}
    (hhits : ∀ hit ∈ hits, automaton.terminals.get? hit.id = some hit.terminal) :
    Progress.Seen (branch.folded config.automatonConfig) (hits.map (keyAt automaton))
      (matcher.settleAll (fun _ => .fresh) (eventsOf hits) p) := by
  have hne := hindexed.literals_ne_nil branch (List.mem_of_getElem? hbranch)
  rw [settleAll_eventsOf hindexed h hbranch _ hits hhits, if_pos hgroup]
  exact Progress.seen_foldl_advance (by simpa [StoredBranch.folded] using hne) _

/-- A piece is finished if it is in the group and its literals were all shown in their order. -/
theorem finished_iff (hindexed : matcher.Indexed config entries)
    (h : Stores config.automatonConfig (groupTable config entries g) automaton)
    {p : Nat} {branch : StoredBranch} (hbranch : (storedBranches entries)[p]? = some branch)
    {located : List (Located (List FrameId))}
    (hstored : ∀ x ∈ located, automaton.terminals.get? x.2.id = some x.2.terminal) :
    (matcher.settleAll (fun _ => .fresh) (eventsOf (located.map Prod.snd)) p).finished = true ↔
      branch.group = g ∧ branch.folded config.automatonConfig <+
        (located.map automaton.occurrence).map Prod.fst := by
  have hhits : ∀ hit ∈ located.map Prod.snd,
      automaton.terminals.get? hit.id = some hit.terminal := List.forall_mem_map.mpr hstored
  by_cases hgroup : branch.group = g
  · rw [(seen_eventsOf hindexed h hbranch hgroup hhits).finished_iff_sublist]
    simp only [List.map_map]
    exact (and_iff_right hgroup).symm
  · rw [settleAll_eventsOf hindexed h hbranch _ _ hhits, if_neg hgroup]
    simp [hgroup, Progress.fresh]

end Group

theorem eventsOf_cons (hit : Hit (List FrameId)) (hits : List (Hit (List FrameId))) :
    eventsOf (hit :: hits) = (hit.terminal.value.map fun id => (hit, id)) ++ eventsOf hits :=
  List.flatMap_cons

/-- An event is one of a hit, after all events of the hits before. -/
theorem eventsOf_eq_append_cons {hits : List (Hit (List FrameId))} {before after : List Event}
    {event : Event} (h : eventsOf hits = before ++ event :: after) :
    ∃ front back more rest, hits = front ++ event.1 :: back ∧ before = eventsOf front ++ more ∧
      eventsOf (front ++ [event.1]) = before ++ event :: rest := by
  induction hits generalizing before with
  | nil => simp [eventsOf] at h
  | cons hit hits ih =>
      have hlater : ∀ middle, before = (hit.terminal.value.map fun id => (hit, id)) ++ middle →
          eventsOf hits = middle ++ event :: after →
          ∃ front back more rest, hit :: hits = front ++ event.1 :: back ∧
            before = eventsOf front ++ more ∧
              eventsOf (front ++ [event.1]) = before ++ event :: rest := by
        intro middle hbefore hrest
        obtain ⟨front, back, more, rest, rfl, rfl, hlast⟩ := ih hrest
        refine ⟨hit :: front, back, more, rest, rfl, ?_, ?_⟩
        · rw [hbefore, eventsOf_cons, List.append_assoc]
        · rw [List.cons_append, eventsOf_cons, hlast, hbefore]
          simp only [List.append_assoc]
      rw [eventsOf_cons] at h
      rcases List.append_eq_append_iff.mp h with ⟨middle, hbefore, hrest⟩ | ⟨more, hhere, hrest⟩
      · exact hlater middle hbefore hrest
      · cases more with
        | nil => exact hlater [] (by simpa using hhere.symm) (by simpa using hrest.symm)
        | cons first more =>
            obtain ⟨rfl, -⟩ := List.cons.inj hrest
            have hfirst : event ∈ hit.terminal.value.map fun id => (hit, id) := by simp [hhere]
            obtain ⟨id, -, rfl⟩ := List.mem_map.mp hfirst
            refine ⟨[], hits, before, more, rfl, rfl, ?_⟩
            rw [List.nil_append, eventsOf_cons, hhere]
            simp [eventsOf]

/-- A reported piece is finished by a hit, and was not finished by the hits before. -/
theorem Reported.exists_hit (hclosed : matcher.Closed) {p : Nat} {piece : Piece}
    (hpiece : matcher.pieces.get? p = some piece) {all : PieceId → Progress}
    {hits : List (Hit (List FrameId))} {report : PatternMatch P}
    (h : Reported matcher all (eventsOf hits) p report) :
    ∃ front hit back, hits = front ++ hit :: back ∧
      (matcher.settleAll all (eventsOf front) p).finished = false ∧
      (matcher.settleAll all (eventsOf (front ++ [hit])) p).finished = true ∧
      report.pattern = piece.pattern ∧ report.stop = hit.stop ∧
      report.offset = (matcher.settleAll all (eventsOf (front ++ [hit])) p).start := by
  obtain ⟨before, after, event, h⟩ := h
  have hpattern := h.pattern_eq
  rw [hpiece] at hpattern
  obtain ⟨front, back, more, rest, rfl, hbefore, hlast⟩ := eventsOf_eq_append_cons h.shown_eq
  -- The frames of the hit that come after the last one of the piece leave it finished.
  have hsettled : matcher.settleAll all (eventsOf (front ++ [event.1])) p =
      matcher.settleAll all (before ++ [event]) p := by
    rw [hlast, List.append_cons, settleAll_append]
    exact settleAll_of_finished hclosed hpiece h.finished rest
  refine ⟨front, event.1, back, rfl, ?_, ?_, (Option.some.inj hpattern).symm, h.stop_eq, ?_⟩
  · by_contra hfinished
    rw [Bool.not_eq_false] at hfinished
    have hkept := settleAll_of_finished hclosed hpiece hfinished more
    rw [← settleAll_append, ← hbefore] at hkept
    rw [← hkept, h.unfinished] at hfinished
    exact Bool.false_ne_true hfinished
  · rw [hsettled]
    exact h.finished
  · rw [hsettled]
    exact h.offset_eq

/-- What is reported of a chained branch: where it is complete first, and where its first literal
ends first. -/
structure ReportOf (config : AutomatonConfig) (letters : List Letter) (branch : StoredBranch)
    (report : PatternMatch P) : Prop where
  pattern_eq : report.pattern = branch.pattern
  stop_eq : ∃ e, LeastEnd config (letters.map (·.byte)) branch.literals e ∧
    letters[e - 1]?.map (·.stop) = some report.stop
  offset_eq : ∃ literal e, branch.literals.head? = some literal ∧
    FirstEnd config (letters.map (·.byte)) literal e ∧
      letters[e - literal.length]?.map (·.start) = some report.offset

section Located

variable {g : Nat} {automaton : GroupAutomaton} {letters : List Letter}
  {located : List (Located (List FrameId))}

theorem stored_of_branch {p : Nat} {branch : StoredBranch}
    (hbranch : (storedBranches entries)[p]? = some branch) (hgroup : branch.group = g) :
    ∀ literal ∈ branch.literals, ∃ entry, entryAt? config.automatonConfig
      (groupTable config entries g) (literal.map config.automatonConfig.fold) = some entry := by
  intro literal hliteral
  obtain ⟨position, hposition⟩ := List.getElem?_of_mem hliteral
  have hmem : position ∈ positions config.automatonConfig (allLabels (storedBranches entries)) g
      (literal.map config.automatonConfig.fold) p := by
    rw [mem_positions_iff config.automatonConfig hbranch]
    exact ⟨hgroup, by simp [StoredBranch.folded, hposition]⟩
  have hvalue := value_entryAt? config.automatonConfig config.wholeWord
    (allLabels (storedBranches entries)) g (literal.map config.automatonConfig.fold)
  cases hentry : entryAt? config.automatonConfig (groupTable config entries g)
      (literal.map config.automatonConfig.fold) with
  | some entry => exact ⟨entry, rfl⟩
  | none =>
      rw [hentry] at hvalue
      have hnil : waiting config.automatonConfig (allLabels (storedBranches entries)) g
          (literal.map config.automatonConfig.fold) = [] := List.map_eq_nil_iff.mp hvalue.symm
      simp [positions, hnil] at hmem

/-- What a scan of the group shows, as far as reports depend on it. -/
structure Scanned (config : MatcherConfig) (entries : List Accepted) (g : Nat)
    (automaton : GroupAutomaton) (letters : List Letter)
    (located : List (Located (List FrameId))) : Prop where
  shown : Shown config.automatonConfig (letters.map (·.byte)) (fun folded => ∃ entry,
    entryAt? config.automatonConfig (groupTable config entries g) folded = some entry)
    (located.map automaton.occurrence)
  stored : ∀ x ∈ located, automaton.terminals.get? x.2.id = some x.2.terminal
  place : ∀ x ∈ located, HitPlace letters x.1 x.2

/-- A reported piece is complete at its hit for the first time. -/
theorem exists_hit_of_reported (hindexed : matcher.Indexed config entries)
    (h : Stores config.automatonConfig (groupTable config entries g) automaton)
    (hscanned : Scanned config entries g automaton letters located) {p : Nat}
    {branch : StoredBranch} (hbranch : (storedBranches entries)[p]? = some branch)
    {report : PatternMatch P}
    (hreport : Reported matcher (fun _ => .fresh) (eventsOf (located.map Prod.snd)) p report) :
    branch.group = g ∧ report.pattern = branch.pattern ∧ ∃ before x after,
      located = before ++ x :: after ∧
      branch.folded config.automatonConfig <+
        ((before ++ [x]).map automaton.occurrence).map Prod.fst ∧
      ¬ branch.folded config.automatonConfig <+
        (before.map automaton.occurrence).map Prod.fst ∧
      report.stop = x.2.stop ∧ report.offset = (matcher.settleAll (fun _ => .fresh)
        (eventsOf ((before ++ [x]).map Prod.snd)) p).start := by
  obtain ⟨front, hit, back, hhits, hunfinished, hfinished, hpattern, hstop, hoffset⟩ :=
    hreport.exists_hit hindexed.closed (hindexed.get?_piece_of_branch hbranch)
  obtain ⟨front, tail, rfl, rfl, htail⟩ := List.map_eq_append_iff.mp hhits
  obtain ⟨x, back, rfl, rfl, rfl⟩ := List.map_eq_cons_iff.mp htail
  have hmap : front.map Prod.snd ++ [x.2] = (front ++ [x]).map Prod.snd := by
    rw [List.map_append, List.map_cons, List.map_nil]
  rw [hmap] at hfinished hoffset
  have hstored : ∀ y ∈ front ++ [x], automaton.terminals.get? y.2.id = some y.2.terminal := by
    intro y hy
    apply hscanned.stored
    rw [List.append_cons]
    exact List.mem_append_left _ hy
  obtain ⟨hgroup, hall⟩ := (finished_iff hindexed h hbranch hstored).mp hfinished
  refine ⟨hgroup, hpattern, front, x, back, rfl, hall, fun hsub => ?_, hstop, hoffset⟩
  rw [(finished_iff hindexed h hbranch fun y hy => hstored y (List.mem_append_left _ hy)).mpr
    ⟨hgroup, hsub⟩] at hunfinished
  cases hunfinished

/-- The offset of a finished piece is that of the first occurrence of its first literal. -/
theorem exists_start (hindexed : matcher.Indexed config entries)
    (h : Stores config.automatonConfig (groupTable config entries g) automaton)
    (hscanned : Scanned config entries g automaton letters located) {p : Nat}
    {branch : StoredBranch} (hbranch : (storedBranches entries)[p]? = some branch)
    (hgroup : branch.group = g) {before after : List (Located (List FrameId))}
    (hlocated : located = before ++ after)
    (hseen : branch.folded config.automatonConfig <+
      (before.map automaton.occurrence).map Prod.fst) :
    ∃ literal e, branch.literals.head? = some literal ∧
      FirstEnd config.automatonConfig (letters.map (·.byte)) literal e ∧
        letters[e - literal.length]?.map (·.start) = some (matcher.settleAll (fun _ => .fresh)
          (eventsOf (before.map Prod.snd)) p).start := by
  have hstored : ∀ x ∈ before, automaton.terminals.get? x.2.id = some x.2.terminal :=
    fun x hx => hscanned.stored x (hlocated ▸ List.mem_append_left _ hx)
  have hprogress := seen_eventsOf hindexed h hbranch hgroup (List.forall_mem_map.mpr hstored)
  have hfinished := (finished_iff hindexed h hbranch hstored).mpr ⟨hgroup, hseen⟩
  have hne : branch.folded config.automatonConfig ≠ [] := by
    have hne := hindexed.literals_ne_nil branch (List.mem_of_getElem? hbranch)
    simpa [StoredBranch.folded] using hne
  have hsome : (matcher.settleAll (fun _ => .fresh)
      (eventsOf (before.map Prod.snd)) p).seen ≠ 0 := by
    rw [hprogress.finished_iff.mp hfinished]
    exact (List.length_pos_iff.mpr hne).ne'
  obtain ⟨front, first, back, hsplit, hhead, hfront, hstart⟩ := hprogress.start_eq hsome
  rw [List.map_map] at hsplit
  obtain ⟨front, tail, rfl, rfl, htail⟩ := List.map_eq_append_iff.mp hsplit
  obtain ⟨x, back, rfl, rfl, rfl⟩ := List.map_eq_cons_iff.mp htail
  rw [StoredBranch.folded, List.head?_map] at hhead
  obtain ⟨literal, hliteral, hfold⟩ := Option.map_eq_some_iff.mp hhead
  have hkey : literal.map config.automatonConfig.fold = automaton.foldKey x.2.terminal.key := hfold
  have hshown : located.map automaton.occurrence = front.map automaton.occurrence ++
      automaton.occurrence x :: (back ++ after).map automaton.occurrence := by
    simp [hlocated]
  refine ⟨literal, x.1, hliteral, hscanned.shown.firstEnd hshown hkey.symm ?_, ?_⟩
  · intro y hy heq
    obtain ⟨z, hz, rfl⟩ := List.mem_map.mp hy
    refine hfront (keyAt automaton z.2) (List.mem_map.mpr ⟨z, hz, rfl⟩) ?_
    rw [StoredBranch.folded, List.head?_map, hliteral]
    exact congrArg some heq.symm
  · have hlength : literal.length = x.2.terminal.key.length := by
      have hlength := congrArg List.length hkey
      rwa [List.length_map, foldKey, List.length_map] at hlength
    rw [hstart, hlength]
    exact (hscanned.place x (by simp [hlocated])).offset_eq

theorem reportOf_of_reported (hindexed : matcher.Indexed config entries)
    (h : Stores config.automatonConfig (groupTable config entries g) automaton)
    (hscanned : Scanned config entries g automaton letters located) {p : Nat}
    {branch : StoredBranch} (hbranch : (storedBranches entries)[p]? = some branch)
    {report : PatternMatch P}
    (hreport : Reported matcher (fun _ => .fresh) (eventsOf (located.map Prod.snd)) p report) :
    ReportOf config.automatonConfig letters branch report := by
  obtain ⟨hgroup, hpattern, before, x, after, hlocated, hnew, hold, hstop, hoffset⟩ :=
    exists_hit_of_reported hindexed h hscanned hbranch hreport
  have hshown : located.map automaton.occurrence = before.map automaton.occurrence ++
      automaton.occurrence x :: after.map automaton.occurrence := by
    simp [hlocated]
  refine ⟨hpattern, ⟨x.1, ?_, ?_⟩, ?_⟩
  · refine hscanned.shown.leastEnd (stored_of_branch hbranch hgroup) hshown ?_ hold
    rw [List.map_append] at hnew
    exact hnew
  · rw [hstop]
    exact (hscanned.place x (by simp [hlocated])).stop_eq
  · rw [hoffset]
    exact exists_start hindexed h hscanned hbranch hgroup (by simpa using hlocated) hnew

/-- The pieces that a scan finishes are the chained branches of the group. -/
theorem finishes_iff (hindexed : matcher.Indexed config entries)
    (h : Stores config.automatonConfig (groupTable config entries g) automaton)
    (hscanned : Scanned config entries g automaton letters located) (p : Nat) :
    Finishes matcher (fun _ => .fresh) (eventsOf (located.map Prod.snd)) p ↔
      ∃ branch, (storedBranches entries)[p]? = some branch ∧ branch.group = g ∧
        Chained config.automatonConfig (letters.map (·.byte)) branch.literals := by
  constructor
  · rintro ⟨hlt, -, hfinished⟩
    obtain ⟨piece, hpiece⟩ := Option.isSome_iff_exists.mp
      (show (matcher.pieces.get? p).isSome by simp [Pool.get?, Pool.size] at hlt ⊢; exact hlt)
    rw [hindexed.get?_piece] at hpiece
    obtain ⟨branch, hbranch, -⟩ := Option.map_eq_some_iff.mp hpiece
    obtain ⟨hgroup, hsub⟩ := (finished_iff hindexed h hbranch hscanned.stored).mp hfinished
    exact ⟨branch, hbranch, hgroup,
      (hscanned.shown.chained_iff (stored_of_branch hbranch hgroup)).mpr hsub⟩
  · rintro ⟨branch, hbranch, hgroup, hchained⟩
    refine ⟨Pool.lt_size_of_get? (hindexed.get?_piece_of_branch hbranch), rfl, ?_⟩
    exact (finished_iff hindexed h hbranch hscanned.stored).mpr
      ⟨hgroup, (hscanned.shown.chained_iff (stored_of_branch hbranch hgroup)).mp hchained⟩

end Located

theorem exists_left_of_forall₂ {α β : Type*} {R : α → β → Prop} {xs : List α} {ys : List β}
    (h : List.Forall₂ R xs ys) {y : β} (hy : y ∈ ys) : ∃ x ∈ xs, R x y := by
  induction h with
  | nil => cases hy
  | cons hab _ ih =>
      rcases List.mem_cons.mp hy with rfl | hy
      · exact ⟨_, List.mem_cons_self, hab⟩
      · obtain ⟨x, hx, hxy⟩ := ih hy
        exact ⟨x, List.mem_cons_of_mem _ hx, hxy⟩

theorem exists_right_of_forall₂ {α β : Type*} {R : α → β → Prop} {xs : List α} {ys : List β}
    (h : List.Forall₂ R xs ys) {x : α} (hx : x ∈ xs) : ∃ y ∈ ys, R x y :=
  exists_left_of_forall₂ (R := flip R) h.flip hx

/-- The reports of a fresh scan are those of the chained branches of the group, one for each. -/
theorem Indexed.reports_spec (hindexed : matcher.Indexed config entries)
    (hwhole : config.wholeWord = false) {g : Nat} {automaton : GroupAutomaton}
    (hgroup : matcher.groups[g]? = some automaton) (hcompiled : automaton.compiled = true)
    (text : Bytes) (mode : EscapeMode) :
    ∃ order : List Nat,
      List.Forall₂ (fun p report => ∃ branch, (storedBranches entries)[p]? = some branch ∧
        ReportOf config.automatonConfig (mode.letters text) branch report) order
          (matcher.reports automaton text mode) ∧
      order.Nodup ∧ ∀ p, p ∈ order ↔
        ∃ branch, (storedBranches entries)[p]? = some branch ∧ branch.group = g ∧
          Chained config.automatonConfig (mode.decode text) branch.literals := by
  have h := (hindexed.built hgroup).stores
  have hfree : ∀ a ∈ groupTable config entries g, a.wholeWord = false := by
    intro a ha
    obtain ⟨x, -, rfl⟩ := List.mem_map.mp ha
    exact hwhole
  obtain ⟨located, hall, hshown, hplaces⟩ := h.shown_spec hcompiled hfree text mode
  have hscanned : Scanned config entries g automaton (mode.letters text) located :=
    ⟨hshown, fun x hx => (hplaces x hx).1, fun x hx => (hplaces x hx).2⟩
  obtain ⟨order, hreports, hnodup, hmem⟩ := reportsFrom_spec hindexed.closed (fun _ => .fresh)
    (eventsOf (located.map Prod.snd))
  have hfinishes : ∀ p, p ∈ order ↔ _ := fun p =>
    (hmem p).trans (finishes_iff hindexed h hscanned p)
  refine ⟨order, ?_, hnodup, hfinishes⟩
  have hsame : matcher.reports automaton text mode =
      matcher.reportsFrom (fun _ => .fresh) (eventsOf (located.map Prod.snd)) := by
    rw [reports, events, hall]
    rfl
  rw [hsame]
  refine hreports.imp fun p report hreport => ?_
  obtain ⟨before, after, event, hat⟩ := id hreport
  obtain ⟨piece, hpiece, -⟩ := Option.map_eq_some_iff.mp hat.pattern_eq
  rw [hindexed.get?_piece] at hpiece
  obtain ⟨branch, hbranch, -⟩ := Option.map_eq_some_iff.mp hpiece
  exact ⟨branch, hbranch, reportOf_of_reported hindexed h hscanned hbranch hreport⟩

/-- The reported patterns are those with a chained branch. -/
theorem Indexed.mem_firsts_reports (hindexed : matcher.Indexed config entries)
    (hwhole : config.wholeWord = false) {g : Nat} {automaton : GroupAutomaton}
    (hgroup : matcher.groups[g]? = some automaton) (hcompiled : automaton.compiled = true)
    (text : Bytes) (mode : EscapeMode) (id : Nat) :
    id ∈ firsts [] (matcher.reports automaton text mode) ↔
      ∃ entry, entries[id]? = some entry ∧ entry.group = g ∧ ∃ literals ∈ entry.branches,
        Chained config.automatonConfig (mode.decode text) literals := by
  obtain ⟨order, hreports, -, hmem⟩ :=
    hindexed.reports_spec hwhole hgroup hcompiled text mode
  simp only [mem_firsts, List.not_mem_nil, false_or]
  constructor
  · rintro ⟨report, hreport, rfl⟩
    obtain ⟨p, hp, branch, hbranch, hof⟩ := exists_left_of_forall₂ hreports hreport
    obtain ⟨branch', hbranch', hg, hchained⟩ := (hmem p).mp hp
    rw [hbranch] at hbranch'
    obtain rfl := Option.some.inj hbranch'
    obtain ⟨entry, hentry, heq, hliterals⟩ :=
      mem_storedBranches_iff.mp (List.mem_of_getElem? hbranch)
    exact ⟨entry, hof.pattern_eq ▸ hentry, heq.symm.trans hg, branch.literals, hliterals, hchained⟩
  · rintro ⟨entry, hentry, hg, literals, hliterals, hchained⟩
    have hbranch : (⟨g, id, literals⟩ : StoredBranch) ∈ storedBranches entries :=
      mem_storedBranches_iff.mpr ⟨entry, hentry, hg.symm, hliterals⟩
    obtain ⟨p, hp⟩ := List.getElem?_of_mem hbranch
    obtain ⟨report, hreport, branch, hbranch', hof⟩ :=
      exists_right_of_forall₂ hreports ((hmem p).mpr ⟨_, hp, rfl, hchained⟩)
    rw [hp] at hbranch'
    obtain rfl := Option.some.inj hbranch'
    exact ⟨report, hreport, hof.pattern_eq⟩

/-- After any building calls, with whole words off: the patterns found in a compiled group are those
with a chained branch, each once. A scan under a version that is new to the state, if it is never
stopped, reports each chained branch of the group once, where it is complete first. -/
theorem candidates_exact (config : MatcherConfig) (hwhole : config.wholeWord = false)
    (calls : List (BuildCall P)) (g : Nat) (automaton : GroupAutomaton)
    (hgroup : (calls.foldl build (new config)).groups[g]? = some automaton)
    (hcompiled : automaton.compiled = true) (text : Bytes) (mode : EscapeMode) :
    let matcher : Matcher P := calls.foldl build (new config)
    let entries := (new config : Matcher P).acceptedAll calls
    (∃ ids : List PatternId, (matcher.findAll g text mode).2 = .ok ids ∧ ids.Nodup ∧
      ∀ id, id ∈ ids ↔ ∃ entry, entries[id]? = some entry ∧ entry.group = g ∧
        ∃ literals ∈ entry.branches,
          Chained config.automatonConfig (mode.decode text) literals) ∧
    ∃ (order : List Nat) (reports : List (PatternMatch P)),
      (∀ (version : UInt64) {σ : Type} (next : σ → PatternMatch P → σ) (acc : σ),
        (matcher.state.Unseen version → (matcher.search g text mode version
          (fun report acc => .yield (next acc report)) acc).2 =
            .ok (.yield (reports.foldl next acc))) ∧
        ∀ state : ScanState, state.Unseen version → (matcher.searchWith state g text mode version
          (fun report acc => .yield (next acc report)) acc).2 =
            .ok (.yield (reports.foldl next acc))) ∧
      order.Nodup ∧
      (∀ p, p ∈ order ↔ ∃ branch, (storedBranches entries)[p]? = some branch ∧
        branch.group = g ∧ Chained config.automatonConfig (mode.decode text) branch.literals) ∧
      List.Forall₂ (fun p report => ∃ branch, (storedBranches entries)[p]? = some branch ∧
        ReportOf config.automatonConfig (mode.letters text) branch report) order reports := by
  intro matcher entries
  have hindexed : matcher.Indexed config entries := (indexed_new config).buildAll calls
  have hok : matcher.group g = .ok automaton := by
    rw [group, hgroup]
  constructor
  · refine ⟨firsts [] (matcher.reports automaton text mode), ?_, nodup_firsts .nil _,
      hindexed.mem_firsts_reports hwhole hgroup hcompiled text mode⟩
    have hfind := findAllWith_eq (ScanState.unused_new _) (by decide) hok hcompiled text mode
    have hscratch : matcher.scratch = .new := scratch_buildAll _ calls
    rw [← hscratch] at hfind
    exact hfind
  · obtain ⟨order, hreports, hnodup, hmem⟩ :=
      hindexed.reports_spec hwhole hgroup hcompiled text mode
    refine ⟨order, matcher.reports automaton text mode, ?_, hnodup, hmem, hreports⟩
    intro version σ next acc
    have hwith : ∀ state : ScanState, state.Unseen version → (matcher.searchWith state g text mode
        version (fun report acc => .yield (next acc report)) acc).2 =
          .ok (.yield ((matcher.reports automaton text mode).foldl next acc)) := by
      intro state hunseen
      rw [searchWith_eq hunseen hok hcompiled, visitAll_eq_foldl]
    exact ⟨hwith matcher.state, hwith⟩

/-- The literals of the first pattern end together, and its last one is also the first one of the
second pattern. In the third pattern the literals come in the wrong order. -/
theorem candidates_exact_shared :
    let calls : List (BuildCall Unit) := [.addPattern 0 "xab.*ab" (), .addPattern 0 "ab.*cd" (),
      .addPattern 0 "cd.*ab" (), .compile 0]
    let matcher : Matcher Unit := calls.foldl build (new .standard)
    let text : Bytes := [0x5F, 0x58, 0x41, 0x42, 0x43, 0x44]
    (∃ ids : List PatternId, (matcher.findAll 0 text .plain).2 = .ok ids ∧ ids.Nodup ∧
      ∀ id, id ∈ ids ↔ id < 2) ∧
    ∃ (order : List Nat) (reports : List (PatternMatch Unit)),
      (∀ {σ : Type} (next : σ → PatternMatch Unit → σ) (acc : σ),
        (matcher.search 0 text .plain 1 (fun report acc => .yield (next acc report)) acc).2 =
          .ok (.yield (reports.foldl next acc))) ∧
      order.Nodup ∧ (∀ p, p ∈ order ↔ p < 2) ∧
      reports.map (fun report => (report.pattern, report.offset, report.stop)) =
        [(0, 1, 4), (1, 2, 6)] := by
  intro calls matcher text
  let xab : Bytes := [0x78, 0x61, 0x62]
  let ab : Bytes := [0x61, 0x62]
  let cd : Bytes := [0x63, 0x64]
  let config := MatcherConfig.standard.automatonConfig
  obtain ⟨automaton, hgroup, hcompiled⟩ := Option.map_eq_some_iff.mp
    (show matcher.groups[0]?.map (·.compiled) = some true by decide +kernel)
  have hnew : matcher.state.Unseen 1 := by
    unfold ScanState.Unseen
    decide +kernel
  obtain ⟨⟨ids, hids, hnodup, hmem⟩, order, reports, hsearch, horder, hpieces, -⟩ :=
    candidates_exact .standard rfl calls 0 automaton hgroup hcompiled text .plain
  have hentries : (new .standard : Matcher Unit).acceptedAll calls =
      [⟨0, [[xab, ab]]⟩, ⟨0, [[ab, cd]]⟩, ⟨0, [[cd, ab]]⟩] := by decide +kernel
  have hbranches : storedBranches [⟨0, [[xab, ab]]⟩, ⟨0, [[ab, cd]]⟩, ⟨0, [[cd, ab]]⟩] =
      [⟨0, 0, [xab, ab]⟩, ⟨0, 1, [ab, cd]⟩, ⟨0, 2, [cd, ab]⟩] := rfl
  have htogether : Chained config text [xab, ab] := by decide
  have hafter : Chained config text [ab, cd] := by decide
  have hreversed : ¬Chained config text [cd, ab] := by decide
  rw [hentries, EscapeMode.decode_plain] at hmem hpieces
  refine ⟨⟨ids, hids, hnodup, fun id => (hmem id).trans ?_⟩, order, reports,
    fun next acc => (hsearch 1 next acc).1 hnew, horder, fun p => (hpieces p).trans ?_, ?_⟩
  · rcases id with _ | _ | _ | id <;> simp [config, htogether, hafter, hreversed]
  · rw [hbranches]
    rcases p with _ | _ | _ | p <;> simp [config, htogether, hafter, hreversed]
  · have hplaces : ((matcher.search 0 text .plain 1 (fun report acc =>
        .yield (acc ++ [(report.pattern, report.offset, report.stop)])) []).2.toOption.map
          (·.value)) = some [(0, 1, 4), (1, 2, 6)] := by decide +kernel
    rw [(hsearch 1 _ _).1 hnew] at hplaces
    have hlist := Option.some.inj hplaces
    rw [List.foldl_append_eq_append, ← List.flatMap_def, ← List.map_eq_flatMap] at hlist
    exact hlist

end Matcher

end LiteralSieve
