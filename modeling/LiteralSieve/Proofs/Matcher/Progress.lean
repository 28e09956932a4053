import LiteralSieve.Matcher.Scan
import Mathlib.Data.List.Nodup
import Mathlib.Logic.Function.Basic

namespace LiteralSieve

/-!
# Reports of a scan

Of a cursor only that counts which was seen under the version of the scan. So a scan can be told
with a progress for every piece instead of versioned cursors, and its reports do not depend on the
version, on the visitor, or on what the state holds of other versions.
-/

/-- How far a piece is in a scan. -/
structure Progress where
  seen : Nat
  finished : Bool
  start : Nat
deriving DecidableEq

namespace Progress

def fresh : Progress := ⟨0, false, 0⟩

/-- The progress after the literal at a position was seen, if it is the one that was missing. -/
def accept? (progress : Progress) (size position offset : Nat) : Option Progress :=
  if progress.finished ∨ progress.seen ≠ position then none
  else
    some ⟨position + 1, position + 1 == size, if position = 0 then offset else progress.start⟩

theorem accept?_eq_some_iff {progress next : Progress} {size position offset : Nat} :
    progress.accept? size position offset = some next ↔
      progress.finished = false ∧ progress.seen = position ∧
        next = ⟨position + 1, position + 1 == size,
          if position = 0 then offset else progress.start⟩ := by
  rw [accept?]
  by_cases h : progress.finished ∨ progress.seen ≠ position
  · rw [if_pos h]
    constructor
    · intro hnone
      cases hnone
    · rintro ⟨hfinished, hseen, -⟩
      simp [hfinished, hseen] at h
  · rw [if_neg h]
    obtain ⟨hfinished, hseen⟩ := not_or.mp h
    rw [Option.some_inj]
    constructor
    · rintro rfl
      exact ⟨by simpa using hfinished, not_not.mp hseen, rfl⟩
    · rintro ⟨-, -, rfl⟩
      rfl

end Progress

namespace PieceCursor

/-- What a cursor says about a scan under a version. -/
def progress (version : UInt64) (cursor : PieceCursor) : Progress :=
  if cursor.version = version ∧ (cursor.seen ≠ 0 ∨ cursor.finished) then
    ⟨cursor.seen, cursor.finished, cursor.start⟩
  else .fresh

def ofProgress (version : UInt64) (progress : Progress) : PieceCursor :=
  ⟨version, progress.seen, progress.finished, progress.start⟩

theorem progress_fresh (version other : UInt64) : (fresh other).progress version = .fresh := by
  simp [progress, fresh]

theorem progress_of_version_ne {version : UInt64} {cursor : PieceCursor}
    (h : cursor.version ≠ version) : cursor.progress version = .fresh := by
  simp [progress, h]

theorem progress_eq_fresh {version : UInt64} {cursor : PieceCursor}
    (hseen : (cursor.progress version).seen = 0)
    (hfinished : (cursor.progress version).finished = false) :
    cursor.progress version = .fresh := by
  rw [progress] at hseen hfinished ⊢
  split_ifs at hseen hfinished ⊢ with h
  · simp only at hseen hfinished
    simp [hseen, hfinished] at h
  · rfl

theorem progress_ofProgress {version : UInt64} {progress : Progress} (h : progress.seen ≠ 0) :
    (ofProgress version progress).progress version = progress := by
  simp [PieceCursor.progress, ofProgress, h]

/-- A literal does to a cursor what it does to its progress. -/
theorem renew?_accept? (version : UInt64) (cursor : PieceCursor) (size position offset : Nat) :
    ((cursor.renew? version position).bind fun cursor => cursor.accept? size position offset) =
      ((cursor.progress version).accept? size position offset).map (ofProgress version) := by
  by_cases hversion : cursor.version = version
  · rw [renew?, if_pos hversion, Option.bind_some]
    by_cases hused : cursor.seen ≠ 0 ∨ cursor.finished
    · rw [progress, if_pos ⟨hversion, hused⟩, accept?, Progress.accept?]
      split_ifs <;> simp [ofProgress, hversion]
    · rw [progress, if_neg fun h => hused h.2, accept?, Progress.accept?]
      obtain ⟨hseen, hfinished⟩ := not_or.mp hused
      simp only [not_not] at hseen
      by_cases hposition : position = 0
      · simp [Progress.fresh, ofProgress, hseen, hfinished, hposition, hversion]
      · simp [Progress.fresh, hseen, Ne.symm hposition]
  · rw [progress_of_version_ne hversion, renew?, if_neg hversion]
    by_cases hposition : position = 0
    · simp [hposition, fresh, accept?, Progress.accept?, Progress.fresh, ofProgress]
    · simp [hposition, Progress.accept?, Progress.fresh, Ne.symm hposition]

end PieceCursor

namespace Matcher

variable {P σ : Type}

/-- What happens to the progress of a frame's piece when its literal occurs. -/
def progress? (matcher : Matcher P) (all : PieceId → Progress) (hit : Hit (List FrameId))
    (id : FrameId) : Option (PieceId × Progress × Option (PatternMatch P)) := do
  let frame ← matcher.frames.get? id
  let piece ← matcher.pieces.get? frame.piece
  let progress ← (all frame.piece).accept? piece.size frame.position hit.offset
  if progress.finished then
    let entry ← matcher.patterns.get? piece.pattern
    return (frame.piece, progress,
      some ⟨piece.pattern, entry.payload, progress.start, hit.stop, hit.terminal.key⟩)
  else return (frame.piece, progress, none)

/-- The reports of a scan that is never stopped. -/
def reportsFrom (matcher : Matcher P) (all : PieceId → Progress) :
    List (Hit (List FrameId) × FrameId) → List (PatternMatch P)
  | [] => []
  | (hit, id) :: rest =>
    match matcher.progress? all hit id with
    | none => reportsFrom matcher all rest
    | some (piece, progress, found) =>
      found.toList ++ reportsFrom matcher (Function.update all piece progress) rest

def reports (matcher : Matcher P) (automaton : GroupAutomaton) (text : Bytes)
    (mode : EscapeMode) : List (PatternMatch P) :=
  matcher.reportsFrom (fun _ => .fresh) (events automaton text mode)

/-- The cursors say this about all pieces. -/
def Agrees (matcher : Matcher P) (version : UInt64) (cursors : Array PieceCursor)
    (all : PieceId → Progress) : Prop :=
  ∀ p < matcher.pieces.size, ∃ cursor, cursors[p]? = some cursor ∧
    cursor.progress version = all p

variable {matcher : Matcher P} {version : UInt64} {cursors : Array PieceCursor}
  {all : PieceId → Progress}

theorem advance?_eq (h : matcher.Agrees version cursors all) (hit : Hit (List FrameId))
    (id : FrameId) :
    matcher.advance? cursors version hit id = (matcher.progress? all hit id).map
      fun (piece, progress, found) => (piece, .ofProgress version progress, found) := by
  cases hframe : matcher.frames.get? id with
  | none => simp [advance?, progress?, hframe]
  | some frame =>
      cases hpiece : matcher.pieces.get? frame.piece with
      | none => simp [advance?, progress?, hframe, hpiece]
      | some piece =>
          obtain ⟨cursor, hcursor, hall⟩ := h frame.piece (Pool.lt_size_of_get? hpiece)
          have hstep := cursor.renew?_accept? version piece.size frame.position hit.offset
          rw [hall] at hstep
          simp only [advance?, progress?, hframe, hpiece, hcursor, Option.bind_eq_bind,
            Option.bind_some]
          rw [← Option.bind_assoc, hstep]
          cases hprogress : (all frame.piece).accept? piece.size frame.position hit.offset with
          | none => rfl
          | some progress =>
              rw [Option.map_some, Option.bind_some, Option.bind_some]
              change (if progress.finished = true then _ else _) = _
              split_ifs
              · cases matcher.patterns.get? piece.pattern <;> rfl
              · rfl

/-- Only the piece of the frame moves, and it reports its pattern when it is finished. -/
theorem progress?_cases {hit : Hit (List FrameId)} {id : FrameId} {p : Nat} {next : Progress}
    {found : Option (PatternMatch P)} (h : matcher.progress? all hit id = some (p, next, found)) :
    ∃ frame piece, matcher.frames.get? id = some frame ∧ frame.piece = p ∧
      matcher.pieces.get? p = some piece ∧
      (all p).accept? piece.size frame.position hit.offset = some next ∧
      (next.finished = false ∧ found = none ∨
        next.finished = true ∧ ∃ entry, matcher.patterns.get? piece.pattern = some entry ∧
          found = some
            ⟨piece.pattern, entry.payload, next.start, hit.stop, hit.terminal.key⟩) := by
  simp only [progress?, Option.bind_eq_bind, Option.bind_eq_some_iff] at h
  obtain ⟨frame, hframe, piece, hpiece, next', hnext, h⟩ := h
  split_ifs at h with hfinished
  · obtain ⟨entry, hentry, h⟩ := Option.bind_eq_some_iff.mp h
    cases h
    exact ⟨frame, piece, hframe, rfl, hpiece, hnext, Or.inr ⟨hfinished, entry, hentry, rfl⟩⟩
  · cases h
    exact ⟨frame, piece, hframe, rfl, hpiece, hnext, Or.inl ⟨by simpa using hfinished, rfl⟩⟩

theorem seen_ne_zero_of_progress? {hit : Hit (List FrameId)} {id : FrameId} {p : Nat}
    {next : Progress} {found : Option (PatternMatch P)}
    (h : matcher.progress? all hit id = some (p, next, found)) : next.seen ≠ 0 := by
  obtain ⟨_, _, -, -, -, hnext, -⟩ := progress?_cases h
  obtain ⟨-, -, rfl⟩ := Progress.accept?_eq_some_iff.mp hnext
  exact Nat.succ_ne_zero _

theorem Agrees.update (h : matcher.Agrees version cursors all) (piece : Nat) {progress : Progress}
    (hseen : progress.seen ≠ 0) :
    matcher.Agrees version (cursors.setIfInBounds piece (.ofProgress version progress))
      (Function.update all piece progress) := by
  intro p hp
  obtain ⟨cursor, hcursor, hall⟩ := h p hp
  by_cases he : p = piece
  · subst he
    have hlt := (Array.getElem?_eq_some_iff.mp hcursor).1
    refine ⟨.ofProgress version progress, ?_, ?_⟩
    · rw [Array.getElem?_setIfInBounds_self, if_pos hlt]
    · rw [PieceCursor.progress_ofProgress hseen, Function.update_self]
  · refine ⟨cursor, ?_, ?_⟩
    · rw [Array.getElem?_setIfInBounds_ne (Ne.symm he), hcursor]
    · rw [hall, Function.update_of_ne he]

/-- A scan shows its reports to the visitor. -/
theorem scan_eq_visitAll (report : PatternMatch P → σ → ForInStep σ)
    (h : matcher.Agrees version cursors all) (acc : σ)
    (shown : List (Hit (List FrameId) × FrameId)) :
    (matcher.scan version report cursors acc shown).2 =
      visitAll report (matcher.reportsFrom all shown) acc := by
  induction shown generalizing cursors all acc with
  | nil => rfl
  | cons event shown ih =>
      obtain ⟨hit, id⟩ := event
      rw [scan, reportsFrom, advance?_eq h]
      cases hprogress : matcher.progress? all hit id with
      | none => exact ih h acc
      | some moved =>
          obtain ⟨piece, progress, found⟩ := moved
          have hnext := h.update piece (seen_ne_zero_of_progress? hprogress)
          cases found with
          | none => exact ih hnext acc
          | some found =>
              simp only [Option.map_some, Option.toList_some, List.singleton_append, visitAll]
              cases report found acc with
              | done acc => rfl
              | yield acc => exact ih hnext acc

/-- Reports are about patterns of the matcher. -/
theorem exists_entry_of_mem_reportsFrom {shown : List (Hit (List FrameId) × FrameId)}
    {report : PatternMatch P} (h : report ∈ matcher.reportsFrom all shown) :
    ∃ entry, matcher.patterns.get? report.pattern = some entry ∧
      entry.payload = report.payload := by
  induction shown generalizing all with
  | nil => cases h
  | cons event shown ih =>
      obtain ⟨hit, id⟩ := event
      rw [reportsFrom] at h
      cases hprogress : matcher.progress? all hit id with
      | none =>
          rw [hprogress] at h
          exact ih h
      | some moved =>
          obtain ⟨piece, progress, found⟩ := moved
          rw [hprogress] at h
          rcases List.mem_append.mp h with h | h
          · obtain ⟨_, _, -, -, -, -, ⟨-, rfl⟩ | ⟨-, entry, hentry, rfl⟩⟩ :=
              progress?_cases hprogress
            · cases h
            · obtain rfl := List.mem_singleton.mp h
              exact ⟨entry, hentry, rfl⟩
          · exact ih h

end Matcher

namespace ScanState

/-- How far the pieces are under a version. -/
def progressOf (state : ScanState) (version : UInt64) (p : PieceId) : Progress :=
  (state.cursors[p]?.map (·.progress version)).getD .fresh

/-- No cursor has seen anything under the version. -/
def Unseen (state : ScanState) (version : UInt64) : Prop :=
  ∀ cursor ∈ state.cursors, cursor.progress version = .fresh

/-- Nothing was seen or listed under the version. -/
structure Unused (state : ScanState) (version : UInt64) : Prop where
  unseen : state.Unseen version
  unlisted : version ∉ state.listed

theorem Unseen.progressOf_eq {state : ScanState} {version : UInt64} (h : state.Unseen version) :
    state.progressOf version = fun _ => .fresh := by
  funext p
  rw [progressOf]
  cases hcursor : state.cursors[p]? with
  | none => rfl
  | some cursor => exact h cursor (Array.mem_of_getElem? hcursor)

theorem progressOf_eq_fresh {state : ScanState} {version : UInt64} {p : Nat}
    (hseen : (state.progressOf version p).seen = 0)
    (hfinished : (state.progressOf version p).finished = false) :
    state.progressOf version p = .fresh := by
  rw [progressOf] at hseen hfinished ⊢
  cases hcursor : state.cursors[p]? with
  | none => rfl
  | some cursor =>
      rw [hcursor] at hseen hfinished
      exact PieceCursor.progress_eq_fresh hseen hfinished

theorem unused_new (version : UInt64) : new.Unused version where
  unseen := by simp [new, Unseen]
  unlisted := by simp [new]

end ScanState

theorem mem_extendArray {α : Type} {xs : Array α} {n : Nat} {a b : α}
    (h : b ∈ extendArray xs n a) : b ∈ xs ∨ b = a := by
  rw [extendArray, Array.mem_append] at h
  exact h.imp_right fun hmem => (Array.mem_replicate.mp hmem).2

theorem size_extendArray {α : Type} (xs : Array α) (n : Nat) (a : α) :
    (extendArray xs n a).size = max xs.size n := by
  rw [extendArray, Array.size_append, Array.size_replicate]
  omega

namespace Matcher

variable {P σ : Type} {matcher : Matcher P} {state : ScanState} {version : UInt64}

theorem agrees_prepare (matcher : Matcher P) (state : ScanState) (version : UInt64) :
    matcher.Agrees version (state.prepare version matcher.pieces.size).cursors
      (state.progressOf version) := by
  intro p hp
  simp only [ScanState.prepare, ScanState.progressOf, extendArray, Array.getElem?_append]
  by_cases hlt : p < state.cursors.size
  · rw [if_pos hlt, Array.getElem?_eq_getElem hlt]
    exact ⟨_, rfl, rfl⟩
  · rw [if_neg hlt, Array.getElem?_replicate, if_pos (by omega),
      Array.getElem?_eq_none (Nat.le_of_not_lt hlt)]
    exact ⟨_, rfl, PieceCursor.progress_fresh version 0⟩

/-- A scan shows the reports that follow from what the state has of its version. -/
theorem searchWith_eq_of_progressOf (state : ScanState) (version : UInt64) {g : Nat}
    {automaton : GroupAutomaton} (hgroup : matcher.group g = .ok automaton)
    (hcompiled : automaton.compiled = true) (text : Bytes) (mode : EscapeMode)
    (report : PatternMatch P → σ → ForInStep σ) (acc : σ) :
    (matcher.searchWith state g text mode version report acc).2 =
      .ok (visitAll report (matcher.reportsFrom (state.progressOf version)
        (events automaton text mode)) acc) := by
  rw [searchWith, hgroup]
  simp only [hcompiled, if_true]
  rw [scan_eq_visitAll report (agrees_prepare matcher state version)]

/-- A scan under a version that is new to the state shows the reports of a scan that starts
afresh. -/
theorem searchWith_eq (hunseen : state.Unseen version) {g : Nat} {automaton : GroupAutomaton}
    (hgroup : matcher.group g = .ok automaton) (hcompiled : automaton.compiled = true)
    (text : Bytes) (mode : EscapeMode) (report : PatternMatch P → σ → ForInStep σ) (acc : σ) :
    (matcher.searchWith state g text mode version report acc).2 =
      .ok (visitAll report (matcher.reports automaton text mode) acc) := by
  rw [searchWith_eq_of_progressOf state version hgroup hcompiled, hunseen.progressOf_eq, reports]

/-- The patterns of these reports, each once in the order of their first reports. -/
def firsts (found : List PatternId) : List (PatternMatch P) → List PatternId
  | [] => found
  | report :: reports =>
    if report.pattern ∈ found then firsts found reports
    else firsts (found ++ [report.pattern]) reports

theorem nodup_firsts {found : List PatternId} (h : found.Nodup)
    (reports : List (PatternMatch P)) : (firsts found reports).Nodup := by
  induction reports generalizing found with
  | nil => exact h
  | cons report reports ih =>
      rw [firsts]
      split_ifs with hmem
      · exact ih h
      · exact ih (List.concat_eq_append ▸ h.concat hmem)

theorem mem_firsts {found : List PatternId} {reports : List (PatternMatch P)} {id : PatternId} :
    id ∈ firsts found reports ↔ id ∈ found ∨ ∃ report ∈ reports, report.pattern = id := by
  induction reports generalizing found with
  | nil => simp [firsts]
  | cons report reports ih =>
      rw [firsts]
      split_ifs with hmem
      · rw [ih, List.exists_mem_cons_iff]
        constructor
        · exact Or.imp_right Or.inr
        · rintro (h | rfl | h)
          · exact Or.inl h
          · exact Or.inl hmem
          · exact Or.inr h
      · rw [ih, List.exists_mem_cons_iff, List.mem_append, List.mem_singleton, or_assoc,
          eq_comm (a := id)]

/-- What a listing has under a version: these patterns, in this order. -/
structure Lists (version : UInt64) (size : Nat) (found : List PatternId) (listing : Listing) :
    Prop where
  found_eq : listing.found.toList = found
  size_le : size ≤ listing.listed.size
  listed_iff : ∀ {id : Nat}, listing.listed[id]? = some version ↔ id ∈ found

theorem Lists.list {size : Nat} {found : List PatternId} {listing : Listing}
    (h : Lists version size found listing) {report : PatternMatch P}
    (hreport : report.pattern < size) :
    Lists version size (firsts found [report]) (Matcher.list version report listing) := by
  by_cases hmem : report.pattern ∈ found
  · rw [Matcher.list, if_pos (h.listed_iff.mpr hmem), firsts, if_pos hmem]
    exact h
  · rw [Matcher.list, if_neg (mt h.listed_iff.mp hmem), firsts, if_neg hmem]
    refine ⟨by simp [firsts, h.found_eq], by simpa using h.size_le, fun {id} => ?_⟩
    rw [firsts, List.mem_append, List.mem_singleton]
    by_cases he : id = report.pattern
    · subst he
      have hlt := Nat.lt_of_lt_of_le hreport h.size_le
      simp [hlt]
    · rw [Array.getElem?_setIfInBounds_ne (Ne.symm he), h.listed_iff]
      exact (or_iff_left he).symm

theorem foldl_list {size : Nat} {found : List PatternId} {listing : Listing}
    (h : Lists version size found listing) (reports : List (PatternMatch P))
    (hreports : ∀ report ∈ reports, report.pattern < size) :
    Lists version size (firsts found reports)
      (reports.foldl (fun listing report => list version report listing) listing) := by
  induction reports generalizing found listing with
  | nil => exact h
  | cons report reports ih =>
      have hsplit : firsts found (report :: reports) =
          firsts (firsts found [report]) reports := by
        by_cases hmem : report.pattern ∈ found <;> simp [firsts, hmem]
      rw [hsplit]
      exact ih (h.list (hreports report (by simp))) fun r hr => hreports r (by simp [hr])

/-- The listing before any report, if no pattern was listed under the version. -/
theorem lists_start (hunlisted : version ∉ state.listed) (hversion : version ≠ 0) (size : Nat) :
    Lists version size [] ⟨extendArray state.listed size 0, #[]⟩ where
  found_eq := rfl
  size_le := by
    rw [size_extendArray]
    exact Nat.le_max_right _ _
  listed_iff := by
    intro id
    simp only [List.not_mem_nil, iff_false]
    intro hlisted
    rcases mem_extendArray (Array.mem_of_getElem? hlisted) with hold | hnew
    · exact hunlisted hold
    · exact hversion hnew

/-- The listing of a one-shot scan. -/
def listingOf (matcher : Matcher P) (state : ScanState) (automaton : GroupAutomaton) (text : Bytes)
    (mode : EscapeMode) : Listing :=
  (matcher.reportsFrom (state.progressOf state.nextVersion) (events automaton text mode)).foldl
    (fun listing report => list state.nextVersion report listing)
    ⟨extendArray state.listed matcher.patterns.size 0, #[]⟩

/-- What a one-shot scan finds, and what it leaves behind, in terms of its listing. -/
theorem findAllWith_eq_listingOf {g : Nat} {automaton : GroupAutomaton}
    (hgroup : matcher.group g = .ok automaton) (hcompiled : automaton.compiled = true)
    (state : ScanState) (text : Bytes) (mode : EscapeMode) :
    (matcher.findAllWith state g text mode).2 =
        .ok (matcher.listingOf state automaton text mode).found.toList ∧
      (matcher.findAllWith state g text mode).1.listed =
        (matcher.listingOf state automaton text mode).listed ∧
      (matcher.findAllWith state g text mode).1.cursors =
        (matcher.searchWith state g text mode state.nextVersion
          (fun report listing => .yield (list state.nextVersion report listing))
          ⟨extendArray state.listed matcher.patterns.size 0, #[]⟩).1.cursors := by
  have hsearch := searchWith_eq_of_progressOf state state.nextVersion hgroup hcompiled text mode
    (fun report listing => .yield (list state.nextVersion report listing))
    ⟨extendArray state.listed matcher.patterns.size 0, #[]⟩
  rw [visitAll_eq_foldl] at hsearch
  refine ⟨?_, ?_, ?_⟩
  · simp only [findAllWith, hsearch]
    rfl
  · simp only [findAllWith, hsearch]
    rfl
  · simp only [findAllWith, hsearch]

/-- A one-shot scan under an unused version lists the patterns of the reports. -/
theorem findAllWith_eq (hunused : state.Unused state.nextVersion) (hversion : state.nextVersion ≠ 0)
    {g : Nat} {automaton : GroupAutomaton} (hgroup : matcher.group g = .ok automaton)
    (hcompiled : automaton.compiled = true) (text : Bytes) (mode : EscapeMode) :
    (matcher.findAllWith state g text mode).2 =
      .ok (firsts [] (matcher.reports automaton text mode)) := by
  rw [(findAllWith_eq_listingOf hgroup hcompiled state text mode).1, listingOf,
    hunused.unseen.progressOf_eq]
  have hlists := foldl_list (lists_start hunused.unlisted hversion matcher.patterns.size)
    (matcher.reports automaton text mode) fun report hreport => by
      obtain ⟨entry, hentry, -⟩ := exists_entry_of_mem_reportsFrom hreport
      exact Pool.lt_size_of_get? hentry
  exact congrArg Except.ok hlists.found_eq

theorem isMatchWith_eq (hunseen : state.Unseen state.nextVersion) {g : Nat}
    {automaton : GroupAutomaton} (hgroup : matcher.group g = .ok automaton)
    (hcompiled : automaton.compiled = true) (text : Bytes) (mode : EscapeMode) :
    (matcher.isMatchWith state g text mode).2 =
      .ok (!(matcher.reports automaton text mode).isEmpty) := by
  simp only [isMatchWith, searchWith_eq hunseen hgroup hcompiled]
  cases matcher.reports automaton text mode <;> rfl

end Matcher

end LiteralSieve
