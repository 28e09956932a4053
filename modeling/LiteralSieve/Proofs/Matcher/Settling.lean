import LiteralSieve.Proofs.Matcher.Advancing
import Mathlib.Data.List.Forall2

namespace LiteralSieve

/-!
# Reports and pieces

What a scan does to one piece depends only on the frames of that piece. A scan reports the pieces
that it finishes, each at the literal that finishes it.
-/

namespace Matcher

variable {P : Type}

/-- An occurrence of a literal and a frame that waits for it. -/
abbrev Event := Hit (List FrameId) × FrameId

def settle (matcher : Matcher P) (all : PieceId → Progress) (event : Event) :
    PieceId → Progress :=
  match matcher.progress? all event.1 event.2 with
  | none => all
  | some (p, progress, _) => Function.update all p progress

def settleAll (matcher : Matcher P) (all : PieceId → Progress) (shown : List Event) :
    PieceId → Progress :=
  shown.foldl matcher.settle all

/-- Where an event is in a piece: the position of the literal and the offset of its occurrence. -/
def placeAt (matcher : Matcher P) (p : PieceId) (event : Event) : Option (Nat × Nat) :=
  (matcher.frames.get? event.2).bind fun frame =>
    if frame.piece = p then some (frame.position, event.1.offset) else none

/-- Every piece belongs to a pattern. -/
def Closed (matcher : Matcher P) : Prop :=
  ∀ {p piece}, matcher.pieces.get? p = some piece →
    ∃ entry, matcher.patterns.get? piece.pattern = some entry

variable {matcher : Matcher P} {all : PieceId → Progress} {event : Event}

/-- An event moves the piece of its frame if the literal is the one that was missing. -/
theorem progress?_of_accept? (hclosed : matcher.Closed) {hit : Hit (List FrameId)} {id : Nat}
    {frame : Frame} {piece : Piece} {next : Progress} (hframe : matcher.frames.get? id = some frame)
    (hpiece : matcher.pieces.get? frame.piece = some piece)
    (hnext : (all frame.piece).accept? piece.size frame.position hit.offset = some next) :
    ∃ found, matcher.progress? all hit id = some (frame.piece, next, found) := by
  obtain ⟨entry, hentry⟩ := hclosed hpiece
  simp only [progress?, hframe, hpiece, hnext, hentry, Option.bind_eq_bind, Option.bind_some]
  split_ifs
  · exact ⟨_, rfl⟩
  · exact ⟨_, rfl⟩

theorem settle_apply (hclosed : matcher.Closed) {p : Nat} {piece : Piece}
    (hpiece : matcher.pieces.get? p = some piece) :
    matcher.settle all event p = (matcher.placeAt p event).elim (all p) ((all p).step piece.size) := by
  obtain ⟨hit, id⟩ := event
  cases hprogress : matcher.progress? all hit id with
  | some moved =>
      obtain ⟨q, next, found⟩ := moved
      obtain ⟨frame, piece', hframe, rfl, hpiece', hnext, -⟩ := progress?_cases hprogress
      simp only [settle, hprogress, placeAt, hframe, Option.bind_some]
      by_cases he : frame.piece = p
      · subst he
        obtain rfl := Option.some.inj (hpiece.symm.trans hpiece')
        simp [Progress.step, hnext]
      · rw [Function.update_of_ne (Ne.symm he), if_neg he]
        rfl
  | none =>
      simp only [settle, hprogress, placeAt]
      cases hframe : matcher.frames.get? id with
      | none => rfl
      | some frame =>
          rw [Option.bind_some]
          by_cases he : frame.piece = p
          · subst he
            have hnone : (all frame.piece).accept? piece.size frame.position hit.offset = none := by
              rw [Option.eq_none_iff_forall_ne_some]
              intro next hnext
              obtain ⟨found, hsome⟩ := progress?_of_accept? hclosed hframe hpiece hnext
              rw [hprogress] at hsome
              cases hsome
            simp [Progress.step, hnone]
          · rw [if_neg he]
            rfl

/-- A piece follows its own places alone. -/
theorem settleAll_apply (hclosed : matcher.Closed) {p : Nat} {piece : Piece}
    (hpiece : matcher.pieces.get? p = some piece) (shown : List Event) :
    matcher.settleAll all shown p =
      (shown.filterMap (matcher.placeAt p)).foldl (Progress.step piece.size) (all p) := by
  induction shown generalizing all with
  | nil => rfl
  | cons event shown ih =>
      rw [settleAll, List.foldl_cons, ← settleAll, ih, settle_apply hclosed hpiece]
      cases hplace : matcher.placeAt p event with
      | none => rw [List.filterMap_cons_none hplace]; rfl
      | some place => rw [List.filterMap_cons_some hplace]; rfl

/-- A finished piece does not move any more. -/
theorem settleAll_of_finished (hclosed : matcher.Closed) {p : Nat} {piece : Piece}
    (hpiece : matcher.pieces.get? p = some piece) (hfinished : (all p).finished = true)
    (shown : List Event) : matcher.settleAll all shown p = all p := by
  rw [settleAll_apply hclosed hpiece, Progress.foldl_step_of_finished hfinished]

theorem settleAll_append (shown more : List Event) :
    matcher.settleAll all (shown ++ more) =
      matcher.settleAll (matcher.settleAll all shown) more :=
  List.foldl_append

/-- The event that finishes a piece, and what is reported of it. -/
structure ReportedAt (matcher : Matcher P) (all : PieceId → Progress) (shown : List Event)
    (p : PieceId) (report : PatternMatch P) (before after : List Event) (event : Event) :
    Prop where
  shown_eq : shown = before ++ event :: after
  unfinished : (matcher.settleAll all before p).finished = false
  finished : (matcher.settleAll all (before ++ [event]) p).finished = true
  pattern_eq : (matcher.pieces.get? p).map (·.pattern) = some report.pattern
  offset_eq : report.offset = (matcher.settleAll all (before ++ [event]) p).start
  stop_eq : report.stop = event.1.stop

/-- The report is that of the piece, at some event. -/
def Reported (matcher : Matcher P) (all : PieceId → Progress) (shown : List Event) (p : PieceId)
    (report : PatternMatch P) : Prop :=
  ∃ before after event, ReportedAt matcher all shown p report before after event

theorem Reported.cons {shown : List Event} {p : PieceId} {report : PatternMatch P}
    (h : Reported matcher (matcher.settle all event) shown p report) :
    Reported matcher all (event :: shown) p report := by
  obtain ⟨before, after, last, h⟩ := h
  exact ⟨event :: before, after, last, ⟨by rw [h.shown_eq]; rfl, h.unfinished, h.finished,
    h.pattern_eq, h.offset_eq, h.stop_eq⟩⟩

/-- The pieces that some events finish. -/
def Finishes (matcher : Matcher P) (all : PieceId → Progress) (shown : List Event) (p : PieceId) :
    Prop :=
  p < matcher.pieces.size ∧ (all p).finished = false ∧
    (matcher.settleAll all shown p).finished = true

def reportAt? (matcher : Matcher P) (all : PieceId → Progress) (event : Event) :
    Option (PatternMatch P) :=
  (matcher.progress? all event.1 event.2).bind fun moved => moved.2.2

theorem reportsFrom_cons (event : Event) (shown : List Event) :
    matcher.reportsFrom all (event :: shown) =
      (matcher.reportAt? all event).toList ++
        matcher.reportsFrom (matcher.settle all event) shown := by
  obtain ⟨hit, id⟩ := event
  rw [reportsFrom, reportAt?, settle]
  cases hprogress : matcher.progress? all hit id with
  | none => rfl
  | some moved => rfl

/-- Without a report no piece was finished. -/
theorem finished_settle_of_none (h : matcher.reportAt? all event = none) (p : PieceId) :
    (matcher.settle all event p).finished = (all p).finished := by
  rw [reportAt?] at h
  rw [settle]
  cases hprogress : matcher.progress? all event.1 event.2 with
  | none => rfl
  | some moved =>
      obtain ⟨q, next, found⟩ := moved
      rw [hprogress, Option.bind_some] at h
      obtain ⟨_, _, -, -, -, hnext, hfound⟩ := progress?_cases hprogress
      rcases hfound with ⟨hunfinished, -⟩ | ⟨-, entry, -, hsome⟩
      · by_cases he : p = q
        · subst he
          simp only [Function.update_self, hunfinished]
          exact (Progress.accept?_eq_some_iff.mp hnext).1.symm
        · simp only [Function.update_of_ne he]
      · rw [hsome] at h
        cases h

/-- A report is that of the one piece that was finished. -/
theorem settle_of_some {report : PatternMatch P} (h : matcher.reportAt? all event = some report) :
    ∃ q piece, matcher.pieces.get? q = some piece ∧ (all q).finished = false ∧
      (matcher.settle all event q).finished = true ∧
      (∀ p, p ≠ q → matcher.settle all event p = all p) ∧ report.pattern = piece.pattern ∧
      report.offset = (matcher.settle all event q).start ∧ report.stop = event.1.stop := by
  rw [reportAt?] at h
  rw [settle]
  cases hprogress : matcher.progress? all event.1 event.2 with
  | none =>
      rw [hprogress] at h
      cases h
  | some moved =>
      obtain ⟨q, next, found⟩ := moved
      rw [hprogress, Option.bind_some] at h
      obtain ⟨_, piece, -, -, hpiece, hnext, hfound⟩ := progress?_cases hprogress
      rcases hfound with ⟨-, hnone⟩ | ⟨hfinished, entry, -, hsome⟩
      · rw [hnone] at h
        cases h
      · rw [hsome] at h
        obtain rfl := Option.some.inj h
        refine ⟨q, piece, hpiece, (Progress.accept?_eq_some_iff.mp hnext).1, ?_, ?_, rfl, ?_, rfl⟩
        · simp [hfinished]
        · intro p hne
          simp [Function.update_of_ne hne]
        · simp

/-- A scan reports the pieces that it finishes, each once. -/
theorem reportsFrom_spec (hclosed : matcher.Closed) (all : PieceId → Progress)
    (shown : List Event) :
    ∃ order : List PieceId,
      List.Forall₂ (Reported matcher all shown) order (matcher.reportsFrom all shown) ∧
        order.Nodup ∧ ∀ p, p ∈ order ↔ Finishes matcher all shown p := by
  induction shown generalizing all with
  | nil =>
      refine ⟨[], .nil, .nil, fun p => ?_⟩
      simp only [List.not_mem_nil, false_iff]
      rintro ⟨-, hunfinished, hfinished⟩
      exact Bool.false_ne_true (hunfinished.symm.trans hfinished)
  | cons event shown ih =>
      obtain ⟨order, hreports, hnodup, hmem⟩ := ih (matcher.settle all event)
      replace hreports := hreports.imp fun _ _ hreport => hreport.cons
      rw [reportsFrom_cons]
      cases hat : matcher.reportAt? all event with
      | none =>
          refine ⟨order, hreports, hnodup, fun p => ?_⟩
          rw [hmem, Finishes, finished_settle_of_none hat]
          rfl
      | some report =>
          obtain ⟨q, piece, hpiece, hunfinished, hfinished, hother, hpattern, hoffset, hstop⟩ :=
            settle_of_some hat
          -- A piece that is finished at once is none of those that are finished later.
          have hnew : q ∉ order := by
            rw [hmem]
            rintro ⟨-, hfalse, -⟩
            exact Bool.false_ne_true (hfalse.symm.trans hfinished)
          have hall : (matcher.settleAll all (event :: shown) q).finished = true := by
            rw [← hfinished]
            exact congrArg _ (settleAll_of_finished hclosed hpiece hfinished shown)
          refine ⟨q :: order, .cons ?_ hreports, List.nodup_cons.mpr ⟨hnew, hnodup⟩, fun p => ?_⟩
          · exact ⟨[], shown, event, rfl, hunfinished, hfinished,
              by rw [hpiece, hpattern]; rfl, hoffset, hstop⟩
          · rw [List.mem_cons, hmem]
            by_cases he : p = q
            · subst he
              simp only [true_or, true_iff]
              exact ⟨Pool.lt_size_of_get? hpiece, hunfinished, hall⟩
            · rw [Finishes, hother p he]
              simp only [he, false_or]
              rfl

end Matcher

end LiteralSieve
