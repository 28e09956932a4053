import LiteralSieve.Proofs.Pattern.Parentheses

namespace LiteralSieve

/-!
# Recognition of intervals

Where a pattern is made of small letters, digits, commas and braces alone, only intervals can be at
fault. What is an interval is told from its own text, and whether it may stand in its place from
what stands before it. A scan that knows no more than that finds the same fault as the parser.
-/

namespace Grammar.Interval

def bounds : Interval → List Nat
  | exactly m => [m.value]
  | atLeast m => [m.value]
  | between m n => [m.value, n.value]

def TooLarge (interval : Interval) : Prop := ∃ bound ∈ interval.bounds, 100000 < bound

def Reversed : Interval → Prop
  | between m n => n.value < m.value
  | _ => False

theorem tooLarge_iff (interval : Interval) :
    interval.TooLarge ↔ Quantifier.maxBound < interval.quantifier.least ∨
      interval.quantifier.most.any (Quantifier.maxBound < ·) = true := by
  simp only [Option.any_eq_true, decide_eq_true_eq]
  cases interval <;> simp [TooLarge, bounds, quantifier, Quantifier.maxBound]

theorem reversed_iff (interval : Interval) :
    interval.Reversed ↔ interval.quantifier.most.any (· < interval.quantifier.least) = true := by
  simp only [Option.any_eq_true, decide_eq_true_eq]
  cases interval <;> simp [Reversed, quantifier]

theorem fault?_of_tooLarge {interval : Interval} (h : interval.TooLarge) :
    interval.quantifier.fault? = some .repeatTooLarge :=
  if_pos (interval.tooLarge_iff.mp h)

theorem fault?_of_reversed {interval : Interval} (h : ¬ interval.TooLarge)
    (hreversed : interval.Reversed) :
    interval.quantifier.fault? = some .invalidRepeatRange := by
  rw [Quantifier.fault?, if_neg (mt interval.tooLarge_iff.mpr h),
    if_pos (interval.reversed_iff.mp hreversed)]

theorem fault?_of_accepted {interval : Interval} (h : ¬ interval.TooLarge)
    (hreversed : ¬ interval.Reversed) : interval.quantifier.fault? = none := by
  rw [Quantifier.fault?, if_neg (mt interval.tooLarge_iff.mpr h),
    if_neg (mt interval.reversed_iff.mpr hreversed)]

theorem starts_text (interval : Interval) (rest : List Char) :
    Quantifier.starts (interval.text ++ rest) = true := by
  have htext : interval.text = '{' :: interval.text.tail := by cases interval <;> rfl
  rw [htext, List.cons_append, Quantifier.starts, interval.interval?_text]
  rfl

end Grammar.Interval

namespace Intervals

open Grammar

/-- A small letter, a digit, a comma or a brace. -/
def Plain (c : Char) : Prop :=
  c.isLower = true ∨ c.isDigit = true ∨ c = ',' ∨ c = '{' ∨ c = '}'
deriving Decidable

def StartsInterval (text : List Char) : Prop :=
  ∃ (interval : Interval) (rest : List Char), text = interval.text ++ rest

/-- What an interval may stand after. -/
inductive Before where
  | nothing
  | atom
  | interval

/-- From the offset on, the text is scanned with this result. An interval must stand after an atom
and must have bounds in order that are not too large; every other character is an atom. -/
inductive Scans : Before → Nat → List Char → Except Fault Unit → Prop
  | finish {before : Before} {offset : Nat} : Scans before offset [] (.ok ())
  | bare {interval : Interval} {offset : Nat} {rest : List Char} :
    Scans .nothing offset (interval.text ++ rest) (.error ⟨.nothingToRepeat, offset⟩)
  | nested {interval : Interval} {offset : Nat} {rest : List Char} :
    Scans .interval offset (interval.text ++ rest) (.error ⟨.nestedQuantifier, offset⟩)
  | tooLarge {interval : Interval} {offset : Nat} {rest : List Char} (h : interval.TooLarge) :
    Scans .atom offset (interval.text ++ rest) (.error ⟨.repeatTooLarge, offset⟩)
  | reversed {interval : Interval} {offset : Nat} {rest : List Char} (h : ¬ interval.TooLarge)
      (hreversed : interval.Reversed) :
    Scans .atom offset (interval.text ++ rest) (.error ⟨.invalidRepeatRange, offset⟩)
  | accept {interval : Interval} {offset : Nat} {rest : List Char} {result : Except Fault Unit}
      (h : ¬ interval.TooLarge) (hreversed : ¬ interval.Reversed)
      (hrest : Scans .interval (offset + interval.text.length) rest result) :
    Scans .atom offset (interval.text ++ rest) result
  | atom {before : Before} {offset : Nat} {c : Char} {rest : List Char}
      {result : Except Fault Unit} (h : ¬ StartsInterval (c :: rest))
      (hrest : Scans .atom (offset + 1) rest result) : Scans before offset (c :: rest) result

/-- Every text is scanned with some result. -/
theorem exists_scans (before : Before) (offset : Nat) (text : List Char) :
    ∃ result, Scans before offset text result := by
  induction hlength : text.length using Nat.strong_induction_on generalizing before offset text with
  | _ length ih =>
    subst hlength
    by_cases hstarts : StartsInterval text
    · obtain ⟨interval, rest, rfl⟩ := hstarts
      have hlt : rest.length < (interval.text ++ rest).length := by
        cases interval <;> simp [Interval.text] <;> omega
      cases before with
      | nothing => exact ⟨_, .bare⟩
      | interval => exact ⟨_, .nested⟩
      | atom =>
          by_cases hlarge : interval.TooLarge
          · exact ⟨_, .tooLarge hlarge⟩
          by_cases hreversed : interval.Reversed
          · exact ⟨_, .reversed hlarge hreversed⟩
          obtain ⟨result, hrest⟩ := ih rest.length hlt .interval _ rest rfl
          exact ⟨result, .accept hlarge hreversed hrest⟩
    · cases text with
      | nil => exact ⟨_, .finish⟩
      | cons c rest =>
          obtain ⟨result, hrest⟩ := ih rest.length (Nat.lt_succ_self _) .atom (offset + 1) rest rfl
          exact ⟨result, .atom hstarts hrest⟩

/-! ## Plain texts -/

variable {c : Char} {text rest : List Char}

theorem Plain.utf8Size (h : Plain c) : c.utf8Size = 1 := by
  rcases h with hlower | hdigit | rfl | rfl | rfl
  · have halpha : c.isAlpha = true := Bool.or_eq_true_iff.mpr (.inr hlower)
    exact Parentheses.utf8Size_of_isAlphanum (Bool.or_eq_true_iff.mpr (.inl halpha))
  · exact Parentheses.utf8Size_of_isAlphanum (Bool.or_eq_true_iff.mpr (.inr hdigit))
  · rfl
  · rfl
  · rfl

theorem Plain.notMem {signs : List Char} (h : Plain c)
    (hsigns : signs.all (fun d => !decide (Plain d)) = true) : c ∉ signs := by
  intro hmem
  have hnot := List.all_eq_true.mp hsigns c hmem
  simp [h] at hnot

theorem width_eq_length (h : ∀ c ∈ text, Plain c) : width text = text.length := by
  induction text with
  | nil => rfl
  | cons c text ih =>
      obtain ⟨hc, htext⟩ := List.forall_mem_cons.mp h
      rw [width_cons, ih htext, hc.utf8Size, List.length_cons, Nat.add_comm]

theorem suffixLength_of_plain (h : ∀ c ∈ text, Plain c) : Quantifier.suffixLength text = 0 := by
  unfold Quantifier.suffixLength
  split
  · exact absurd (h _ List.mem_cons_self) (by decide)
  · exact absurd (h _ List.mem_cons_self) (by decide)
  · rfl

/-- The digits at the front of a text. -/
def frontDigits (text : List Char) (h : text.takeWhile Char.isDigit ≠ []) : DigitRun where
  chars := text.takeWhile Char.isDigit
  ne_nil := h
  isDigit := List.all_eq_true.mp List.all_takeWhile

theorem takeWhile_append_drop (text : List Char) :
    text.takeWhile Char.isDigit ++ text.drop (text.takeWhile Char.isDigit).length = text :=
  List.prefix_iff_eq_append.mp (List.takeWhile_prefix _)

/-- What is read as an interval is written as one. -/
theorem startsInterval_of_interval? (h : (Quantifier.interval? rest).isSome = true) :
    StartsInterval ('{' :: rest) := by
  have hrest := takeWhile_append_drop rest
  unfold Quantifier.interval? at h
  dsimp only at h
  split at h
  case isTrue => cases h
  case isFalse hdigits =>
    have hleast : rest.takeWhile Char.isDigit ≠ [] := fun hnil => hdigits (by rw [hnil]; rfl)
    split at h
    case h_1 tail htail =>
      refine ⟨.exactly (frontDigits rest hleast), tail, ?_⟩
      rw [htail] at hrest
      simp [Interval.text, frontDigits, hrest]
    case h_2 more hmore =>
      have hcomma := takeWhile_append_drop more
      rw [hmore, ← hcomma] at hrest
      split at h
      case isFalse => cases h
      case isTrue hclose =>
        obtain ⟨tail, htail⟩ := List.head?_eq_some_iff.mp hclose
        rw [htail] at hrest
        by_cases hnone : more.takeWhile Char.isDigit = []
        · refine ⟨.atLeast (frontDigits rest hleast), tail, ?_⟩
          rw [hnone] at hrest
          simpa [Interval.text, frontDigits] using hrest.symm
        · refine ⟨.between (frontDigits rest hleast) (frontDigits more hnone), tail, ?_⟩
          simpa [Interval.text, frontDigits] using hrest.symm
    case h_3 => cases h

/-- In a plain text the sign of a quantifier is an interval. -/
theorem starts_eq_false (h : ∀ c ∈ text, Plain c) (hno : ¬ StartsInterval text) :
    Quantifier.starts text = false := by
  unfold Quantifier.starts
  split
  · exact absurd (h _ List.mem_cons_self) (by decide)
  · exact absurd (h _ List.mem_cons_self) (by decide)
  · exact absurd (h _ List.mem_cons_self) (by decide)
  · exact Bool.eq_false_iff.mpr fun hsome => hno (startsInterval_of_interval? hsome)
  · rfl

theorem readsAs_char_of_plain (h : Plain c) (hstarts : Quantifier.starts (c :: rest) = false) :
    ReadsAs .none [c] (.atom (.char c)) rest := by
  apply readsAs_ordinary _ hstarts
  · exact fun hextended => absurd hextended Bool.false_ne_true
  · exact h.notMem (by decide)

/-! ## Quantifiers after an atom -/

theorem read_of_fault? {interval : Interval} {kind : FaultKind}
    (hfault : interval.quantifier.fault? = some kind) (offset : Nat) (rest : List Char) :
    Quantifier.read false ⟨offset, interval.text ++ rest⟩ = .error ⟨kind, offset⟩ := by
  simp [Quantifier.read, interval.leading?_text, Quantifier.fault?_held, hfault]

theorem read_of_nested {interval : Interval} (hfault : interval.quantifier.fault? = none)
    (hrest : ∀ c ∈ rest, Plain c) (hstarts : Quantifier.starts rest = true) (offset : Nat) :
    Quantifier.read false ⟨offset, interval.text ++ rest⟩ =
      .error ⟨.nestedQuantifier, offset + width interval.text⟩ := by
  simp [Quantifier.read, interval.leading?_text, Quantifier.held_of_fault? hfault, hfault,
    suffixLength_of_plain hrest, Cursor.advance_append, hstarts]

theorem read_of_accepted {interval : Interval} (hfault : interval.quantifier.fault? = none)
    (hrest : ∀ c ∈ rest, Plain c) (hstarts : Quantifier.starts rest = false) (offset : Nat) :
    Quantifier.read false ⟨offset, interval.text ++ rest⟩ =
      .ok (some interval.quantifier, interval.text.length) := by
  simp [Quantifier.read, interval.leading?_text, Quantifier.held_of_fault? hfault, hfault,
    suffixLength_of_plain hrest, Cursor.advance_append, hstarts]

end Intervals

/-! ## What the parser does -/

/-- What comes of the pattern after a step. -/
def ParserStep.root (reading : Reading) : ParserStep → Except Fault Node
  | done result => result.root
  | next state cursor => (ParserState.run reading state cursor).root

namespace ParserState

open Grammar Intervals

variable {reading : Reading} {state : ParserState} {offset : Nat} {text : List Char}

theorem root_run (reading : Reading) (state : ParserState) (cursor : Cursor) :
    (run reading state cursor).root = (step reading state cursor).root reading := by
  cases hstep : step reading state cursor with
  | done result => rw [run_of_done hstep, ParserStep.root]
  | next later stop => rw [run_of_next hstep, ParserStep.root]

/-- What comes of a text where this stands before it; an atom there is not added yet. -/
def rootAfter (reading : Reading) (state : ParserState) (start : Nat) (atom : Atom)
    (offset : Nat) (text : List Char) : Before → Except Fault Node
  | .nothing => (run reading state ⟨offset, text⟩).root
  | .atom => (addAtom reading state start atom ⟨offset, text⟩).root reading
  | .interval =>
    if Quantifier.starts text then .error ⟨.nestedQuantifier, offset⟩
    else (run reading state ⟨offset, text⟩).root

theorem extended_of_holds {opened : List Nat} (h : state.Holds opened) :
    state.flags.extended = false := by
  rw [h.flags]
  rfl

theorem holds_withDraft {opened : List Nat} (h : state.Holds opened) (draft : Draft) :
    (state.withDraft draft).Holds opened :=
  ⟨h.flags, h.opened, h.around⟩

/-- Where no interval starts, it does not matter what stands before. -/
theorem exists_rootAfter_eq (h : state.Holds []) (hstarts : Quantifier.starts text = false)
    (reading : Reading) (start : Nat) (atom : Atom) (offset : Nat) (before : Before) :
    ∃ next : ParserState, next.Holds [] ∧
      rootAfter reading state start atom offset text before =
        (run reading next ⟨offset, text⟩).root := by
  cases before with
  | nothing => exact ⟨state, h, rfl⟩
  | atom =>
      rw [rootAfter, addAtom_bare (extended_of_holds h) hstarts]
      exact ⟨_, holds_withDraft h _, rfl⟩
  | interval =>
      rw [rootAfter, hstarts, if_neg Bool.false_ne_true]
      exact ⟨state, h, rfl⟩

theorem rootAfter_of_fault? (h : state.Holds []) {interval : Interval} {kind : FaultKind}
    (hfault : interval.quantifier.fault? = some kind) (start : Nat) (atom : Atom)
    (offset : Nat) (rest : List Char) :
    rootAfter reading state start atom offset (interval.text ++ rest) .atom =
      .error ⟨kind, offset⟩ := by
  rw [rootAfter, addAtom, extended_of_holds h, read_of_fault? hfault]
  rfl

theorem exists_rootAfter_interval (h : state.Holds []) {interval : Interval}
    (hfault : interval.quantifier.fault? = none) (htext : ∀ c ∈ interval.text ++ text, Plain c)
    (reading : Reading) (start : Nat) (atom : Atom) (offset : Nat) :
    ∃ next : ParserState, next.Holds [] ∧
      rootAfter reading state start atom offset (interval.text ++ text) .atom =
        rootAfter reading next start atom (offset + interval.text.length) text .interval := by
  obtain ⟨hinterval, htext⟩ := List.forall_mem_append.mp htext
  rw [← width_eq_length hinterval, rootAfter]
  cases hstarts : Quantifier.starts text with
  | true =>
      refine ⟨state, h, ?_⟩
      rw [addAtom, extended_of_holds h, read_of_nested hfault htext hstarts, rootAfter, hstarts]
      rfl
  | false =>
      have hadd : addAtom reading state start atom ⟨offset, interval.text ++ text⟩ = _ :=
        addAtom_of_read (extended_of_holds h) (read_of_accepted hfault htext hstarts offset)
      have hafter : ∀ next : ParserState,
          rootAfter reading next start atom (offset + width interval.text) text .interval =
            (run reading next ⟨offset + width interval.text, text⟩).root :=
        fun next => if_neg (Bool.eq_false_iff.mp hstarts)
      rw [hadd]
      exact ⟨_, holds_withDraft h _, (hafter _).symm⟩

/-- A character that starts no interval is an atom. -/
theorem rootAfter_char (h : state.Holds []) {c : Char} (hc : Plain c)
    (hstarts : Quantifier.starts (c :: text) = false) :
    (run reading state ⟨offset, c :: text⟩).root =
      rootAfter reading state offset (.char c) (offset + 1) text .atom := by
  have hreads : ReadsAs state.flags [c] (.atom (.char c)) text :=
    h.flags ▸ readsAs_char_of_plain hc hstarts
  have hunder : (Atom.char c).under state.flags reading.caseSensitive = .char c := by
    rw [h.flags]
    rfl
  have hunit : (Atom.char c).IsUnit := trivial
  have hstep : step reading state ⟨offset, c :: text⟩ =
      state.apply reading offset ⟨offset + 1, text⟩ (.atom (.char c)) := by
    rw [← List.singleton_append, step_of_readsAs hreads, width_cons, hc.utf8Size]
    rfl
  rw [root_run, hstep, apply_of_isUnit hunit, hunder]
  rfl

/-- Where a quantifier starts, no atom does. -/
theorem root_run_interval (reading : Reading) (state : ParserState) (interval : Interval)
    (offset : Nat) (rest : List Char) :
    (run reading state ⟨offset, interval.text ++ rest⟩).root =
      .error ⟨.nothingToRepeat, offset⟩ := by
  have htext : interval.text = '{' :: interval.text.tail := by cases interval <;> rfl
  have hstarts := interval.starts_text rest
  rw [htext, List.cons_append] at hstarts ⊢
  have hread : Lexeme.read state.flags offset '{' (interval.text.tail ++ rest) =
      .error ⟨.nothingToRepeat, offset⟩ := if_pos hstarts
  rw [root_run, step, hread]
  rfl

/-- The parser comes to what the scan comes to. -/
theorem rootAfter_of_scans {before : Before} {result : Except Fault Unit}
    (hscans : Scans before offset text result) (htext : ∀ c ∈ text, Plain c)
    (h : state.Holds []) (reading : Reading) (start : Nat) (atom : Atom) :
    (rootAfter reading state start atom offset text before).map (fun _ => ()) = result := by
  induction hscans generalizing state start atom with
  | @finish before offset =>
      have hstarts : Quantifier.starts [] = false := rfl
      obtain ⟨next, hnext, hroot⟩ := exists_rootAfter_eq h hstarts reading start atom offset before
      rw [hroot, run_of_done rfl]
      exact hnext.finish offset
  | @bare interval offset rest =>
      rw [rootAfter, root_run_interval]
      rfl
  | @nested interval offset rest =>
      rw [rootAfter, if_pos (interval.starts_text rest)]
      rfl
  | tooLarge hlarge =>
      rw [rootAfter_of_fault? h (Interval.fault?_of_tooLarge hlarge)]
      rfl
  | reversed hlarge hreversed =>
      rw [rootAfter_of_fault? h (Interval.fault?_of_reversed hlarge hreversed)]
      rfl
  | accept hlarge hreversed _ ih =>
      have hfault := Interval.fault?_of_accepted hlarge hreversed
      obtain ⟨next, hnext, hroot⟩ :=
        exists_rootAfter_interval h hfault htext reading start atom _
      rw [hroot]
      exact ih (List.forall_mem_append.mp htext).2 hnext start atom
  | @atom before offset c rest result hno _ ih =>
      obtain ⟨hc, hrest⟩ := List.forall_mem_cons.mp htext
      have hstarts := starts_eq_false htext hno
      obtain ⟨next, hnext, hroot⟩ := exists_rootAfter_eq h hstarts reading start atom offset before
      rw [hroot, rootAfter_char hnext hc hstarts]
      exact ih hrest hnext offset (.char c)

end ParserState

namespace PatternTree

open Intervals

/-- Small letters, digits, commas and braces are read with the result of the scan, and that is the
only one that the scan has. -/
theorem compile_iff_scans (tree : PatternTree) (pattern : String) (expansion : Bool)
    (result : Except Fault Unit) (h : ∀ c ∈ pattern.toList, Plain c) :
    (tree.compile pattern expansion).2 = result.mapError (PatternError.malformed · pattern) ↔
      Scans .nothing 0 pattern.toList result := by
  have hcompile : ∀ {found : Except Fault Unit}, Scans .nothing 0 pattern.toList found →
      (tree.compile pattern expansion).2 = found.mapError (PatternError.malformed · pattern) := by
    intro found hscans
    have hroot := ParserState.rootAfter_of_scans hscans h ParserState.holds_initial
      ⟨expansion, tree.caseSensitive⟩ 0 .nothing
    rw [← hroot]
    change (compile _ _ _).2 = ((parse _ _).root.map _).mapError _
    unfold compile
    dsimp only
    cases (parse ⟨expansion, tree.caseSensitive⟩ pattern).root <;> rfl
  refine ⟨fun hresult => ?_, hcompile⟩
  obtain ⟨found, hscans⟩ := exists_scans .nothing 0 pattern.toList
  have heq := (hcompile hscans).symm.trans hresult
  have hfound : found = result := by
    cases found <;> cases result <;> simp_all [Except.mapError]
  exact hfound ▸ hscans

/-- The first brace and the one after the interval are atoms. Zeros in front do not make a bound
large. -/
theorem compile_iff_scans_reversed :
    let pattern := "\x7b,5\x7da\x7b7\x7d\x7bx\x7b0010,9\x7d"
    (∀ c ∈ pattern.toList, Plain c) ∧
      (empty.compile pattern true).2 = .error (.malformed ⟨.invalidRepeatRange, 10⟩ pattern) ∧
      Scans .nothing 0 pattern.toList (.error ⟨.invalidRepeatRange, 10⟩) := by
  intro pattern
  have hall : pattern.toList.all (fun c => decide (Plain c)) = true := by decide +kernel
  have hplain : ∀ c ∈ pattern.toList, Plain c :=
    fun c hc => decide_eq_true_eq.mp (List.all_eq_true.mp hall c hc)
  have hcompile : (empty.compile pattern true).2 =
      .error (.malformed ⟨.invalidRepeatRange, 10⟩ pattern) := by decide +kernel
  exact ⟨hplain, hcompile,
    (compile_iff_scans empty pattern true (.error ⟨.invalidRepeatRange, 10⟩) hplain).mp hcompile⟩

end PatternTree

end LiteralSieve
