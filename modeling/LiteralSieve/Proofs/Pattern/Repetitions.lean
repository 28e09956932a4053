import LiteralSieve.Proofs.Pattern.Drafts
import LiteralSieve.Proofs.Pattern.Grammar

namespace LiteralSieve

/-!
# Reading repetitions

A repetition that was written is read back as the quantifier that allows as much, or refused for its
bounds, if no other quantifier follows. Without a repetition nothing is read. Bounds are read as
numbers of 32 bits, which is enough to tell whether they are refused, and those that are not are
read as they were written.
-/

open Grammar

def quantifierSigns : List Char := ['*', '+', '?', '{']

theorem isPunctuation_of_mem_quantifierSigns {c : Char} (h : c ∈ quantifierSigns) :
    isPunctuation c = true := by
  have hall : quantifierSigns.all isPunctuation = true := by decide
  exact List.all_eq_true.mp hall c h

/-- No quantifier, and no sign of one, comes next. -/
def Unquantified (rest : List Char) : Prop := ∀ c ∈ rest.head?, c ∉ quantifierSigns

theorem unquantified_nil : Unquantified [] := fun _ h => by cases h

theorem unquantified_cons {c : Char} {rest : List Char} (h : c ∉ quantifierSigns) :
    Unquantified (c :: rest) := by
  intro d hd
  obtain rfl := Option.some.inj hd
  exact h

namespace Quantifier

theorem leading?_of_unquantified {rest : List Char} (h : Unquantified rest) :
    leading? rest = none := by
  unfold leading?
  split
  case h_5 => rfl
  all_goals exact absurd (h _ rfl) (by decide)

theorem starts_of_unquantified {rest : List Char} (h : Unquantified rest) :
    starts rest = false := by
  unfold starts
  split
  case h_5 => rfl
  all_goals exact absurd (h _ rfl) (by decide)

theorem leading?_eq_none {rest : List Char} (h : starts rest = false) : leading? rest = none := by
  unfold starts at h
  unfold leading?
  split <;> simp_all

theorem read_of_starts_eq_false {rest : List Char} (h : starts rest = false) (offset : Nat) :
    read false ⟨offset, rest⟩ = .ok (none, 0) := by
  simp [read, leading?_eq_none h]

theorem suffixLength_of_unquantified {rest : List Char} (h : Unquantified rest) :
    suffixLength rest = 0 := by
  unfold suffixLength
  split
  case h_3 => rfl
  all_goals exact absurd (h _ rfl) (by decide)

end Quantifier

/-! ## Bounds of 32 bits -/

namespace Quantifier

/-- The bounds, held at the largest number of 32 bits. -/
def held (q : Quantifier) : Quantifier := ⟨min q.least maxNumber, q.most.map (min · maxNumber)⟩

theorem maxBound_lt_maxNumber : maxBound < maxNumber := by decide

theorem held_of_le {q : Quantifier} (hleast : q.least ≤ maxBound)
    (hmost : ∀ most ∈ q.most, most ≤ maxBound) : q.held = q := by
  have hkept : ∀ {n : Nat}, n ≤ maxBound → min n maxNumber = n :=
    min_maxNumber_of_le maxBound_lt_maxNumber
  obtain ⟨least, most⟩ := q
  have hsame : most.map (min · maxNumber) = most := by
    cases most with
    | none => rfl
    | some most => exact congrArg some (hkept (hmost most rfl))
  rw [held, hkept hleast, hsame]

theorem tooLarge_held_iff (q : Quantifier) :
    (maxBound < q.held.least ∨ q.held.most.any (maxBound < ·) = true) ↔
      maxBound < q.least ∨ q.most.any (maxBound < ·) = true := by
  have hlarge : ∀ {n : Nat}, maxBound < min n maxNumber ↔ maxBound < n :=
    lt_iff_lt_of_le_iff_le (min_maxNumber_le_iff maxBound_lt_maxNumber)
  apply or_congr hlarge
  simp only [held, Option.any_map, hlarge]

/-- A quantifier with small bounds is not changed, and a bound that is too large stays so. -/
theorem held_or_fault? (q : Quantifier) :
    q.held = q ∨ q.held.fault? = some .repeatTooLarge ∧ q.fault? = some .repeatTooLarge := by
  by_cases hlarge : maxBound < q.least ∨ q.most.any (maxBound < ·) = true
  · exact .inr ⟨if_pos (q.tooLarge_held_iff.mpr hlarge), if_pos hlarge⟩
  · obtain ⟨hleast, hmost⟩ := not_or.mp hlarge
    refine .inl (held_of_le (Nat.not_lt.mp hleast) fun most hmem => Nat.not_lt.mp fun hlt => hmost ?_)
    exact (Option.any_eq_true _ _).mpr ⟨most, hmem, decide_eq_true hlt⟩

theorem fault?_held (q : Quantifier) : q.held.fault? = q.fault? := by
  rcases q.held_or_fault? with hsame | ⟨hheld, hfault⟩
  · rw [hsame]
  · rw [hheld, hfault]

theorem held_of_fault? {q : Quantifier} (h : q.fault? = none) : q.held = q := by
  rcases q.held_or_fault? with hsame | ⟨-, hfault⟩
  · exact hsame
  · rw [hfault] at h
    cases h

end Quantifier

/-! ## Runs of digits -/

namespace Grammar

/-- A bound as it is written: one or more digits, with any number of zeros in front. -/
structure DigitRun where
  chars : List Char
  ne_nil : chars ≠ []
  isDigit : ∀ c ∈ chars, c.isDigit = true

theorem digit?_of_isDigit {c : Char} (h : c.isDigit = true) :
    (Escaped.digit? 10 c).getD 0 = c.toNat - 0x30 := by
  have hdecimal : Escaped.digit? 10 c = some (c.toNat - 0x30) := by
    have hbound : c.toNat ≤ 0x39 := by
      rw [Char.isDigit, Bool.and_eq_true, decide_eq_true_eq, decide_eq_true_eq] at h
      exact UInt32.le_iff_toNat_le.mp h.2
    rw [Escaped.digit?, if_pos h, Option.filter_some, if_pos]
    exact decide_eq_true (by omega)
  rw [hdecimal, Option.getD_some]

theorem number_eq_ofDigitChars {digits : List Char} (h : ∀ c ∈ digits, c.isDigit = true)
    (init : Nat) :
    digits.foldl (fun acc c => acc * 10 + (Escaped.digit? 10 c).getD 0) init =
      Nat.ofDigitChars 10 digits init := by
  induction digits generalizing init with
  | nil => rw [Nat.ofDigitChars_nil, List.foldl_nil]
  | cons c digits ih =>
      obtain ⟨hc, hdigits⟩ := List.forall_mem_cons.mp h
      rw [List.foldl_cons, Nat.ofDigitChars_cons, ih hdigits, digit?_of_isDigit hc, Nat.mul_comm]
      rfl

namespace DigitRun

def value (run : DigitRun) : Nat := Nat.ofDigitChars 10 run.chars 0

theorem number_chars (run : DigitRun) :
    Escaped.number 10 run.chars = min run.value maxNumber := by
  rw [Escaped.number, heldNumber_eq_min (by decide), List.foldl_map]
  exact congrArg (min · maxNumber) (number_eq_ofDigitChars run.isDigit 0)

theorem takeWhile_chars (run : DigitRun) {c : Char} (h : c.isDigit = false) (rest : List Char) :
    (run.chars ++ c :: rest).takeWhile Char.isDigit = run.chars := by
  rw [List.takeWhile_append_of_pos run.isDigit,
    List.takeWhile_cons_of_neg (by rw [h]; exact Bool.false_ne_true), List.append_nil]

/-- The digits of a number without zeros in front. -/
def ofNat (n : Nat) : DigitRun where
  chars := Repetition.decimal n
  ne_nil := Nat.toDigits_ne_nil
  isDigit _ hc := Nat.isDigit_of_mem_toDigits (by decide) (by decide) hc

theorem value_ofNat (n : Nat) : (ofNat n).value = n := Nat.ofDigitChars_ten_toDigits

end DigitRun

/-! ## Intervals -/

/-- How often an atom may occur, in braces. -/
inductive Interval where
  | exactly (m : DigitRun)
  | atLeast (m : DigitRun)
  | between (m n : DigitRun)

namespace Interval

def text : Interval → List Char
  | exactly m => '{' :: m.chars ++ ['}']
  | atLeast m => '{' :: m.chars ++ [',', '}']
  | between m n => '{' :: m.chars ++ ',' :: n.chars ++ ['}']

/-- The bounds that an interval names. -/
def quantifier : Interval → Quantifier
  | exactly m => ⟨m.value, some m.value⟩
  | atLeast m => ⟨m.value, none⟩
  | between m n => ⟨m.value, some n.value⟩

theorem interval?_text (interval : Interval) (rest : List Char) :
    Quantifier.interval? (interval.text.tail ++ rest) =
      some (interval.quantifier.held, interval.text.tail.length) := by
  cases interval with
  | exactly m =>
      have htext : (exactly m).text.tail ++ rest = m.chars ++ '}' :: rest := by simp [text]
      rw [htext, Quantifier.interval?, m.takeWhile_chars (by decide)]
      simp [m.ne_nil, m.number_chars, quantifier, Quantifier.held, text]
  | atLeast m =>
      have htext : (atLeast m).text.tail ++ rest = m.chars ++ ',' :: '}' :: rest := by simp [text]
      rw [htext, Quantifier.interval?, m.takeWhile_chars (by decide)]
      simp [m.ne_nil, m.number_chars, quantifier, Quantifier.held, text]
  | between m n =>
      have htext : (between m n).text.tail ++ rest =
          m.chars ++ ',' :: (n.chars ++ '}' :: rest) := by simp [text]
      have hmore : (n.chars ++ '}' :: rest).takeWhile Char.isDigit = n.chars :=
        n.takeWhile_chars (by decide) rest
      rw [htext, Quantifier.interval?, m.takeWhile_chars (by decide)]
      simp [m.ne_nil, n.ne_nil, m.number_chars, n.number_chars, hmore, quantifier,
        Quantifier.held, text]
      omega

theorem leading?_text (interval : Interval) (rest : List Char) :
    Quantifier.leading? (interval.text ++ rest) =
      some (interval.quantifier.held, interval.text.length) := by
  have htext : interval.text = '{' :: interval.text.tail := by cases interval <;> rfl
  rw [htext, List.cons_append, Quantifier.leading?, interval.interval?_text]
  rfl

end Interval

namespace Repetition

/-- The bounds that a repetition names. -/
def quantifier : Repetition → Quantifier
  | optional => ⟨0, some 1⟩
  | star => ⟨0, none⟩
  | plus => ⟨1, none⟩
  | exactly m => ⟨m, some m⟩
  | atLeast m => ⟨m, none⟩
  | between m n => ⟨m, some n⟩

theorem allows_quantifier {k : Nat} {repetition : Repetition} (h : repetition.Allows k) :
    repetition.quantifier.Allows k := by
  cases repetition with
  | optional => exact ⟨Nat.zero_le k, fun most hmost => Option.some.inj hmost ▸ h⟩
  | star => exact ⟨Nat.zero_le k, fun most hmost => by cases hmost⟩
  | plus => exact ⟨h, fun most hmost => by cases hmost⟩
  | exactly m => exact ⟨h.ge, fun most hmost => Option.some.inj hmost ▸ h.le⟩
  | atLeast m => exact ⟨h, fun most hmost => by cases hmost⟩
  | between m n => exact ⟨h.1, fun most hmost => Option.some.inj hmost ▸ h.2⟩

theorem leading?_text (repetition : Repetition) (rest : List Char) :
    Quantifier.leading? (repetition.text ++ rest) =
      some (repetition.quantifier.held, repetition.text.length) := by
  cases repetition with
  | optional => rfl
  | star => rfl
  | plus => rfl
  | exactly m =>
      have hread := (Interval.exactly (.ofNat m)).leading?_text rest
      rw [Interval.quantifier, DigitRun.value_ofNat] at hread
      exact hread
  | atLeast m =>
      have hread := (Interval.atLeast (.ofNat m)).leading?_text rest
      rw [Interval.quantifier, DigitRun.value_ofNat] at hread
      exact hread
  | between m n =>
      have hread := (Interval.between (.ofNat m) (.ofNat n)).leading?_text rest
      rw [Interval.quantifier, DigitRun.value_ofNat, DigitRun.value_ofNat] at hread
      exact hread

end Repetition

end Grammar

/-! ## Quantifiers -/

/-- A repetition is read back, or its bounds are refused. -/
theorem read_repetition (repetition : Option Repetition) (offset : Nat) {rest : List Char}
    (h : Unquantified rest) :
    (∃ fault, Quantifier.read false ⟨offset, repetitionText repetition ++ rest⟩ = .error fault) ∨
      Quantifier.read false ⟨offset, repetitionText repetition ++ rest⟩ =
        .ok (repetition.map (·.quantifier), (repetitionText repetition).length) := by
  cases repetition with
  | none =>
      right
      simp [Quantifier.read, repetitionText, Quantifier.leading?_of_unquantified h]
  | some repetition =>
      cases hfault : repetition.quantifier.fault? with
      | some kind =>
          left
          simp [Quantifier.read, repetitionText, repetition.leading?_text, Quantifier.fault?_held,
            hfault]
      | none =>
          right
          simp [Quantifier.read, repetitionText, repetition.leading?_text,
            Quantifier.held_of_fault? hfault, hfault, Quantifier.suffixLength_of_unquantified h, Quantifier.starts_of_unquantified h]

/-- What is read allows at least as much as what was written. -/
theorem repeated_le_words (repetition : Repetition) (l : Language UInt8) :
    repeated (some repetition) l ≤ repetition.quantifier.words l :=
  fun _ ⟨k, hk, hword⟩ => ⟨k, Repetition.allows_quantifier hk, hword⟩

end LiteralSieve
