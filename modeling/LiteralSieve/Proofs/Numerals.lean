import LiteralSieve.Byte
import LiteralSieve.Number

namespace LiteralSieve

/-!
# Numerals

Numbers are written as rows of digits in some base, with any number of zeros in front. A digit may
be a letter in either case.
-/

/-- The byte writes this digit; the digits from ten on are letters in either case. -/
inductive WritesDigit : Nat → UInt8 → Prop
  | figure {d : Nat} (h : d < 10) : WritesDigit d (UInt8.ofNat (0x30 + d))
  | capital {d : Nat} (h : d < 6) : WritesDigit (10 + d) (UInt8.ofNat (0x41 + d))
  | small {d : Nat} (h : d < 6) : WritesDigit (10 + d) (UInt8.ofNat (0x61 + d))

/-- The digits write this number, with any number of zeros in front. -/
inductive Numeral (base : Nat) : Nat → Bytes → Prop
  | digit {d : Nat} {b : UInt8} (hlt : d < base) (hb : WritesDigit d b) : Numeral base d [b]
  | concat {n d : Nat} {digits : Bytes} {b : UInt8} (h : Numeral base n digits) (hlt : d < base)
      (hb : WritesDigit d b) : Numeral base (n * base + d) (digits ++ [b])

theorem WritesDigit.hexValue?_eq {d : Nat} {b : UInt8} (h : WritesDigit d b) :
    Byte.hexValue? b = some d := by
  cases h with
  | figure h =>
      have hall : ∀ d < 10, Byte.hexValue? (UInt8.ofNat (0x30 + d)) = some d := by decide
      exact hall _ h
  | capital h =>
      have hall : ∀ d < 6, Byte.hexValue? (UInt8.ofNat (0x41 + d)) = some (10 + d) := by decide
      exact hall _ h
  | small h =>
      have hall : ∀ d < 6, Byte.hexValue? (UInt8.ofNat (0x61 + d)) = some (10 + d) := by decide
      exact hall _ h

theorem WritesDigit.isDigit {d : Nat} {b : UInt8} (h : WritesDigit d b) (hlt : d < 10) :
    Byte.isDigit b = true := by
  cases h with
  | figure h =>
      have hall : ∀ d < 10, Byte.isDigit (UInt8.ofNat (0x30 + d)) = true := by decide
      exact hall _ h
  | capital h => omega
  | small h => omega

namespace Numeral

variable {base n : Nat} {digits : Bytes}

theorem exists_writesDigit (h : Numeral base n digits) {b : UInt8} (hb : b ∈ digits) :
    ∃ d < base, WritesDigit d b := by
  induction h with
  | digit hlt hd =>
      obtain rfl := List.mem_singleton.mp hb
      exact ⟨_, hlt, hd⟩
  | concat _ hlt hd ih =>
      rcases List.mem_append.mp hb with hmem | hlast
      · exact ih hmem
      · obtain rfl := List.mem_singleton.mp hlast
        exact ⟨_, hlt, hd⟩

theorem ne_nil (h : Numeral base n digits) : digits ≠ [] := by
  cases h with
  | digit => exact List.cons_ne_nil _ _
  | concat => exact List.append_ne_nil_of_right_ne_nil _ (List.cons_ne_nil _ _)

theorem base_pos (h : Numeral base n digits) : 0 < base := by
  cases h with
  | digit hlt => exact Nat.zero_lt_of_lt hlt
  | concat _ hlt => exact Nat.zero_lt_of_lt hlt

/-- Whoever knows the digits one by one reads the number, held at the largest one. -/
theorem heldNumber_map {value : UInt8 → Nat} (h : Numeral base n digits)
    (hvalue : ∀ {d b}, d < base → WritesDigit d b → value b = d) :
    heldNumber base (digits.map value) = min n maxNumber := by
  have hfold : (digits.map value).foldl (fun n digit => n * base + digit) 0 = n := by
    induction h with
    | digit hlt hb => simp [hvalue hlt hb]
    | concat _ hlt hb ih => simp [ih, hvalue hlt hb]
  rw [heldNumber_eq_min h.base_pos, hfold]

end Numeral

end LiteralSieve
