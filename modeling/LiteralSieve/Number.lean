namespace LiteralSieve

/-!
# Numbers of 32 bits

Digits write a number that is kept in 32 bits. After every digit a number that is too large is held
at the largest one. Further digits do not bring it back, so it is the same as if the number was held
once, at the end. Whoever asks whether a number is within a smaller bound gets the right answer.
-/

def maxNumber : Nat := 0xFFFFFFFF

/-- The number with one more digit at its end. -/
def pushDigit (base n digit : Nat) : Nat := min (min (n * base) maxNumber + digit) maxNumber

/-- The number that the digits write, held at `maxNumber`. -/
def heldNumber (base : Nat) (digits : List Nat) : Nat := digits.foldl (pushDigit base) 0

variable {base : Nat}

theorem pushDigit_min (hbase : 0 < base) (n digit : Nat) :
    pushDigit base (min n maxNumber) digit = min (n * base + digit) maxNumber := by
  unfold pushDigit
  rcases Nat.le_total n maxNumber with hle | hle
  · rw [Nat.min_eq_left hle]
    omega
  · have hheld : maxNumber ≤ maxNumber * base := Nat.le_mul_of_pos_right _ hbase
    have hgrows : n ≤ n * base := Nat.le_mul_of_pos_right _ hbase
    rw [Nat.min_eq_right hle]
    omega

theorem heldNumber_eq_min (hbase : 0 < base) (digits : List Nat) :
    heldNumber base digits = min (digits.foldl (fun n digit => n * base + digit) 0) maxNumber := by
  have hstart : min 0 maxNumber = 0 := Nat.zero_min _
  rw [heldNumber, ← hstart]
  apply List.foldl_hom (min · maxNumber)
  exact pushDigit_min hbase

theorem min_maxNumber_le_iff {n bound : Nat} (hbound : bound < maxNumber) :
    min n maxNumber ≤ bound ↔ n ≤ bound := by
  omega

theorem min_maxNumber_of_le {n bound : Nat} (hbound : bound < maxNumber) (hle : n ≤ bound) :
    min n maxNumber = n :=
  Nat.min_eq_left (Nat.le_of_lt (Nat.lt_of_le_of_lt hle hbound))

end LiteralSieve
