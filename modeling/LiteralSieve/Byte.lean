namespace LiteralSieve

/-!
# Bytes

Scanned texts, keys and literals are byte strings. The classes below see ASCII only: a byte from
`0x80` on is no letter, digit, blank or control.
-/

abbrev Bytes := List UInt8

namespace Byte

/-- All byte values in ascending order. -/
def all : List UInt8 := (List.range 256).map UInt8.ofNat

def isAscii (b : UInt8) : Bool := b < 0x80

def isDigit (b : UInt8) : Bool := 0x30 ≤ b && b ≤ 0x39

def isUpper (b : UInt8) : Bool := 0x41 ≤ b && b ≤ 0x5A

def isLower (b : UInt8) : Bool := 0x61 ≤ b && b ≤ 0x7A

def isAlpha (b : UInt8) : Bool := isUpper b || isLower b

def isAlphanum (b : UInt8) : Bool := isAlpha b || isDigit b

/-- Letters, digits and the underscore. -/
def isWord (b : UInt8) : Bool := isAlphanum b || b == 0x5F

/-- Space, tab, line feed, vertical tab, form feed and carriage return. -/
def isSpace (b : UInt8) : Bool := b == 0x20 || (0x09 ≤ b && b ≤ 0x0D)

/-- Printed with ink: the characters from `!` to `~`. -/
def isGraphic (b : UInt8) : Bool := 0x21 ≤ b && b ≤ 0x7E

def isControl (b : UInt8) : Bool := b < 0x20 || b == 0x7F

def isPunctuation (b : UInt8) : Bool := isGraphic b && !isAlphanum b

/-- The value of a digit in base sixteen. -/
def hexValue? (b : UInt8) : Option Nat :=
  if isDigit b then some (b.toNat - 0x30)
  else if 0x41 ≤ b && b ≤ 0x46 then some (b.toNat - 0x37)
  else if 0x61 ≤ b && b ≤ 0x66 then some (b.toNat - 0x57)
  else none

def toUpper (b : UInt8) : UInt8 := if isLower b then b - 0x20 else b

def toLower (b : UInt8) : UInt8 := if isUpper b then b + 0x20 else b

def flipCase (b : UInt8) : UInt8 := b ^^^ 0x20

def toChar (b : UInt8) : Char := Char.ofUInt8 b

theorem mem_all (b : UInt8) : b ∈ all :=
  List.mem_map.mpr ⟨b.toNat, List.mem_range.mpr b.toNat_lt, UInt8.ofNat_toNat⟩

/-- What can be decided of a byte is decided of all of them by going through the list. -/
theorem forall_of_all (p : UInt8 → Prop) [DecidablePred p] (h : (all.all fun b => p b) = true)
    (b : UInt8) : p b :=
  of_decide_eq_true (List.all_eq_true.mp h b (mem_all b))

theorem toUpper_toLower (b : UInt8) : toUpper (toLower b) = toUpper b :=
  forall_of_all (fun b => toUpper (toLower b) = toUpper b) (by decide +kernel) b

theorem toLower_toUpper (b : UInt8) : toLower (toUpper b) = toLower b :=
  forall_of_all (fun b => toLower (toUpper b) = toLower b) (by decide +kernel) b

theorem eq_toLower_or (b : UInt8) :
    b = toLower b ∨ (isAlpha b = true ∧ isAlpha (toLower b) = true ∧
      flipCase b = toLower b ∧ flipCase (toLower b) = b) :=
  forall_of_all (fun b => b = toLower b ∨ (isAlpha b = true ∧ isAlpha (toLower b) = true ∧
    flipCase b = toLower b ∧ flipCase (toLower b) = b)) (by decide +kernel) b

theorem eq_or_flipCase_eq {a b : UInt8} (h : toLower a = toLower b) :
    a = b ∨ (isAlpha a = true ∧ flipCase a = b) := by
  rcases eq_toLower_or a with ha | ⟨ha, -, haflip, hback⟩ <;>
    rcases eq_toLower_or b with hb | ⟨hb, hlower, hbflip, hforth⟩
  · exact Or.inl (ha.trans (h.trans hb.symm))
  · exact Or.inr ⟨by rw [ha, h, hlower], by rw [ha, h, hforth]⟩
  · exact Or.inr ⟨ha, by rw [haflip, h, ← hb]⟩
  · exact Or.inl (by rw [← hback, h, hforth])

/-- Two hexadecimal digits, small letters. -/
def hex (b : UInt8) : String :=
  String.ofList [Nat.digitChar (b.toNat / 16), Nat.digitChar (b.toNat % 16)]

end Byte

def utf8 (s : String) : Bytes := s.toUTF8.toList

end LiteralSieve
