import LiteralSieve.Byte

namespace LiteralSieve.Text

/-!
# Bytes shown as text

Bytes are read as UTF-8. Where they are no UTF-8, every longest start of a character that cannot be
continued becomes one replacement character, and so does every byte that starts none.
-/

/-- A character whose last bytes are still to come: the bits read so far, the number of bytes owed,
and the bounds of the next one. -/
structure Partial where
  bits : Nat
  owed : Nat
  low : UInt8
  high : UInt8

def replacement : Char := Char.ofNat 0xFFFD

/-- What a first byte of several announces; the bounds of the second byte keep out long forms,
surrogates and codes past the last character. -/
def Partial.ofLead? (b : UInt8) : Option Partial :=
  if 0xC2 ≤ b && b ≤ 0xDF then some ⟨b.toNat - 0xC0, 1, 0x80, 0xBF⟩
  else if b == 0xE0 then some ⟨0, 2, 0xA0, 0xBF⟩
  else if b == 0xED then some ⟨0xD, 2, 0x80, 0x9F⟩
  else if 0xE1 ≤ b && b ≤ 0xEF then some ⟨b.toNat - 0xE0, 2, 0x80, 0xBF⟩
  else if b == 0xF0 then some ⟨0, 3, 0x90, 0xBF⟩
  else if 0xF1 ≤ b && b ≤ 0xF3 then some ⟨b.toNat - 0xF0, 3, 0x80, 0xBF⟩
  else if b == 0xF4 then some ⟨4, 3, 0x80, 0x8F⟩
  else none

/-- What a byte between characters writes, and what it leaves open. -/
def startChar (b : UInt8) : List Char × Option Partial :=
  if Byte.isAscii b then ([Byte.toChar b], none)
  else match Partial.ofLead? b with
    | some p => ([], some p)
    | none => ([replacement], none)

/-- One byte further: the characters it completes, and what is open after it. -/
def stepChar : Option Partial → UInt8 → List Char × Option Partial
  | none, b => startChar b
  | some p, b =>
    if p.low ≤ b && b ≤ p.high then
      let bits := p.bits * 64 + (b.toNat - 0x80)
      if p.owed ≤ 1 then ([Char.ofNat bits], none)
      else ([], some ⟨bits, p.owed - 1, 0x80, 0xBF⟩)
    else
      let (chars, next) := startChar b
      (replacement :: chars, next)

def charsFrom : Option Partial → Bytes → List Char
  | none, [] => []
  | some _, [] => [replacement]
  | state, b :: rest =>
    let (chars, next) := stepChar state b
    chars ++ charsFrom next rest

/-- The text that the bytes show. -/
def ofBytes (bytes : Bytes) : String := String.ofList (charsFrom none bytes)

end LiteralSieve.Text
