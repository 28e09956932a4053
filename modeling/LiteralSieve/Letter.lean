import LiteralSieve.Byte
import LiteralSieve.Number

namespace LiteralSieve

/-!
# Letters

Scanned text is read letter by letter. A letter is one byte of meaning: in an escaped text it may
take several raw bytes, and it keeps the raw offsets between which it stands, so that a hit can be
shown in the text as it was given. What is no escape stands for itself.
-/

/-- How escapes in scanned text are read. -/
inductive EscapeMode where
  | plain
  /-- `+` is a space; `%` and two digits, or `%u` and four, are a code. -/
  | url
  /-- `&#` and decimal digits, `&#x` and hexadecimal ones, and a few names. -/
  | html
deriving DecidableEq, Inhabited

/-- One letter of a text: the raw offsets before and after it, and its value. -/
structure Letter where
  start : Nat
  stop : Nat
  byte : UInt8
deriving DecidableEq, Inhabited

namespace Escape

/-- The number that the first `n` bytes write in base sixteen; `none` if they are not `n` digits. -/
def hexNumber? (n : Nat) (rest : Bytes) : Option Nat :=
  let digits := rest.take n
  if digits.length = n then
    digits.foldlM (fun acc b => (Byte.hexValue? b).map fun d => acc * 16 + d) 0
  else none

/-- The byte behind a two-byte code: the full-width forms of the visible characters fold onto
those, and of any other code the low byte counts. -/
def narrow (code : Nat) : UInt8 :=
  if 0xFF01 ≤ code ∧ code ≤ 0xFF5E then UInt8.ofNat (code - 0xFEE0) else UInt8.ofNat (code % 256)

/-- `u` and four hexadecimal digits. -/
def urlWide? : Bytes → Option (UInt8 × Nat)
  | u :: rest =>
    if u == 0x75 || u == 0x55 then (hexNumber? 4 rest).map fun code => (narrow code, 5) else none
  | [] => none

def urlNarrow? (rest : Bytes) : Option (UInt8 × Nat) :=
  (hexNumber? 2 rest).map fun code => (UInt8.ofNat code, 2)

/-- The escape after a `%`: its value and the number of bytes it takes. -/
def url? (rest : Bytes) : Option (UInt8 × Nat) := urlWide? rest <|> urlNarrow? rest

def boundedNumber (base : Nat) (digits : Bytes) : Nat :=
  heldNumber base (digits.map fun b => (Byte.hexValue? b).getD 0)

/-- A run of digits after `skip` bytes of introduction. -/
def htmlCode? (base skip : Nat) (isDigit : UInt8 → Bool) (rest : Bytes) : Option (UInt8 × Nat) :=
  let digits := (rest.drop skip).takeWhile isDigit
  if digits.isEmpty then none
  else some (UInt8.ofNat (boundedNumber base digits % 256), skip + digits.length)

/-- The names of characters, in any case of their letters. -/
def entities : List (String × UInt8) :=
  [("quot", 0x22), ("amp", 0x26), ("lt", 0x3C), ("gt", 0x3E), ("nbsp", 0xA0)]

def htmlName? (rest : Bytes) : Option (UInt8 × Nat) :=
  entities.findSome? fun (name, value) =>
    let letters := utf8 name
    if (rest.take letters.length).map Byte.toLower == letters then some (value, letters.length)
    else none

/-- The escape after an `&`, without the semicolon that may end it. -/
def htmlBody? : Bytes → Option (UInt8 × Nat)
  | 0x23 :: x :: rest =>
    if x == 0x78 || x == 0x58 then
      htmlCode? 16 2 (fun b => (Byte.hexValue? b).isSome) (0x23 :: x :: rest)
    else htmlCode? 10 1 Byte.isDigit (0x23 :: x :: rest)
  | rest => htmlName? rest

/-- The escape after an `&`: its value and the number of bytes it takes. -/
def html? (rest : Bytes) : Option (UInt8 × Nat) :=
  (htmlBody? rest).map fun (value, used) =>
    (value, if rest[used]? == some 0x3B then used + 1 else used)

end Escape

namespace EscapeMode

def isEscape : EscapeMode → UInt8 → Bool
  | plain, _ => false
  | url, b => b == 0x25 || b == 0x2B
  | html, b => b == 0x26

/-- Whether the text holds anything that the mode would decode. -/
def needsDecoding (mode : EscapeMode) (text : Bytes) : Bool := text.any mode.isEscape

/-- The mode that a text is read in: a text without escapes is read plainly. -/
def inEffect (mode : EscapeMode) (text : Bytes) : EscapeMode :=
  if mode.needsDecoding text then mode else plain

/-- The letter that starts with byte `b`, and how many bytes of `rest` belong to it. -/
def readLetter (mode : EscapeMode) (b : UInt8) (rest : Bytes) : UInt8 × Nat :=
  match mode with
  | plain => (b, 0)
  | url =>
    if b == 0x2B then (0x20, 0)
    else if b == 0x25 then (Escape.url? rest).getD (b, 0)
    else (b, 0)
  | html => if b == 0x26 then (Escape.html? rest).getD (b, 0) else (b, 0)

/-- The letter at offset `i` of the text. -/
def letterAt? (mode : EscapeMode) (text : Bytes) (i : Nat) : Option Letter :=
  match text.drop i with
  | [] => none
  | b :: rest =>
    let (byte, used) := mode.readLetter b rest
    some ⟨i, i + 1 + used, byte⟩

def lettersFrom (mode : EscapeMode) (offset : Nat) : Bytes → List Letter
  | [] => []
  | b :: rest =>
    let (byte, used) := mode.readLetter b rest
    ⟨offset, offset + 1 + used, byte⟩ :: lettersFrom mode (offset + 1 + used) (rest.drop used)
termination_by text => text.length
decreasing_by simp only [List.length_cons, List.length_drop]; omega

def letters (mode : EscapeMode) (text : Bytes) : List Letter :=
  (mode.inEffect text).lettersFrom 0 text

/-- The text with its escapes resolved. -/
def decode (mode : EscapeMode) (text : Bytes) : Bytes := (mode.letters text).map (·.byte)

end EscapeMode

end LiteralSieve
