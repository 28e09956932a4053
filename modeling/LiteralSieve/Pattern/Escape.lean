import LiteralSieve.ByteSet.Named
import LiteralSieve.Number
import LiteralSieve.Pattern.Atom

namespace LiteralSieve.Escaped

/-!
# Escapes in a pattern

What follows a backslash. Every reader here takes the characters ahead and answers what they stand
for and how many of them belong to it; the answer is `none` where the escape is malformed.
-/

def digit? (base : Nat) (c : Char) : Option Nat :=
  let value? :=
    if c.isDigit then some (c.toNat - 0x30)
    else if 'a' ≤ c ∧ c ≤ 'f' then some (c.toNat - 0x57)
    else if 'A' ≤ c ∧ c ≤ 'F' then some (c.toNat - 0x37)
    else none
  value?.filter (· < base)

def isDigitOf (base : Nat) (c : Char) : Bool := (digit? base c).isSome

def number (base : Nat) (digits : List Char) : Nat :=
  heldNumber base (digits.map fun c => (digit? base c).getD 0)

/-- The digits at the front, at most `limit` of them. -/
def leadingDigits (base limit : Nat) (rest : List Char) : List Char :=
  (rest.take limit).takeWhile (isDigitOf base)

/-- One to `limit` digits. -/
def digits? (base limit : Nat) (rest : List Char) : Option (Nat × Nat) :=
  let digits := leadingDigits base limit rest
  if digits.isEmpty then none else some (number base digits, digits.length)

/-- The code of the last character. -/
def maxCode : Nat := 0x10FFFF

/-- `\x7b`, digits and `\x7d`: a code in braces. -/
def braced? (base limit : Nat) : List Char → Option (Nat × Nat)
  | '{' :: rest =>
    match digits? base limit rest with
    | some (code, n) =>
      if (rest.drop n).head? = some '}' ∧ code ≤ maxCode then some (code, n + 2) else none
    | none => none
  | _ => none

/-- After `\x`: one or two hexadecimal digits, or up to eight in braces. -/
def hex? : List Char → Option (Nat × Nat)
  | '{' :: rest => braced? 16 8 ('{' :: rest)
  | rest => digits? 16 2 rest

/-- After `\o`: up to eleven octal digits in braces. -/
def octal? (rest : List Char) : Option (Nat × Nat) := braced? 8 11 rest

/-- After `\u`: exactly four hexadecimal digits, otherwise the letter itself. -/
def unicode (rest : List Char) : Nat × Nat :=
  match digits? 16 4 rest with
  | some (code, 4) => (code, 4)
  | _ => ('u'.toNat, 0)

/-- After `\c`: the control character of a visible character or the space. -/
def control? : List Char → Option (Nat × Nat)
  | c :: _ => if ' ' ≤ c ∧ c ≤ '~' then some (c.toUpper.toNat ^^^ 0x40, 1) else none
  | [] => none

/-- An opener at the front, a body of at least one character, and the closer. -/
def delimited? (closer : Char) (rest : List Char) : Option Nat :=
  match (rest.drop 1).findIdx? (· == closer) with
  | some (n + 1) => some (n + 3)
  | _ => none

/-- After `\p` or `\P`: a letter, or a name in braces. -/
def property? : List Char → Option Nat
  | '{' :: rest => delimited? '}' ('{' :: rest)
  | c :: _ => if c.isAlpha then some 1 else none
  | [] => none

/-- After `\k` a name between delimiters; after `\g` also a number with or without a sign. -/
def reference? (numeric : Bool) : List Char → Option Nat
  | '{' :: rest => delimited? '}' ('{' :: rest)
  | '<' :: rest => delimited? '>' ('<' :: rest)
  | c :: rest =>
    if c.val = 0x27 then delimited? c (c :: rest)
    else if numeric then
      let digits := (rest.takeWhile Char.isDigit).length
      if c.isDigit then some (digits + 1)
      else if (c = '+' ∨ c = '-') ∧ digits ≠ 0 then some (digits + 1)
      else none
    else none
  | [] => none

/-- After `\Q`: the text up to `\E` or the end. -/
def quotation : List Char → List Char × Nat
  | [] => ([], 0)
  | '\\' :: 'E' :: _ => ([], 2)
  | c :: rest =>
    let (text, n) := quotation rest
    (c :: text, n + 1)

/-- The control characters that have a letter of their own. -/
def controlLetter? : Char → Option Nat
  | 'a' => some 0x07
  | 'e' => some 0x1B
  | 'f' => some 0x0C
  | 'n' => some 0x0A
  | 'r' => some 0x0D
  | 't' => some 0x09
  | _ => none

/-- The letters of assertions and of what literals cannot say. -/
def isGapLetter (c : Char) : Bool := "bBAzZGKXRNC".toList.contains c

/-- The atom with the code that a reader found. -/
def coded (found : Nat × Nat) : Atom × Nat := (Atom.ofCode found.1, found.2)

/-- The escape with letter `c`, before which the backslash stands, and with `rest` after it. -/
def ofLetter? (c : Char) (rest : List Char) : Option (Atom × Nat) :=
  match c with
  | 'p' | 'P' => (property? rest).map fun n => (.gap, n)
  | 'Q' =>
    let (text, n) := quotation rest
    some (if text.isEmpty then .nothing else .quoted text, n)
  | 'E' => some (.nothing, 0)
  | 'c' => (control? rest).map coded
  | '0' =>
    let digits := leadingDigits 8 2 rest
    some (coded (number 8 digits, digits.length))
  | 'g' => (reference? true rest).map fun n => (.gap, n)
  | 'k' => (reference? false rest).map fun n => (.gap, n)
  | 'o' => (octal? rest).map coded
  | 'x' => (hex? rest).map coded
  | 'u' => some (coded (unicode rest))
  | _ =>
    if isGapLetter c then some (.gap, 0)
    else if c.isDigit then some (.gap, (rest.takeWhile Char.isDigit).length)
    else some (.char (((controlLetter? c).map Char.ofNat).getD c), 0)

/-- The atom that an escape stands for, read from the characters after the backslash; the count
leaves out the first of them. -/
def atom? (c : Char) (rest : List Char) : Option (Atom × Nat) :=
  match ByteSet.ofEscape? c with
  | some set => some (.set set, 0)
  | none => ofLetter? c rest

end LiteralSieve.Escaped
