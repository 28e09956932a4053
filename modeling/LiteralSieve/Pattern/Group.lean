import LiteralSieve.Error
import LiteralSieve.Pattern.Atom
import LiteralSieve.Pattern.Cursor

namespace LiteralSieve

/-!
# Group openers

What follows an opening parenthesis decides what the group is: a sub-pattern, an assertion about
what stands around, a setting of options, or something to be skipped as a whole. The readers take
the characters after the parenthesis; all their faults are shown at the parenthesis.
-/

inductive Opener where
  /-- A sub-pattern with the options in effect inside; the contents of an assertion say nothing
  about the text that the pattern takes. -/
  | body (assertion : Bool) (flags : Flags)
  /-- New options for the rest of the enclosing group. -/
  | options (flags : Flags)
  /-- A reference, a condition or a verb: there is nothing inside. -/
  | skipped
  | comment
deriving DecidableEq, Inhabited

namespace Opener

def isNameChar (c : Char) : Bool := c.isAlphanum || c = '_'

/-- A name of at least one character and the closer after it. -/
def name? (closer : Char) (rest : List Char) : Option Nat :=
  let n := (rest.takeWhile isNameChar).length
  if n ≠ 0 ∧ (rest.drop n).head? = some closer then some (n + 1) else none

/-- The number of characters up to the next closing parenthesis, which counts. -/
def closeLength? (rest : List Char) : Option Nat :=
  (rest.findIdx? (· == ')')).map (· + 1)

/-- The number of characters to the parenthesis that closes the innermost of `depth + 1` open ones
and all around it. Parentheses in bracket classes and after a backslash do not count. -/
def balancedLength? : Bool → Nat → List Char → Option Nat
  | _, _, [] => none
  | _, _, ['\\'] => none
  | inClass, depth, '\\' :: _ :: rest => (balancedLength? inClass depth rest).map (· + 2)
  | true, depth, c :: rest => (balancedLength? (c != ']') depth rest).map (· + 1)
  | false, depth, '[' :: '^' :: ']' :: rest => (balancedLength? true depth rest).map (· + 3)
  | false, depth, '[' :: '^' :: rest => (balancedLength? true depth rest).map (· + 2)
  | false, depth, '[' :: ']' :: rest => (balancedLength? true depth rest).map (· + 2)
  | false, depth, '[' :: rest => (balancedLength? true depth rest).map (· + 1)
  | false, depth, '(' :: rest => (balancedLength? false (depth + 1) rest).map (· + 1)
  | false, 0, ')' :: _ => some 1
  | false, depth + 1, ')' :: rest => (balancedLength? false depth rest).map (· + 1)
  | false, depth, _ :: rest => (balancedLength? false depth rest).map (· + 1)

/-- Option letters without a meaning here. -/
def isIdleOption (c : Char) : Bool := "msnUJua".toList.contains c

/-- Option letters up to the end of the group or a colon; those after a dash are switched off. -/
def readOptions (on : Bool) (flags : Flags) : List Char → Except FaultKind (Opener × Nat)
  | [] => .error .unmatchedOpenParen
  | ')' :: _ => .ok (options flags, 1)
  | ':' :: _ => .ok (body false flags, 1)
  | c :: rest =>
    let next :=
      if c = '-' then some (false, flags)
      else if c = 'x' then some (on, { flags with extended := on })
      else if c = 'i' then some (on, { flags with caseless := on })
      else if isIdleOption c then some (on, flags)
      else none
    match next with
    | none => .error .invalidGroup
    | some (on, flags) => (readOptions on flags rest).map fun (opener, n) => (opener, n + 1)

/-- What is skipped up to a parenthesis, with `n` characters before. -/
def skipTo (opener : Opener) (n : Nat) : Option Nat → Except FaultKind (Opener × Nat)
  | some m => .ok (opener, n + m)
  | none => .error .unmatchedOpenParen

/-- A sub-pattern after a name with its closer, with `n` characters before. -/
def named (flags : Flags) (n : Nat) : Option Nat → Except FaultKind (Opener × Nat)
  | some m => .ok (body false flags, n + m)
  | none => .error .invalidGroup

/-- After the question mark. -/
def readSpecial (flags : Flags) : List Char → Except FaultKind (Opener × Nat)
  | [] => .error .unmatchedOpenParen
  | '#' :: rest => skipTo comment 1 (closeLength? rest)
  | '<' :: '=' :: _ | '<' :: '!' :: _ => .ok (body true flags, 2)
  | '<' :: rest => named flags 1 (name? '>' rest)
  | 'P' :: '<' :: rest => named flags 2 (name? '>' rest)
  | 'P' :: '=' :: rest | 'P' :: '>' :: rest => skipTo skipped 2 (closeLength? rest)
  | 'P' :: _ => .error .invalidGroup
  | '(' :: rest => skipTo skipped 1 (balancedLength? false 1 rest)
  | c :: rest =>
    if c = ':' ∨ c = '>' ∨ c = '|' then .ok (body false flags, 1)
    else if c = '=' ∨ c = '!' then .ok (body true flags, 1)
    else if c.val = 0x27 then named flags 1 (name? c rest)
    else if c = 'R' ∨ c = '&' ∨ c.isDigit then skipTo skipped 1 (closeLength? rest)
    else if (c = '+' ∨ c = '-') ∧ rest.head?.any Char.isDigit then
      skipTo skipped 1 (closeLength? rest)
    else readOptions true flags (c :: rest)

/-- What the characters after an opening parenthesis open, under the options in effect there. -/
def read (flags : Flags) : List Char → Except FaultKind (Opener × Nat)
  | '*' :: c :: rest =>
    if c.isAlpha ∨ c = ':' then skipTo skipped 1 (closeLength? (c :: rest))
    else .error .invalidGroup
  | ['*'] => .error .invalidGroup
  | '?' :: rest => (readSpecial flags rest).map fun (opener, n) => (opener, n + 1)
  | _ => .ok (body false flags, 0)

end Opener

end LiteralSieve
