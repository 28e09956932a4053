import LiteralSieve.Error
import LiteralSieve.Pattern.Cursor
import LiteralSieve.Pattern.Escape

namespace LiteralSieve

/-!
# Quantifiers

How often an atom may occur. A quantifier is `*`, `+`, `?` or an interval in braces, with a lazy or
possessive sign after it; braces that hold no interval are ordinary characters.
-/

structure Quantifier where
  least : Nat
  most : Option Nat
deriving DecidableEq, Inhabited

def isLayout (c : Char) : Bool := c = ' ' ∨ ('\t' ≤ c ∧ c ≤ '\r')

/-- The length of a comment that ends with its line, of which the first character is behind. -/
def commentLength : List Char → Nat
  | [] => 0
  | c :: rest => if c = '\n' then 1 else commentLength rest + 1

/-- The length of the layout ahead: blanks, and comments from `#` to the end of the line. -/
def layoutLength : List Char → Nat
  | [] => 0
  | c :: rest =>
    if isLayout c then layoutLength rest + 1
    else if c = '#' then
      commentLength rest + 1 + layoutLength (rest.drop (commentLength rest))
    else 0
termination_by rest => rest.length
decreasing_by all_goals simp only [List.length_cons, List.length_drop]; omega

namespace Quantifier

/-- The largest bound that an interval may name. -/
def maxBound : Nat := 100000

/-- `m}`, `m,}` or `m,n}` after a brace: the bounds and the number of characters. -/
def interval? (rest : List Char) : Option (Quantifier × Nat) :=
  let digits := rest.takeWhile Char.isDigit
  if digits.isEmpty then none
  else
    let least := Escaped.number 10 digits
    match rest.drop digits.length with
    | '}' :: _ => some (⟨least, some least⟩, digits.length + 1)
    | ',' :: rest =>
      let more := rest.takeWhile Char.isDigit
      if (rest.drop more.length).head? = some '}' then
        let most := if more.isEmpty then none else some (Escaped.number 10 more)
        some (⟨least, most⟩, digits.length + more.length + 2)
      else none
    | _ => none

def starts : List Char → Bool
  | '*' :: _ | '+' :: _ | '?' :: _ => true
  | '{' :: rest => (interval? rest).isSome
  | _ => false

/-- The quantifier at the front, before its bounds are looked at. -/
def leading? : List Char → Option (Quantifier × Nat)
  | '*' :: _ => some (⟨0, none⟩, 1)
  | '+' :: _ => some (⟨1, none⟩, 1)
  | '?' :: _ => some (⟨0, some 1⟩, 1)
  | '{' :: rest => (interval? rest).map fun (q, n) => (q, n + 1)
  | _ => none

/-- What is wrong with the bounds. -/
def fault? (q : Quantifier) : Option FaultKind :=
  if maxBound < q.least ∨ q.most.any (maxBound < ·) then some .repeatTooLarge
  else if q.most.any (· < q.least) then some .invalidRepeatRange
  else none

/-- The length of a lazy or possessive sign. -/
def suffixLength : List Char → Nat
  | '?' :: _ | '+' :: _ => 1
  | _ => 0

/-- The quantifier of the atom before the cursor, if it has one. Under the option `x` layout may
stand before it, which counts as read in any case. -/
def read (extended : Bool) (cursor : Cursor) : Except Fault (Option Quantifier × Nat) :=
  let layout := if extended then layoutLength cursor.rest else 0
  let front := cursor.advance layout
  match leading? front.rest with
  | none => .ok (none, layout)
  | some (q, n) =>
    match q.fault? with
    | some kind => .error ⟨kind, front.offset⟩
    | none =>
      let n := n + suffixLength (front.rest.drop n)
      let after := front.advance n
      if starts after.rest then .error ⟨.nestedQuantifier, after.offset⟩
      else .ok (some q, layout + n)

end Quantifier

end LiteralSieve
