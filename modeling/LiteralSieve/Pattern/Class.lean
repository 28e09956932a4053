import LiteralSieve.Error
import LiteralSieve.Pattern.Cursor
import LiteralSieve.Pattern.Escape

namespace LiteralSieve

/-!
# Bracket classes

A class is read item by item: a byte, a range of bytes, a named set or an escape. A member beyond
ASCII makes the whole class one that literals cannot say. The reading of a class ends at the first
`]` that is not its first member.
-/

inductive ClassMember where
  | byte (b : UInt8)
  | set (members : ByteSet)
  /-- A member that is no set of bytes. -/
  | wide
  | nothing
deriving Inhabited

namespace ClassMember

def ofCode (code : Nat) : ClassMember :=
  if code < 0x80 then byte (UInt8.ofNat code) else wide

def coded (found : Nat × Nat) : ClassMember × Nat := (ofCode found.1, found.2)

/-- The text of a quotation: its bytes, in any order. -/
def ofQuotation (text : List Char) : ClassMember :=
  if text.all isAsciiChar then set (ByteSet.empty.insertAll (text.map charByte)) else wide

/-- The escape with letter `c`, before which the backslash stands, and with `rest` after it. -/
def ofLetter? (c : Char) (rest : List Char) : Option (ClassMember × Nat) :=
  match c with
  | 'b' => some (byte 0x08, 0)
  | 'c' => (Escaped.control? rest).map coded
  | 'x' => (Escaped.hex? rest).map coded
  | 'o' => (Escaped.octal? rest).map coded
  | 'u' => some (coded (Escaped.unicode rest))
  | 'p' | 'P' => (Escaped.property? rest).map fun n => (wide, n)
  | 'N' | 'R' | 'X' => some (wide, 0)
  | 'E' => some (nothing, 0)
  | 'Q' =>
    let (text, n) := Escaped.quotation rest
    some (ofQuotation text, n)
  | _ =>
    if Escaped.isDigitOf 8 c then
      let digits := Escaped.leadingDigits 8 3 (c :: rest)
      some (coded (Escaped.number 8 digits, digits.length - 1))
    else some (ofCode ((Escaped.controlLetter? c).getD c.toNat), 0)

/-- The member that an escape stands for; the count leaves out the letter. -/
def ofEscape? (c : Char) (rest : List Char) : Option (ClassMember × Nat) :=
  match ByteSet.ofEscape? c with
  | some members => some (set members, 0)
  | none => ofLetter? c rest

/-- `:name:]` or `:^name:]` after a bracket: whether the set is negated, the name, and the number of
characters. -/
def bracketName? : List Char → Option (Bool × String × Nat)
  | ':' :: rest =>
    let negated := rest.head? == some '^'
    let rest := if negated then rest.drop 1 else rest
    let name := rest.takeWhile Char.isAlpha
    if (rest.drop name.length).take 2 = [':', ']'] then
      some (negated, String.ofList name, name.length + if negated then 4 else 3)
    else none
  | _ => none

/-- The member that starts at the cursor, in a class that starts at `start`; the count leaves out
its first character. -/
def read (start : Nat) : Cursor → Except Fault (ClassMember × Nat)
  | ⟨_, []⟩ => .error ⟨.unterminatedClass, start⟩
  | ⟨offset, '[' :: rest⟩ =>
    match bracketName? rest with
    | none => .ok (byte 0x5B, 0)
    | some (negated, name, n) =>
      match ByteSet.ofName? name with
      | none => .error ⟨.unknownClassName, offset⟩
      | some members => .ok (set (if negated then members.complement else members), n)
  | ⟨_, '\\' :: []⟩ => .error ⟨.unterminatedClass, start⟩
  | ⟨offset, '\\' :: c :: rest⟩ =>
    match ofEscape? c rest with
    | none => .error ⟨.invalidEscape, offset⟩
    | some (member, n) => .ok (member, n + 1)
  | ⟨_, c :: _⟩ => .ok (ofCode c.toNat, 0)

/-- Whether the characters after a byte make it the start of a range. -/
def startsRange : List Char → Bool
  | '-' :: c :: _ => c != ']'
  | _ => false

/-- The range from `lo` to the member read after the dash. -/
def range (lo : UInt8) (dash : Nat) : ClassMember → Except Fault ClassMember
  | byte hi =>
    if lo ≤ hi then .ok (set (ByteSet.empty.insertRange lo hi)) else .error ⟨.invalidRange, dash⟩
  | wide => .ok wide
  | _ => .error ⟨.invalidRange, dash⟩

/-- A member or a range; the count leaves out its first character. -/
def readItem (start : Nat) (cursor : Cursor) : Except Fault (ClassMember × Nat) := do
  let (member, n) ← read start cursor
  match member with
  | byte lo =>
    let dash := cursor.advance (n + 1)
    if startsRange dash.rest then
      let (last, m) ← read start (dash.advance 1)
      let item ← range lo dash.offset last
      return (item, n + m + 2)
    else return (byte lo, n)
  | member => return (member, n)

end ClassMember

/-- What a class holds: its bytes, and whether it holds what is no byte. -/
structure ClassContent where
  members : ByteSet
  wide : Bool
deriving DecidableEq, Inhabited

namespace ClassContent

def empty : ClassContent := ⟨ByteSet.empty, false⟩

def add (content : ClassContent) : ClassMember → ClassContent
  | .byte b => { content with members := content.members.insert b }
  | .set members => { content with members := content.members.union members }
  | .wide => { content with wide := true }
  | .nothing => content

def atom (content : ClassContent) (negated : Bool) : Atom :=
  if content.wide then .gap
  else .set (if negated then content.members.complement else content.members)

/-- The items up to the closing bracket, of which `first` says that it may not come yet. -/
def readFrom (start : Nat) (first : Bool) (content : ClassContent) :
    Cursor → Except Fault (ClassContent × Nat)
  | ⟨_, []⟩ => .error ⟨.unterminatedClass, start⟩
  | ⟨offset, c :: rest⟩ =>
    if c = ']' ∧ first = false then .ok (content, 1)
    else
      match ClassMember.readItem start ⟨offset, c :: rest⟩ with
      | .error fault => .error fault
      | .ok (item, n) =>
        match readFrom start false (content.add item)
          (Cursor.advance ⟨offset, c :: rest⟩ (n + 1)) with
        | .error fault => .error fault
        | .ok (content, m) => .ok (content, n + 1 + m)
termination_by cursor => cursor.rest.length
decreasing_by simp only [Cursor.rest_advance, List.length_cons, List.length_drop]; omega

end ClassContent

/-- The atom of the class at the cursor, which stands before its opening bracket; the count leaves
out that bracket. -/
def readClass (cursor : Cursor) : Except Fault (Atom × Nat) := do
  let inside := cursor.advance 1
  let negated := inside.rest.head? == some '^'
  let hat := if negated then 1 else 0
  let (content, n) ← ClassContent.readFrom cursor.offset true .empty (inside.advance hat)
  return (content.atom negated, hat + n)

end LiteralSieve
