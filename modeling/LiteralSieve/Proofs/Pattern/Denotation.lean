import LiteralSieve.Pattern.Group
import LiteralSieve.Proofs.Pattern.Paths
import LiteralSieve.Proofs.Pattern.Repetitions

namespace LiteralSieve.Grammar

/-!
# Denotations

Expressions in the notation that patterns are written in, and the paths that each denotes. The
meaning is compositional: alternatives follow each other, what stands in a row is multiplied out,
and a group is what stands in it. Where literals cannot follow, there is a gap.
-/

/-! ## Sets of bytes -/

/-- The sets with an escape letter, of which the capital one negates. -/
inductive EscapedSet where
  | digit
  | space
  | word
  | horizontalSpace
  | verticalSpace
deriving DecidableEq

namespace EscapedSet

def letter (negated : Bool) : EscapedSet → Char
  | digit => if negated then 'D' else 'd'
  | space => if negated then 'S' else 's'
  | word => if negated then 'W' else 'w'
  | horizontalSpace => if negated then 'H' else 'h'
  | verticalSpace => if negated then 'V' else 'v'

def text (negated : Bool) (set : EscapedSet) : List Char := ['\\', set.letter negated]

def isMember : EscapedSet → UInt8 → Bool
  | digit => Byte.isDigit
  | space => Byte.isSpace
  | word => Byte.isWord
  | horizontalSpace => fun b => b == 0x09 || b == 0x20 || b == 0xA0
  | verticalSpace => fun b => 0x0A ≤ b && b ≤ 0x0D

end EscapedSet

/-- The sets with a name in brackets. -/
inductive NamedSet where
  | alnum
  | alpha
  | ascii
  | blank
  | cntrl
  | digit
  | graph
  | lower
  | print
  | punct
  | space
  | upper
  | word
  | xdigit
deriving DecidableEq

namespace NamedSet

def name : NamedSet → List Char
  | alnum => ['a', 'l', 'n', 'u', 'm']
  | alpha => ['a', 'l', 'p', 'h', 'a']
  | ascii => ['a', 's', 'c', 'i', 'i']
  | blank => ['b', 'l', 'a', 'n', 'k']
  | cntrl => ['c', 'n', 't', 'r', 'l']
  | digit => ['d', 'i', 'g', 'i', 't']
  | graph => ['g', 'r', 'a', 'p', 'h']
  | lower => ['l', 'o', 'w', 'e', 'r']
  | print => ['p', 'r', 'i', 'n', 't']
  | punct => ['p', 'u', 'n', 'c', 't']
  | space => ['s', 'p', 'a', 'c', 'e']
  | upper => ['u', 'p', 'p', 'e', 'r']
  | word => ['w', 'o', 'r', 'd']
  | xdigit => ['x', 'd', 'i', 'g', 'i', 't']

def text (negated : Bool) (set : NamedSet) : List Char :=
  ['[', ':'] ++ (if negated then ['^'] else []) ++ set.name ++ [':', ']']

def isMember : NamedSet → UInt8 → Bool
  | alnum => Byte.isAlphanum
  | alpha => Byte.isAlpha
  | ascii => Byte.isAscii
  | blank => fun b => b == 0x20 || b == 0x09
  | cntrl => Byte.isControl
  | digit => Byte.isDigit
  | graph => Byte.isGraphic
  | lower => Byte.isLower
  | print => fun b => Byte.isGraphic b || b == 0x20
  | punct => Byte.isPunctuation
  | space => Byte.isSpace
  | upper => Byte.isUpper
  | word => Byte.isWord
  | xdigit => fun b => (Byte.hexValue? b).isSome

end NamedSet

inductive SetItem where
  | char (c : ClassChar)
  | range (lo hi : ClassChar) (ordered : lo.byte ≤ hi.byte)
  | escaped (negated : Bool) (set : EscapedSet)
  | named (negated : Bool) (set : NamedSet)

namespace SetItem

def text : SetItem → List Char
  | char c => c.text
  | range lo hi _ => lo.text ++ '-' :: hi.text
  | escaped negated set => set.text negated
  | named negated set => set.text negated

def isMember (b : UInt8) : SetItem → Bool
  | char c => c.byte == b
  | range lo hi _ => lo.byte ≤ b && b ≤ hi.byte
  | escaped negated set => set.isMember b != negated
  | named negated set => set.isMember b != negated

end SetItem

structure BracketSet where
  negated : Bool
  items : List SetItem
  ne_nil : items ≠ []

namespace BracketSet

def text (set : BracketSet) : List Char :=
  '[' :: (if set.negated then ['^'] else []) ++ set.items.flatMap SetItem.text ++ [']']

def isMember (set : BracketSet) (b : UInt8) : Bool := set.items.any (·.isMember b) != set.negated

end BracketSet

/-! ## Characters, anchors and quantities -/

/-- A character that stands for itself, with a backslash or without. -/
structure PlainChar where
  char : Char
  escaped : Bool
  punctuation : escaped = true → isPunctuation char = true
  plain : escaped = false → char ∉ reservedSigns

def PlainChar.text (c : PlainChar) : List Char := if c.escaped then ['\\', c.char] else [c.char]

inductive Anchor where
  | lineStart
  | lineEnd
  | escaped (letter : Char) (known : letter ∈ ['b', 'B', 'A', 'Z', 'z', 'G'])

def Anchor.text : Anchor → List Char
  | lineStart => ['^']
  | lineEnd => ['$']
  | escaped letter _ => ['\\', letter]

/-- The sign after a quantifier, which changes nothing for literals. -/
inductive Manner where
  | lazy
  | possessive
deriving DecidableEq

def Manner.text : Manner → List Char
  | lazy => ['?']
  | possessive => ['+']

structure Quantity where
  repetition : Repetition
  manner : Option Manner
  least_le : repetition.quantifier.least ≤ 100000
  most_le : ∀ most ∈ repetition.quantifier.most, most ≤ 100000
  ordered : ∀ most ∈ repetition.quantifier.most, repetition.quantifier.least ≤ most

def Quantity.text (quantity : Quantity) : List Char :=
  quantity.repetition.text ++ quantity.manner.elim [] Manner.text

def quantityText (quantity : Option Quantity) : List Char := quantity.elim [] Quantity.text

/-! ## Expressions -/

structure GroupName where
  chars : List Char
  ne_nil : chars ≠ []
  isName : ∀ c ∈ chars, Opener.isNameChar c = true

inductive Opening where
  | capturing
  | plain
  | atomic
  | angled (name : GroupName)
  | quoted (name : GroupName)
  | caseless
  | caseful

namespace Opening

def apostrophe : Char := Char.ofNat 0x27

def text : Opening → List Char
  | capturing => ['(']
  | plain => ['(', '?', ':']
  | atomic => ['(', '?', '>']
  | angled name => '(' :: '?' :: '<' :: (name.chars ++ ['>'])
  | quoted name => '(' :: '?' :: apostrophe :: (name.chars ++ [apostrophe])
  | caseless => ['(', '?', 'i', ':']
  | caseful => ['(', '?', '-', 'i', ':']

/-- Whether case does not count inside, from whether it does not outside. -/
def scope (outside : Bool) : Opening → Bool
  | caseless => true
  | caseful => false
  | _ => outside

end Opening

mutual

inductive Expression where
  | single (row : Row)
  | alternative (first : Row) (rest : Expression)

inductive Row where
  | empty
  | cons (term : Term) (quantity : Option Quantity) (rest : Row)

inductive Term where
  | char (c : PlainChar)
  | any
  | anchor (anchor : Anchor)
  | escaped (negated : Bool) (set : EscapedSet)
  | bracket (set : BracketSet)
  | group (opening : Opening) (body : Expression)

end

mutual

def Expression.text : Expression → List Char
  | .single row => row.text
  | .alternative first rest => first.text ++ '|' :: rest.text

def Row.text : Row → List Char
  | .empty => []
  | .cons term quantity rest => term.text ++ quantityText quantity ++ rest.text

def Term.text : Term → List Char
  | .char c => c.text
  | .any => ['.']
  | .anchor anchor => anchor.text
  | .escaped negated set => set.text negated
  | .bracket set => set.text
  | .group opening body => opening.text ++ body.text ++ [')']

end

def Expression.pattern (expression : Expression) : String := String.ofList expression.text

mutual

/-- The largest number of groups around a place. -/
def Expression.depth : Expression → Nat
  | .single row => row.depth
  | .alternative first rest => max first.depth rest.depth

def Row.depth : Row → Nat
  | .empty => 0
  | .cons term _ rest => max term.depth rest.depth

def Term.depth : Term → Nat
  | .group _ body => body.depth + 1
  | _ => 0

end

/-! ## Values -/

/-- What a term stands for, before it is known how often it occurs. -/
inductive Value where
  | gap
  | char (bytes : Bytes)
  /-- One of the members, which are in ascending order. -/
  | oneOf (members : Bytes)
  | group (paths : List Path)

namespace Value

/-- The value of a character. Without case only ASCII is known, and where literals are taken as they
are written, a letter is one of its cases. -/
def ofChar (reading : Reading) (scope : Bool) (c : Char) : Value :=
  if scope then
    if isAsciiChar c then
      if reading.caseSensitive && c.isAlpha then
        oneOf [Byte.toUpper (charByte c), Byte.toLower (charByte c)]
      else char (String.utf8EncodeChar c)
    else gap
  else char (String.utf8EncodeChar c)

/-- The value of a set. Without case it is closed under the cases of its letters. -/
def ofSet (reading : Reading) (scope : Bool) (isMember : UInt8 → Bool) : Value :=
  oneOf (Byte.all.filter fun b => isMember b ||
    (scope && reading.caseSensitive && Byte.isAlpha b && isMember (Byte.flipCase b)))

/-- Members are spelled out if all are ASCII, one alone always and more if sets are expanded. -/
def isSpelledOut (expansion : Bool) (members : Bytes) : Bool :=
  members.all Byte.isAscii && (members.length == 1 || (expansion && 2 ≤ members.length))

def once (expansion : Bool) : Value → List Path
  | gap => [[.gap]]
  | char bytes => [Path.literal bytes]
  | oneOf members =>
    if isSpelledOut expansion members then members.map fun b => [.byte b] else [[.gap]]
  | group paths => paths

/-- A gap that is no group. -/
def isLoneGap (expansion : Bool) : Value → Bool
  | gap => true
  | oneOf members => !isSpelledOut expansion members
  | _ => false

/-- A character by itself is written out as often as it must occur, up to sixteen times. -/
def writtenOut? (q : Quantifier) : Value → Option Bytes
  | char bytes =>
    if q.most = some q.least ∧ q.least ≤ 16 then some (List.replicate q.least bytes).flatten
    else none
  | _ => none

def repeated (expansion : Bool) (q : Quantifier) (value : Value) : List Path :=
  if q.least = 0 then
    if q.most = some 1 ∧ value.isLoneGap expansion = false then value.once expansion ++ [[]]
    else [[.gap]]
  else
    match value.writtenOut? q with
    | some bytes => [Path.literal bytes]
    | none =>
      if q = ⟨1, some 1⟩ then value.once expansion
      else Path.product (value.once expansion) [[.gap]]

/-- The paths of a value that occurs as often as the quantifier allows. -/
def times (expansion : Bool) (q : Quantifier) : Value → List Path
  | gap => [[.gap]]
  | value => value.repeated expansion q

def occurring (expansion : Bool) (quantity : Option Quantity) (value : Value) : List Path :=
  match quantity with
  | none => value.once expansion
  | some quantity => value.times expansion quantity.repetition.quantifier

end Value

mutual

/-- The paths of an expression, in a scope where case counts or does not. -/
def Expression.denote (reading : Reading) (scope : Bool) : Expression → List Path
  | .single row => row.denote reading scope
  | .alternative first rest => first.denote reading scope ++ rest.denote reading scope

def Row.denote (reading : Reading) (scope : Bool) : Row → List Path
  | .empty => [[]]
  | .cons term quantity rest =>
    Path.product ((term.value reading scope).occurring reading.expansion quantity)
      (rest.denote reading scope)

def Term.value (reading : Reading) (scope : Bool) : Term → Value
  | .char c => .ofChar reading scope c.char
  | .any => .gap
  | .anchor _ => .gap
  | .escaped negated set => .ofSet reading scope fun b => set.isMember b != negated
  | .bracket set => .ofSet reading scope set.isMember
  | .group opening body => .group (body.denote reading (opening.scope scope))

end

end LiteralSieve.Grammar
