import LiteralSieve.Pattern.Atom
import LiteralSieve.Proofs.Pattern.Language

namespace LiteralSieve

/-!
# The core grammar

Regular expressions as they are written everywhere: characters, classes, anchors, groups,
alternatives and repetitions. Each has its text and the language of bytes that it stands for. A
letter stands for both of its cases where case does not count, be it for the whole matcher or in a
scope that a group opens.
-/

/-- The byte as it is compared. -/
def caseFold (caseless : Bool) (b : UInt8) : UInt8 := if caseless then Byte.toLower b else b

namespace Grammar

/-- ASCII punctuation, which may be written with a backslash. -/
def isPunctuation (c : Char) : Bool := isAsciiChar c && Byte.isPunctuation (charByte c)

/-- The characters with a meaning of their own outside of classes. -/
def reservedSigns : List Char := ['\\', '|', '(', ')', '[', '^', '$', '.', '*', '+', '?', '{']

def charText (c : Char) : List Char := if isPunctuation c then ['\\', c] else [c]

def oneByte (p : UInt8 → Prop) : Language UInt8 := {word | ∃ b, word = [b] ∧ p b}

/-! ## Classes -/

/-- The sets that a letter after a backslash stands for; the capital letter negates. -/
inductive Shorthand where
  | digit
  | space
  | word
deriving DecidableEq

namespace Shorthand

def letter (negated : Bool) : Shorthand → Char
  | digit => if negated then 'D' else 'd'
  | space => if negated then 'S' else 's'
  | word => if negated then 'W' else 'w'

def text (negated : Bool) (kind : Shorthand) : List Char := ['\\', kind.letter negated]

def isMember : Shorthand → UInt8 → Bool
  | digit => Byte.isDigit
  | space => Byte.isSpace
  | word => Byte.isWord

def Holds (negated : Bool) (kind : Shorthand) (b : UInt8) : Prop := kind.isMember b = !negated

end Shorthand

def classSigns : List Char := ['[', ']', '\\', '^', '-']

/-- An ASCII character in a class, with a backslash or without. -/
structure ClassChar where
  char : Char
  escaped : Bool
  isAscii : isAsciiChar char = true
  punctuation : escaped = true → isPunctuation char = true
  plain : escaped = false → char ∉ classSigns

namespace ClassChar

def text (c : ClassChar) : List Char := if c.escaped then ['\\', c.char] else [c.char]

def byte (c : ClassChar) : UInt8 := charByte c.char

end ClassChar

inductive ClassItem where
  | char (c : ClassChar)
  | range (lo hi : ClassChar) (ordered : lo.byte ≤ hi.byte)
  | shorthand (negated : Bool) (kind : Shorthand)

namespace ClassItem

def text : ClassItem → List Char
  | char c => c.text
  | range lo hi _ => lo.text ++ '-' :: hi.text
  | shorthand negated kind => kind.text negated

def Holds (b : UInt8) : ClassItem → Prop
  | char c => c.byte = b
  | range lo hi _ => lo.byte ≤ b ∧ b ≤ hi.byte
  | shorthand negated kind => kind.Holds negated b

end ClassItem

structure CharClass where
  negated : Bool
  items : List ClassItem
  ne_nil : items ≠ []

namespace CharClass

def text (c : CharClass) : List Char :=
  '[' :: (if c.negated then ['^'] else []) ++ c.items.flatMap ClassItem.text ++ [']']

/-- Some member of the class equals the byte, up to case where it does not count. -/
def HasMember (caseless : Bool) (c : CharClass) (b : UInt8) : Prop :=
  ∃ item ∈ c.items, ∃ a, item.Holds a ∧ caseFold caseless a = caseFold caseless b

def Holds (caseless : Bool) (c : CharClass) (b : UInt8) : Prop :=
  if c.negated then ¬ c.HasMember caseless b else c.HasMember caseless b

end CharClass

/-! ## Repetitions -/

inductive Repetition where
  | optional
  | star
  | plus
  | exactly (m : Nat)
  | atLeast (m : Nat)
  | between (m n : Nat)

namespace Repetition

def decimal (n : Nat) : List Char := Nat.toDigits 10 n

def text : Repetition → List Char
  | optional => ['?']
  | star => ['*']
  | plus => ['+']
  | exactly m => '{' :: decimal m ++ ['}']
  | atLeast m => '{' :: decimal m ++ [',', '}']
  | between m n => '{' :: decimal m ++ ',' :: decimal n ++ ['}']

def Allows (k : Nat) : Repetition → Prop
  | optional => k ≤ 1
  | star => True
  | plus => 1 ≤ k
  | exactly m => k = m
  | atLeast m => m ≤ k
  | between m n => m ≤ k ∧ k ≤ n

end Repetition

def repetitionText : Option Repetition → List Char
  | none => []
  | some repetition => repetition.text

/-- The words of a language in a row, as often as the repetition allows, or once. -/
def repeated (repetition : Option Repetition) (l : Language UInt8) : Language UInt8 :=
  match repetition with
  | none => l
  | some repetition => {word | ∃ k, repetition.Allows k ∧ word ∈ l ^ k}

/-! ## Expressions -/

inductive GroupKind where
  | capturing
  | plain
  /-- Case does not count inside. -/
  | caseless
  /-- Case counts inside, unless it does not for the whole matcher. -/
  | caseful

namespace GroupKind

def text : GroupKind → List Char
  | capturing => ['(']
  | plain => ['(', '?', ':']
  | caseless => ['(', '?', 'i', ':']
  | caseful => ['(', '?', '-', 'i', ':']

/-- Whether case does not count inside, from whether it does not outside. -/
def scope (outside : Bool) : GroupKind → Bool
  | capturing => outside
  | plain => outside
  | caseless => true
  | caseful => false

end GroupKind

mutual

/-- One or more alternatives. -/
inductive Regex where
  | single (branch : Concat)
  | alternative (first : Concat) (rest : Regex)

/-- Factors in a row, each with its repetition. -/
inductive Concat where
  | empty
  | cons (factor : Factor) (repetition : Option Repetition) (rest : Concat)

inductive Factor where
  | char (c : Char)
  | any
  | lineStart
  | lineEnd
  | shorthand (negated : Bool) (kind : Shorthand)
  | bracket (content : CharClass)
  | group (kind : GroupKind) (body : Regex)

end

mutual

def Regex.text : Regex → List Char
  | .single branch => branch.text
  | .alternative first rest => first.text ++ '|' :: rest.text

def Concat.text : Concat → List Char
  | .empty => []
  | .cons factor repetition rest => factor.text ++ repetitionText repetition ++ rest.text

def Factor.text : Factor → List Char
  | .char c => charText c
  | .any => ['.']
  | .lineStart => ['^']
  | .lineEnd => ['$']
  | .shorthand negated kind => kind.text negated
  | .bracket content => content.text
  | .group kind body => kind.text ++ body.text ++ [')']

end

def Regex.pattern (regex : Regex) : String := String.ofList regex.text

mutual

/-- The words that an expression matches. Case does not count if that is so for the whole matcher
or in the scope around. -/
def Regex.language (insensitive scope : Bool) : Regex → Language UInt8
  | .single branch => branch.language insensitive scope
  | .alternative first rest =>
    first.language insensitive scope + rest.language insensitive scope

def Concat.language (insensitive scope : Bool) : Concat → Language UInt8
  | .empty => 1
  | .cons factor repetition rest =>
    repeated repetition (factor.language insensitive scope) * rest.language insensitive scope

def Factor.language (insensitive scope : Bool) : Factor → Language UInt8
  | .char c => spellings (caseFold (insensitive || scope)) (String.utf8EncodeChar c)
  | .any => oneByte fun _ => True
  | .lineStart => 1
  | .lineEnd => 1
  | .shorthand negated kind => oneByte (kind.Holds negated)
  | .bracket content => oneByte (content.Holds (insensitive || scope))
  | .group kind body => body.language insensitive (kind.scope scope)

end

end Grammar

end LiteralSieve
