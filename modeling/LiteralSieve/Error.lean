import LiteralSieve.Byte
import LiteralSieve.Text.Quoted

namespace LiteralSieve

/-!
# Errors

Every failure is a cause, with what is needed to tell it: the place and the pattern of a fault in a
pattern, the byte that a key must not have, the group that is unknown. Each cause has one code and
one message.
-/

/-- What is wrong with a pattern that cannot be read. -/
inductive FaultKind where
  /-- `(` without its `)`. -/
  | unmatchedOpenParen
  /-- `)` without its `(`. -/
  | unmatchedCloseParen
  /-- `[` without its `]`. -/
  | unterminatedClass
  /-- A range whose end is no byte from its start on, as in `[z-a]`. -/
  | invalidRange
  /-- A backslash at the end. -/
  | trailingBackslash
  /-- A malformed numeric, control, property or reference escape. -/
  | invalidEscape
  /-- An unknown `(?...)` or `(*...)`. -/
  | invalidGroup
  /-- An unknown name such as `[:foo:]`. -/
  | unknownClassName
  /-- A quantifier with nothing before it. -/
  | nothingToRepeat
  /-- A quantifier right after a quantifier. -/
  | nestedQuantifier
  /-- `{m,n}` with `n` below `m`. -/
  | invalidRepeatRange
  /-- A bound above the largest allowed. -/
  | repeatTooLarge
  /-- Too many groups open at once. -/
  | depthLimit
deriving DecidableEq, Inhabited

def FaultKind.index : FaultKind → Nat
  | unmatchedOpenParen => 0
  | unmatchedCloseParen => 1
  | unterminatedClass => 2
  | invalidRange => 3
  | trailingBackslash => 4
  | invalidEscape => 5
  | invalidGroup => 6
  | unknownClassName => 7
  | nothingToRepeat => 8
  | nestedQuantifier => 9
  | invalidRepeatRange => 10
  | repeatTooLarge => 11
  | depthLimit => 12

def FaultKind.message : FaultKind → String
  | unmatchedOpenParen => "missing closing parenthesis"
  | unmatchedCloseParen => "unmatched closing parenthesis"
  | unterminatedClass => "premature end of char-class"
  | invalidRange => "empty range in char class"
  | trailingBackslash => "end pattern at escape"
  | invalidEscape => "invalid escape sequence"
  | invalidGroup => "undefined group option"
  | unknownClassName => "invalid POSIX bracket type"
  | nothingToRepeat => "target of repeat operator is not specified"
  | nestedQuantifier => "nested repeat operator"
  | invalidRepeatRange => "upper bound smaller than lower bound in repeat range"
  | repeatTooLarge => "too big number for repeat range"
  | depthLimit => "parse depth limit over"

/-- A fault in a pattern and the offset of the byte that shows it. -/
structure Fault where
  kind : FaultKind
  offset : Nat
deriving DecidableEq, Inhabited

/-- Why no literals can stand for a pattern. -/
inductive Shortage where
  /-- Some alternative has no literal that is long enough. -/
  | bareAlternative
  /-- There are too many alternatives, and some way through the pattern meets no literal. -/
  | uncovered
deriving DecidableEq, Inhabited

def Shortage.message : Shortage → String
  | bareAlternative => "an alternative has no literal of sufficient length"
  | uncovered => "too many branches and no keyword set covers every alternative"

/-- Why a pattern is not taken. -/
inductive PatternError where
  | malformed (fault : Fault) (pattern : String)
  /-- There is no tree to work on. -/
  | corruptTree
  | unindexable (pattern : String) (shortage : Shortage)
  /-- More keywords than branches are allowed. -/
  | tooManyKeywords (pattern : String) (count cap : Nat)
deriving DecidableEq, Inhabited

namespace PatternError

def code : PatternError → Int
  | malformed fault _ => -100 - fault.kind.index
  | corruptTree => -11
  | unindexable _ _ => -20
  | tooManyKeywords _ _ _ => -21

def message : PatternError → String
  | malformed fault pattern =>
    "syntax error at offset " ++ toString fault.offset ++ " in " ++ Text.quote pattern ++ ": "
      ++ fault.kind.message
  | corruptTree => "corrupt pattern tree"
  | unindexable pattern shortage =>
    "pattern " ++ Text.quote pattern ++ " cannot be indexed: " ++ shortage.message
  | tooManyKeywords pattern count cap =>
    "pattern " ++ Text.quote pattern ++ " yields " ++ toString count ++ " keywords, cap is "
      ++ toString cap

end PatternError

/-- Why a key is not taken. -/
inductive KeyError where
  /-- The empty key would be found everywhere. -/
  | emptyKey
  /-- The byte at this position is outside the alphabet. -/
  | alphabet (byte : UInt8) (position : Nat)
deriving DecidableEq, Inhabited

namespace KeyError

def code : KeyError → Int
  | emptyKey => -30
  | alphabet _ _ => -31

def message : KeyError → String
  | emptyKey => "empty key"
  | alphabet byte position =>
    "byte 0x" ++ Byte.hex byte ++ " at position " ++ toString position
      ++ " is outside the automaton alphabet"

end KeyError

/-- Why a matcher refuses. -/
inductive MatchError where
  | pattern (cause : PatternError)
  | key (cause : KeyError)
  /-- There are only `groups` groups. -/
  | unknownGroup (group groups : Nat)
  /-- Keys were added to the group since it was compiled. -/
  | notCompiled (group : Nat)
  /-- The group's automaton did not pass its check. -/
  | inconsistent (group : Nat)
deriving DecidableEq, Inhabited

namespace MatchError

def code : MatchError → Int
  | pattern cause => cause.code
  | key cause => cause.code
  | unknownGroup _ _ => -40
  | notCompiled _ => -41
  | inconsistent _ => -42

def message : MatchError → String
  | pattern cause => cause.message
  | key cause => cause.message
  | unknownGroup group groups =>
    "unknown group " ++ toString group ++ " (matcher has " ++ toString groups ++ ")"
  | notCompiled group => "group " ++ toString group ++ " is not compiled"
  | inconsistent group =>
    "automaton of group " ++ toString group ++ " failed its consistency check"

end MatchError

end LiteralSieve
