import LiteralSieve.ByteSet

namespace LiteralSieve.ByteSet

/-!
# Sets with a name

Escape letters such as `d` in `\d`, and the names of bracket expressions such as `[:alpha:]`. A
capital escape letter stands for the complement of what the small one stands for.
-/

def digits : ByteSet := ofPred Byte.isDigit

def spaces : ByteSet := ofPred Byte.isSpace

def wordBytes : ByteSet := ofPred Byte.isWord

/-- Tab, space and the no-break space of Latin-1. -/
def horizontalSpaces : ByteSet := ofPred fun b => b == 0x09 || b == 0x20 || b == 0xA0

/-- Line feed, vertical tab, form feed and carriage return. -/
def verticalSpaces : ByteSet := ofPred fun b => 0x0A ≤ b && b ≤ 0x0D

def ofEscape? : Char → Option ByteSet
  | 'd' => some digits
  | 'D' => some digits.complement
  | 's' => some spaces
  | 'S' => some spaces.complement
  | 'w' => some wordBytes
  | 'W' => some wordBytes.complement
  | 'h' => some horizontalSpaces
  | 'H' => some horizontalSpaces.complement
  | 'v' => some verticalSpaces
  | 'V' => some verticalSpaces.complement
  | _ => none

def ofName? : String → Option ByteSet
  | "alnum" => some (ofPred Byte.isAlphanum)
  | "alpha" => some (ofPred Byte.isAlpha)
  | "ascii" => some (ofPred Byte.isAscii)
  | "blank" => some (ofPred fun b => b == 0x20 || b == 0x09)
  | "cntrl" => some (ofPred Byte.isControl)
  | "digit" => some digits
  | "graph" => some (ofPred Byte.isGraphic)
  | "lower" => some (ofPred Byte.isLower)
  | "print" => some (ofPred fun b => Byte.isGraphic b || b == 0x20)
  | "punct" => some (ofPred Byte.isPunctuation)
  | "space" => some spaces
  | "upper" => some (ofPred Byte.isUpper)
  | "word" => some wordBytes
  | "xdigit" => some (ofPred fun b => (Byte.hexValue? b).isSome)
  | _ => none

end LiteralSieve.ByteSet
