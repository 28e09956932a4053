import LiteralSieve.ByteSet
import LiteralSieve.Pattern.Node

namespace LiteralSieve

/-!
# Atoms

An atom is what a quantifier binds to: one character, one set of bytes, a quotation, a group, or
something that literals cannot say. Under the option `i` an atom is widened to both cases of its
letters, where literals are taken as they are written.
-/

def isAsciiChar (c : Char) : Bool := c.val < 0x80

def charByte (c : Char) : UInt8 := UInt8.ofNat c.toNat

/-- The options in effect at a place of a pattern. -/
structure Flags where
  /-- Layout between atoms is ignored. -/
  extended : Bool
  /-- Letters stand for both of their cases. -/
  caseless : Bool
deriving DecidableEq, Inhabited

def Flags.none : Flags := ⟨false, false⟩

/-- What is fixed for the reading of one pattern. -/
structure Reading where
  /-- Sets become choices of their members. -/
  expansion : Bool
  /-- Literals will be searched for as they are written. -/
  caseSensitive : Bool
deriving DecidableEq, Inhabited

inductive Atom where
  | char (c : Char)
  | set (members : ByteSet)
  /-- The characters between `\Q` and `\E`, at least one. -/
  | quoted (text : List Char)
  | node (node : Node)
  /-- What literals cannot say. -/
  | gap
  /-- What leaves no trace. -/
  | nothing
deriving Inhabited

namespace Atom

/-- The atom for the character with this code. From `0x80` on, the code could mean a byte or a
character, and is a gap. -/
def ofCode (code : Nat) : Atom := if code < 0x80 then char (Char.ofNat code) else gap

/-- The atom as it counts under the option `i`. Only the cases of ASCII letters are known. -/
def caseless (caseSensitive : Bool) : Atom → Atom
  | char c =>
    if isAsciiChar c then
      if caseSensitive && c.isAlpha then set (ByteSet.empty.insert (charByte c)).closeCase
      else char c
    else gap
  | set members => set (if caseSensitive then members.closeCase else members)
  | quoted text =>
    if !text.all isAsciiChar || (caseSensitive && text.any Char.isAlpha) then gap else quoted text
  | atom => atom

/-- The atom as it counts under these options. -/
def under (flags : Flags) (caseSensitive : Bool) (atom : Atom) : Atom :=
  if flags.caseless then atom.caseless caseSensitive else atom

end Atom

end LiteralSieve
