import LiteralSieve.Byte
import LiteralSieve.Extent

namespace LiteralSieve

/-!
# Verifiers

The sieve only proves that the literals of a pattern stand in the right order. A verifier decides on
the text itself. From where it first finds its subject follow all the places where it does, one
after the other without overlap.
-/

class Verifier (α : Type) where
  isMatch : α → Bytes → Bool
  /-- The leftmost place. -/
  find? : α → Bytes → Option Extent

namespace Verifier

/-- The places that `find?` shows from offset `start` on. -/
def findAllFrom (find? : Bytes → Option Extent) (text : Bytes) (start : Nat) : List Extent :=
  if start ≤ text.length then
    match find? (text.drop start) with
    | none => []
    | some place => place.shift start :: findAllFrom find? text (start + place.next)
  else []
termination_by text.length + 1 - start
decreasing_by
  have := place.next_pos
  omega

def findAll {α : Type} [Verifier α] (v : α) (text : Bytes) : List Extent :=
  findAllFrom (find? v) text 0

end Verifier

/-- A byte string to be looked for. -/
structure Needle where
  bytes : Bytes
deriving DecidableEq, Inhabited

namespace Needle

/-- The leftmost occurrence of the needle in a text whose first byte has this offset. -/
def findFrom? (needle : Bytes) (offset : Nat) : Bytes → Option Extent
  | [] => if needle.isEmpty then some ⟨offset, offset⟩ else none
  | b :: rest =>
    if needle.isPrefixOf (b :: rest) then some ⟨offset, offset + needle.length⟩
    else findFrom? needle (offset + 1) rest

instance : Verifier Needle where
  isMatch needle text := (findFrom? needle.bytes 0 text).isSome
  find? needle text := findFrom? needle.bytes 0 text

end Needle

end LiteralSieve
