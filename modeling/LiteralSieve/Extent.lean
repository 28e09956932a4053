namespace LiteralSieve

/-!
# Extents

A stretch of a text, from the offset of its first byte to the offset after its last one.
-/

structure Extent where
  start : Nat
  stop : Nat
deriving DecidableEq, Inhabited

namespace Extent

def isEmpty (x : Extent) : Bool := !decide (x.start < x.stop)

/-- The same stretch in a text that has `n` more bytes in front. -/
def shift (n : Nat) (x : Extent) : Extent := ⟨n + x.start, n + x.stop⟩

/-- Where a search after `x` starts: at its end, or one byte later if `x` is empty. -/
def next (x : Extent) : Nat := if x.isEmpty then x.stop + 1 else x.stop

theorem next_pos (x : Extent) : 0 < x.next := by
  by_cases h : x.start < x.stop <;> simp [next, isEmpty, h]
  omega

/-- From the start of `x` to the end of `y`. -/
def through (x y : Extent) : Extent := ⟨x.start, y.stop⟩

end Extent

end LiteralSieve
