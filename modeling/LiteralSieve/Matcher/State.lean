import LiteralSieve.Automaton.Trie

namespace LiteralSieve

/-!
# Scan states

A scan state remembers between scans how much of each piece was seen, and under which version. A
cursor of another version counts as reset, but is only renewed when the first literal of its piece
is seen; so nothing needs to be cleared between scans under different versions.
-/

/-- A branch of a pattern, by the order in which the branches came. -/
abbrev PieceId := Nat

/-- A literal of a branch, by the order in which the literals came. -/
abbrev FrameId := Nat

/-- How far the literals of a piece were seen in their order. -/
structure PieceCursor where
  version : UInt64
  seen : Nat
  /-- All literals were seen, and nothing more counts under this version. -/
  finished : Bool
  start : Nat
deriving DecidableEq, Inhabited

namespace PieceCursor

/-- Nothing seen yet. -/
def fresh (version : UInt64) : PieceCursor := ⟨version, 0, false, 0⟩

/-- The cursor that counts for a literal: an old one is renewed by the first literal alone. -/
def renew? (cursor : PieceCursor) (version : UInt64) (position : Nat) : Option PieceCursor :=
  if cursor.version = version then some cursor
  else if position = 0 then some (fresh version)
  else none

/-- The cursor after the literal at a position was seen at an offset, if it is the one that was
missing. -/
def accept? (cursor : PieceCursor) (size position offset : Nat) : Option PieceCursor :=
  if cursor.finished ∨ cursor.seen ≠ position then none
  else
    some ⟨cursor.version, position + 1, position + 1 == size,
      if position = 0 then offset else cursor.start⟩

end PieceCursor

structure ScanState where
  /-- The version of the last scan. -/
  version : UInt64
  cursors : Array PieceCursor
  /-- The version under which each pattern was listed last. -/
  listed : Array UInt64
deriving DecidableEq, Inhabited

/-- The array made longer with copies of `a`, unless it is long enough. -/
def extendArray {α : Type} (xs : Array α) (n : Nat) (a : α) : Array α :=
  xs ++ Array.replicate (n - xs.size) a

namespace ScanState

/-- A state that was never used, which is fresh for version 0. -/
def new : ScanState := ⟨0, #[], #[]⟩

/-- All cursors are fresh under a version. -/
def reset (state : ScanState) (version : UInt64) : ScanState :=
  { state with version := version, cursors := state.cursors.map fun _ => .fresh version }

/-- The state at the start of a scan under a version, with a cursor for every piece. -/
def prepare (state : ScanState) (version : UInt64) (pieces : Nat) : ScanState :=
  { state with version := version, cursors := extendArray state.cursors pieces (.fresh 0) }

/-- The version of a scan that shall carry nothing over. -/
def nextVersion (state : ScanState) : UInt64 := state.version + 1

end ScanState

end LiteralSieve
