import LiteralSieve.Error
import LiteralSieve.Pattern.Branches
import LiteralSieve.Pattern.Outline
import LiteralSieve.Pattern.Parser
import LiteralSieve.Pattern.Simplify
import LiteralSieve.Pattern.Unfolding
import LiteralSieve.Visit

namespace LiteralSieve

/-!
# Pattern trees

A pattern with the tree that was read from it. A pattern that could not be read has no root. The
tree counts all nodes that were made for it, with those that it no longer holds.
-/

structure PatternTree where
  made : Nat
  pattern : String
  root : Option Node
  caseSensitive : Bool
deriving Inhabited

namespace PatternTree

def empty : PatternTree := ⟨0, "", none, false⟩

def setCaseSensitive (tree : PatternTree) (yes : Bool) : PatternTree :=
  { tree with caseSensitive := yes }

def size (tree : PatternTree) : Nat := tree.made

def isEmpty (tree : PatternTree) : Bool := tree.made == 0

def clear (tree : PatternTree) : PatternTree :=
  { empty with caseSensitive := tree.caseSensitive }

/-- The tree of a pattern, and the fault if it has one. -/
def compile (tree : PatternTree) (pattern : String) (expansion : Bool) :
    PatternTree × Except PatternError Unit :=
  let result := parse ⟨expansion, tree.caseSensitive⟩ pattern
  match result.root with
  | .ok root => (⟨result.made, pattern, some root, tree.caseSensitive⟩, .ok ())
  | .error fault =>
    (⟨result.made, pattern, none, tree.caseSensitive⟩, .error (.malformed fault pattern))

/-- The part of the pattern at an extent; nothing if the extent parts a character. -/
def sourceText (tree : PatternTree) (source : Extent) : String :=
  let start : String.Pos.Raw := ⟨source.start⟩
  let stop : String.Pos.Raw := ⟨source.stop⟩
  if start.isValid tree.pattern ∧ stop.isValid tree.pattern ∧ source.start ≤ source.stop then
    start.extract tree.pattern stop
  else ""

/-! ## Simplifying -/

def adjust (tree : PatternTree) : Except PatternError PatternTree :=
  match tree.root with
  | some root => .ok { tree with root := some root.adjust }
  | none => .error .corruptTree

/-- The tree with its marks, and whether it has no content at all. -/
def mark (tree : PatternTree) : PatternTree × Bool :=
  ({ tree with root := tree.root.map Node.mark }, tree.root.all Node.isHollow)

/-- The simplified tree, and whether every alternative has content. -/
def merge (tree : PatternTree) : Except PatternError (PatternTree × Bool) :=
  match tree.root with
  | some root =>
    let root := root.adjust.mark
    .ok ({ tree with made := tree.made + root.mergeCost, root := some root.mergeLiterals },
      !root.isHollow)
  | none => .error .corruptTree

/-! ## Enumerating -/

def branchCount (tree : PatternTree) : Nat := (tree.root.map Node.branchCount).getD 0

def branches (tree : PatternTree) : List Branch := (tree.root.map Node.branches).getD []

/-- The branches with as many choices unfolded as the cap allows. -/
def unfold (tree : PatternTree) (deep : Bool) (cap : Nat) : List Branch :=
  (tree.root.map fun root => (root.unfold deep cap).branches).getD []

def literals (tree : PatternTree) : List Bytes := (tree.root.map Node.markedLiterals).getD []

def covers (tree : PatternTree) (minLength : Nat) : Bool := tree.root.any (Node.covers minLength)

/-! ## Showing -/

def outline (tree : PatternTree) : List OutlineEntry := (tree.root.map (Node.outline 0)).getD []

/-- The nodes with their depths are shown to `visit` until that is done. -/
def traverse {σ : Type} (tree : PatternTree) (visit : OutlineEntry → σ → ForInStep σ) (acc : σ) :
    ForInStep σ :=
  visitAll visit tree.outline acc

def describe (tree : PatternTree) : String :=
  String.join (tree.outline.map (OutlineEntry.line tree.sourceText))

end PatternTree

end LiteralSieve
