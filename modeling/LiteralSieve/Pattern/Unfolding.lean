import LiteralSieve.Pattern.Branches

namespace LiteralSieve

/-!
# Unfoldings

Where a tree has too many branches, some of its choices stay folded: such a choice stands in a
branch itself, as if it were a leaf. An unfolding says of a tree which choices are unfolded, and has
branches of its own. The greedy unfolding takes the choices one after the other, outer ones and
those on the left first, and unfolds each that leaves the number of branches within a cap.
-/

inductive Unfolding where
  /-- A leaf, or a choice that stays folded. -/
  | single (node : Node)
  | sequence (parts : List Unfolding)
  | choice (parts : List Unfolding)
deriving Inhabited

namespace Unfolding

mutual

/-- The branches, in which folded choices are single elements. -/
def branches : Unfolding → List Branch
  | single node => [[node]]
  | sequence parts => branchesOfAll parts
  | choice parts => branchesOfAny parts

def branchesOfAll : List Unfolding → List Branch
  | [] => [[]]
  | part :: parts => combine part.branches (branchesOfAll parts)

def branchesOfAny : List Unfolding → List Branch
  | [] => []
  | part :: parts => part.branches ++ branchesOfAny parts

end

mutual

def count : Unfolding → Nat
  | single _ => 1
  | sequence parts => countProduct parts
  | choice parts => countSum parts

def countProduct : List Unfolding → Nat
  | [] => 1
  | part :: parts => part.count * countProduct parts

def countSum : List Unfolding → Nat
  | [] => 0
  | part :: parts => part.count + countSum parts

end

end Unfolding

namespace Node

mutual

def folded : Node → Unfolding
  | literal bytes source => .single (literal bytes source)
  | gap source => .single (gap source)
  | sequence children _ _ => .sequence (foldedAll children)
  | choice children disabled source => .single (choice children disabled source)

def foldedAll : List Node → List Unfolding
  | [] => []
  | node :: nodes => node.folded :: foldedAll nodes

end

mutual

/-- The greedy unfolding of a node in a tree. `whole` tells from the number of branches of the node
how many the tree has, if all choices that are still to come stay folded. Without `deep` the choices
in sequences do. -/
def unfoldIn (deep : Bool) (cap : Nat) (whole : Nat → Nat) : Node → Unfolding
  | literal bytes source => .single (literal bytes source)
  | gap source => .single (gap source)
  | sequence children _ _ =>
    .sequence (if deep then unfoldAll cap whole 1 children else foldedAll children)
  | choice children disabled source =>
    if cap < min (whole children.length) maxCount then .single (choice children disabled source)
    else .choice (unfoldAny deep cap whole 0 children)

/-- The parts of a sequence, of which those on the left have `before` branches. -/
def unfoldAll (cap : Nat) (whole : Nat → Nat) (before : Nat) : List Node → List Unfolding
  | [] => []
  | node :: nodes =>
    let part := node.unfoldIn true cap (fun n => whole (before * n))
    part :: unfoldAll cap whole (before * part.count) nodes

/-- The parts of a choice, of which those on the left have `before` branches. -/
def unfoldAny (deep : Bool) (cap : Nat) (whole : Nat → Nat) (before : Nat) :
    List Node → List Unfolding
  | [] => []
  | node :: nodes =>
    let part := node.unfoldIn deep cap (fun n => whole (before + n + nodes.length))
    part :: unfoldAny deep cap whole (before + part.count) nodes

end

/-- The greedy unfolding of a tree. -/
def unfold (deep : Bool) (cap : Nat) (root : Node) : Unfolding := root.unfoldIn deep cap id

end Node

end LiteralSieve
