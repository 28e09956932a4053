import LiteralSieve.Pattern.Node

namespace LiteralSieve

/-!
# Branches

A branch is one way through a tree: the leaves that it meets, in order. A sequence has the branches
of its children combined in every way, a choice has those of all its children.
-/

/-- One way through a tree. -/
abbrev Branch := List Node

/-- The largest branch count; a larger number of branches is shown as this one. -/
def maxCount : Nat := 0xFFFFFFFFFFFFFFFF

def boundedAdd (m n : Nat) : Nat := min (m + n) maxCount

def boundedMul (m n : Nat) : Nat := min (m * n) maxCount

/-- Every branch of the first list followed by every branch of the second. -/
def combine (heads tails : List Branch) : List Branch :=
  heads.flatMap fun head => tails.map fun tail => head ++ tail

namespace Node

mutual

/-- The number of branches, held at the largest count. -/
def branchCount : Node → Nat
  | literal _ _ => 1
  | gap _ => 1
  | sequence children _ _ => countProduct 1 children
  | choice children _ _ => countSum 0 children

def countProduct (acc : Nat) : List Node → Nat
  | [] => acc
  | node :: nodes => countProduct (boundedMul acc node.branchCount) nodes

def countSum (acc : Nat) : List Node → Nat
  | [] => acc
  | node :: nodes => countSum (boundedAdd acc node.branchCount) nodes

end

mutual

def branches : Node → List Branch
  | literal bytes source => [[literal bytes source]]
  | gap source => [[gap source]]
  | sequence children _ _ => branchesOfAll children
  | choice children _ _ => branchesOfAny children

def branchesOfAll : List Node → List Branch
  | [] => [[]]
  | node :: nodes => combine node.branches (branchesOfAll nodes)

def branchesOfAny : List Node → List Branch
  | [] => []
  | node :: nodes => node.branches ++ branchesOfAny nodes

end

mutual

/-- The literals that are not empty, in order, but for those in nodes that are marked. -/
def markedLiterals : Node → List Bytes
  | literal bytes _ => if bytes.isEmpty then [] else [bytes]
  | gap _ => []
  | sequence children hollow _ => if hollow then [] else markedLiteralsOf children
  | choice children disabled _ => if disabled then [] else markedLiteralsOf children

def markedLiteralsOf : List Node → List Bytes
  | [] => []
  | node :: nodes => node.markedLiterals ++ markedLiteralsOf nodes

end

mutual

/-- Whether every branch meets a literal of at least `minLength` bytes. -/
def covers (minLength : Nat) : Node → Bool
  | literal bytes _ => minLength ≤ bytes.length
  | gap _ => false
  | sequence children _ _ => anyCovers minLength children
  | choice children _ _ => allCover minLength children

def anyCovers (minLength : Nat) : List Node → Bool
  | [] => false
  | node :: nodes => node.covers minLength || anyCovers minLength nodes

def allCover (minLength : Nat) : List Node → Bool
  | [] => true
  | node :: nodes => node.covers minLength && allCover minLength nodes

end

end Node

/-! ## The literals of a branch -/

/-- The literal that is growing, unless it is too short. -/
def finishedRun (minLength : Nat) (run : Bytes) : List Bytes :=
  if minLength ≤ run.length then [run] else []

/-- The keywords of a branch after a growing literal. Literals that follow each other are one
keyword, and everything else parts them. -/
def keywordsFrom (minLength : Nat) (run : Bytes) : Branch → List Bytes
  | [] => finishedRun minLength run
  | .literal bytes _ :: nodes => keywordsFrom minLength (run ++ bytes) nodes
  | _ :: nodes => finishedRun minLength run ++ keywordsFrom minLength [] nodes

/-- The keywords of a branch: its literals, joined where nothing parts them, of at least
`minLength` bytes. -/
def Branch.keywords (minLength : Nat) (branch : Branch) : List Bytes :=
  keywordsFrom minLength [] branch

end LiteralSieve
