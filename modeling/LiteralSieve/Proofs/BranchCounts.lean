import LiteralSieve.Proofs.GreedyUnfoldings

namespace LiteralSieve

/-!
# Branch counts

The branches of a tree are counted before they are listed, with sums and products that are held at
the largest count. A value that was held is added and multiplied again further up, and the result is
still the number of branches, or the largest count if there are more. Every branch that is listed
is a sequence of leaves, and there is at least one.
-/

namespace Node

/-- Nothing stands below the node. -/
def isLeaf : Node → Bool
  | literal _ _ => true
  | gap _ => true
  | sequence _ _ _ => false
  | choice _ _ _ => false

mutual

theorem isLeaf_of_mem_branches {node : Node} {branch : Branch} (h : branch ∈ node.branches) :
    ∀ leaf ∈ branch, leaf.isLeaf = true := by
  cases node with
  | literal bytes source =>
      obtain rfl := List.mem_singleton.mp h
      exact List.forall_mem_singleton.mpr rfl
  | gap source =>
      obtain rfl := List.mem_singleton.mp h
      exact List.forall_mem_singleton.mpr rfl
  | sequence children hollow source => exact isLeaf_of_mem_branchesOfAll h
  | choice children disabled source => exact isLeaf_of_mem_branchesOfAny h

theorem isLeaf_of_mem_branchesOfAll {nodes : List Node} {branch : Branch}
    (h : branch ∈ branchesOfAll nodes) : ∀ leaf ∈ branch, leaf.isLeaf = true := by
  cases nodes with
  | nil =>
      obtain rfl := List.mem_singleton.mp h
      exact List.forall_mem_nil _
  | cons node nodes =>
      obtain ⟨head, hhead, tail, htail, rfl⟩ := mem_combine.mp h
      exact List.forall_mem_append.mpr
        ⟨isLeaf_of_mem_branches hhead, isLeaf_of_mem_branchesOfAll htail⟩

theorem isLeaf_of_mem_branchesOfAny {nodes : List Node} {branch : Branch}
    (h : branch ∈ branchesOfAny nodes) : ∀ leaf ∈ branch, leaf.isLeaf = true := by
  cases nodes with
  | nil => cases h
  | cons node nodes =>
      rcases List.mem_append.mp h with hhere | hlater
      · exact isLeaf_of_mem_branches hhere
      · exact isLeaf_of_mem_branchesOfAny hlater

end

end Node

namespace PatternTree

/-- The count is that of the branches, up to the largest one, and these are sequences of leaves. -/
structure CountsBranches (tree : PatternTree) : Prop where
  count : tree.branchCount = min tree.branches.length (2 ^ 64 - 1)
  ne_nil : tree.branches ≠ []
  leaves : ∀ branch ∈ tree.branches, ∀ leaf ∈ branch, leaf.isLeaf = true

theorem countsBranches_of_root {tree : PatternTree} {root : Node} (hroot : tree.root = some root)
    (hproper : root.Proper) : tree.CountsBranches := by
  have hbranches : tree.branches = root.branches := by
    rw [branches, hroot, Option.map_some, Option.getD_some]
  have hcount : tree.branchCount = root.branchCount := by
    rw [branchCount, hroot, Option.map_some, Option.getD_some]
  constructor
  · rw [hcount, hbranches]
    exact root.branchCount_eq
  · rw [hbranches, ← List.length_pos_iff]
    exact Node.length_branches_pos hproper
  · rw [hbranches]
    exact fun branch hbranch => Node.isLeaf_of_mem_branches hbranch

variable {tree compiled : PatternTree} {pattern : String} {expansion : Bool}

/-- A tree that was read counts its branches, whatever passes it went through. -/
theorem afterPasses_countsBranches (h : tree.compile pattern expansion = (compiled, .ok ()))
    (passes : List Pass) :
    ∃ simplified, compiled.afterPasses passes = .ok simplified ∧ simplified.CountsBranches := by
  obtain ⟨root, hroot, -, hparse⟩ := root_of_compile h
  obtain ⟨simplified, hsimplified, hlast, -⟩ := afterPasses_of_root hroot passes
  have hproper : root.Proper := Node.hereditary_proper.parse hparse
  exact ⟨simplified, hsimplified,
    countsBranches_of_root hlast (Node.kept_proper.afterPasses hproper passes)⟩

/-- Twenty digits in a row are more than can be counted. The held product is added to one branch and
multiplied by two. -/
theorem afterPasses_countsBranches_digits :
    let pattern := "(?:\\d\\d\\d\\d\\d\\d\\d\\d\\d\\d\\d\\d\\d\\d\\d\\d\\d\\d\\d\\d|x)y(a|b)"
    ∃ compiled simplified, empty.compile pattern true = (compiled, .ok ()) ∧
      compiled.afterPasses [.merge, .mark] = .ok simplified ∧
      simplified.branchCount = 2 ^ 64 - 1 ∧ 2 ^ 64 - 1 ≤ simplified.branches.length ∧
      simplified.CountsBranches := by
  intro pattern
  let compiled := (empty.compile pattern true).1
  have hcompiled : empty.compile pattern true = (compiled, .ok ()) :=
    Prod.ext rfl (by decide +kernel)
  have hcount : (compiled.afterPasses [.merge, .mark]).toOption.map branchCount =
      some (2 ^ 64 - 1) := by
    decide +kernel
  obtain ⟨simplified, hsimplified, hcounts⟩ := afterPasses_countsBranches hcompiled [.merge, .mark]
  rw [hsimplified] at hcount
  have hheld : simplified.branchCount = 2 ^ 64 - 1 := Option.some.inj hcount
  refine ⟨compiled, simplified, hcompiled, hsimplified, hheld, ?_, hcounts⟩
  exact min_eq_right_iff.mp (hcounts.count.symm.trans hheld)

end PatternTree

end LiteralSieve
