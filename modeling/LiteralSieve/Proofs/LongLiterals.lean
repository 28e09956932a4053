import LiteralSieve.Proofs.Forest.Enumerating

namespace LiteralSieve

/-!
# Long literals on every branch

Keywords are taken one by one only from a tree that is covered: every branch must meet a literal that
is long enough. A stored tree answers this as the tree it fits does, whichever passes were done, and
the answer is exact. Where it is yes, each branch meets a long literal among those that the tree is
asked for, so no branch is lost by the marks.
-/

namespace StoredTree

/-- The branches, as lists of slots. -/
def branches (stored : StoredTree) : List (List Nat) :=
  match stored.root with
  | none => []
  | some id => Forest.branchesAt stored.forest.size stored.forest id

/-- The slots of the literals that are not empty and not below a mark. -/
def literals (stored : StoredTree) : List Nat :=
  match stored.root with
  | none => []
  | some id => Forest.literalsAt stored.forest.size stored.forest id

def covers (stored : StoredTree) (minLength : Nat) : Bool :=
  match stored.root with
  | none => false
  | some id => Forest.coversAt minLength stored.forest.size stored.forest id

variable {stored : StoredTree} {tree : PatternTree} {root : Node} {minLength : Nat}

/-- What a stored tree holds is what the tree holds that it fits. -/
theorem Fits.map_branches (h : stored.Fits tree) :
    stored.branches.map (·.map stored.forest.leafAt) = tree.branches := by
  obtain ⟨id, root, print, hid, hroot, hholds, hnodup, -⟩ := h.root
  rw [branches, hid, PatternTree.branches, hroot]
  exact (hholds.enumerates (size_le_of_holds hholds hnodup)).branches

theorem Fits.map_literals (h : stored.Fits tree) :
    stored.literals.map stored.forest.literalAt = tree.literals := by
  obtain ⟨id, root, print, hid, hroot, hholds, hnodup, -⟩ := h.root
  rw [literals, hid, PatternTree.literals, hroot]
  exact (hholds.enumerates (size_le_of_holds hholds hnodup)).literals

theorem Fits.covers_eq (h : stored.Fits tree) (minLength : Nat) :
    stored.covers minLength = tree.covers minLength := by
  obtain ⟨id, root, print, hid, hroot, hholds, hnodup, -⟩ := h.root
  rw [covers, hid, PatternTree.covers, hroot]
  exact (hholds.enumerates (size_le_of_holds hholds hnodup)).covers minLength

theorem Fits.covers_iff (h : stored.Fits tree) (minLength : Nat) :
    stored.covers minLength = true ↔
      ∀ branch ∈ stored.branches, ∃ leaf ∈ branch, stored.forest.IsLongAt minLength leaf := by
  obtain ⟨id, root, print, -, hroot, -⟩ := h.root
  have hbranches : tree.branches = root.branches := by
    rw [PatternTree.branches, hroot]
    rfl
  have hcovers : tree.covers minLength = root.covers minLength := by
    rw [PatternTree.covers, hroot]
    rfl
  rw [h.covers_eq, hcovers, Node.covers_iff, ← hbranches, ← h.map_branches, List.forall_mem_map]
  refine forall₂_congr fun branch _ => ?_
  simp only [List.mem_map, exists_exists_and_eq_and, Forest.isLong_leafAt_iff]

theorem Fits.found_of_covers (h : stored.Fits tree) (hroot : tree.root = some root)
    (hmarks : root.MarkedRight) (hmin : 1 ≤ minLength) (hcovers : stored.covers minLength = true) :
    ∀ branch ∈ stored.branches, ∃ leaf ∈ branch, stored.forest.IsLongAt minLength leaf ∧
      leaf ∈ stored.literals := by
  obtain ⟨id, node, print, hid, hnode, hholds, hnodup, -⟩ := h.root
  obtain rfl := Option.some.inj (hroot.symm.trans hnode)
  have hroots : tree.covers minLength = root.covers minLength := by
    rw [PatternTree.covers, hroot]
    rfl
  rw [h.covers_eq, hroots] at hcovers
  rw [branches, literals, hid]
  exact (hholds.enumerates (size_le_of_holds hholds hnodup)).found minLength hmin hmarks hcovers

end StoredTree

namespace PatternTree

/-- After any passes a tree says of itself that it is covered if and only if every branch meets a long
literal, and then each branch meets one that is among the literals of the tree. -/
theorem covers_exact (old : PatternTree) {pattern : String} {expansion : Bool}
    {compiled : PatternTree} (h : old.compile pattern expansion = (compiled, .ok ()))
    (passes : List Pass) :
    ∃ simplified stored, compiled.afterPasses passes = .ok simplified ∧
      (StoredTree.read ⟨expansion, old.caseSensitive⟩ pattern).afterPasses passes = .ok stored ∧
      stored.Fits simplified ∧
      stored.branches.map (·.map stored.forest.leafAt) = simplified.branches ∧
      stored.literals.map stored.forest.literalAt = simplified.literals ∧
      ∀ minLength, 1 ≤ minLength →
        stored.covers minLength = simplified.covers minLength ∧
        (stored.covers minLength = true ↔
          ∀ branch ∈ stored.branches, ∃ leaf ∈ branch, stored.forest.IsLongAt minLength leaf) ∧
        (stored.covers minLength = true → ∀ branch ∈ stored.branches, ∃ leaf ∈ branch,
          stored.forest.IsLongAt minLength leaf ∧ leaf ∈ stored.literals) := by
  obtain ⟨root, hroot, -, hparse⟩ := root_of_compile h
  obtain ⟨stored, simplified, hstored, hsimplified, hfits⟩ :=
    (StoredTree.fits_read h).afterPasses passes
  obtain ⟨last, hlast, hlastRoot, -⟩ := afterPasses_of_root hroot passes
  obtain rfl := Except.ok.inj (hsimplified.symm.trans hlast)
  have hmarks : (root.afterPasses passes).MarkedRight := Node.kept_markedRight.afterPasses
    (Node.markedRight_of_unmarked (Node.hereditary_unmarked.parse hparse)) passes
  refine ⟨simplified, stored, hsimplified, hstored, hfits, hfits.map_branches, hfits.map_literals,
    fun minLength hmin => ⟨hfits.covers_eq minLength, hfits.covers_iff minLength, ?_⟩⟩
  exact hfits.found_of_covers hlastRoot hmarks hmin

/-- A pattern of which one alternative has a long literal beside a set, under passes that set marks
before nodes are joined. -/
theorem covers_exact_marked :
    let pattern := "(?:ab[x-z]?|.cd(?:e|f)g)(?:.|h)"
    let passes : List Pass := [.mark, .adjust, .merge, .mark]
    ∃ compiled simplified stored, empty.compile pattern true = (compiled, .ok ()) ∧
      compiled.afterPasses passes = .ok simplified ∧
      (StoredTree.read ⟨true, false⟩ pattern).afterPasses passes = .ok stored ∧
      stored.Fits simplified ∧
      stored.covers 2 = simplified.covers 2 ∧ simplified.covers 2 = true ∧
      ∀ branch ∈ stored.branches, ∃ leaf ∈ branch,
        stored.forest.IsLongAt 2 leaf ∧ leaf ∈ stored.literals := by
  intro pattern passes
  let compiled := (empty.compile pattern true).1
  have hcompiled : empty.compile pattern true = (compiled, .ok ()) :=
    Prod.ext rfl (by decide +kernel)
  obtain ⟨simplified, stored, hsimplified, hstored, hfits, -, -, hexact⟩ :=
    covers_exact empty hcompiled passes
  obtain ⟨hsame, -, hfound⟩ := hexact 2 (by decide)
  have hcovers : simplified.covers 2 = true := by
    have hall : (compiled.afterPasses passes).toOption.any (covers · 2) = true := by decide +kernel
    rw [hsimplified] at hall
    exact hall
  exact ⟨compiled, simplified, stored, hcompiled, hsimplified, hstored, hfits, hsame, hcovers,
    hfound (hsame.trans hcovers)⟩

end PatternTree

end LiteralSieve
