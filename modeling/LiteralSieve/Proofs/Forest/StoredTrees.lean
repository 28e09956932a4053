import LiteralSieve.Proofs.Forest.Addresses
import LiteralSieve.Proofs.Forest.Joining
import LiteralSieve.Proofs.Forest.Reading

namespace LiteralSieve

/-!
# Stored trees

A pattern tree can keep its nodes in a forest, where all passes are done in place. Such a stored
tree fits a pattern tree if it holds the same root and has as many slots as nodes were made. It fits
after the reading of a pattern, and a pass over both leads to trees that fit again, so the forest
never turns out to be corrupt.
-/

/-- A pattern tree with its nodes in a forest. -/
structure StoredTree where
  forest : Forest
  pattern : String
  root : Option Nat

namespace StoredTree

/-- The tree of a pattern, without a root if the pattern has a fault. -/
def read (reading : Reading) (pattern : String) : StoredTree :=
  ⟨(parseSlots reading pattern).forest, pattern, (parseSlots reading pattern).root⟩

/-! No walk goes deeper than there are slots. -/

def adjust (stored : StoredTree) : Except PatternError StoredTree :=
  match stored.root with
  | none => .error .corruptTree
  | some id => do
    let (forest, root) ← Forest.adjustAt stored.forest.size stored.forest id
    .ok ⟨forest, stored.pattern, some root⟩

/-- The tree with its marks, and whether it has no content at all. -/
def mark (stored : StoredTree) : Except PatternError (StoredTree × Bool) :=
  match stored.root with
  | none => .ok (stored, true)
  | some id => do
    let (forest, hollow) ← Forest.markAt stored.forest.size stored.forest id
    .ok (⟨forest, stored.pattern, some id⟩, hollow)

/-- The simplified tree, and whether every alternative has content. -/
def merge (stored : StoredTree) : Except PatternError (StoredTree × Bool) := do
  let adjusted ← stored.adjust
  let (marked, hollow) ← adjusted.mark
  match marked.root with
  | none => .ok (marked, !hollow)
  | some id =>
    let (forest, _) ← Forest.mergeAt marked.forest.size marked.forest id
    .ok (⟨forest, marked.pattern, some id⟩, !hollow)

def afterPass (stored : StoredTree) : Pass → Except PatternError StoredTree
  | .adjust => stored.adjust
  | .mark => stored.mark.map Prod.fst
  | .merge => stored.merge.map Prod.fst

def afterPasses (stored : StoredTree) (passes : List Pass) : Except PatternError StoredTree :=
  passes.foldlM afterPass stored

open Forest

/-- The stored tree has the root of the tree, and a slot for every node that was made. -/
structure Fits (stored : StoredTree) (tree : PatternTree) : Prop where
  sound : stored.forest.Sound
  size : stored.forest.size = tree.size
  pattern : stored.pattern = tree.pattern
  root : ∃ id root print, stored.root = some id ∧ tree.root = some root ∧
    Forest.Holds stored.forest id root print ∧ print.Nodup ∧ root.Placed tree.pattern

variable {stored : StoredTree} {tree compiled : PatternTree} {pattern : String} {expansion : Bool}
  {forest after : Forest} {print print' : List Nat} {id made : Nat} {node : Node}

/-- What was read fits the tree that was read. -/
theorem fits_read (h : tree.compile pattern expansion = (compiled, .ok ())) :
    (read ⟨expansion, tree.caseSensitive⟩ pattern).Fits compiled := by
  have hended := ended_parseSlots ⟨expansion, tree.caseSensitive⟩ pattern
  have hplaced := placed_parse ⟨expansion, tree.caseSensitive⟩ pattern
  unfold PatternTree.compile at h
  dsimp only at h
  split at h
  case h_2 => cases (Prod.mk.inj h).2
  case h_1 root hroot =>
    obtain ⟨rfl, -⟩ := Prod.mk.inj h
    obtain ⟨id, print, hid, hholds, hnodup⟩ := hended.holds root hroot
    rw [ParseResult.Placed, hroot] at hplaced
    exact ⟨hended.sound, hended.size, rfl, id, root, print, hid, rfl, hholds, hnodup, hplaced⟩

/-- A tree in a forest is not larger than the forest. -/
theorem size_le_of_holds (h : Forest.Holds forest id node print) (hnodup : print.Nodup) :
    node.size ≤ forest.size := by
  have hsubset : print ⊆ List.range forest.size :=
    fun other hother => List.mem_range.mpr (h.print_lt other hother)
  rw [← h.length_print, ← List.length_range (n := forest.size)]
  exact (List.subperm_of_subset hnodup hsubset).length_le

/-- The root is turned into another node in both trees. -/
theorem Fits.turn (h : stored.Fits tree)
    (hturn : Turns stored.forest print after [id] [node] made print')
    (hplaced : node.Placed tree.pattern) :
    Fits ⟨after, stored.pattern, some id⟩ { tree with made := tree.made + made, root := some node } :=
  ⟨hturn.changes.sound h.sound, hturn.size.trans (congrArg (· + made) h.size), h.pattern, id, node,
    print', rfl, rfl, hturn.holds.single, hturn.renews.nodup, hplaced⟩

theorem Fits.adjust (h : stored.Fits tree) :
    ∃ stored' tree', stored.adjust = .ok stored' ∧ tree.adjust = .ok tree' ∧ stored'.Fits tree' := by
  obtain ⟨id, root, print, hid, hroot, hholds, hnodup, hplaced⟩ := h.root
  obtain ⟨after, id', print', hadjust, hturn⟩ :=
    adjusts stored.forest.size hholds hnodup (size_le_of_holds hholds hnodup)
  refine ⟨_, _, ?_, ?_, h.turn hturn ((Node.kept_placed _).adjust hplaced)⟩
  · rw [StoredTree.adjust, hid]
    dsimp only
    rw [hadjust]
    rfl
  · rw [PatternTree.adjust, hroot]
    rfl

theorem Fits.mark (h : stored.Fits tree) :
    ∃ stored', stored.mark = .ok (stored', tree.mark.2) ∧ stored'.Fits tree.mark.1 := by
  obtain ⟨id, root, print, hid, hroot, hholds, hnodup, hplaced⟩ := h.root
  obtain ⟨after, print', hmark, hturn⟩ :=
    visits_markAt stored.forest.size hholds hnodup (size_le_of_holds hholds hnodup)
  have hmarked : tree.mark = ({ tree with root := some root.mark }, root.isHollow) := by
    rw [PatternTree.mark, hroot]
    rfl
  rw [hmarked]
  refine ⟨_, ?_, h.turn hturn ((Node.kept_placed _).mark hplaced)⟩
  rw [StoredTree.mark, hid]
  dsimp only
  rw [hmark]
  rfl

/-- A merge is an adjustment, a marking and the joining of literals. -/
theorem merge_eq {adjusted : PatternTree} {root : Node} (hadjust : tree.adjust = .ok adjusted)
    (hroot : adjusted.mark.1.root = some root) :
    tree.merge = .ok ({ adjusted.mark.1 with
      made := adjusted.mark.1.made + root.mergeCost, root := some root.mergeLiterals },
      !adjusted.mark.2) := by
  obtain ⟨treeMade, treePattern, treeRoot, caseSensitive⟩ := tree
  cases treeRoot with
  | none => cases hadjust
  | some before =>
      obtain rfl := Except.ok.inj hadjust
      obtain rfl := Option.some.inj hroot
      rw [PatternTree.merge]
      dsimp only
      rw [Node.isHollow_mark]
      rfl

theorem Fits.merge (h : stored.Fits tree) :
    ∃ stored' tree' found, stored.merge = .ok (stored', found) ∧ tree.merge = .ok (tree', found) ∧
      stored'.Fits tree' := by
  obtain ⟨adjusted, adjustedTree, hadjust, hadjustTree, hfits⟩ := h.adjust
  obtain ⟨marked, hmark, hfits'⟩ := hfits.mark
  obtain ⟨id, root, print, hid, hroot, hholds, hnodup, hplaced⟩ := hfits'.root
  obtain ⟨after, print', hmerge, hturn⟩ :=
    visits_mergeAt marked.forest.size hholds hnodup (size_le_of_holds hholds hnodup)
  refine ⟨_, _, _, ?_, merge_eq hadjustTree hroot,
    hfits'.turn hturn ((Node.kept_placed _).mergeLiterals hplaced)⟩
  rw [StoredTree.merge, hadjust]
  dsimp only [bind, Except.bind]
  rw [hmark]
  dsimp only
  rw [hid]
  dsimp only
  rw [hmerge]

theorem Fits.afterPass (h : stored.Fits tree) (pass : Pass) :
    ∃ stored' tree', stored.afterPass pass = .ok stored' ∧ tree.afterPass pass = .ok tree' ∧
      stored'.Fits tree' := by
  cases pass with
  | adjust => exact h.adjust
  | mark =>
      obtain ⟨stored', hmark, hfits⟩ := h.mark
      refine ⟨stored', _, ?_, rfl, hfits⟩
      rw [StoredTree.afterPass, hmark]
      rfl
  | merge =>
      obtain ⟨stored', tree', found, hmerge, hmergeTree, hfits⟩ := h.merge
      refine ⟨stored', tree', ?_, ?_, hfits⟩
      · rw [StoredTree.afterPass, hmerge]
        rfl
      · rw [PatternTree.afterPass, hmergeTree]
        rfl

/-- Any passes can be done with both trees, and none of them fails. -/
theorem Fits.afterPasses (h : stored.Fits tree) (passes : List Pass) :
    ∃ stored' tree', stored.afterPasses passes = .ok stored' ∧ tree.afterPasses passes = .ok tree' ∧
      stored'.Fits tree' := by
  induction passes generalizing stored tree with
  | nil => exact ⟨stored, tree, rfl, rfl, h⟩
  | cons pass passes ih =>
      obtain ⟨next, nextTree, hnext, hnextTree, hfits⟩ := h.afterPass pass
      obtain ⟨last, lastTree, hlast, hlastTree, hfits'⟩ := ih hfits
      refine ⟨last, lastTree, ?_, ?_, hfits'⟩
      · rw [StoredTree.afterPasses, List.foldlM_cons, hnext]
        exact hlast
      · rw [PatternTree.afterPasses, List.foldlM_cons, hnextTree]
        exact hlastTree

end StoredTree

end LiteralSieve
