import LiteralSieve.Proofs.Forest.NormalTrees
import LiteralSieve.Proofs.Pattern.Hereditary

namespace LiteralSieve

/-!
# Merging once and for all

A merge brings a tree that was read to its normal form. Merging it again finds the same, makes no
node and writes nothing: the tree stays as it is, and so does the forest that it is stored in.
-/

open Node (Every Normal)

theorem StoredTree.Fits.merge_of_normal {stored : StoredTree} {tree : PatternTree} {root : Node}
    (h : stored.Fits tree) (hroot : tree.root = some root) (hnormal : Every Normal root) :
    stored.merge = .ok (stored, !root.isHollow) ∧ tree.merge = .ok (tree, !root.isHollow) := by
  obtain ⟨id, node, print, hid, hnode, hholds, hnodup, -⟩ := h.root
  obtain rfl := Option.some.inj (hroot.symm.trans hnode)
  have hsize := size_le_of_holds hholds hnodup
  constructor
  · obtain ⟨forest, pattern, _⟩ := stored
    obtain rfl : _ = some id := hid
    have hadjust : StoredTree.adjust ⟨forest, pattern, some id⟩ = .ok ⟨forest, pattern, some id⟩ := by
      rw [StoredTree.adjust]
      dsimp only
      rw [Forest.rests_adjustAt _ hholds hnormal hsize]
      rfl
    have hmark : StoredTree.mark ⟨forest, pattern, some id⟩ =
        .ok (⟨forest, pattern, some id⟩, root.isHollow) := by
      rw [StoredTree.mark]
      dsimp only
      rw [Forest.rests_markAt _ hholds hnormal hsize]
      rfl
    rw [StoredTree.merge, hadjust]
    dsimp only [bind, Except.bind]
    rw [hmark]
    dsimp only
    rw [Forest.rests_mergeAt _ hholds hnormal hsize]
  · obtain ⟨made, pattern, _, caseSensitive⟩ := tree
    obtain rfl : _ = some root := hroot
    have hmark : root.adjust.mark = root := by
      rw [Node.adjust_eq_self hnormal.settled, Node.mark_eq_self (hnormal.imp Normal.marked)]
    obtain ⟨hmerge, hcost⟩ := Node.mergeLiterals_eq_self hnormal
    rw [PatternTree.merge]
    dsimp only
    rw [hmark, hmerge, hcost, Nat.add_zero]

namespace PatternTree

variable {tree merged compiled : PatternTree} {root : Node} {found : Bool}

theorem root_of_merge (hroot : tree.root = some root) (h : tree.merge = .ok (merged, found)) :
    merged.root = some root.adjust.mark.mergeLiterals ∧
      found = !root.adjust.mark.mergeLiterals.isHollow := by
  rw [merge, hroot] at h
  obtain ⟨rfl, rfl⟩ := Prod.mk.inj (Except.ok.inj h)
  exact ⟨rfl, congrArg (!·) (Node.isHollow_mergeLiterals _).symm⟩

/-- A merge after a reading leads to a normal form, which another merge leaves as it is, down to the
slots of the forest that the tree is stored in. -/
theorem merge_normal (old : PatternTree) {pattern : String} {expansion : Bool}
    (h : old.compile pattern expansion = (compiled, .ok ())) :
    ∃ merged stored root node found, compiled.merge = .ok (merged, found) ∧
      (StoredTree.read ⟨expansion, old.caseSensitive⟩ pattern).merge = .ok (stored, found) ∧
      stored.Fits merged ∧
      stored.root = some root ∧ stored.forest.NormalBelow root ∧
      merged.root = some node ∧ Every Normal node ∧
      merged.merge = .ok (merged, found) ∧ stored.merge = .ok (stored, found) := by
  obtain ⟨first, hfirst, -, hparse⟩ := root_of_compile h
  obtain ⟨stored, merged, found, hstored, hmerged, hfits⟩ := (StoredTree.fits_read h).merge
  obtain ⟨hroot, rfl⟩ := root_of_merge hfirst hmerged
  have hnormal := Node.every_normal_simplified (Node.hereditary_unmarked.parse hparse)
  obtain ⟨hagainStored, hagain⟩ := hfits.merge_of_normal hroot hnormal
  obtain ⟨id, node, print, hid, hnode, hholds, -⟩ := hfits.root
  obtain rfl := Option.some.inj (hroot.symm.trans hnode)
  exact ⟨merged, stored, id, _, _, hmerged, hstored, hfits, hid, hholds.normalBelow hnormal, hroot,
    hnormal, hagain, hagainStored⟩

/-- A pattern with a wrapper, a sequence in a sequence, a choice in a choice, and literals that only
flattening brings together. -/
theorem merge_normal_nested :
    let pattern := "a(?:b(?:c\\Qd\\E))((?:e|(?:f|.))|gh*)"
    ∃ compiled merged stored root node found, empty.compile pattern true = (compiled, .ok ()) ∧
      compiled.merge = .ok (merged, found) ∧
      (StoredTree.read ⟨true, false⟩ pattern).merge = .ok (stored, found) ∧
      stored.Fits merged ∧
      stored.root = some root ∧ stored.forest.NormalBelow root ∧
      merged.root = some node ∧ Every Normal node ∧
      merged.merge = .ok (merged, found) ∧ stored.merge = .ok (stored, found) := by
  intro pattern
  let compiled := (empty.compile pattern true).1
  have hcompiled : empty.compile pattern true = (compiled, .ok ()) :=
    Prod.ext rfl (by decide +kernel)
  obtain ⟨merged, stored, root, node, found, hresult⟩ := merge_normal empty hcompiled
  exact ⟨compiled, merged, stored, root, node, found, hcompiled, hresult⟩

end PatternTree

end LiteralSieve
