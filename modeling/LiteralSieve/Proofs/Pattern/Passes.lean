import LiteralSieve.Pattern.Tree
import LiteralSieve.Proofs.Pattern.Hereditary

namespace LiteralSieve

/-!
# Passes over a tree

A tree may be adjusted, marked and merged as often as one likes, in any order. What each pass keeps
is kept by all of them: the paths, and that no choice is empty.
-/

/-- What can be done with a tree to simplify it. -/
inductive Pass where
  | adjust
  | mark
  | merge
deriving DecidableEq, Inhabited

namespace Node

def afterPass (node : Node) : Pass → Node
  | .adjust => node.adjust
  | .mark => node.mark
  | .merge => node.adjust.mark.mergeLiterals

def afterPasses (node : Node) (passes : List Pass) : Node := passes.foldl afterPass node

/-- A property of nodes that no part of a pass takes away. -/
structure Kept (Q : Node → Prop) : Prop where
  adjust : ∀ {node : Node}, Q node → Q node.adjust
  mark : ∀ {node : Node}, Q node → Q node.mark
  mergeLiterals : ∀ {node : Node}, Q node → Q node.mergeLiterals

theorem Kept.afterPass {Q : Node → Prop} (hQ : Kept Q) {node : Node} (h : Q node) (pass : Pass) :
    Q (node.afterPass pass) := by
  cases pass with
  | adjust => exact hQ.adjust h
  | mark => exact hQ.mark h
  | merge => exact hQ.mergeLiterals (hQ.mark (hQ.adjust h))

theorem Kept.afterPasses {Q : Node → Prop} (hQ : Kept Q) {node : Node} (h : Q node)
    (passes : List Pass) : Q (node.afterPasses passes) := by
  induction passes generalizing node with
  | nil => exact h
  | cons pass passes ih => exact ih (hQ.afterPass h pass)

/-! ## No choice becomes empty -/

theorem allProper_sequenceItems {node : Node} (h : node.Proper) : AllProper node.sequenceItems := by
  cases node with
  | sequence children hollow source => exact h
  | _ => exact ⟨h, trivial⟩

theorem allProper_choiceItems {node : Node} (h : node.Proper) : AllProper node.choiceItems := by
  cases node with
  | choice children disabled source =>
      cases disabled with
      | false => exact h.2
      | true => exact ⟨h, trivial⟩
  | _ => exact ⟨h, trivial⟩

theorem proper_ofSequence (hollow : Bool) (source : Extent) {nodes : List Node}
    (h : AllProper nodes) : (ofSequence hollow source nodes).Proper := by
  match nodes, h with
  | [], _ => exact trivial
  | [_], h => exact h.1
  | _ :: _ :: _, h => exact h

theorem proper_ofChoice (disabled : Bool) (source : Extent) {nodes : List Node}
    (h : AllProper nodes) : (ofChoice disabled source nodes).Proper := by
  match nodes, h with
  | [], _ => exact trivial
  | [_], h => exact h.1
  | _ :: _ :: _, h => exact ⟨List.cons_ne_nil _ _, h⟩

mutual

theorem proper_adjust {node : Node} (h : node.Proper) : node.adjust.Proper := by
  cases node with
  | literal bytes source => rw [adjust]; exact trivial
  | gap source => rw [adjust]; exact trivial
  | sequence children hollow source =>
      rw [adjust]
      exact proper_ofSequence hollow source (allProper_adjustSequence h)
  | choice children disabled source =>
      rw [adjust]
      exact proper_ofChoice disabled source (allProper_adjustChoice h.2)

theorem allProper_adjustSequence {nodes : List Node} (h : AllProper nodes) :
    AllProper (adjustSequence nodes) := by
  cases nodes with
  | nil => rw [adjustSequence]; exact trivial
  | cons node nodes =>
      rw [adjustSequence]
      exact allProper_append.mpr
        ⟨allProper_sequenceItems (proper_adjust h.1), allProper_adjustSequence h.2⟩

theorem allProper_adjustChoice {nodes : List Node} (h : AllProper nodes) :
    AllProper (adjustChoice nodes) := by
  cases nodes with
  | nil => rw [adjustChoice]; exact trivial
  | cons node nodes =>
      rw [adjustChoice]
      exact allProper_append.mpr
        ⟨allProper_choiceItems (proper_adjust h.1), allProper_adjustChoice h.2⟩

end

mutual

theorem proper_mark {node : Node} (h : node.Proper) : node.mark.Proper := by
  cases node with
  | literal bytes source => rw [mark]; exact trivial
  | gap source => rw [mark]; exact trivial
  | sequence children hollow source =>
      rw [mark]
      exact allProper_markAll h
  | choice children disabled source =>
      rw [mark]
      refine ⟨?_, allProper_markAll h.2⟩
      rw [← List.isEmpty_eq_false_iff, isEmpty_markAll, List.isEmpty_eq_false_iff]
      exact h.1

theorem allProper_markAll {nodes : List Node} (h : AllProper nodes) :
    AllProper (markAll nodes) := by
  cases nodes with
  | nil => rw [markAll]; exact trivial
  | cons node nodes =>
      rw [markAll]
      exact ⟨proper_mark h.1, allProper_markAll h.2⟩

end

theorem allProper_joinLiterals (run : Option Run) {nodes : List Node} (h : AllProper nodes) :
    AllProper (joinLiterals run nodes) := by
  fun_induction joinLiterals run nodes with
  | case1 => exact trivial
  | case2 run => exact ⟨trivial, trivial⟩
  | case3 bytes source nodes ih => exact ih h.2
  | case4 run bytes source nodes ih => exact ih h.2
  | case5 node nodes hnode ih => exact ⟨h.1, ih h.2⟩
  | case6 run node nodes hnode ih => exact ⟨trivial, h.1, ih h.2⟩

theorem proper_ofMerged (hollow : Bool) (source : Extent) {nodes : List Node}
    (h : AllProper nodes) : (ofMerged hollow source nodes).Proper := by
  match nodes, h with
  | [], _ => exact trivial
  | [_], h => exact h.1
  | _ :: _ :: _, h => exact h

mutual

theorem proper_mergeLiterals {node : Node} (h : node.Proper) : node.mergeLiterals.Proper := by
  cases node with
  | literal bytes source => rw [mergeLiterals]; exact trivial
  | gap source => rw [mergeLiterals]; exact trivial
  | sequence children hollow source =>
      rw [mergeLiterals]
      exact proper_ofMerged hollow source (allProper_joinLiterals none (allProper_mergeAll h))
  | choice children disabled source =>
      rw [mergeLiterals]
      refine ⟨?_, allProper_mergeAll h.2⟩
      rw [← List.isEmpty_eq_false_iff, isEmpty_mergeAll, List.isEmpty_eq_false_iff]
      exact h.1

theorem allProper_mergeAll {nodes : List Node} (h : AllProper nodes) :
    AllProper (mergeAll nodes) := by
  cases nodes with
  | nil => rw [mergeAll]; exact trivial
  | cons node nodes =>
      rw [mergeAll]
      exact ⟨proper_mergeLiterals h.1, allProper_mergeAll h.2⟩

end

theorem kept_proper : Kept Proper where
  adjust := proper_adjust
  mark := proper_mark
  mergeLiterals := proper_mergeLiterals

/-- No pass changes what a tree asks for, nor the order of its paths. -/
theorem kept_paths (paths : List Path) : Kept fun node => node.Proper ∧ node.paths = paths where
  adjust := fun ⟨hproper, hpaths⟩ =>
    ⟨proper_adjust hproper, (paths_adjust hproper).trans hpaths⟩
  mark := fun ⟨hproper, hpaths⟩ => ⟨proper_mark hproper, (paths_mark _).trans hpaths⟩
  mergeLiterals := fun ⟨hproper, hpaths⟩ =>
    ⟨proper_mergeLiterals hproper, (paths_mergeLiterals _).trans hpaths⟩

end Node

namespace PatternTree

/-- The tree after a pass, or the fault that stopped it. -/
def afterPass (tree : PatternTree) : Pass → Except PatternError PatternTree
  | .adjust => tree.adjust
  | .mark => .ok tree.mark.1
  | .merge => tree.merge.map Prod.fst

def afterPasses (tree : PatternTree) (passes : List Pass) : Except PatternError PatternTree :=
  passes.foldlM afterPass tree

variable {tree : PatternTree} {root : Node}

theorem afterPass_of_root (h : tree.root = some root) (pass : Pass) :
    ∃ next, tree.afterPass pass = .ok next ∧ next.root = some (root.afterPass pass) ∧
      next.pattern = tree.pattern := by
  obtain ⟨made, pattern, _, caseSensitive⟩ := tree
  obtain rfl : _ = some root := h
  cases pass <;> exact ⟨_, rfl, rfl, rfl⟩

/-- A tree with a root can be passed over without a fault, and what comes out is its root after the
passes. -/
theorem afterPasses_of_root (h : tree.root = some root) (passes : List Pass) :
    ∃ simplified, tree.afterPasses passes = .ok simplified ∧
      simplified.root = some (root.afterPasses passes) ∧ simplified.pattern = tree.pattern := by
  induction passes generalizing tree root with
  | nil => exact ⟨tree, rfl, h, rfl⟩
  | cons pass passes ih =>
      obtain ⟨next, hnext, hroot, hpattern⟩ := afterPass_of_root h pass
      obtain ⟨simplified, hsimplified, hlast, hsame⟩ := ih hroot
      refine ⟨simplified, ?_, hlast, hsame.trans hpattern⟩
      rw [afterPasses, List.foldlM_cons, hnext]
      exact hsimplified

variable {pattern : String} {expansion : Bool} {compiled : PatternTree}

/-- A pattern without a fault has a root, which is the one that was read. -/
theorem root_of_compile (h : tree.compile pattern expansion = (compiled, .ok ())) :
    ∃ root, compiled.root = some root ∧ compiled.pattern = pattern ∧
      (parse ⟨expansion, tree.caseSensitive⟩ pattern).root = .ok root := by
  unfold compile at h
  dsimp only at h
  split at h
  case h_1 root hroot =>
    obtain ⟨rfl, -⟩ := Prod.mk.inj h
    exact ⟨root, rfl, rfl, hroot⟩
  case h_2 => cases (Prod.mk.inj h).2

end PatternTree

end LiteralSieve
