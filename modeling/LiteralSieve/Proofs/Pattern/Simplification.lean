import LiteralSieve.Proofs.Pattern.Marks
import LiteralSieve.Proofs.Pattern.Paths

namespace LiteralSieve.Node

/-!
# Paths of simplified trees

None of the three passes over a tree changes its paths. Only a choice of nothing would: it has no
path, and becomes the empty literal, which has one. A tree that was read has no such choice.
-/

mutual

/-- Every choice has a child. -/
def Proper : Node → Prop
  | literal _ _ => True
  | gap _ => True
  | sequence children _ _ => AllProper children
  | choice children _ _ => children ≠ [] ∧ AllProper children

def AllProper : List Node → Prop
  | [] => True
  | node :: nodes => node.Proper ∧ AllProper nodes

end

theorem allProper_iff {nodes : List Node} : AllProper nodes ↔ ∀ node ∈ nodes, node.Proper := by
  induction nodes with
  | nil => simp [AllProper]
  | cons node nodes ih => simp [AllProper, ih]

theorem allProper_append {xs ys : List Node} :
    AllProper (xs ++ ys) ↔ AllProper xs ∧ AllProper ys := by
  simp [allProper_iff, or_imp, forall_and]

mutual

theorem paths_ne_nil {node : Node} (h : node.Proper) : node.paths ≠ [] := by
  cases node with
  | literal bytes source => simp
  | gap source => simp
  | sequence children hollow source =>
      rw [paths_sequence]
      exact pathsOfAll_ne_nil h
  | choice children disabled source =>
      rw [paths_choice]
      exact pathsOfAny_ne_nil h.1 h.2

theorem pathsOfAll_ne_nil {nodes : List Node} (h : AllProper nodes) : pathsOfAll nodes ≠ [] := by
  cases nodes with
  | nil => simp
  | cons node nodes =>
      rw [pathsOfAll_cons]
      exact Path.product_ne_nil (paths_ne_nil h.1) (pathsOfAll_ne_nil h.2)

theorem pathsOfAny_ne_nil {nodes : List Node} (hne : nodes ≠ []) (h : AllProper nodes) :
    pathsOfAny nodes ≠ [] := by
  cases nodes with
  | nil => exact absurd rfl hne
  | cons node nodes =>
      rw [pathsOfAny_cons]
      exact List.append_ne_nil_of_left_ne_nil (paths_ne_nil h.1) _

end

/-! ## Flattening -/

theorem pathsOfAll_sequenceItems (node : Node) : pathsOfAll node.sequenceItems = node.paths := by
  cases node <;> simp [sequenceItems]

theorem pathsOfAny_choiceItems (node : Node) : pathsOfAny node.choiceItems = node.paths := by
  cases node with
  | choice children disabled source => cases disabled <;> simp [choiceItems]
  | _ => simp [choiceItems]

theorem paths_ofSequence (hollow : Bool) (source : Extent) (nodes : List Node) :
    (ofSequence hollow source nodes).paths = pathsOfAll nodes := by
  match nodes with
  | [] => simp [ofSequence]
  | [node] => simp [ofSequence]
  | first :: second :: nodes => simp [ofSequence]

theorem paths_ofChoice (disabled : Bool) (source : Extent) {nodes : List Node} (h : nodes ≠ []) :
    (ofChoice disabled source nodes).paths = pathsOfAny nodes := by
  match nodes, h with
  | [node], _ => simp [ofChoice]
  | first :: second :: nodes, _ => simp [ofChoice]

mutual

theorem paths_adjust {node : Node} (h : node.Proper) : node.adjust.paths = node.paths := by
  cases node with
  | literal bytes source => rw [adjust]
  | gap source => rw [adjust]
  | sequence children hollow source =>
      rw [adjust, paths_ofSequence, pathsOfAll_adjustSequence h, paths_sequence]
  | choice children disabled source =>
      have hpaths : pathsOfAny (adjustChoice children) = pathsOfAny children :=
        pathsOfAny_adjustChoice h.2
      have hne : adjustChoice children ≠ [] := by
        intro hnil
        rw [hnil] at hpaths
        exact pathsOfAny_ne_nil h.1 h.2 hpaths.symm
      rw [adjust, paths_ofChoice _ _ hne, hpaths, paths_choice]

theorem pathsOfAll_adjustSequence {nodes : List Node} (h : AllProper nodes) :
    pathsOfAll (adjustSequence nodes) = pathsOfAll nodes := by
  cases nodes with
  | nil => rw [adjustSequence]
  | cons node nodes =>
      rw [adjustSequence, pathsOfAll_append, pathsOfAll_sequenceItems, paths_adjust h.1,
        pathsOfAll_adjustSequence h.2, pathsOfAll_cons]

theorem pathsOfAny_adjustChoice {nodes : List Node} (h : AllProper nodes) :
    pathsOfAny (adjustChoice nodes) = pathsOfAny nodes := by
  cases nodes with
  | nil => rw [adjustChoice]
  | cons node nodes =>
      rw [adjustChoice, pathsOfAny_append, pathsOfAny_choiceItems, paths_adjust h.1,
        pathsOfAny_adjustChoice h.2, pathsOfAny_cons]

end

/-! ## Marking -/

mutual

theorem paths_mark (node : Node) : node.mark.paths = node.paths := by
  cases node with
  | literal bytes source => rw [mark]
  | gap source => rw [mark]
  | sequence children hollow source =>
      rw [mark, paths_sequence, paths_sequence, pathsOfAll_markAll]
  | choice children disabled source =>
      rw [mark, paths_choice, paths_choice, pathsOfAny_markAll]

theorem pathsOfAll_markAll (nodes : List Node) :
    pathsOfAll (markAll nodes) = pathsOfAll nodes := by
  cases nodes with
  | nil => rw [markAll]
  | cons node nodes =>
      rw [markAll, pathsOfAll_cons, pathsOfAll_cons, paths_mark, pathsOfAll_markAll]

theorem pathsOfAny_markAll (nodes : List Node) :
    pathsOfAny (markAll nodes) = pathsOfAny nodes := by
  cases nodes with
  | nil => rw [markAll]
  | cons node nodes =>
      rw [markAll, pathsOfAny_cons, pathsOfAny_cons, paths_mark, pathsOfAny_markAll]

end

/-! ## Joining literals -/

/-- The literals of a run as one path. -/
def runPath : Option Run → Path
  | none => []
  | some run => Path.literal run.bytes

theorem pathsOfAll_joinLiterals (run : Option Run) (nodes : List Node) :
    pathsOfAll (joinLiterals run nodes) = Path.product [runPath run] (pathsOfAll nodes) := by
  fun_induction joinLiterals run nodes with
  | case1 => simp [runPath]
  | case2 run => simp [runPath]
  | case3 bytes source nodes ih => simp [ih, runPath]
  | case4 run bytes source nodes ih =>
      simp [ih, runPath, ← Path.product_assoc, Path.product_literals]
  | case5 node nodes hnode ih => simp [ih, runPath]
  | case6 run node nodes hnode ih => simp [ih, runPath]

theorem paths_ofMerged (hollow : Bool) (source : Extent) (nodes : List Node) :
    (ofMerged hollow source nodes).paths = pathsOfAll nodes := by
  match nodes with
  | [] => simp [ofMerged]
  | [node] => simp [ofMerged]
  | first :: second :: nodes => simp [ofMerged]

mutual

theorem paths_mergeLiterals (node : Node) : node.mergeLiterals.paths = node.paths := by
  cases node with
  | literal bytes source => rw [mergeLiterals]
  | gap source => rw [mergeLiterals]
  | sequence children hollow source =>
      rw [mergeLiterals, paths_ofMerged, pathsOfAll_joinLiterals, paths_sequence,
        pathsOfAll_mergeAll, runPath, Path.product_one_left]
  | choice children disabled source =>
      rw [mergeLiterals, paths_choice, paths_choice, pathsOfAny_mergeAll]

theorem pathsOfAll_mergeAll (nodes : List Node) :
    pathsOfAll (mergeAll nodes) = pathsOfAll nodes := by
  cases nodes with
  | nil => rw [mergeAll]
  | cons node nodes =>
      rw [mergeAll, pathsOfAll_cons, pathsOfAll_cons, paths_mergeLiterals, pathsOfAll_mergeAll]

theorem pathsOfAny_mergeAll (nodes : List Node) :
    pathsOfAny (mergeAll nodes) = pathsOfAny nodes := by
  cases nodes with
  | nil => rw [mergeAll]
  | cons node nodes =>
      rw [mergeAll, pathsOfAny_cons, pathsOfAny_cons, paths_mergeLiterals, pathsOfAny_mergeAll]

end

/-- Simplifying a tree keeps its paths, in order. -/
theorem paths_simplified {node : Node} (h : node.Proper) :
    node.adjust.mark.mergeLiterals.paths = node.paths := by
  rw [paths_mergeLiterals, paths_mark, paths_adjust h]

end LiteralSieve.Node
