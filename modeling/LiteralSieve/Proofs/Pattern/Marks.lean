import LiteralSieve.Pattern.Branches
import LiteralSieve.Proofs.Pattern.Language

namespace LiteralSieve.Node

/-!
# Marks

A tree that was read has no marks. Marking sets them only where there is no content, and joining
literals keeps them right. So no node of which every branch meets a literal is marked.
-/

mutual

/-- No node has a mark. -/
def Unmarked : Node → Prop
  | literal _ _ => True
  | gap _ => True
  | sequence children hollow _ => hollow = false ∧ AllUnmarked children
  | choice children disabled _ => disabled = false ∧ AllUnmarked children

def AllUnmarked : List Node → Prop
  | [] => True
  | node :: nodes => node.Unmarked ∧ AllUnmarked nodes

end

mutual

/-- Every mark stands at a node without content. -/
def MarkedRight : Node → Prop
  | literal _ _ => True
  | gap _ => True
  | sequence children hollow source =>
    (hollow = true → (sequence children hollow source).isHollow = true) ∧ AllMarkedRight children
  | choice children disabled source =>
    (disabled = true → (choice children disabled source).isHollow = true) ∧ AllMarkedRight children

def AllMarkedRight : List Node → Prop
  | [] => True
  | node :: nodes => node.MarkedRight ∧ AllMarkedRight nodes

end

theorem allUnmarked_iff {nodes : List Node} : AllUnmarked nodes ↔ ∀ node ∈ nodes, node.Unmarked := by
  induction nodes with
  | nil => simp [AllUnmarked]
  | cons node nodes ih => simp [AllUnmarked, ih]

theorem allUnmarked_append {xs ys : List Node} :
    AllUnmarked (xs ++ ys) ↔ AllUnmarked xs ∧ AllUnmarked ys := by
  simp [allUnmarked_iff, or_imp, forall_and]

/-! ## Flattening -/

theorem allUnmarked_sequenceItems {node : Node} (h : node.Unmarked) :
    AllUnmarked node.sequenceItems := by
  cases node with
  | sequence children hollow source => exact h.2
  | _ => exact ⟨h, trivial⟩

theorem allUnmarked_choiceItems {node : Node} (h : node.Unmarked) :
    AllUnmarked node.choiceItems := by
  cases node with
  | choice children disabled source =>
      cases disabled with
      | false => exact h.2
      | true => exact ⟨h, trivial⟩
  | _ => exact ⟨h, trivial⟩

theorem unmarked_ofSequence (source : Extent) {nodes : List Node} (h : AllUnmarked nodes) :
    (ofSequence false source nodes).Unmarked := by
  match nodes, h with
  | [], _ => exact trivial
  | [_], h => exact h.1
  | _ :: _ :: _, h => exact ⟨rfl, h⟩

theorem unmarked_ofChoice (source : Extent) {nodes : List Node} (h : AllUnmarked nodes) :
    (ofChoice false source nodes).Unmarked := by
  match nodes, h with
  | [], _ => exact trivial
  | [_], h => exact h.1
  | _ :: _ :: _, h => exact ⟨rfl, h⟩

mutual

theorem unmarked_adjust {node : Node} (h : node.Unmarked) : node.adjust.Unmarked := by
  cases node with
  | literal bytes source => rw [adjust]; exact trivial
  | gap source => rw [adjust]; exact trivial
  | sequence children hollow source =>
      obtain ⟨rfl, hchildren⟩ := h
      rw [adjust]
      exact unmarked_ofSequence source (allUnmarked_adjustSequence hchildren)
  | choice children disabled source =>
      obtain ⟨rfl, hchildren⟩ := h
      rw [adjust]
      exact unmarked_ofChoice source (allUnmarked_adjustChoice hchildren)

theorem allUnmarked_adjustSequence {nodes : List Node} (h : AllUnmarked nodes) :
    AllUnmarked (adjustSequence nodes) := by
  cases nodes with
  | nil => rw [adjustSequence]; exact trivial
  | cons node nodes =>
      rw [adjustSequence]
      exact allUnmarked_append.mpr
        ⟨allUnmarked_sequenceItems (unmarked_adjust h.1), allUnmarked_adjustSequence h.2⟩

theorem allUnmarked_adjustChoice {nodes : List Node} (h : AllUnmarked nodes) :
    AllUnmarked (adjustChoice nodes) := by
  cases nodes with
  | nil => rw [adjustChoice]; exact trivial
  | cons node nodes =>
      rw [adjustChoice]
      exact allUnmarked_append.mpr
        ⟨allUnmarked_choiceItems (unmarked_adjust h.1), allUnmarked_adjustChoice h.2⟩

end

/-! ## Marking -/

theorem isEmpty_markAll (nodes : List Node) : (markAll nodes).isEmpty = nodes.isEmpty := by
  cases nodes <;> simp [markAll]

mutual

theorem isHollow_mark (node : Node) : node.mark.isHollow = node.isHollow := by
  cases node with
  | literal bytes source => rw [mark]
  | gap source => rw [mark]
  | sequence children hollow source =>
      rw [mark, isHollow, isHollow, allHollow_markAll, isEmpty_markAll]
  | choice children disabled source => rw [mark, isHollow, isHollow, anyHollow_markAll]

theorem allHollow_markAll (nodes : List Node) : allHollow (markAll nodes) = allHollow nodes := by
  cases nodes with
  | nil => rw [markAll]
  | cons node nodes => rw [markAll, allHollow, allHollow, isHollow_mark, allHollow_markAll]

theorem anyHollow_markAll (nodes : List Node) : anyHollow (markAll nodes) = anyHollow nodes := by
  cases nodes with
  | nil => rw [markAll]
  | cons node nodes => rw [markAll, anyHollow, anyHollow, isHollow_mark, anyHollow_markAll]

end

mutual

/-- A node without marks has no wrong one. -/
theorem markedRight_of_unmarked {node : Node} (h : node.Unmarked) : node.MarkedRight := by
  cases node with
  | literal bytes source => exact trivial
  | gap source => exact trivial
  | sequence children hollow source =>
      obtain ⟨rfl, hchildren⟩ := h
      exact ⟨fun hmark => absurd hmark Bool.false_ne_true, allMarkedRight_of_allUnmarked hchildren⟩
  | choice children disabled source =>
      obtain ⟨rfl, hchildren⟩ := h
      exact ⟨fun hmark => absurd hmark Bool.false_ne_true, allMarkedRight_of_allUnmarked hchildren⟩

theorem allMarkedRight_of_allUnmarked {nodes : List Node} (h : AllUnmarked nodes) :
    AllMarkedRight nodes := by
  cases nodes with
  | nil => exact trivial
  | cons node nodes => exact ⟨markedRight_of_unmarked h.1, allMarkedRight_of_allUnmarked h.2⟩

end

mutual

theorem markedRight_mark {node : Node} (h : node.MarkedRight) : node.mark.MarkedRight := by
  cases node with
  | literal bytes source => rw [mark]; exact trivial
  | gap source => rw [mark]; exact trivial
  | sequence children hollow source =>
      rw [mark, MarkedRight, isHollow, isHollow, allHollow_markAll, isEmpty_markAll]
      exact ⟨id, allMarkedRight_markAll h.2⟩
  | choice children disabled source =>
      rw [mark, MarkedRight, isHollow, isHollow, anyHollow_markAll]
      refine ⟨fun hmark => ?_, allMarkedRight_markAll h.2⟩
      rcases Bool.or_eq_true_iff.mp hmark with hold | hnew
      · have hhollow := h.1 hold
        rwa [isHollow] at hhollow
      · exact hnew

theorem allMarkedRight_markAll {nodes : List Node} (h : AllMarkedRight nodes) :
    AllMarkedRight (markAll nodes) := by
  cases nodes with
  | nil => rw [markAll]; exact trivial
  | cons node nodes =>
      rw [markAll]
      exact ⟨markedRight_mark h.1, allMarkedRight_markAll h.2⟩

end

/-! ## Joining literals -/

theorem isEmpty_joinLiterals (run : Option Run) (nodes : List Node) :
    (joinLiterals run nodes).isEmpty = (run.isNone && nodes.isEmpty) := by
  fun_induction joinLiterals run nodes <;> simp_all

theorem allHollow_joinLiterals (run : Option Run) (nodes : List Node) :
    allHollow (joinLiterals run nodes) = (run.isNone && allHollow nodes) := by
  fun_induction joinLiterals run nodes <;> simp_all [allHollow, isHollow]

theorem allMarkedRight_joinLiterals (run : Option Run) {nodes : List Node}
    (h : AllMarkedRight nodes) : AllMarkedRight (joinLiterals run nodes) := by
  fun_induction joinLiterals run nodes with
  | case1 => exact trivial
  | case2 run => exact ⟨trivial, trivial⟩
  | case3 bytes source nodes ih => exact ih h.2
  | case4 run bytes source nodes ih => exact ih h.2
  | case5 node nodes hnode ih => exact ⟨h.1, ih h.2⟩
  | case6 run node nodes hnode ih => exact ⟨trivial, h.1, ih h.2⟩

theorem isHollow_ofMerged (hollow : Bool) (source : Extent) (nodes : List Node) :
    (ofMerged hollow source nodes).isHollow = (!nodes.isEmpty && allHollow nodes) := by
  match nodes with
  | [] => simp [ofMerged, isHollow]
  | [node] => simp [ofMerged, allHollow]
  | first :: second :: nodes => rw [ofMerged, isHollow]; simp

theorem markedRight_ofMerged {hollow : Bool} {source : Extent} {nodes : List Node}
    (h : (sequence nodes hollow source).MarkedRight) :
    (ofMerged hollow source nodes).MarkedRight := by
  match nodes, h with
  | [], h => exact h
  | [node], h => exact h.2.1
  | first :: second :: nodes, h => exact h

theorem isEmpty_mergeAll (nodes : List Node) : (mergeAll nodes).isEmpty = nodes.isEmpty := by
  cases nodes <;> simp [mergeAll]

mutual

theorem isHollow_mergeLiterals (node : Node) : node.mergeLiterals.isHollow = node.isHollow := by
  cases node with
  | literal bytes source => rw [mergeLiterals]
  | gap source => rw [mergeLiterals]
  | sequence children hollow source =>
      rw [mergeLiterals, isHollow_ofMerged, isEmpty_joinLiterals, allHollow_joinLiterals,
        isEmpty_mergeAll, allHollow_mergeAll, isHollow]
      rfl
  | choice children disabled source =>
      rw [mergeLiterals, isHollow, isHollow, anyHollow_mergeAll]

theorem allHollow_mergeAll (nodes : List Node) : allHollow (mergeAll nodes) = allHollow nodes := by
  cases nodes with
  | nil => rw [mergeAll]
  | cons node nodes =>
      rw [mergeAll, allHollow, allHollow, isHollow_mergeLiterals, allHollow_mergeAll]

theorem anyHollow_mergeAll (nodes : List Node) : anyHollow (mergeAll nodes) = anyHollow nodes := by
  cases nodes with
  | nil => rw [mergeAll]
  | cons node nodes =>
      rw [mergeAll, anyHollow, anyHollow, isHollow_mergeLiterals, anyHollow_mergeAll]

end

mutual

theorem markedRight_mergeLiterals {node : Node} (h : node.MarkedRight) :
    node.mergeLiterals.MarkedRight := by
  cases node with
  | literal bytes source => rw [mergeLiterals]; exact trivial
  | gap source => rw [mergeLiterals]; exact trivial
  | sequence children hollow source =>
      rw [mergeLiterals]
      refine markedRight_ofMerged ⟨fun hmark => ?_, ?_⟩
      · rw [isHollow, isEmpty_joinLiterals, allHollow_joinLiterals, isEmpty_mergeAll,
          allHollow_mergeAll]
        exact h.1 hmark
      · exact allMarkedRight_joinLiterals none (allMarkedRight_mergeAll h.2)
  | choice children disabled source =>
      rw [mergeLiterals]
      refine ⟨fun hmark => ?_, allMarkedRight_mergeAll h.2⟩
      rw [isHollow, anyHollow_mergeAll]
      exact h.1 hmark

theorem allMarkedRight_mergeAll {nodes : List Node} (h : AllMarkedRight nodes) :
    AllMarkedRight (mergeAll nodes) := by
  cases nodes with
  | nil => rw [mergeAll]; exact trivial
  | cons node nodes =>
      rw [mergeAll]
      exact ⟨markedRight_mergeLiterals h.1, allMarkedRight_mergeAll h.2⟩

end

/-- A simplified tree is marked only where it has no content. -/
theorem markedRight_simplified {node : Node} (h : node.Unmarked) :
    node.adjust.mark.mergeLiterals.MarkedRight :=
  markedRight_mergeLiterals (markedRight_mark (markedRight_of_unmarked (unmarked_adjust h)))

/-! ## Covered nodes -/

mutual

/-- Where every branch meets a literal, there is content. -/
theorem isHollow_of_covers {minLength : Nat} {node : Node} (h : node.covers minLength = true) :
    node.isHollow = false := by
  cases node with
  | literal bytes source => rw [isHollow]
  | gap source => rw [covers] at h; cases h
  | sequence children hollow source =>
      rw [covers] at h
      rw [isHollow, allHollow_of_anyCovers h, Bool.and_false]
  | choice children disabled source =>
      rw [covers] at h
      rw [isHollow, anyHollow_of_allCover h]

theorem allHollow_of_anyCovers {minLength : Nat} {nodes : List Node}
    (h : anyCovers minLength nodes = true) : allHollow nodes = false := by
  cases nodes with
  | nil => rw [anyCovers] at h; cases h
  | cons node nodes =>
      rw [anyCovers] at h
      rw [allHollow]
      rcases Bool.or_eq_true_iff.mp h with hnode | hnodes
      · rw [isHollow_of_covers hnode, Bool.false_and]
      · rw [allHollow_of_anyCovers hnodes, Bool.and_false]

theorem anyHollow_of_allCover {minLength : Nat} {nodes : List Node}
    (h : allCover minLength nodes = true) : anyHollow nodes = false := by
  cases nodes with
  | nil => rw [anyHollow]
  | cons node nodes =>
      rw [allCover] at h
      obtain ⟨hnode, hnodes⟩ := Bool.and_eq_true_iff.mp h
      rw [anyHollow, isHollow_of_covers hnode, anyHollow_of_allCover hnodes]
      rfl

end

end LiteralSieve.Node
