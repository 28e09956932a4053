import LiteralSieve.Pattern.Simplify
import Mathlib.Algebra.BigOperators.Group.List.Defs
import Mathlib.Algebra.GroupWithZero.Nat

namespace LiteralSieve.Node

/-!
# Induction over nodes

What holds of a node as soon as it holds of its children holds of every node. The walks over lists
of nodes that go with a walk over a node say the same of each node of the list, and are told here as
such.
-/

variable {P Q : Node → Prop} {node : Node}

/-- One case for each kind of node, where the children of a node have the property. -/
@[elab_as_elim]
theorem children_induction (literal : ∀ bytes source, P (literal bytes source))
    (gap : ∀ source, P (gap source))
    (sequence : ∀ children hollow source, (∀ child ∈ children, P child) →
      P (sequence children hollow source))
    (choice : ∀ children disabled source, (∀ child ∈ children, P child) →
      P (choice children disabled source)) (node : Node) : P node :=
  @Node.rec P (fun nodes => ∀ node ∈ nodes, P node) literal gap sequence choice
    (List.forall_mem_nil _) (fun _ _ hnode hnodes => List.forall_mem_cons.mpr ⟨hnode, hnodes⟩) node

/-- The same where it does not matter of which kind a node is. -/
@[elab_as_elim]
theorem family_induction (family : ∀ node, (∀ child ∈ node.children, P child) → P node)
    (node : Node) : P node := by
  induction node using children_induction with
  | literal bytes source => exact family _ (List.forall_mem_nil _)
  | gap source => exact family _ (List.forall_mem_nil _)
  | sequence children hollow source ih => exact family _ ih
  | choice children disabled source ih => exact family _ ih

/-- The property holds of the node and of all nodes below it. -/
inductive Every (P : Node → Prop) : Node → Prop
  | intro {node : Node} (self : P node) (children : ∀ child ∈ node.children, Every P child) :
    Every P node

namespace Every

theorem self (h : Every P node) : P node := by
  cases h with
  | intro self children => exact self

theorem children (h : Every P node) : ∀ child ∈ node.children, Every P child := by
  cases h with
  | intro self children => exact children

theorem imp (h : Every P node) (himp : ∀ {node : Node}, P node → Q node) : Every Q node := by
  induction h with
  | intro self children ih => exact ⟨himp self, ih⟩

end Every

/-! ## Walks over lists -/

theorem adjustSequence_eq_flatMap (nodes : List Node) :
    adjustSequence nodes = nodes.flatMap fun node => node.adjust.sequenceItems := by
  induction nodes with
  | nil => rw [adjustSequence, List.flatMap_nil]
  | cons node nodes ih => rw [adjustSequence, ih, List.flatMap_cons]

theorem adjustChoice_eq_flatMap (nodes : List Node) :
    adjustChoice nodes = nodes.flatMap fun node => node.adjust.choiceItems := by
  induction nodes with
  | nil => rw [adjustChoice, List.flatMap_nil]
  | cons node nodes ih => rw [adjustChoice, ih, List.flatMap_cons]

theorem markAll_eq_map (nodes : List Node) : markAll nodes = nodes.map mark := by
  induction nodes with
  | nil => rw [markAll, List.map_nil]
  | cons node nodes ih => rw [markAll, ih, List.map_cons]

theorem mergeAll_eq_map (nodes : List Node) : mergeAll nodes = nodes.map mergeLiterals := by
  induction nodes with
  | nil => rw [mergeAll, List.map_nil]
  | cons node nodes ih => rw [mergeAll, ih, List.map_cons]

theorem mergeCostAll_eq_sum (nodes : List Node) :
    mergeCostAll nodes = (nodes.map mergeCost).sum := by
  induction nodes with
  | nil => rw [mergeCostAll, List.map_nil, List.sum_nil]
  | cons node nodes ih => rw [mergeCostAll, ih, List.map_cons, List.sum_cons]

theorem allHollow_iff {nodes : List Node} :
    allHollow nodes = true ↔ ∀ node ∈ nodes, node.isHollow = true := by
  induction nodes with
  | nil => simp [allHollow]
  | cons node nodes ih => simp [allHollow, ih]

theorem anyHollow_iff {nodes : List Node} :
    anyHollow nodes = true ↔ ∃ node ∈ nodes, node.isHollow = true := by
  induction nodes with
  | nil => simp [anyHollow]
  | cons node nodes ih => simp [anyHollow, ih]

theorem isHollow_sequence_iff {children : List Node} {hollow : Bool} {source : Extent} :
    (sequence children hollow source).isHollow = true ↔
      children ≠ [] ∧ ∀ child ∈ children, child.isHollow = true := by
  simp [isHollow, allHollow_iff]

theorem isHollow_choice_iff {children : List Node} {disabled : Bool} {source : Extent} :
    (choice children disabled source).isHollow = true ↔
      ∃ child ∈ children, child.isHollow = true := by
  rw [isHollow, anyHollow_iff]

/-! ## Runs of literals -/

/-- The literal that a run has become so far. -/
def runLiteral : Option Run → List Node
  | none => []
  | some run => [literal run.bytes run.source]

theorem joinLiterals_nil (run : Option Run) : joinLiterals run [] = runLiteral run := by
  cases run <;> rw [joinLiterals] <;> rfl

/-- A node that is no literal ends the run before it. -/
theorem joinLiterals_other (run : Option Run) {nodes : List Node}
    (h : ∀ bytes source, node = literal bytes source → False) :
    joinLiterals run (node :: nodes) = runLiteral run ++ node :: joinLiterals none nodes := by
  cases run with
  | none =>
      rw [joinLiterals]
      · rfl
      · exact h
  | some run =>
      rw [joinLiterals]
      · rfl
      · exact h

theorem joinedCount_other (run : Option Run) {nodes : List Node}
    (h : ∀ bytes source, node = literal bytes source → False) :
    joinedCount run (node :: nodes) = joinedCount run [] + joinedCount none nodes := by
  cases run with
  | none =>
      rw [joinedCount, joinedCount, Nat.zero_add]
      exact h
  | some run =>
      rw [joinedCount, joinedCount]
      exact h

end LiteralSieve.Node
