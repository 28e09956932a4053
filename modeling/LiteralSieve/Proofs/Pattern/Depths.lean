import LiteralSieve.Pattern.Outline
import LiteralSieve.Proofs.Pattern.NormalForms
import LiteralSieve.Proofs.Pattern.Passes

namespace LiteralSieve

/-!
# Depths of trees

The height of a node is the number of levels below it. The number of groups that may be open at once
bounds the height of every tree that is read, and no pass adds to it: wrappers go, and what takes
their place moves up. So no walk over such a tree goes deep, however long the pattern is.
-/

namespace Node

mutual

def height : Node → Nat
  | literal _ _ => 0
  | gap _ => 0
  | sequence children _ _ => heightAll children
  | choice children _ _ => heightAll children

/-- The number of levels from these nodes on. -/
def heightAll : List Node → Nat
  | [] => 0
  | node :: nodes => max (node.height + 1) (heightAll nodes)

end

variable {node child item : Node} {nodes : List Node} {n level : Nat} {source : Extent}

theorem heightAll_le_iff : heightAll nodes ≤ n ↔ ∀ node ∈ nodes, node.height < n := by
  induction nodes with
  | nil => simp [heightAll]
  | cons node nodes ih => rw [heightAll, max_le_iff, ih, List.forall_mem_cons, Nat.add_one_le_iff]

theorem height_eq_heightAll (node : Node) : node.height = heightAll node.children := by
  cases node <;> simp [height, heightAll, children]

theorem height_le_iff : node.height ≤ n ↔ ∀ child ∈ node.children, child.height < n := by
  rw [height_eq_heightAll, heightAll_le_iff]

theorem height_lt_of_mem (h : child ∈ node.children) : child.height < node.height :=
  height_le_iff.mp le_rfl child h

theorem height_eq_zero_of_isLiteral (h : node.isLiteral = true) : node.height = 0 := by
  cases node with
  | literal bytes source => simp [height]
  | _ => cases h

/-- Every node around adds one level. -/
theorem hereditary_height : Hereditary fun n node => node.height ≤ n where
  literal n bytes source := by simp [height]
  gap n source := by simp [height]
  weaken h := Nat.le_succ_of_le h
  sequence source h := height_le_iff.mpr fun child hchild => Nat.lt_succ_of_le (h child hchild)
  choice source hne h := height_le_iff.mpr fun child hchild => Nat.lt_succ_of_le (h child hchild)

/-! ## Passes -/

theorem height_le_of_mem_sequenceItems (h : item ∈ node.sequenceItems) :
    item.height ≤ node.height := by
  cases node with
  | sequence children hollow source => exact (height_lt_of_mem h).le
  | _ => exact (List.mem_singleton.mp h ▸ le_rfl)

theorem height_le_of_mem_choiceItems (h : item ∈ node.choiceItems) :
    item.height ≤ node.height := by
  cases node with
  | choice children disabled source =>
      cases disabled with
      | false => exact (height_lt_of_mem h).le
      | true => exact (List.mem_singleton.mp h ▸ le_rfl)
  | _ => exact (List.mem_singleton.mp h ▸ le_rfl)

/-! A pass leaves one of the nodes that are there, or one that has them all below. -/

theorem ofSequence_mem_or (hollow : Bool) (source : Extent) (nodes : List Node) :
    ofSequence hollow source nodes ∈ nodes ∨ (ofSequence hollow source nodes).children = nodes := by
  match nodes with
  | [] => exact .inr rfl
  | [node] => exact .inl (List.mem_singleton_self node)
  | _ :: _ :: _ => exact .inr rfl

theorem ofChoice_mem_or (disabled : Bool) (source : Extent) (nodes : List Node) :
    ofChoice disabled source nodes ∈ nodes ∨ (ofChoice disabled source nodes).children = nodes := by
  match nodes with
  | [] => exact .inr rfl
  | [node] => exact .inl (List.mem_singleton_self node)
  | _ :: _ :: _ => exact .inr rfl

theorem ofMerged_mem_or (hollow : Bool) (source : Extent) (nodes : List Node) :
    ofMerged hollow source nodes ∈ nodes ∨ (ofMerged hollow source nodes).children = nodes := by
  match nodes with
  | [] => exact .inr rfl
  | [node] => exact .inl (List.mem_singleton_self node)
  | _ :: _ :: _ => exact .inr rfl

theorem height_le_of_mem_or (h : node ∈ nodes ∨ node.children = nodes)
    (hnodes : ∀ other ∈ nodes, other.height < n) : node.height ≤ n := by
  rcases h with hmem | rfl
  · exact (hnodes node hmem).le
  · exact height_le_iff.mpr hnodes

theorem height_adjust_le (node : Node) : node.adjust.height ≤ node.height := by
  induction node using children_induction with
  | literal bytes source => simp [adjust]
  | gap source => simp [adjust]
  | sequence children hollow source ih =>
      rw [adjust, adjustSequence_eq_flatMap]
      refine height_le_of_mem_or (ofSequence_mem_or hollow source _) fun item hitem => ?_
      obtain ⟨child, hchild, hitem⟩ := List.mem_flatMap.mp hitem
      calc
        item.height ≤ child.adjust.height := height_le_of_mem_sequenceItems hitem
        _ ≤ child.height := ih child hchild
        _ < (sequence children hollow source).height := height_lt_of_mem hchild
  | choice children disabled source ih =>
      rw [adjust, adjustChoice_eq_flatMap]
      refine height_le_of_mem_or (ofChoice_mem_or disabled source _) fun item hitem => ?_
      obtain ⟨child, hchild, hitem⟩ := List.mem_flatMap.mp hitem
      calc
        item.height ≤ child.adjust.height := height_le_of_mem_choiceItems hitem
        _ ≤ child.height := ih child hchild
        _ < (choice children disabled source).height := height_lt_of_mem hchild

theorem height_mark_le (node : Node) : node.mark.height ≤ node.height := by
  induction node using family_induction with
  | family node ih =>
      rw [height_le_iff, children_mark, List.forall_mem_map]
      exact fun child hchild => (ih child hchild).trans_lt (height_lt_of_mem hchild)

theorem height_mergeLiterals_le (node : Node) : node.mergeLiterals.height ≤ node.height := by
  induction node using children_induction with
  | literal bytes source => simp [mergeLiterals]
  | gap source => simp [mergeLiterals]
  | choice children disabled source ih =>
      rw [mergeLiterals, mergeAll_eq_map, height_le_iff, Node.children, List.forall_mem_map]
      exact fun child hchild => (ih child hchild).trans_lt (height_lt_of_mem hchild)
  | sequence children hollow source ih =>
      rw [mergeLiterals, mergeAll_eq_map]
      refine height_le_of_mem_or (ofMerged_mem_or hollow source _) fun item hitem => ?_
      rcases mem_joinLiterals hitem with hliteral | hmerged
      · -- There is something to join, so the sequence is not empty.
        cases children with
        | nil => simp [joinLiterals] at hitem
        | cons first later =>
            have hfirst : first ∈ (sequence (first :: later) hollow source).children :=
              List.mem_cons_self
            rw [height_eq_zero_of_isLiteral hliteral]
            exact (Nat.zero_le _).trans_lt (height_lt_of_mem hfirst)
      · obtain ⟨child, hchild, rfl⟩ := List.mem_map.mp hmerged
        exact (ih child hchild).trans_lt (height_lt_of_mem hchild)

theorem kept_height (n : Nat) : Kept fun node => node.height ≤ n where
  adjust h := (height_adjust_le _).trans h
  mark h := (height_mark_le _).trans h
  mergeLiterals h := (height_mergeLiterals_le _).trans h

/-! ## Outlines -/

theorem outline_eq_cons (level : Nat) (node : Node) :
    node.outline level = ⟨level, node⟩ :: outlineOf (level + 1) node.children := by
  cases node <;> simp [outline, outlineOf, children]

theorem outlineOf_eq_flatMap (level : Nat) (nodes : List Node) :
    outlineOf level nodes = nodes.flatMap (outline level) := by
  induction nodes with
  | nil => simp [outlineOf]
  | cons node nodes ih => simp [outlineOf, ih]

/-- The height tells how deep an outline goes. -/
theorem level_le_of_mem_outline {entry : OutlineEntry} (h : entry ∈ node.outline level) :
    entry.level ≤ level + node.height := by
  induction node using family_induction generalizing level with
  | family node ih =>
      rw [outline_eq_cons, outlineOf_eq_flatMap] at h
      rcases List.mem_cons.mp h with rfl | hbelow
      · exact Nat.le_add_right _ _
      · obtain ⟨child, hchild, hentry⟩ := List.mem_flatMap.mp hbelow
        have hlevel := ih child hchild hentry
        have hheight := height_lt_of_mem hchild
        omega

end Node

end LiteralSieve
