import LiteralSieve.Proofs.Pattern.Branches
import LiteralSieve.Proofs.Pattern.NormalForms
import LiteralSieve.Proofs.Pattern.Passes

namespace LiteralSieve

/-!
# Branches without content

Whether a node has no content, and whether every branch through it meets a long literal, is found out
without a look at the branches, of which there may be very many. Both come down to one question: is
there a branch of which all leaves have some property? Through a sequence there is one if there is
one through every child, through a choice if there is one through some child. No pass over a tree
changes the answers, and none sets a mark where there is content.
-/

variable {α : Type} {p : α → Prop}

/-- Some of the branches has only leaves with the property. -/
def SomeBranch (p : α → Prop) (branches : List (List α)) : Prop :=
  ∃ branch ∈ branches, ∀ leaf ∈ branch, p leaf

theorem someBranch_append {xs ys : List (List α)} :
    SomeBranch p (xs ++ ys) ↔ SomeBranch p xs ∨ SomeBranch p ys := by
  simp [SomeBranch, or_and_right, exists_or]

theorem SomeBranch.imp {q : α → Prop} {branches : List (List α)} (h : SomeBranch p branches)
    (himp : ∀ {leaf : α}, p leaf → q leaf) : SomeBranch q branches := by
  obtain ⟨branch, hbranch, hleaves⟩ := h
  exact ⟨branch, hbranch, fun leaf hleaf => himp (hleaves leaf hleaf)⟩

theorem someBranch_combine {p : Node → Prop} {heads tails : List Branch} :
    SomeBranch p (combine heads tails) ↔ SomeBranch p heads ∧ SomeBranch p tails := by
  constructor
  · rintro ⟨branch, hbranch, hleaves⟩
    obtain ⟨head, hhead, tail, htail, rfl⟩ := mem_combine.mp hbranch
    obtain ⟨hfirst, hlast⟩ := List.forall_mem_append.mp hleaves
    exact ⟨⟨head, hhead, hfirst⟩, ⟨tail, htail, hlast⟩⟩
  · rintro ⟨⟨head, hhead, hfirst⟩, ⟨tail, htail, hlast⟩⟩
    exact ⟨head ++ tail, mem_combine.mpr ⟨head, hhead, tail, htail, rfl⟩,
      List.forall_mem_append.mpr ⟨hfirst, hlast⟩⟩

namespace Node

variable {p : Node → Prop} {node : Node} {nodes children : List Node} {hollow disabled : Bool}
  {source : Extent} {minLength : Nat}

theorem someBranch_branchesOfAll :
    SomeBranch p (branchesOfAll nodes) ↔ ∀ node ∈ nodes, SomeBranch p node.branches := by
  induction nodes with
  | nil => simp [branchesOfAll, SomeBranch]
  | cons node nodes ih => rw [branchesOfAll, someBranch_combine, ih, List.forall_mem_cons]

theorem someBranch_branchesOfAny :
    SomeBranch p (branchesOfAny nodes) ↔ ∃ node ∈ nodes, SomeBranch p node.branches := by
  induction nodes with
  | nil => simp [branchesOfAny, SomeBranch]
  | cons node nodes ih =>
      rw [branchesOfAny, someBranch_append, ih]
      simp

theorem someBranch_sequence :
    SomeBranch p (sequence children hollow source).branches ↔
      ∀ child ∈ children, SomeBranch p child.branches := by
  rw [branches, someBranch_branchesOfAll]

theorem someBranch_choice :
    SomeBranch p (choice children disabled source).branches ↔
      ∃ child ∈ children, SomeBranch p child.branches := by
  rw [branches, someBranch_branchesOfAny]

/-! ## Content -/

theorem sequenceItems_ne_nil (h : node.Settled) : node.sequenceItems ≠ [] := by
  cases node with
  | sequence children hollow source =>
      have hkind : SlotKind.sequence ≠ .leaf := by decide
      exact List.length_pos_iff.mp (Nat.lt_of_lt_of_le Nat.zero_lt_two (h hkind).1)
  | _ => exact List.cons_ne_nil _ _

/-- In a tree without empty sequences, a node has no content if some branch has only gaps. -/
theorem isHollow_iff (h : Every Settled node) :
    node.isHollow = true ↔ SomeBranch (fun leaf => leaf.isGap = true) node.branches := by
  induction h with
  | @intro node hsettled _ ih =>
      cases node with
      | literal bytes source => simp [isHollow, branches, SomeBranch, isGap]
      | gap source => simp [isHollow, branches, SomeBranch, isGap]
      | sequence children hollow source =>
          have hne : children ≠ [] := sequenceItems_ne_nil hsettled
          rw [isHollow_sequence_iff, someBranch_sequence, and_iff_right hne]
          exact forall₂_congr ih
      | choice children disabled source =>
          rw [isHollow_choice_iff, someBranch_choice]
          exact exists_congr fun child => and_congr_right (ih child)

theorem isHollow_iff_sequenceItems (h : node.Settled) :
    node.isHollow = true ↔ ∀ item ∈ node.sequenceItems, item.isHollow = true := by
  cases node with
  | sequence children hollow source =>
      have hne : children ≠ [] := sequenceItems_ne_nil h
      rw [isHollow_sequence_iff, and_iff_right hne, sequenceItems]
  | _ => simp [sequenceItems]

theorem isHollow_iff_choiceItems (node : Node) :
    node.isHollow = true ↔ ∃ item ∈ node.choiceItems, item.isHollow = true := by
  cases node with
  | choice children disabled source =>
      cases disabled with
      | true => simp [choiceItems]
      | false => rw [isHollow_choice_iff, choiceItems]
  | _ => simp [choiceItems]

theorem isHollow_ofSequence_iff (hollow : Bool) (source : Extent) (items : List Node) :
    (ofSequence hollow source items).isHollow = true ↔
      items ≠ [] ∧ ∀ item ∈ items, item.isHollow = true := by
  match items with
  | [] => simp [ofSequence, isHollow]
  | [item] => simp [ofSequence]
  | first :: second :: items => exact isHollow_sequence_iff

theorem isHollow_ofChoice_iff (disabled : Bool) (source : Extent) (items : List Node) :
    (ofChoice disabled source items).isHollow = true ↔ ∃ item ∈ items, item.isHollow = true := by
  match items with
  | [] => simp [ofChoice, isHollow]
  | [item] => simp [ofChoice]
  | first :: second :: items => exact isHollow_choice_iff

/-- Flattening makes nothing hollow and nothing full. -/
theorem isHollow_adjust (node : Node) : node.adjust.isHollow = node.isHollow := by
  induction node using children_induction with
  | literal bytes source => rw [adjust]
  | gap source => rw [adjust]
  | sequence children hollow source ih =>
      have hne : ∀ child ∈ children, child.adjust.sequenceItems ≠ [] := fun child _ =>
        sequenceItems_ne_nil (every_settled_adjust child).self
      rw [Bool.eq_iff_iff, adjust, adjustSequence_eq_flatMap, isHollow_ofSequence_iff,
        isHollow_sequence_iff, List.forall_mem_flatMap]
      refine and_congr (not_congr ?_) (forall₂_congr fun child hchild => ?_)
      · cases children with
        | nil => rfl
        | cons child children =>
            refine iff_of_false (fun hnil => ?_) (List.cons_ne_nil _ _)
            exact hne child List.mem_cons_self (List.append_eq_nil_iff.mp hnil).1
      · rw [← ih child hchild, isHollow_iff_sequenceItems (every_settled_adjust child).self]
  | choice children disabled source ih =>
      rw [Bool.eq_iff_iff, adjust, adjustChoice_eq_flatMap, isHollow_ofChoice_iff,
        isHollow_choice_iff]
      constructor
      · rintro ⟨item, hitem, hhollow⟩
        obtain ⟨child, hchild, hmem⟩ := List.mem_flatMap.mp hitem
        exact ⟨child, hchild, ih child hchild ▸
          (isHollow_iff_choiceItems child.adjust).mpr ⟨item, hmem, hhollow⟩⟩
      · rintro ⟨child, hchild, hhollow⟩
        rw [← ih child hchild, isHollow_iff_choiceItems] at hhollow
        obtain ⟨item, hitem, hhollow⟩ := hhollow
        exact ⟨item, List.mem_flatMap.mpr ⟨child, hchild, hitem⟩, hhollow⟩

/-! ## Marks -/

theorem allMarkedRight_iff :
    AllMarkedRight nodes ↔ ∀ node ∈ nodes, node.MarkedRight := by
  induction nodes with
  | nil => simp [AllMarkedRight]
  | cons node nodes ih => simp [AllMarkedRight, ih]

theorem MarkedRight.sequenceItems (h : node.MarkedRight) :
    ∀ item ∈ node.sequenceItems, item.MarkedRight := by
  cases node with
  | sequence children hollow source => exact allMarkedRight_iff.mp h.2
  | _ => exact List.forall_mem_singleton.mpr h

theorem MarkedRight.choiceItems (h : node.MarkedRight) :
    ∀ item ∈ node.choiceItems, item.MarkedRight := by
  cases node with
  | choice children disabled source =>
      cases disabled with
      | true => exact List.forall_mem_singleton.mpr h
      | false => exact allMarkedRight_iff.mp h.2
  | _ => exact List.forall_mem_singleton.mpr h

theorem markedRight_ofSequence {items : List Node}
    (hmark : hollow = true → (ofSequence hollow source items).isHollow = true)
    (hitems : ∀ item ∈ items, item.MarkedRight) : (ofSequence hollow source items).MarkedRight := by
  match items, hmark, hitems with
  | [], _, _ => exact trivial
  | [item], _, hitems => exact hitems item List.mem_cons_self
  | _ :: _ :: _, hmark, hitems => exact ⟨hmark, allMarkedRight_iff.mpr hitems⟩

theorem markedRight_ofChoice {items : List Node}
    (hmark : disabled = true → (ofChoice disabled source items).isHollow = true)
    (hitems : ∀ item ∈ items, item.MarkedRight) : (ofChoice disabled source items).MarkedRight := by
  match items, hmark, hitems with
  | [], _, _ => exact trivial
  | [item], _, hitems => exact hitems item List.mem_cons_self
  | _ :: _ :: _, hmark, hitems => exact ⟨hmark, allMarkedRight_iff.mpr hitems⟩

/-- A mark that was right stays right, also where other nodes join. -/
theorem markedRight_adjust (h : node.MarkedRight) : node.adjust.MarkedRight := by
  induction node using children_induction with
  | literal bytes source => rw [adjust]; exact trivial
  | gap source => rw [adjust]; exact trivial
  | sequence children hollow source ih =>
      have hsame := isHollow_adjust (sequence children hollow source)
      have hchildren := allMarkedRight_iff.mp h.2
      rw [adjust, adjustSequence_eq_flatMap] at hsame ⊢
      refine markedRight_ofSequence (fun hmark => hsame.trans (h.1 hmark)) ?_
      exact List.forall_mem_flatMap.mpr fun child hchild =>
        (ih child hchild (hchildren child hchild)).sequenceItems
  | choice children disabled source ih =>
      have hsame := isHollow_adjust (choice children disabled source)
      have hchildren := allMarkedRight_iff.mp h.2
      rw [adjust, adjustChoice_eq_flatMap] at hsame ⊢
      refine markedRight_ofChoice (fun hmark => hsame.trans (h.1 hmark)) ?_
      exact List.forall_mem_flatMap.mpr fun child hchild =>
        (ih child hchild (hchildren child hchild)).choiceItems

theorem kept_markedRight : Kept MarkedRight where
  adjust := markedRight_adjust
  mark := markedRight_mark
  mergeLiterals := markedRight_mergeLiterals

/-! ## Cover -/

/-- A literal of at least so many bytes. -/
def isLong (minLength : Nat) : Node → Bool
  | literal bytes _ => minLength ≤ bytes.length
  | _ => false

theorem anyCovers_iff :
    anyCovers minLength nodes = true ↔ ∃ node ∈ nodes, node.covers minLength = true := by
  induction nodes with
  | nil => simp [anyCovers]
  | cons node nodes ih => simp [anyCovers, ih]

theorem allCover_iff :
    allCover minLength nodes = true ↔ ∀ node ∈ nodes, node.covers minLength = true := by
  induction nodes with
  | nil => simp [allCover]
  | cons node nodes ih => simp [allCover, ih]

theorem not_covers_iff (node : Node) : node.covers minLength ≠ true ↔
    SomeBranch (fun leaf => leaf.isLong minLength = false) node.branches := by
  induction node using children_induction with
  | literal bytes source => simp [covers, branches, SomeBranch, isLong]
  | gap source => simp [covers, branches, SomeBranch, isLong]
  | sequence children hollow source ih =>
      rw [covers, someBranch_sequence, ne_eq, anyCovers_iff, not_exists]
      exact forall_congr' fun child => not_and.trans (forall_congr' (ih child))
  | choice children disabled source ih =>
      rw [covers, someBranch_choice, ne_eq, allCover_iff]
      push Not
      exact exists_congr fun child => and_congr_right (ih child)

/-- A node is covered if every branch through it meets a long literal. -/
theorem covers_iff (node : Node) : node.covers minLength = true ↔
    ∀ branch ∈ node.branches, ∃ leaf ∈ branch, leaf.isLong minLength = true := by
  rw [← not_iff_not]
  refine (not_covers_iff node).trans ?_
  simp [SomeBranch]

end Node

end LiteralSieve
