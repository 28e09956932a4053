import LiteralSieve.Pattern.Branches
import LiteralSieve.Proofs.Forest.StoredTrees
import LiteralSieve.Proofs.Pattern.Hollowness

namespace LiteralSieve

/-!
# Branches and literals of a forest

In a forest, a branch lists the slots of the leaves that it meets, and the literals of a tree are
slots too, so that it can be told which of them a branch meets. All walks give what they give for the
tree that is held, slot by slot. Where marks are right and a tree is covered, every branch meets a
long literal that no mark hides.
-/

namespace Forest

/-- Every list of the first followed by every list of the second. -/
def cross (heads tails : List (List Nat)) : List (List Nat) :=
  heads.flatMap fun head => tails.map fun tail => head ++ tail

/-- The branches from a slot on; none where the forest has no tree. -/
def branchesAt : Nat → Forest → Nat → List (List Nat)
  | 0, _, _ => []
  | depth + 1, forest, id =>
    match forest.slot? id with
    | none => []
    | some slot =>
      match slot.kind with
      | .leaf => [[id]]
      | .sequence => (slot.sequence.map (branchesAt depth forest)).foldr cross [[]]
      | .choice => slot.choice.flatMap (branchesAt depth forest)

/-- The literals from a slot on that are not empty, in order, but for those below a mark. -/
def literalsAt : Nat → Forest → Nat → List Nat
  | 0, _, _ => []
  | depth + 1, forest, id =>
    match forest.slot? id with
    | none => []
    | some slot =>
      match slot.kind with
      | .leaf => if slot.isLiteral && !slot.span.isEmpty then [id] else []
      | .sequence => if slot.hollow then [] else slot.sequence.flatMap (literalsAt depth forest)
      | .choice => if slot.disabled then [] else slot.choice.flatMap (literalsAt depth forest)

/-- Whether every branch from a slot on meets a literal of at least `minLength` bytes. -/
def coversAt (minLength : Nat) : Nat → Forest → Nat → Bool
  | 0, _, _ => false
  | depth + 1, forest, id =>
    match forest.slot? id with
    | none => false
    | some slot =>
      match slot.kind with
      | .leaf => slot.isLiteral && minLength ≤ slot.span.stop - slot.span.start
      | .sequence => slot.sequence.any (coversAt minLength depth forest)
      | .choice => slot.choice.all (coversAt minLength depth forest)

/-- The leaf in a slot. -/
def leafAt (forest : Forest) (id : Nat) : Node :=
  if forest.isLiteralAt id then .literal (forest.literalAt id) (forest.sourceAt id)
  else .gap (forest.sourceAt id)

/-- A literal of at least so many bytes stands in the slot. -/
def IsLongAt (forest : Forest) (minLength : Nat) (id : Nat) : Prop :=
  forest.isLiteralAt id = true ∧ minLength ≤ (forest.literalAt id).length

variable {forest : Forest} {print ids : List Nat} {nodes : List Node} {node : Node}
  {id depth minLength : Nat} {span source : Extent} {bytes : Bytes}

theorem isLong_leafAt_iff :
    (forest.leafAt id).isLong minLength = true ↔ forest.IsLongAt minLength id := by
  rw [leafAt, IsLongAt]
  split
  case isTrue h => simp [Node.isLong, h]
  case isFalse h => simp [Node.isLong, h]

theorem mem_cross {branch : List Nat} {heads tails : List (List Nat)} :
    branch ∈ cross heads tails ↔ ∃ head ∈ heads, ∃ tail ∈ tails, head ++ tail = branch := by
  simp [cross]

/-- A way through the slots becomes one through the nodes. -/
theorem map_cross (heads tails : List (List Nat)) :
    (cross heads tails).map (·.map forest.leafAt) =
      combine (heads.map (·.map forest.leafAt)) (tails.map (·.map forest.leafAt)) := by
  simp [cross, combine, List.map_flatMap, List.flatMap_map, Function.comp_def]

/-! ## Walks over a held tree -/

/-- The walks from a slot give what they give for the node, and branches meet literals that are
found. -/
structure Enumerates (forest : Forest) (depth id : Nat) (node : Node) : Prop where
  branches : (branchesAt depth forest id).map (·.map forest.leafAt) = node.branches
  literals : (literalsAt depth forest id).map forest.literalAt = node.markedLiterals
  covers : ∀ minLength, coversAt minLength depth forest id = node.covers minLength
  found : ∀ minLength, 1 ≤ minLength → node.MarkedRight → node.covers minLength = true →
    ∀ branch ∈ branchesAt depth forest id, ∃ leaf ∈ branch, forest.IsLongAt minLength leaf ∧
      leaf ∈ literalsAt depth forest id

variable (hall : List.Forall₂ (Enumerates forest depth) ids nodes)

include hall

theorem map_branches_sequence :
    ((ids.map (branchesAt depth forest)).foldr cross [[]]).map (·.map forest.leafAt) =
      Node.branchesOfAll nodes := by
  induction hall with
  | nil => rfl
  | cons hnode _ ih =>
      rw [List.map_cons, List.foldr_cons, map_cross, hnode.branches, ih, Node.branchesOfAll]

theorem map_branches_choice :
    (ids.flatMap (branchesAt depth forest)).map (·.map forest.leafAt) =
      Node.branchesOfAny nodes := by
  induction hall with
  | nil => rfl
  | cons hnode _ ih => rw [List.flatMap_cons, List.map_append, hnode.branches, ih, Node.branchesOfAny]

theorem map_literals :
    (ids.flatMap (literalsAt depth forest)).map forest.literalAt = Node.markedLiteralsOf nodes := by
  induction hall with
  | nil => rfl
  | cons hnode _ ih =>
      rw [List.flatMap_cons, List.map_append, hnode.literals, ih, Node.markedLiteralsOf]

theorem any_covers (minLength : Nat) :
    ids.any (coversAt minLength depth forest) = Node.anyCovers minLength nodes := by
  induction hall with
  | nil => rfl
  | cons hnode _ ih => rw [List.any_cons, hnode.covers, ih, Node.anyCovers]

theorem all_cover (minLength : Nat) :
    ids.all (coversAt minLength depth forest) = Node.allCover minLength nodes := by
  induction hall with
  | nil => rfl
  | cons hnode _ ih => rw [List.all_cons, hnode.covers, ih, Node.allCover]

/-- The child of a sequence that is covered has a literal on every way through the sequence. -/
theorem found_sequence (hmin : 1 ≤ minLength) (hmarks : Node.AllMarkedRight nodes)
    (hcovers : Node.anyCovers minLength nodes = true) :
    ∀ branch ∈ (ids.map (branchesAt depth forest)).foldr cross [[]], ∃ leaf ∈ branch,
      forest.IsLongAt minLength leaf ∧ leaf ∈ ids.flatMap (literalsAt depth forest) := by
  induction hall with
  | nil =>
      rw [Node.anyCovers] at hcovers
      cases hcovers
  | cons hnode _ ih =>
      intro branch hbranch
      obtain ⟨head, hhead, tail, htail, rfl⟩ := mem_cross.mp hbranch
      rw [Node.anyCovers] at hcovers
      rw [List.flatMap_cons]
      rcases Bool.or_eq_true_iff.mp hcovers with hfirst | hlater
      · obtain ⟨leaf, hleaf, hlong, hliteral⟩ :=
          hnode.found minLength hmin hmarks.1 hfirst head hhead
        exact ⟨leaf, List.mem_append_left _ hleaf, hlong, List.mem_append_left _ hliteral⟩
      · obtain ⟨leaf, hleaf, hlong, hliteral⟩ := ih hmarks.2 hlater tail htail
        exact ⟨leaf, List.mem_append_right _ hleaf, hlong, List.mem_append_right _ hliteral⟩

theorem found_choice (hmin : 1 ≤ minLength) (hmarks : Node.AllMarkedRight nodes)
    (hcovers : Node.allCover minLength nodes = true) :
    ∀ branch ∈ ids.flatMap (branchesAt depth forest), ∃ leaf ∈ branch,
      forest.IsLongAt minLength leaf ∧ leaf ∈ ids.flatMap (literalsAt depth forest) := by
  induction hall with
  | nil => exact List.forall_mem_nil _
  | cons hnode _ ih =>
      intro branch hbranch
      rw [Node.allCover] at hcovers
      obtain ⟨hfirst, hlater⟩ := Bool.and_eq_true_iff.mp hcovers
      rw [List.flatMap_cons] at hbranch ⊢
      rcases List.mem_append.mp hbranch with hhead | htail
      · obtain ⟨leaf, hleaf, hlong, hliteral⟩ :=
          hnode.found minLength hmin hmarks.1 hfirst branch hhead
        exact ⟨leaf, hleaf, hlong, List.mem_append_left _ hliteral⟩
      · obtain ⟨leaf, hleaf, hlong, hliteral⟩ := ih hmarks.2 hlater branch htail
        exact ⟨leaf, hleaf, hlong, List.mem_append_right _ hliteral⟩

omit hall

theorem Reads.length_eq (h : forest.Reads span bytes) : span.stop - span.start = bytes.length := by
  obtain ⟨before, behind, -, rfl⟩ := h
  exact Nat.add_sub_cancel_left _ _

theorem Reads.isEmpty_eq (h : forest.Reads span bytes) : span.isEmpty = bytes.isEmpty := by
  obtain ⟨before, behind, -, rfl⟩ := h
  cases bytes <;> simp [Extent.isEmpty]

theorem enumerates_literal (hslot : forest.slot? id = some (.ofLiteral span source))
    (hreads : forest.Reads span bytes) :
    Enumerates forest (depth + 1) id (.literal bytes source) := by
  have hholds : Holds forest id (.literal bytes source) [id] := .literal hslot hreads
  have hbytes : forest.literalAt id = bytes := by
    rw [literalAt, hslot]
    exact hreads.bytesAt_eq
  have hbranches : branchesAt (depth + 1) forest id = [[id]] := by
    rw [branchesAt, hslot]
    rfl
  have hliterals : literalsAt (depth + 1) forest id = if bytes.isEmpty then [] else [id] := by
    rw [literalsAt, hslot, ← hreads.isEmpty_eq]
    cases hempty : span.isEmpty <;> simp [Slot.ofLiteral, Slot.kind, Slot.isLiteral, hempty]
  refine ⟨?_, ?_, fun minLength => ?_, fun minLength hmin _ hcovers => ?_⟩
  · rw [hbranches, Node.branches, List.map_singleton, List.map_singleton, leafAt,
      isLiteralAt_literal hholds, if_pos rfl, hbytes, hholds.sourceAt_eq, Node.source]
  · rw [hliterals, Node.markedLiterals]
    split
    · rfl
    · rw [List.map_singleton, hbytes]
  · rw [coversAt, hslot, Node.covers, ← hreads.length_eq]
    rfl
  · have hlong : minLength ≤ bytes.length := by
      rw [Node.covers] at hcovers
      exact of_decide_eq_true hcovers
    have hne : bytes.isEmpty ≠ true := fun hempty => by
      rw [List.isEmpty_iff.mp hempty] at hlong
      exact Nat.not_succ_le_zero _ (hmin.trans hlong)
    rw [hbranches, hliterals, if_neg hne]
    refine List.forall_mem_singleton.mpr ⟨id, List.mem_singleton_self id, ⟨?_, ?_⟩,
      List.mem_singleton_self id⟩
    · exact isLiteralAt_literal hholds
    · rwa [hbytes]

theorem enumerates_gap (hslot : forest.slot? id = some (.ofGap source)) :
    Enumerates forest (depth + 1) id (.gap source) := by
  have hholds : Holds forest id (.gap source) [id] := .gap hslot
  have hother : forest.isLiteralAt id = false :=
    isLiteralAt_other hholds fun _ _ heq => nomatch heq
  refine ⟨?_, ?_, fun minLength => ?_, fun minLength _ _ hcovers => ?_⟩
  · rw [branchesAt, hslot, Node.branches]
    dsimp only [Slot.kind, Slot.ofGap]
    rw [if_pos rfl]
    dsimp only
    rw [List.map_singleton, List.map_singleton, leafAt, hother, if_neg Bool.false_ne_true,
      hholds.sourceAt_eq, Node.source]
  · rw [literalsAt, hslot, Node.markedLiterals]
    rfl
  · rw [coversAt, hslot, Node.covers]
    rfl
  · rw [Node.covers] at hcovers
    cases hcovers

section Children

variable {hollow disabled : Bool} (hall : List.Forall₂ (Enumerates forest depth) ids nodes)

include hall

theorem enumerates_sequence (hslot : forest.slot? id = some (.ofSequence ids hollow source)) :
    Enumerates forest (depth + 1) id (.sequence nodes hollow source) := by
  have hbranches : branchesAt (depth + 1) forest id =
      (ids.map (branchesAt depth forest)).foldr cross [[]] := by
    rw [branchesAt, hslot]
    rfl
  have hliterals : literalsAt (depth + 1) forest id =
      if hollow then [] else ids.flatMap (literalsAt depth forest) := by
    rw [literalsAt, hslot]
    rfl
  refine ⟨?_, ?_, fun minLength => ?_, fun minLength hmin hmarks hcovers => ?_⟩
  · rw [hbranches, map_branches_sequence hall, Node.branches]
  · rw [hliterals, Node.markedLiterals, ← map_literals hall]
    split <;> rfl
  · rw [Node.covers, ← any_covers hall, coversAt, hslot]
    rfl
  · -- What is covered has content, so its mark, which is right, does not hide it.
    have hopen : hollow ≠ true := fun hmark =>
      Bool.false_ne_true ((Node.isHollow_of_covers hcovers).symm.trans (hmarks.1 hmark))
    rw [Node.covers] at hcovers
    rw [hbranches, hliterals, if_neg hopen]
    exact found_sequence hall hmin hmarks.2 hcovers

theorem enumerates_choice (hslot : forest.slot? id = some (.ofChoice ids disabled source))
    (hne : ids ≠ []) : Enumerates forest (depth + 1) id (.choice nodes disabled source) := by
  have hkind : (Slot.ofChoice ids disabled source).kind = .choice := Slot.kind_ofChoice hne _ _
  have hbranches : branchesAt (depth + 1) forest id = ids.flatMap (branchesAt depth forest) := by
    rw [branchesAt, hslot]
    dsimp only
    rw [hkind]
    rfl
  have hliterals : literalsAt (depth + 1) forest id =
      if disabled then [] else ids.flatMap (literalsAt depth forest) := by
    rw [literalsAt, hslot]
    dsimp only
    rw [hkind]
    rfl
  refine ⟨?_, ?_, fun minLength => ?_, fun minLength hmin hmarks hcovers => ?_⟩
  · rw [hbranches, map_branches_choice hall, Node.branches]
  · rw [hliterals, Node.markedLiterals, ← map_literals hall]
    split <;> rfl
  · rw [Node.covers, ← all_cover hall, coversAt, hslot]
    dsimp only
    rw [hkind]
    rfl
  · have hopen : disabled ≠ true := fun hmark =>
      Bool.false_ne_true ((Node.isHollow_of_covers hcovers).symm.trans (hmarks.1 hmark))
    rw [Node.covers] at hcovers
    rw [hbranches, hliterals, if_neg hopen]
    exact found_choice hall hmin hmarks.2 hcovers

end Children

/-- The walks give what they give for the tree, if the depth is large enough. -/
theorem Holds.enumerates (h : Holds forest id node print) (hsize : node.size ≤ depth) :
    Enumerates forest depth id node := by
  induction depth generalizing id node print with
  | zero => exact absurd hsize (Nat.not_le.mpr (Node.size_pos node))
  | succ depth ih =>
      have hall : ∀ {ids : List Nat} {nodes : List Node} {print : List Nat},
          HoldsAll forest ids nodes print → Node.sizeAll nodes ≤ depth →
            List.Forall₂ (Enumerates forest depth) ids nodes := fun hchildren hchildrenSize =>
        hchildren.forall₂ fun hholds hmem =>
          ih hholds ((Node.size_le_of_mem hmem).trans hchildrenSize)
      cases h with
      | literal hslot hreads => exact enumerates_literal hslot hreads
      | gap hslot => exact enumerates_gap hslot
      | sequence hslot hchildren =>
          exact enumerates_sequence (hall hchildren (Nat.le_of_succ_le_succ hsize)) hslot
      | choice hslot hne hchildren =>
          exact enumerates_choice (hall hchildren (Nat.le_of_succ_le_succ hsize)) hslot hne

end Forest

end LiteralSieve
