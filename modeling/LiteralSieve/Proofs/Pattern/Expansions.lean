import LiteralSieve.Proofs.Pattern.Unfoldings
import Mathlib.Data.List.Perm.Basic
import Mathlib.Data.Multiset.Bind

namespace LiteralSieve

/-!
# Expanding folded choices

An entry of an unfolding may hold choices that stay folded. If every one of them is put into all its
branches, in all combinations, the entries together become the branches of the tree. Their order
may change: choices that were folded vary fastest then.
-/

/-! ## Combinations -/

theorem combine_append (xs ys tails : List Branch) :
    combine (xs ++ ys) tails = combine xs tails ++ combine ys tails :=
  List.flatMap_append

@[simp] theorem combine_one_left (tails : List Branch) : combine [[]] tails = tails := by
  simp [combine]

@[simp] theorem combine_one_right (heads : List Branch) : combine heads [[]] = heads := by
  simp [combine]

theorem combine_map_append (head : Branch) (heads tails : List Branch) :
    combine (heads.map (head ++ ·)) tails = (combine heads tails).map (head ++ ·) := by
  simp [combine, List.flatMap_map, List.map_flatMap, List.append_assoc, Function.comp_def]

theorem combine_assoc (heads middles tails : List Branch) :
    combine (combine heads middles) tails = combine heads (combine middles tails) := by
  induction heads with
  | nil => rfl
  | cons head heads ih =>
      have hcons : ∀ tails, combine (head :: heads) tails =
          tails.map (head ++ ·) ++ combine heads tails := fun _ => rfl
      rw [hcons, hcons, combine_append, combine_map_append, ih]

theorem combine_perm {heads heads' tails tails' : List Branch} (hheads : heads.Perm heads')
    (htails : tails.Perm tails') : (combine heads tails).Perm (combine heads' tails') :=
  hheads.flatMap fun _ _ => htails.map _

/-- Expanding the entries of a combination is, up to order, combining the expanded entries. -/
theorem flatMap_combine_perm {expand : Branch → List Branch}
    (happend : ∀ head tail, expand (head ++ tail) = combine (expand head) (expand tail))
    (heads tails : List Branch) :
    ((combine heads tails).flatMap expand).Perm
      (combine (heads.flatMap expand) (tails.flatMap expand)) := by
  have hleft : (combine heads tails).flatMap expand = heads.flatMap fun head =>
      tails.flatMap fun tail => (expand head).flatMap fun first =>
        (expand tail).map fun last => first ++ last := by
    simp only [combine, List.flatMap_assoc, List.flatMap_map, happend]
  have hright : combine (heads.flatMap expand) (tails.flatMap expand) = heads.flatMap fun head =>
      (expand head).flatMap fun first => tails.flatMap fun tail =>
        (expand tail).map fun last => first ++ last := by
    simp only [combine, List.flatMap_assoc, List.map_flatMap]
  rw [hleft, hright]
  refine List.Perm.flatMap_left heads fun head _ => ?_
  -- The two inner walks, over the tails and over what the head becomes, change places.
  rw [← Multiset.coe_eq_coe]
  simp only [← Multiset.coe_bind]
  exact Multiset.bind_bind _ _

namespace Node

@[simp] theorem branchesOfAll_singleton (node : Node) : branchesOfAll [node] = node.branches := by
  rw [branchesOfAll, branchesOfAll, combine_one_right]

theorem branchesOfAll_append (xs ys : List Node) :
    branchesOfAll (xs ++ ys) = combine (branchesOfAll xs) (branchesOfAll ys) := by
  induction xs with
  | nil => rw [List.nil_append, branchesOfAll, combine_one_left]
  | cons node nodes ih =>
      rw [List.cons_append, branchesOfAll, branchesOfAll, ih, combine_assoc]

/-! ## Unfoldings of a tree -/

mutual

theorem expand_folded (node : Node) :
    (node.folded.branches.flatMap branchesOfAll).Perm node.branches := by
  cases node with
  | sequence children hollow source =>
      rw [folded, Unfolding.branches, branches]
      exact expand_foldedAll children
  | _ => rw [folded, Unfolding.branches, List.flatMap_singleton, branchesOfAll_singleton]

theorem expand_foldedAll (nodes : List Node) :
    ((Unfolding.branchesOfAll (foldedAll nodes)).flatMap branchesOfAll).Perm
      (branchesOfAll nodes) := by
  cases nodes with
  | nil => exact .refl _
  | cons node nodes =>
      rw [foldedAll, Unfolding.branchesOfAll, branchesOfAll]
      exact (flatMap_combine_perm branchesOfAll_append _ _).trans
        (combine_perm (expand_folded node) (expand_foldedAll nodes))

end

mutual

/-- Whatever the greedy unfolding decides, expanding what it leaves folded gives the branches of the
node. -/
theorem expand_unfoldIn (deep : Bool) (cap : Nat) (whole : Nat → Nat) (node : Node) :
    ((node.unfoldIn deep cap whole).branches.flatMap branchesOfAll).Perm node.branches := by
  have hsingle : ∀ node : Node, ((Unfolding.single node).branches.flatMap branchesOfAll).Perm
      node.branches := by
    intro node
    rw [Unfolding.branches, List.flatMap_singleton, branchesOfAll_singleton]
  cases node with
  | literal bytes source => exact hsingle _
  | gap source => exact hsingle _
  | sequence children hollow source =>
      rw [unfoldIn, Unfolding.branches, branches]
      split
      · exact expand_unfoldAll cap whole 1 children
      · exact expand_foldedAll children
  | choice children disabled source =>
      rw [unfoldIn]
      split
      · exact hsingle _
      · rw [Unfolding.branches, branches]
        exact expand_unfoldAny deep cap whole 0 children

theorem expand_unfoldAll (cap : Nat) (whole : Nat → Nat) (before : Nat) (nodes : List Node) :
    ((Unfolding.branchesOfAll (unfoldAll cap whole before nodes)).flatMap branchesOfAll).Perm
      (branchesOfAll nodes) := by
  cases nodes with
  | nil => exact .refl _
  | cons node nodes =>
      rw [unfoldAll, Unfolding.branchesOfAll, branchesOfAll]
      exact (flatMap_combine_perm branchesOfAll_append _ _).trans
        (combine_perm (expand_unfoldIn true cap _ node) (expand_unfoldAll cap whole _ nodes))

theorem expand_unfoldAny (deep : Bool) (cap : Nat) (whole : Nat → Nat) (before : Nat)
    (nodes : List Node) :
    ((Unfolding.branchesOfAny (unfoldAny deep cap whole before nodes)).flatMap branchesOfAll).Perm
      (branchesOfAny nodes) := by
  cases nodes with
  | nil => exact .refl _
  | cons node nodes =>
      rw [unfoldAny, Unfolding.branchesOfAny, branchesOfAny, List.flatMap_append]
      exact (expand_unfoldIn deep cap _ node).append (expand_unfoldAny deep cap whole _ nodes)

end

end Node

end LiteralSieve
