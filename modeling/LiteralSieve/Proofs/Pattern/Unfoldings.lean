import LiteralSieve.Pattern.Unfolding
import LiteralSieve.Proofs.Pattern.Paths

namespace LiteralSieve

/-!
# Numbers of unfolded branches

The greedy unfolding of a tree keeps within its cap. While the tree is unfolded, `whole` tells how
many branches it has if every choice ahead stays folded, and this number is never above the cap: a
choice that would lift it over the cap stays folded. Each lemma says so for the branches of the node
at hand, from the number with the node folded to the number with the node unfolded.
-/

namespace Unfolding

mutual

theorem length_branches (part : Unfolding) : part.branches.length = part.count := by
  cases part with
  | single node => rfl
  | sequence parts => rw [branches, count, length_branchesOfAll]
  | choice parts => rw [branches, count, length_branchesOfAny]

theorem length_branchesOfAll (parts : List Unfolding) :
    (branchesOfAll parts).length = countProduct parts := by
  cases parts with
  | nil => rfl
  | cons part parts =>
      rw [branchesOfAll, length_combine, length_branches, length_branchesOfAll, countProduct]

theorem length_branchesOfAny (parts : List Unfolding) :
    (branchesOfAny parts).length = countSum parts := by
  cases parts with
  | nil => rfl
  | cons part parts =>
      rw [branchesOfAny, List.length_append, length_branches, length_branchesOfAny, countSum]

end

end Unfolding

namespace Node

mutual

theorem count_folded (node : Node) : node.folded.count = 1 := by
  cases node with
  | sequence children hollow source => rw [folded, Unfolding.count, countProduct_foldedAll]
  | _ => rw [folded, Unfolding.count]

theorem countProduct_foldedAll (nodes : List Node) :
    Unfolding.countProduct (foldedAll nodes) = 1 := by
  cases nodes with
  | nil => rw [foldedAll, Unfolding.countProduct]
  | cons node nodes =>
      rw [foldedAll, Unfolding.countProduct, count_folded, countProduct_foldedAll]

end

/-! ## The cap -/

mutual

theorem whole_count_le {cap : Nat} (hcap : cap < maxCount) (deep : Bool) (whole : Nat → Nat)
    (node : Node) (h : whole 1 ≤ cap) :
    whole (node.unfoldIn deep cap whole).count ≤ cap := by
  cases node with
  | literal bytes source => exact h
  | gap source => exact h
  | sequence children hollow source =>
      rw [unfoldIn, Unfolding.count]
      split
      · have hparts := whole_countProduct_le hcap whole children h
        rwa [Nat.one_mul] at hparts
      · rwa [countProduct_foldedAll]
  | choice children disabled source =>
      rw [unfoldIn]
      split
      case isTrue => exact h
      case isFalse hfits =>
        -- The count was not held at the largest one, which is above the cap.
        have hlength : whole (0 + children.length) ≤ cap := by
          rw [Nat.zero_add]
          omega
        have hparts := whole_countSum_le hcap deep whole children hlength
        rwa [Nat.zero_add] at hparts

theorem whole_countProduct_le {cap : Nat} (hcap : cap < maxCount) (whole : Nat → Nat)
    {before : Nat} (nodes : List Node) (h : whole before ≤ cap) :
    whole (before * Unfolding.countProduct (unfoldAll cap whole before nodes)) ≤ cap := by
  cases nodes with
  | nil => rwa [unfoldAll, Unfolding.countProduct, Nat.mul_one]
  | cons node nodes =>
      have hfolded : whole (before * 1) ≤ cap := by rwa [Nat.mul_one]
      have hpart := whole_count_le hcap true (fun n => whole (before * n)) node hfolded
      rw [unfoldAll, Unfolding.countProduct, ← Nat.mul_assoc]
      exact whole_countProduct_le hcap whole nodes hpart

theorem whole_countSum_le {cap : Nat} (hcap : cap < maxCount) (deep : Bool)
    (whole : Nat → Nat) {before : Nat} (nodes : List Node)
    (h : whole (before + nodes.length) ≤ cap) :
    whole (before + Unfolding.countSum (unfoldAny deep cap whole before nodes)) ≤ cap := by
  cases nodes with
  | nil => exact h
  | cons node nodes =>
      have hfolded : whole (before + 1 + nodes.length) ≤ cap := by
        rwa [List.length_cons, Nat.add_comm nodes.length, ← Nat.add_assoc] at h
      have hpart :=
        whole_count_le hcap deep (fun n => whole (before + n + nodes.length)) node hfolded
      rw [unfoldAny, Unfolding.countSum, ← Nat.add_assoc]
      exact whole_countSum_le hcap deep whole nodes hpart

end

/-- The greedy unfolding has no more branches than the cap allows. -/
theorem length_unfold_le {cap : Nat} (hpos : 1 ≤ cap) (hcap : cap < maxCount) (deep : Bool)
    (root : Node) : (root.unfold deep cap).branches.length ≤ cap := by
  rw [Unfolding.length_branches]
  exact whole_count_le hcap deep id root hpos

end Node

end LiteralSieve
