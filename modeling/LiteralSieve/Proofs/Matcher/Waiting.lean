import LiteralSieve.Proofs.Matcher.Indexing

namespace LiteralSieve

/-!
# Frames that wait for a key

The value of a key lists the frames of its group whose literals have its fold. Those of one piece
come from the last position to the first.
-/

open Automaton

theorem mem_labels_iff {branch : StoredBranch} {piece : PieceId} {label : Label} :
    label ∈ branch.labels piece ↔ label.group = branch.group ∧ label.pattern = branch.pattern ∧
      label.piece = piece ∧ branch.literals[label.position]? = some label.literal := by
  simp only [StoredBranch.labels, List.mem_map, List.mem_reverse, Prod.exists,
    List.mem_zipIdx_iff_getElem?]
  constructor
  · rintro ⟨literal, position, hget, rfl⟩
    exact ⟨rfl, rfl, rfl, hget⟩
  · rintro ⟨hgroup, hpattern, hpiece, hget⟩
    refine ⟨label.literal, label.position, hget, ?_⟩
    rw [← hgroup, ← hpattern, ← hpiece]

theorem mem_allLabels_iff {branches : List StoredBranch} {label : Label} :
    label ∈ allLabels branches ↔ ∃ branch, branches[label.piece]? = some branch ∧
      label.group = branch.group ∧ label.pattern = branch.pattern ∧
        branch.literals[label.position]? = some label.literal := by
  simp only [allLabels, List.mem_flatMap, Prod.exists, List.mem_zipIdx_iff_getElem?,
    mem_labels_iff]
  constructor
  · rintro ⟨branch, piece, hget, hgroup, hpattern, rfl, hliteral⟩
    exact ⟨branch, hget, hgroup, hpattern, hliteral⟩
  · rintro ⟨branch, hget, hgroup, hpattern, hliteral⟩
    exact ⟨branch, label.piece, hget, hgroup, hpattern, rfl, hliteral⟩

theorem zipIdx_pairwise {α : Type*} (xs : List α) : xs.zipIdx.Pairwise fun a b => a.2 < b.2 := by
  have hrange : (xs.zipIdx.map Prod.snd).Pairwise (· < ·) := by
    rw [List.zipIdx_map_snd]
    exact List.pairwise_lt_range'
  exact List.pairwise_map.mp hrange

/-- The frames of a piece come from the last literal to the first. -/
theorem allLabels_pairwise (branches : List StoredBranch) :
    (allLabels branches).Pairwise fun a b => a.piece = b.piece → b.position < a.position := by
  rw [allLabels, List.pairwise_flatMap]
  constructor
  · rintro ⟨branch, piece⟩ -
    change (branch.labels piece).Pairwise _
    rw [StoredBranch.labels, List.pairwise_map, List.pairwise_reverse]
    refine (zipIdx_pairwise branch.literals).imp ?_
    rintro ⟨_, i⟩ ⟨_, j⟩ hlt -
    exact hlt
  · refine (zipIdx_pairwise branches).imp ?_
    rintro ⟨branch, piece⟩ ⟨branch', piece'⟩ hlt a ha b hb heq
    obtain ⟨-, -, ha, -⟩ := mem_labels_iff.mp ha
    obtain ⟨-, -, hb, -⟩ := mem_labels_iff.mp hb
    simp only [← ha, ← hb, heq] at hlt
    exact (lt_irrefl _ hlt).elim

/-- The frames of a group that wait for a folded key, with what they stand for. -/
def waiting (config : AutomatonConfig) (labels : List Label) (g : Nat) (folded : Bytes) :
    List (Label × FrameId) :=
  labels.zipIdx.filter fun x => x.1.group = g ∧ x.1.literal.map config.fold = folded

theorem waiting_concat (config : AutomatonConfig) (labels : List Label) (label : Label) (g : Nat)
    (folded : Bytes) :
    waiting config (labels ++ [label]) g folded = waiting config labels g folded ++
      if label.group = g ∧ label.literal.map config.fold = folded then [(label, labels.length)]
      else [] := by
  rw [waiting, List.zipIdx_append, List.filter_append, ← waiting]
  split_ifs with h <;> simp [h]

/-- The value of a key after the additions of a group: the frames that wait for it. -/
theorem value_entryAt? (config : AutomatonConfig) (wholeWord : Bool) (labels : List Label)
    (g : Nat) (folded : Bytes) :
    ((entryAt? config (groupAdditions wholeWord labels g) folded).map (·.value)).getD [] =
      (waiting config labels g folded).map Prod.snd := by
  induction labels using List.reverseRecOn with
  | nil => rfl
  | append_singleton labels label ih =>
      rw [groupAdditions_concat, waiting_concat, List.map_append, ← ih]
      by_cases hgroup : label.group = g
      · rw [if_pos hgroup, entryAt?_concat]
        by_cases hfold : label.literal.map config.fold = folded
        · rw [if_pos (by exact hfold), if_pos ⟨hgroup, hfold⟩]
          cases entryAt? config (groupAdditions wholeWord labels g) folded <;> rfl
        · rw [if_neg (by exact hfold), if_neg fun h => hfold h.2]
          simp
      · rw [if_neg hgroup, if_neg fun h => hgroup h.1]
        simp

end LiteralSieve
