import LiteralSieve.Proofs.Matcher.Progress
import Mathlib.Data.List.Induction
import Mathlib.Order.Nat

namespace LiteralSieve

/-!
# How a piece advances

The frames of a piece are shown a key from the last position to the first, so that one key moves the
piece by one literal at most. A piece that moves whenever it can has seen as many of its literals as
occur in their order at all.
-/

open scoped List

namespace Progress

def step (size : Nat) (progress : Progress) (place : Nat × Nat) : Progress :=
  (progress.accept? size place.1 place.2).getD progress

/-- What a key that is shown with an offset does to a piece of these literals. -/
def advance (folded : List Bytes) (progress : Progress) (shown : Bytes × Nat) : Progress :=
  if progress.finished = false ∧ folded[progress.seen]? = some shown.1 then
    ⟨progress.seen + 1, progress.seen + 1 == folded.length,
      if progress.seen = 0 then shown.2 else progress.start⟩
  else progress

theorem step_eq (size offset position : Nat) (progress : Progress) :
    progress.step size (position, offset) =
      if progress.finished = false ∧ progress.seen = position then
        ⟨position + 1, position + 1 == size, if position = 0 then offset else progress.start⟩
      else progress := by
  rw [step, accept?]
  by_cases h : progress.finished = false ∧ progress.seen = position
  · rw [if_pos h, if_neg (by simp [h.1, h.2])]
    rfl
  · rw [if_neg h, if_pos (by simpa [imp_iff_not_or] using h)]
    rfl

theorem step_of_finished {size : Nat} {progress : Progress} (h : progress.finished = true)
    (place : Nat × Nat) : progress.step size place = progress := by
  rw [step_eq, if_neg (by simp [h])]

theorem foldl_step_of_finished {size : Nat} {progress : Progress} (h : progress.finished = true)
    (places : List (Nat × Nat)) : places.foldl (step size) progress = progress := by
  induction places with
  | nil => rfl
  | cons place places ih => rw [List.foldl_cons, step_of_finished h, ih]

/-- Positions that the piece is not at leave it where it is. -/
theorem foldl_step_of_not_mem {size offset : Nat} {progress : Progress} {positions : List Nat}
    (h : progress.seen ∉ positions) :
    (positions.map (·, offset)).foldl (step size) progress = progress := by
  induction positions with
  | nil => rfl
  | cons j positions ih =>
      obtain ⟨hj, hrest⟩ := List.ne_and_not_mem_of_not_mem_cons h
      rw [List.map_cons, List.foldl_cons, step_eq, if_neg fun hand => hj hand.2]
      exact ih hrest

/-- Positions in descending order move the piece by one literal at most. -/
theorem foldl_step_of_pairwise {size offset : Nat} {progress : Progress} {positions : List Nat}
    (hpairs : positions.Pairwise (· > ·)) :
    (positions.map (·, offset)).foldl (step size) progress =
      if progress.seen ∈ positions then progress.step size (progress.seen, offset)
      else progress := by
  induction positions with
  | nil => simp
  | cons j positions ih =>
      obtain ⟨hall, hrest⟩ := List.pairwise_cons.mp hpairs
      rw [List.map_cons, List.foldl_cons]
      by_cases hj : progress.seen = j
      · subst hj
        rw [if_pos List.mem_cons_self]
        by_cases hfinished : progress.finished = true
        · rw [step_of_finished hfinished, foldl_step_of_finished hfinished]
        · -- The position that is missing next is greater than all that are to come.
          apply foldl_step_of_not_mem
          rw [step_eq, if_pos ⟨by simpa using hfinished, rfl⟩]
          intro hmem
          have hlt := hall _ hmem
          simp only at hlt
          omega
      · rw [step_eq, if_neg fun hand => hj hand.2, ih hrest]
        simp [hj]

/-- The frames of a piece that wait for a key let the piece advance. -/
theorem foldl_step_eq_advance {folded : List Bytes} {key : Bytes} {positions : List Nat}
    (hpairs : positions.Pairwise (· > ·))
    (hmem : ∀ j, j ∈ positions ↔ folded[j]? = some key) (offset : Nat) (progress : Progress) :
    (positions.map (·, offset)).foldl (step folded.length) progress =
      progress.advance folded (key, offset) := by
  rw [foldl_step_of_pairwise hpairs, advance, step_eq]
  simp only [hmem]
  split_ifs <;> simp_all

/-- A piece without a next literal stays where it is. -/
theorem foldl_advance_of_none {folded : List Bytes} {progress : Progress}
    (h : folded[progress.seen]? = none) (shown : List (Bytes × Nat)) :
    shown.foldl (advance folded) progress = progress := by
  induction shown with
  | nil => rfl
  | cons x shown ih =>
      have hstay : progress.advance folded x = progress := by simp [advance, h]
      rw [List.foldl_cons, hstay, ih]

/-- After these keys, with their offsets, the piece has seen as many of its literals as occur among
them in their order. -/
structure Seen (folded : List Bytes) (shown : List (Bytes × Nat)) (progress : Progress) : Prop where
  finished_iff : progress.finished = true ↔ progress.seen = folded.length
  seen_le : progress.seen ≤ folded.length
  le_seen_iff : ∀ j ≤ folded.length, j ≤ progress.seen ↔ folded.take j <+ shown.map Prod.fst
  start_eq : progress.seen ≠ 0 → ∃ before first after, shown = before ++ first :: after ∧
    folded.head? = some first.1 ∧ (∀ x ∈ before, folded.head? ≠ some x.1) ∧
      progress.start = first.2

theorem seen_fresh {folded : List Bytes} (h : folded ≠ []) : Seen folded [] fresh where
  finished_iff := by
    have hpos := List.length_pos_iff.mpr h
    simp only [fresh, Bool.false_eq_true, false_iff]
    omega
  seen_le := Nat.zero_le _
  le_seen_iff := by
    intro j hj
    simp only [fresh, List.map_nil, List.sublist_nil, List.take_eq_nil_iff, h, or_false]
    exact Nat.le_zero
  start_eq := fun hne => (hne rfl).elim

theorem sublist_concat_iff {α : Type*} {xs ys : List α} {y : α} :
    xs <+ ys ++ [y] ↔ xs <+ ys ∨ ∃ zs, xs = zs ++ [y] ∧ zs <+ ys := by
  rw [List.sublist_append_iff]
  constructor
  · rintro ⟨front, last, rfl, hfront, hlast⟩
    rcases List.sublist_singleton.mp hlast with rfl | rfl
    · exact Or.inl (by simpa using hfront)
    · exact Or.inr ⟨front, rfl, hfront⟩
  · rintro (h | ⟨zs, rfl, h⟩)
    · exact ⟨xs, [], by simp, h, List.nil_sublist _⟩
    · exact ⟨zs, [y], rfl, h, List.Sublist.refl _⟩

/-- One literal more is there if it is the key that was shown last. -/
theorem take_succ_sublist_concat_iff {α : Type*} {xs ys : List α} {y : α} {i : Nat}
    (hi : i < xs.length) :
    xs.take (i + 1) <+ ys ++ [y] ↔
      xs.take (i + 1) <+ ys ∨ xs[i]? = some y ∧ xs.take i <+ ys := by
  rw [sublist_concat_iff]
  refine or_congr_right ?_
  have htake : xs.take (i + 1) = xs.take i ++ [xs[i]] := by simp
  rw [htake, List.getElem?_eq_getElem hi, Option.some_inj]
  constructor
  · rintro ⟨zs, heq, hsub⟩
    obtain ⟨rfl, hlast⟩ := List.append_inj' heq rfl
    exact ⟨List.singleton_inj.mp hlast, hsub⟩
  · rintro ⟨rfl, hsub⟩
    exact ⟨xs.take i, rfl, hsub⟩

namespace Seen

variable {folded : List Bytes} {shown : List (Bytes × Nat)} {progress : Progress}

theorem not_finished (h : Seen folded shown progress) {key : Bytes}
    (hnext : folded[progress.seen]? = some key) : progress.finished = false := by
  have hlt := (List.getElem?_eq_some_iff.mp hnext).1
  rw [← Bool.not_eq_true, h.finished_iff]
  omega

/-- A piece that has seen nothing was not shown its first literal. -/
theorem head?_ne (h : Seen folded shown progress) (hseen : progress.seen = 0) :
    ∀ x ∈ shown, folded.head? ≠ some x.1 := by
  intro x hx hhead
  cases folded with
  | nil => cases hhead
  | cons first rest =>
      obtain rfl := Option.some.inj hhead
      have hsub : (x.1 :: rest).take 1 <+ shown.map Prod.fst := by
        simpa using ⟨x.2, hx⟩
      have hle := (h.le_seen_iff 1 (by simp)).mpr hsub
      omega

theorem concat_advance (h : Seen folded shown progress) {x : Bytes × Nat}
    (hnext : folded[progress.seen]? = some x.1) :
    Seen folded (shown ++ [x]) (progress.advance folded x) := by
  have hlt := (List.getElem?_eq_some_iff.mp hnext).1
  rw [advance, if_pos ⟨h.not_finished hnext, hnext⟩]
  refine ⟨by simp, hlt, fun j hj => ?_, fun _ => ?_⟩
  · rw [List.map_append]
    cases j with
    | zero => simp
    | succ i =>
        refine Iff.trans ?_ (take_succ_sublist_concat_iff hj).symm
        rw [← h.le_seen_iff (i + 1) hj, ← h.le_seen_iff i (by omega)]
        constructor
        · intro hle
          by_cases hi : i = progress.seen
          · exact Or.inr ⟨hi ▸ hnext, hi.le⟩
          · simp only at hle
            exact Or.inl (by omega)
        · rintro (hle | ⟨-, hle⟩)
          · exact hle.trans (Nat.le_succ _)
          · exact Nat.succ_le_succ hle
  · by_cases hseen : progress.seen = 0
    · refine ⟨shown, x, [], rfl, ?_, h.head?_ne hseen, by simp [hseen]⟩
      rw [List.head?_eq_getElem?, ← hseen]
      exact hnext
    · obtain ⟨before, first, after, rfl, hhead, hbefore, hstart⟩ := h.start_eq hseen
      exact ⟨before, first, after ++ [x], by simp, hhead, hbefore, by simpa [hseen] using hstart⟩

theorem concat_of_ne (h : Seen folded shown progress) {x : Bytes × Nat}
    (hnext : folded[progress.seen]? ≠ some x.1) : Seen folded (shown ++ [x]) progress where
  finished_iff := h.finished_iff
  seen_le := h.seen_le
  le_seen_iff := by
    intro j hj
    rw [h.le_seen_iff j hj, List.map_append]
    cases j with
    | zero => simp
    | succ i =>
        refine Iff.trans ?_ (take_succ_sublist_concat_iff hj).symm
        constructor
        · exact Or.inl
        · rintro (hsub | ⟨hget, hsub⟩)
          · exact hsub
          · have hle := (h.le_seen_iff i (by omega)).mpr hsub
            have hne : i ≠ progress.seen := fun hi => hnext (hi ▸ hget)
            exact (h.le_seen_iff (i + 1) hj).mp (by omega)
  start_eq := by
    intro hseen
    obtain ⟨before, first, after, rfl, hhead, hbefore, hstart⟩ := h.start_eq hseen
    exact ⟨before, first, after ++ [x], by simp, hhead, hbefore, hstart⟩

theorem concat (h : Seen folded shown progress) (x : Bytes × Nat) :
    Seen folded (shown ++ [x]) (progress.advance folded x) := by
  by_cases hnext : folded[progress.seen]? = some x.1
  · exact h.concat_advance hnext
  · rw [advance, if_neg fun hand => hnext hand.2]
    exact h.concat_of_ne hnext

theorem finished_iff_sublist (h : Seen folded shown progress) :
    progress.finished = true ↔ folded <+ shown.map Prod.fst := by
  have hall := h.le_seen_iff folded.length le_rfl
  rw [List.take_length] at hall
  rw [h.finished_iff, ← hall]
  have hle := h.seen_le
  omega

end Seen

theorem seen_foldl_advance {folded : List Bytes} (h : folded ≠ []) (shown : List (Bytes × Nat)) :
    Seen folded shown (shown.foldl (advance folded) fresh) := by
  induction shown using List.reverseRecOn with
  | nil => exact seen_fresh h
  | append_singleton shown x ih =>
      rw [List.foldl_concat]
      exact ih.concat x

end Progress

end LiteralSieve
