import LiteralSieve.Verifier
import Mathlib.Data.List.Infix
import Mathlib.Data.List.Range

namespace LiteralSieve

/-!
# Places one after the other

A verifier shows one place at a time. All places come from asking again for what is left of the text
behind the last place, or one byte further if that place was empty. Each round so leaves less of the
text, and the places lie in the text without overlap. Of a string that is looked for, they are the
leftmost occurrences: one that is left out overlaps an earlier one that is not.
-/

namespace Extent

/-- Some byte lies in both. -/
def Overlaps (x y : Extent) : Prop := ∃ i, (x.start ≤ i ∧ i < x.stop) ∧ y.start ≤ i ∧ i < y.stop

variable {x y : Extent}

theorem not_overlaps_of_le (h : x.stop ≤ y.start) : ¬x.Overlaps y := by
  rintro ⟨i, ⟨-, hx⟩, hy, -⟩
  omega

theorem next_of_lt (h : x.start < x.stop) : x.next = x.stop := by simp [next, isEmpty, h]

theorem stop_le_next (x : Extent) : x.stop ≤ x.next := by
  rw [next]
  split <;> omega

theorem start_lt_next (h : x.start ≤ x.stop) : x.start < x.next := by
  by_cases hlt : x.start < x.stop
  · rwa [next_of_lt hlt]
  · simp [next, isEmpty, hlt]
    omega

end Extent

namespace Verifier

variable {find? : Bytes → Option Extent} {text : Bytes} {start n : Nat} {place : Extent}

/-- A place that is found lies in the text that was searched. -/
def FindsInside (find? : Bytes → Option Extent) : Prop :=
  ∀ text place, find? text = some place → place.start ≤ place.stop ∧ place.stop ≤ text.length

/-- The places lie in the text, one after the other. -/
structure Tiles (text : Bytes) (places : List Extent) : Prop where
  inside : ∀ place ∈ places, place.start ≤ place.stop ∧ place.stop ≤ text.length
  increasing : places.Pairwise fun x y => x.start < y.start
  apart : places.Pairwise fun x y => x.stop ≤ y.start
  disjoint : places.Pairwise fun x y => ¬x.Overlaps y

/-! ## Rounds -/

/-- A search that is under way: where it goes on, and the places so far. -/
structure Search where
  start : Nat
  found : List Extent

namespace Search

/-- One round, if something is left to search and something is found there. -/
def round (find? : Bytes → Option Extent) (text : Bytes) (search : Search) : Option Search :=
  if search.start ≤ text.length then
    (find? (text.drop search.start)).map fun place =>
      ⟨search.start + place.next, search.found ++ [place.shift search.start]⟩
  else none

/-- After so many rounds the search is over. -/
inductive EndsAfter (find? : Bytes → Option Extent) (text : Bytes) :
    Nat → Search → List Extent → Prop
  | over {search : Search} (h : search.round find? text = none) :
      EndsAfter find? text 0 search search.found
  | round {n : Nat} {search next : Search} {places : List Extent}
      (h : search.round find? text = some next) (hnext : EndsAfter find? text n next places) :
      EndsAfter find? text (n + 1) search places

end Search

/-- Every search comes to an end, at the latest when each offset had its round. -/
theorem endsAfter_findAllFrom (find? : Bytes → Option Extent) (text : Bytes) (start : Nat)
    (found : List Extent) : ∃ n ≤ text.length + 1 - start,
      Search.EndsAfter find? text n ⟨start, found⟩ (found ++ findAllFrom find? text start) := by
  fun_induction findAllFrom find? text start generalizing found with
  | case1 start hle hnone =>
      refine ⟨0, Nat.zero_le _, ?_⟩
      rw [List.append_nil]
      exact .over (by simp [Search.round, hnone])
  | case2 start hle place hsome ih =>
      obtain ⟨n, hn, hends⟩ := ih (found ++ [place.shift start])
      have hpos := place.next_pos
      have hround : Search.round find? text ⟨start, found⟩ =
          some ⟨start + place.next, found ++ [place.shift start]⟩ := by
        simp [Search.round, hle, hsome]
      refine ⟨n + 1, by omega, .round hround ?_⟩
      simpa using hends
  | case3 start hlt =>
      refine ⟨0, Nat.zero_le _, ?_⟩
      rw [List.append_nil]
      exact .over (by simp [Search.round, hlt])

theorem le_start_of_mem (h : place ∈ findAllFrom find? text start) : start ≤ place.start := by
  fun_induction findAllFrom find? text start with
  | case1 start hle hnone => cases h
  | case2 start hle first hsome ih =>
      rcases List.mem_cons.mp h with rfl | hlater
      · exact Nat.le_add_right _ _
      · exact (Nat.le_add_right _ _).trans (ih hlater)
  | case3 start hlt => cases h

theorem tiles_findAllFrom (hfind : FindsInside find?) (text : Bytes) (start : Nat) :
    Tiles text (findAllFrom find? text start) := by
  fun_induction findAllFrom find? text start with
  | case1 start hle hnone => exact ⟨List.forall_mem_nil _, .nil, .nil, .nil⟩
  | case2 start hle first hsome ih =>
      obtain ⟨hfirst, hstop⟩ := hfind _ _ hsome
      rw [List.length_drop] at hstop
      have hnext := Extent.start_lt_next hfirst
      have hbehind := first.stop_le_next
      have hlater : ∀ y ∈ findAllFrom find? text (start + first.next),
          start + first.next ≤ y.start := fun y hy => le_start_of_mem hy
      have hapart : ∀ y ∈ findAllFrom find? text (start + first.next),
          (first.shift start).stop ≤ y.start := by
        intro y hy
        exact (Nat.add_le_add_left hbehind start).trans (hlater y hy)
      have hdisjoint : ∀ y ∈ findAllFrom find? text (start + first.next),
          ¬(first.shift start).Overlaps y :=
        fun y hy => Extent.not_overlaps_of_le (hapart y hy)
      refine ⟨List.forall_mem_cons.mpr ⟨?_, ih.inside⟩, .cons ?_ ih.increasing,
        .cons hapart ih.apart, .cons hdisjoint ih.disjoint⟩
      · simp only [Extent.shift]
        omega
      · intro y hy
        have := hlater y hy
        simp only [Extent.shift]
        omega
  | case3 start hlt => exact ⟨List.forall_mem_nil _, .nil, .nil, .nil⟩

end Verifier

/-! ## A string that is looked for -/

namespace Needle

variable {needle text : Bytes} {offset start : Nat} {place : Extent}

/-- The string stands at this place of the text. -/
def Occurs (needle text : Bytes) (place : Extent) : Prop :=
  ∃ front back, text = front ++ needle ++ back ∧
    place = ⟨front.length, front.length + needle.length⟩

theorem Occurs.stop_eq (h : Occurs needle text place) :
    place.stop = place.start + needle.length := by
  obtain ⟨front, back, -, rfl⟩ := h
  rfl

theorem Occurs.stop_le (h : Occurs needle text place) : place.stop ≤ text.length := by
  obtain ⟨front, back, rfl, rfl⟩ := h
  simp

theorem Occurs.eq_of_start {other : Extent} (h : Occurs needle text place)
    (hother : Occurs needle text other) (hstart : place.start = other.start) : place = other := by
  have hstop : place.stop = other.stop := by rw [h.stop_eq, hother.stop_eq, hstart]
  cases place
  cases other
  simp_all

theorem occurs_nil_iff : Occurs needle [] place ↔ needle = [] ∧ place = ⟨0, 0⟩ := by
  constructor
  · rintro ⟨front, back, heq, rfl⟩
    simp_all
  · rintro ⟨rfl, rfl⟩
    exact ⟨[], [], by simp⟩

/-- It stands at the first byte, or at a place of the rest. -/
theorem occurs_cons_iff {b : UInt8} : Occurs needle (b :: text) place ↔
    (needle <+: b :: text ∧ place = ⟨0, needle.length⟩) ∨
      ∃ later, Occurs needle text later ∧ place = later.shift 1 := by
  constructor
  · rintro ⟨front, back, heq, rfl⟩
    cases front with
    | nil => exact .inl ⟨⟨back, heq.symm⟩, by simp⟩
    | cons c front =>
        obtain ⟨rfl, rfl⟩ := List.cons.inj heq
        refine .inr ⟨_, ⟨front, back, by simp, rfl⟩, ?_⟩
        simp [Extent.shift]
        omega
  · rintro (⟨⟨back, heq⟩, rfl⟩ | ⟨later, ⟨front, back, rfl, rfl⟩, rfl⟩)
    · exact ⟨[], back, by simp [heq], by simp⟩
    · refine ⟨b :: front, back, by simp, ?_⟩
      simp [Extent.shift]
      omega

theorem occurs_shift (hstart : start ≤ text.length) (h : Occurs needle (text.drop start) place) :
    Occurs needle text (place.shift start) := by
  obtain ⟨front, back, heq, rfl⟩ := h
  refine ⟨text.take start ++ front, back, ?_, ?_⟩
  · have := text.take_append_drop start
    simp_all
  · simp [Extent.shift, hstart]
    omega

theorem occurs_drop (hstart : start ≤ place.start) (h : Occurs needle text place) :
    ∃ later, Occurs needle (text.drop start) later ∧ place = later.shift start := by
  obtain ⟨front, back, rfl, rfl⟩ := h
  refine ⟨⟨front.length - start, front.length - start + needle.length⟩,
    ⟨front.drop start, back, ?_, by simp⟩, ?_⟩
  · simp_all [List.drop_append_of_le_length]
  · simp only [Extent.shift, Extent.mk.injEq] at hstart ⊢
    omega

/-- What is found is the leftmost place where the string stands. -/
theorem findFrom?_eq_some (h : findFrom? needle offset text = some place) :
    ∃ first, place = first.shift offset ∧ Occurs needle text first ∧
      ∀ other, Occurs needle text other → first.start ≤ other.start := by
  induction text generalizing offset with
  | nil =>
      simp only [findFrom?, Option.ite_none_right_eq_some, List.isEmpty_iff,
        Option.some.injEq] at h
      obtain ⟨rfl, rfl⟩ := h
      exact ⟨⟨0, 0⟩, by simp [Extent.shift], occurs_nil_iff.mpr ⟨rfl, rfl⟩, by simp⟩
  | cons b text ih =>
      rw [findFrom?] at h
      split at h
      next hprefix =>
        obtain rfl := Option.some.inj h
        exact ⟨⟨0, needle.length⟩, by simp [Extent.shift],
          occurs_cons_iff.mpr (.inl ⟨List.isPrefixOf_iff_prefix.mp hprefix, rfl⟩), by simp⟩
      next hprefix =>
        obtain ⟨first, rfl, hoccurs, hleast⟩ := ih h
        refine ⟨first.shift 1, ?_, occurs_cons_iff.mpr (.inr ⟨first, hoccurs, rfl⟩), ?_⟩
        · simp only [Extent.shift, Extent.mk.injEq]
          omega
        · intro other hother
          rcases occurs_cons_iff.mp hother with ⟨hother, -⟩ | ⟨later, hlater, rfl⟩
          · exact absurd (List.isPrefixOf_iff_prefix.mpr hother) hprefix
          · exact Nat.add_le_add_left (hleast later hlater) 1

theorem not_occurs_of_findFrom? (h : findFrom? needle offset text = none) :
    ¬Occurs needle text place := by
  induction text generalizing offset place with
  | nil =>
      intro hoccurs
      obtain ⟨rfl, -⟩ := occurs_nil_iff.mp hoccurs
      simp [findFrom?] at h
  | cons b text ih =>
      rw [findFrom?] at h
      split at h
      next => cases h
      next hprefix =>
        intro hoccurs
        rcases occurs_cons_iff.mp hoccurs with ⟨hother, -⟩ | ⟨later, hlater, -⟩
        · exact hprefix (List.isPrefixOf_iff_prefix.mpr hother)
        · exact ih h hlater

theorem find?_eq_some {needle : Needle} (h : Verifier.find? needle text = some place) :
    Occurs needle.bytes text place ∧
      ∀ other, Occurs needle.bytes text other → place.start ≤ other.start := by
  obtain ⟨first, rfl, hfirst⟩ := findFrom?_eq_some h
  simpa [Extent.shift] using hfirst

theorem findsInside (needle : Needle) : Verifier.FindsInside (Verifier.find? needle) := by
  intro text place h
  have hoccurs := (find?_eq_some h).1
  exact ⟨hoccurs.stop_eq ▸ Nat.le_add_right _ _, hoccurs.stop_le⟩

theorem occurs_of_mem {needle : Needle}
    (h : place ∈ Verifier.findAllFrom (Verifier.find? needle) text start) :
    Occurs needle.bytes text place := by
  fun_induction Verifier.findAllFrom (Verifier.find? needle) text start with
  | case1 start hle hnone => cases h
  | case2 start hle first hsome ih =>
      rcases List.mem_cons.mp h with rfl | hlater
      · exact occurs_shift hle (find?_eq_some hsome).1
      · exact ih hlater
  | case3 start hlt => cases h

/-- A place that is passed over starts inside one that is shown. -/
theorem mem_or_overlaps {needle : Needle} (hne : needle.bytes ≠ [])
    (h : Occurs needle.bytes text place) (hstart : start ≤ place.start) :
    place ∈ Verifier.findAllFrom (Verifier.find? needle) text start ∨
      ∃ shown ∈ Verifier.findAllFrom (Verifier.find? needle) text start,
        shown.start < place.start ∧ shown.Overlaps place := by
  have hpos : 0 < needle.bytes.length := List.length_pos_iff.mpr hne
  have hlength := h.stop_eq
  fun_induction Verifier.findAllFrom (Verifier.find? needle) text start with
  | case1 start hle hnone =>
      obtain ⟨later, hlater, -⟩ := occurs_drop hstart h
      exact absurd hlater (not_occurs_of_findFrom? hnone)
  | case2 start hle first hsome ih =>
      obtain ⟨hfirst, hleast⟩ := find?_eq_some hsome
      obtain ⟨later, hlater, rfl⟩ := occurs_drop hstart h
      have hbefore := hleast later hlater
      have hstop := hfirst.stop_eq
      have hnext := Extent.next_of_lt (x := first) (by omega)
      simp only [Extent.shift] at hstart hlength ih ⊢
      by_cases hsame : first.start = later.start
      · obtain rfl := hfirst.eq_of_start hlater hsame
        exact .inl List.mem_cons_self
      · by_cases hbehind : first.stop ≤ later.start
        · rcases ih (by omega) with hmem | ⟨shown, hmem, hshown⟩
          · exact .inl (List.mem_cons_of_mem _ hmem)
          · exact .inr ⟨shown, List.mem_cons_of_mem _ hmem, hshown⟩
        · refine .inr ⟨_, List.mem_cons_self, ?_, start + later.start, ?_⟩ <;> dsimp only <;> omega
  | case3 start hlt =>
      have := h.stop_le
      omega

/-- The empty string stands before every byte, and behind the last one. -/
theorem findAllFrom_empty (text : Bytes) (start : Nat) :
    Verifier.findAllFrom (Verifier.find? (Needle.mk [])) text start =
      (List.range' start (text.length + 1 - start)).map fun i => ⟨i, i⟩ := by
  have hfind : ∀ text, Verifier.find? (Needle.mk []) text = some ⟨0, 0⟩ := by
    intro text
    cases text <;> simp [Verifier.find?, findFrom?]
  fun_induction Verifier.findAllFrom (Verifier.find? (Needle.mk [])) text start with
  | case1 start hle hnone => simp [hfind] at hnone
  | case2 start hle first hsome ih =>
      obtain rfl := Option.some.inj ((hfind _).symm.trans hsome)
      obtain ⟨m, hm⟩ := Nat.exists_eq_add_of_le hle
      have hcount : text.length + 1 - start = m + 1 := by omega
      have hrest : text.length + 1 - (start + 1) = m := by omega
      have hnext : Extent.next ⟨0, 0⟩ = 1 := by decide
      rw [hnext, hrest] at ih
      simp [hcount, hnext, List.range'_succ, Extent.shift, ih]
  | case3 start hlt =>
      have hcount : text.length + 1 - start = 0 := by omega
      simp [hcount]

end Needle

namespace Verifier

/-- If a verifier finds its places inside what it searches, the search for all of them ends after at
most one round for each offset, and they lie in the text one after the other. For a string these are
occurrences, and every other occurrence overlaps one of them that starts earlier; the empty string
stands at every offset. -/
theorem findAll_places :
    (∀ {α : Type} [Verifier α] (v : α), FindsInside (find? v) → ∀ text : Bytes,
      (∃ n ≤ text.length + 1,
        Search.EndsAfter (find? v) text n ⟨0, []⟩ (findAll v text)) ∧
      Tiles text (findAll v text)) ∧
    (∀ (needle : Needle) (text : Bytes), needle.bytes ≠ [] →
      Tiles text (findAll needle text) ∧
      (∀ place ∈ findAll needle text, Needle.Occurs needle.bytes text place) ∧
      ∀ place, Needle.Occurs needle.bytes text place → place ∉ findAll needle text →
        ∃ shown ∈ findAll needle text, shown.start < place.start ∧ shown.Overlaps place) ∧
    ∀ text : Bytes,
      findAll (Needle.mk []) text = (List.range (text.length + 1)).map fun i => ⟨i, i⟩ := by
  refine ⟨fun v hfind text => ⟨?_, tiles_findAllFrom hfind text 0⟩, ?_, fun text => ?_⟩
  · simpa [findAll] using endsAfter_findAllFrom (find? v) text 0 []
  · intro needle text hne
    refine ⟨tiles_findAllFrom needle.findsInside text 0, fun place => Needle.occurs_of_mem, ?_⟩
    intro place hoccurs hleft
    exact (Needle.mem_or_overlaps hne hoccurs (Nat.zero_le _)).resolve_left hleft
  · simpa [findAll, List.range_eq_range'] using Needle.findAllFrom_empty text 0

/-- A string that overlaps itself, in a text with three occurrences of which two are shown. -/
theorem findAll_places_aba :
    let text : Bytes := [0x61, 0x62, 0x61, 0x62, 0x61, 0x5f, 0x61, 0x62, 0x61]
    let needle : Needle := ⟨[0x61, 0x62, 0x61]⟩
    FindsInside (find? needle) ∧ findAll needle text = [⟨0, 3⟩, ⟨6, 9⟩] ∧
      Tiles text (findAll needle text) ∧
      (∃ n ≤ 10, Search.EndsAfter (find? needle) text n ⟨0, []⟩ [⟨0, 3⟩, ⟨6, 9⟩]) ∧
      ∃ shown ∈ findAll needle text, shown.start < 2 ∧ shown.Overlaps ⟨2, 5⟩ := by
  intro text needle
  have hfind : FindsInside (find? needle) := needle.findsInside
  have hall : findAll needle text = [⟨0, 3⟩, ⟨6, 9⟩] := by decide +kernel
  obtain ⟨hends, htiles⟩ := findAll_places.1 needle hfind text
  obtain ⟨-, -, hrest⟩ := findAll_places.2.1 needle text (by decide)
  rw [hall] at hends
  refine ⟨hfind, hall, htiles, hends, hrest ⟨2, 5⟩ ⟨[0x61, 0x62], [0x5f, 0x61, 0x62, 0x61], ?_⟩ ?_⟩
  · exact ⟨rfl, rfl⟩
  · rw [hall]
    decide

end Verifier

end LiteralSieve
