import LiteralSieve.Proofs.Automaton.Linking

namespace LiteralSieve

/-!
# The table of a trie

A row of the table tells for every letter the state of the longest end of the word with that letter.
It is the row of the state's link, but for the letters that lead to a child.
-/

namespace Trie

/-- The table has a row of 256 states for a state, and they are the right ones. -/
def RowAt (trie : Trie) (moves : Array (Array StateId)) (s : StateId) : Prop :=
  ∃ row, moves[s]? = some row ∧ row.size = 256 ∧
    ∀ letter : UInt8, ∃ t, row[letter.toNat]? = some t ∧ trie.Longest (letter :: trie.word s) t

def Tabled (trie : Trie) (moves : Array (Array StateId)) : Prop :=
  moves.size = trie.size ∧ ∀ s < trie.size, trie.RowAt moves s

def overrideRow (children : List (UInt8 × StateId)) (base : Array StateId) : Array StateId :=
  children.foldl (fun row (letter, child) => row.setIfInBounds letter.toNat child) base

theorem size_overrideRow (children : List (UInt8 × StateId)) (base : Array StateId) :
    (overrideRow children base).size = base.size := by
  induction children generalizing base with
  | nil => rfl
  | cons edge children ih =>
      rw [overrideRow, List.foldl_cons, ← overrideRow, ih, Array.size_setIfInBounds]

theorem getElem?_overrideRow {children : List (UInt8 × StateId)}
    (h : TrieState.Ascending children) {base : Array StateId} (hsize : base.size = 256)
    {letter : UInt8} {t : StateId} (hbase : base[letter.toNat]? = some t) :
    (overrideRow children base)[letter.toNat]? = some ((children.lookup letter).getD t) := by
  induction children generalizing base t with
  | nil => exact hbase
  | cons edge children ih =>
      obtain ⟨other, child⟩ := edge
      have hhead := List.pairwise_cons.mp h
      have hset : (base.setIfInBounds other.toNat child)[letter.toNat]? =
          some (if letter = other then child else t) := by
        by_cases he : letter = other
        · subst he
          have hlt : letter.toNat < 256 := letter.toNat_lt
          simp [hsize, hlt]
        · have hne : other.toNat ≠ letter.toNat := fun e => he (UInt8.toNat_inj.mp e).symm
          rw [Array.getElem?_setIfInBounds_ne hne, hbase, if_neg he]
      rw [overrideRow, List.foldl_cons, ← overrideRow,
        ih hhead.2 (by simpa using hsize) hset]
      by_cases he : letter = other
      · subst he
        have hnone : children.lookup letter = none := by
          rw [Option.eq_none_iff_forall_ne_some]
          intro u hu
          have hmem := (TrieState.Ascending.lookup_eq_some_iff hhead.2).mp hu
          exact UInt8.lt_irrefl _ (hhead.1 letter (List.mem_map.mpr ⟨(letter, u), hmem, rfl⟩))
        simp [hnone]
      · simp [List.lookup_cons, beq_false_of_ne he, he]

section Rows

variable {trie : Trie} {moves : Array (Array StateId)} {s : Nat}

/-- The row that a state starts from is right for all letters that lead to no child. -/
def BaseRow (trie : Trie) (s : StateId) (base : Array StateId) : Prop :=
  base.size = 256 ∧ ∀ letter : UInt8, ∃ t, base[letter.toNat]? = some t ∧
    trie.Longest (letter :: trie.word s).dropLast t

theorem baseRow_root (hwf : trie.WellFormed) : trie.BaseRow root rootRow := by
  refine ⟨by simp [rootRow], fun letter => ⟨root, ?_, ?_⟩⟩
  · have hlt : letter.toNat < 256 := letter.toNat_lt
    simp [rootRow, hlt]
  · rw [hwf.word_root]
    exact longest_nil hwf

theorem RowAt.baseRow (hwf : trie.WellFormed) (hs : s < trie.size) (hroot : s ≠ root) {f : Nat}
    (hf : trie.Longest (trie.word s).dropLast f) {row : Array StateId}
    (hrow : trie.RowAt moves f) (hget : moves[f]? = some row) : trie.BaseRow s row := by
  obtain ⟨found, hfound, hsize, hright⟩ := hrow
  obtain rfl := Option.some.inj (hfound.symm.trans hget)
  refine ⟨hsize, fun letter => ?_⟩
  obtain ⟨t, ht, hlongest⟩ := hright letter
  refine ⟨t, ht, ?_⟩
  rw [List.dropLast_cons_of_ne_nil (hwf.word_ne_nil hs hroot)]
  exact hf.cons hwf hlongest

theorem BaseRow.overrideRow (hwf : trie.WellFormed) {base : Array StateId}
    (h : trie.BaseRow s base) {state : TrieState} (hget : trie[s]? = some state) (letter : UInt8) :
    ∃ t, (overrideRow state.children base)[letter.toNat]? = some t ∧
      trie.Longest (letter :: trie.word s) t := by
  have hs : s < trie.size := (Array.getElem?_eq_some_iff.mp hget).1
  obtain ⟨t, ht, hlongest⟩ := h.2 letter
  have hlookup := getElem?_overrideRow (hwf.ascending hget) h.1 ht
  have hchild : trie.child? s letter = state.children.lookup letter := by
    simp [child?, hget, TrieState.child?]
  refine ⟨_, hlookup, ?_⟩
  rw [← hchild]
  cases hc : trie.child? s letter with
  | some next =>
      obtain ⟨hlt, hword⟩ := (hwf.child?_eq_some_iff hs).mp hc
      rw [Option.getD_some, ← hword]
      exact longest_self hlt
  | none => exact hlongest.of_dropLast ((hwf.child?_eq_none_iff hs).mp hc)

/-- All states up to here have their rows. -/
def TabledThrough (trie : Trie) (moves : Array (Array StateId)) (done : List StateId) : Prop :=
  moves.size = trie.size ∧ ∀ s ∈ done, trie.RowAt moves s

theorem fillRow_spec (hwf : trie.WellFormed) (hlinked : trie.Linked) {done rest : List StateId}
    (horder : trie.BreadthFirst (done ++ s :: rest)) (hdone : trie.TabledThrough moves done) :
    ∃ new, trie.fillRow moves s = some new ∧ trie.TabledThrough new (done ++ [s]) := by
  have hs : s < trie.size := horder.lt_size s (by simp)
  have hget : trie[s]? = some trie[s] := Array.getElem?_eq_getElem hs
  obtain ⟨base, hright, hfill⟩ : ∃ base, trie.BaseRow s base ∧
      trie.fillRow moves s = some (moves.setIfInBounds s (overrideRow trie[s].children base)) := by
    by_cases hroot : s = root
    · refine ⟨rootRow, hroot ▸ baseRow_root hwf, ?_⟩
      simp only [fillRow, if_pos hroot, hget]
      rfl
    · obtain ⟨f, hf, hlongest⟩ := (hlinked s hs).fail hroot
      have hrow := hdone.2 f (horder.mem_before hlongest.lt_size
        (hlongest.depth_lt hwf hs hroot))
      obtain ⟨row, hat, -⟩ := id hrow
      refine ⟨row, hrow.baseRow hwf hs hroot hlongest hat, ?_⟩
      simp only [fillRow, if_neg hroot, hf, hget, Option.bind_eq_bind, Option.bind_some, hat]
      rfl
  let row := overrideRow trie[s].children base
  refine ⟨moves.setIfInBounds s row, hfill, by simpa using hdone.1, ?_⟩
  intro t ht
  by_cases hst : t = s
  · subst hst
    refine ⟨row, ?_, ?_, hright.overrideRow hwf hget⟩
    · rw [Array.getElem?_setIfInBounds_self, if_pos (hdone.1 ▸ hs)]
    · exact (size_overrideRow _ _).trans hright.1
  · have hmem : t ∈ done := by
      rcases List.mem_append.mp ht with hmem | hmem
      · exact hmem
      · exact (hst (List.mem_singleton.mp hmem)).elim
    obtain ⟨old, hold, hrest⟩ := hdone.2 t hmem
    exact ⟨old, by rw [Array.getElem?_setIfInBounds_ne (Ne.symm hst), hold], hrest⟩

theorem fillRows_spec (hwf : trie.WellFormed) (hlinked : trie.Linked) (order done : List StateId)
    (horder : trie.BreadthFirst (done ++ order)) (hdone : trie.TabledThrough moves done) :
    ∃ new, order.foldlM trie.fillRow moves = some new ∧
      trie.TabledThrough new (done ++ order) := by
  induction order generalizing moves done with
  | nil => exact ⟨moves, rfl, by simpa using hdone⟩
  | cons s order ih =>
      obtain ⟨mid, hmid, hthrough⟩ := fillRow_spec hwf hlinked horder hdone
      obtain ⟨new, hnew, hall⟩ := ih (done ++ [s]) (by simpa using horder) hthrough
      exact ⟨new, by rw [List.foldlM_cons, hmid]; exact hnew, by simpa using hall⟩

/-- A linked trie has its table. -/
theorem table_spec (hwf : trie.WellFormed) (hlinked : trie.Linked) :
    ∃ moves, trie.table = some moves ∧ trie.Tabled moves := by
  have hstart : trie.TabledThrough (Array.replicate trie.size rootRow) [] := by
    simp [TabledThrough]
  obtain ⟨moves, hmoves, hsize, hrows⟩ := fillRows_spec hwf hlinked trie.breadthFirst []
    (by simpa using hwf.breadthFirst) hstart
  exact ⟨moves, hmoves, hsize, fun s hs => hrows s (by simpa using hwf.breadthFirst.complete s hs)⟩

end Rows

end Trie

end LiteralSieve
