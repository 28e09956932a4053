import LiteralSieve.Automaton.Trie
import Mathlib

namespace LiteralSieve

/-!
# The shape of a trie

A trie stands for a set of words: one state for each of them, with the rest of a word wherever the
word is. Children are what the words say they are. Adding a word keeps this shape, the words of the
states that were there, and their terminals.
-/

namespace TrieState

/-- A list of children in ascending order of their letters, which therefore differ. -/
def Ascending (children : List (UInt8 × StateId)) : Prop :=
  (children.map Prod.fst).Pairwise (· < ·)

theorem mem_insertChild {letter : UInt8} {next : StateId} {children : List (UInt8 × StateId)}
    {edge : UInt8 × StateId} :
    edge ∈ insertChild letter next children ↔ edge = (letter, next) ∨ edge ∈ children := by
  induction children with
  | nil => simp [insertChild]
  | cons head rest ih =>
      obtain ⟨other, id⟩ := head
      by_cases h : other < letter
      · simp only [insertChild, if_pos h, List.mem_cons, ih]
        tauto
      · simp [insertChild, h]

theorem Ascending.insertChild {letter : UInt8} {next : StateId}
    {children : List (UInt8 × StateId)} (h : Ascending children)
    (hnew : ∀ t, (letter, t) ∉ children) : Ascending (insertChild letter next children) := by
  induction children with
  | nil => simp [Ascending, TrieState.insertChild]
  | cons head rest ih =>
      obtain ⟨other, id⟩ := head
      have hhead := List.pairwise_cons.mp h
      have hne : other ≠ letter := fun e => hnew id (by simp [e])
      by_cases hlt : other < letter
      · simp only [TrieState.insertChild, if_pos hlt]
        refine List.pairwise_cons.mpr ⟨?_, ih hhead.2 fun t ht => hnew t (by simp [ht])⟩
        intro l hl
        obtain ⟨edge, hedge, rfl⟩ := List.mem_map.mp hl
        rcases mem_insertChild.mp hedge with rfl | hmem
        · exact hlt
        · exact hhead.1 edge.1 (List.mem_map.mpr ⟨edge, hmem, rfl⟩)
      · have hgt : letter < other := UInt8.lt_of_le_of_ne (UInt8.not_lt.mp hlt) hne.symm
        simp only [TrieState.insertChild, if_neg hlt]
        refine List.pairwise_cons.mpr ⟨?_, h⟩
        intro l hl
        rcases List.mem_cons.mp hl with rfl | hl
        · exact hgt
        · exact UInt8.lt_trans hgt (hhead.1 l hl)

theorem Ascending.lookup_eq_some_iff {children : List (UInt8 × StateId)} (h : Ascending children)
    {letter : UInt8} {t : StateId} :
    children.lookup letter = some t ↔ (letter, t) ∈ children := by
  induction children with
  | nil => simp
  | cons head rest ih =>
      obtain ⟨other, id⟩ := head
      have hhead := List.pairwise_cons.mp h
      by_cases he : letter = other
      · subst he
        have hrest : ∀ t, (letter, t) ∉ rest := fun t ht =>
          UInt8.lt_irrefl _ (hhead.1 letter (List.mem_map.mpr ⟨(letter, t), ht, rfl⟩))
        simp [hrest, eq_comm]
      · simp [List.lookup_cons, beq_false_of_ne he, he, ih hhead.2]

end TrieState

namespace Trie

structure WellFormed (trie : Trie) : Prop where
  root_lt : root < trie.size
  word_root : trie.word root = []
  word_inj : ∀ {s t}, s < trie.size → t < trie.size → trie.word s = trie.word t → s = t
  /-- A word without its last letter is a word too, of a state that came before. -/
  parent : ∀ {t}, t < trie.size → t ≠ root → ∃ s < t, ∃ letter, trie.word t = letter :: trie.word s
  ascending : ∀ {s : Nat} {state : TrieState}, trie[s]? = some state →
    TrieState.Ascending state.children
  mem_children : ∀ {s : Nat} {state : TrieState} {letter : UInt8} {t : Nat}, trie[s]? = some state →
    ((letter, t) ∈ state.children ↔ t < trie.size ∧ trie.word t = letter :: trie.word s)

theorem word_eq {trie : Trie} {s : Nat} {state : TrieState} (h : trie[s]? = some state) :
    trie.word s = state.word := by
  simp [word, h]

theorem depth_eq (trie : Trie) (s : StateId) : trie.depth s = (trie.word s).length := rfl

namespace WellFormed

variable {trie : Trie} {s t : Nat} {letter : UInt8}

theorem child?_eq_some_iff (h : trie.WellFormed) (hs : s < trie.size) :
    trie.child? s letter = some t ↔ t < trie.size ∧ trie.word t = letter :: trie.word s := by
  have hget : trie[s]? = some trie[s] := Array.getElem?_eq_getElem hs
  have hmem : (letter, t) ∈ trie[s].children ↔ _ := h.mem_children hget
  rw [← hmem, ← (h.ascending hget).lookup_eq_some_iff]
  simp [child?, hget, TrieState.child?]

theorem child?_eq_none_iff (h : trie.WellFormed) (hs : s < trie.size) :
    trie.child? s letter = none ↔ ∀ t < trie.size, trie.word t ≠ letter :: trie.word s := by
  rw [Option.eq_none_iff_forall_ne_some]
  constructor
  · intro hnone t ht hword
    exact hnone t ((h.child?_eq_some_iff hs).mpr ⟨ht, hword⟩)
  · intro hnone t ht
    obtain ⟨hlt, hword⟩ := (h.child?_eq_some_iff hs).mp ht
    exact hnone t hlt hword

theorem eq_root (h : trie.WellFormed) (hs : s < trie.size) (hword : trie.word s = []) :
    s = root :=
  h.word_inj hs h.root_lt (hword.trans h.word_root.symm)

theorem word_ne_nil (h : trie.WellFormed) (hs : s < trie.size) (hroot : s ≠ root) :
    trie.word s ≠ [] := fun e => hroot (h.eq_root hs e)

/-- States are numbered as they come, and a state needs all that lead to it. -/
theorem depth_le (h : trie.WellFormed) (hs : s < trie.size) : trie.depth s ≤ s := by
  induction s using Nat.strong_induction_on with
  | _ s ih =>
    by_cases hroot : s = root
    · subst hroot
      simp [depth, h.word_root]
    · obtain ⟨r, hr, letter, hword⟩ := h.parent hs hroot
      have hdepth := ih r hr (hr.trans hs)
      simp only [depth_eq, hword, List.length_cons] at hdepth ⊢
      omega

/-- The words are closed under taking off the last letter. -/
theorem exists_of_word_eq_cons (h : trie.WellFormed) (hs : s < trie.size) {w : Bytes}
    (hword : trie.word s = letter :: w) : ∃ r < trie.size, trie.word r = w := by
  have hroot : s ≠ root := by
    rintro rfl
    simp [h.word_root] at hword
  obtain ⟨r, hr, other, hother⟩ := h.parent hs hroot
  rw [hword] at hother
  exact ⟨r, hr.trans hs, (List.cons.inj hother).2.symm⟩

end WellFormed

theorem wellFormed_start : start.WellFormed where
  root_lt := by decide
  word_root := rfl
  word_inj := by
    intro s t hs ht _
    simp only [start, List.size_toArray, List.length_cons, List.length_nil] at hs ht
    omega
  parent := by
    intro t ht hroot
    simp only [start, List.size_toArray, List.length_cons, List.length_nil] at ht
    exact (hroot (by simp [root]; omega)).elim
  ascending := by
    intro s state hget
    have hmem := Array.mem_of_getElem? hget
    simp only [start, List.mem_toArray, List.mem_singleton] at hmem
    simp [hmem, TrieState.leaf, TrieState.Ascending]
  mem_children := by
    intro s state letter t hget
    have hmem := Array.mem_of_getElem? hget
    simp only [start, List.mem_toArray, List.mem_singleton] at hmem
    have hone : ∀ t < start.size, start.word t = [] := by
      intro t ht
      simp only [start, List.size_toArray, List.length_cons, List.length_nil] at ht
      have : t = 0 := by omega
      subst this
      rfl
    constructor
    · intro h
      simp [hmem, TrieState.leaf] at h
    · rintro ⟨ht, hword⟩
      simp [hone t ht] at hword

/-! ## Changing links and terminals -/

end Trie

namespace TrieState

/-- What says which words there are. -/
def shape (state : TrieState) : TrieState := .mk state.word state.children none none none

end TrieState

namespace Trie

/-- The tries have the same words with the same children. -/
def SameShape (old new : Trie) : Prop := new.map TrieState.shape = old.map TrieState.shape

theorem sameShape_modify (trie : Trie) (s : StateId) {f : TrieState → TrieState}
    (hf : ∀ state, (f state).shape = state.shape) : SameShape trie (trie.modify s f) := by
  refine Array.ext_getElem? fun i => ?_
  rw [Array.getElem?_map, Array.getElem?_map, Array.getElem?_modify]
  split_ifs with h
  · rw [Option.map_map, show TrieState.shape ∘ f = TrieState.shape from funext hf]
  · rfl

theorem terminal?_setTerminal {trie : Trie} {s : Nat} (hs : s < trie.size) (id r : Nat) :
    (trie.setTerminal s id).terminal? r = if r = s then some id else trie.terminal? r := by
  rw [terminal?, setTerminal, Array.getElem?_modify]
  by_cases hr : r = s
  · rw [hr, if_pos rfl, if_pos rfl, Array.getElem?_eq_getElem hs]
    rfl
  · rw [if_neg (Ne.symm hr), if_neg hr, terminal?]

namespace SameShape

variable {old new : Trie} {s : Nat}

theorem size_eq (h : SameShape old new) : new.size = old.size := by
  simpa using congrArg Array.size h

theorem shape_eq (h : SameShape old new) (s : Nat) :
    (new[s]?).map TrieState.shape = (old[s]?).map TrieState.shape := by
  rw [← Array.getElem?_map, ← Array.getElem?_map, h]

theorem word_eq (h : SameShape old new) : new.word s = old.word s := by
  have hs := congrArg (Option.map TrieState.word) (h.shape_eq s)
  simp only [Option.map_map] at hs
  exact congrArg (Option.getD · []) hs

theorem depth_eq (h : SameShape old new) : new.depth s = old.depth s :=
  congrArg List.length h.word_eq

/-- A state of one trie is one of the other, with the same children. -/
theorem exists_old (h : SameShape old new) {state : TrieState} (hget : new[s]? = some state) :
    ∃ before, old[s]? = some before ∧ before.children = state.children := by
  have hs := h.shape_eq s
  rw [hget, Option.map_some] at hs
  obtain ⟨before, hbefore, hshape⟩ := Option.map_eq_some_iff.mp hs.symm
  exact ⟨before, hbefore, (congrArg TrieState.children hshape :)⟩

theorem wellFormed (h : SameShape old new) (hwf : old.WellFormed) : new.WellFormed where
  root_lt := h.size_eq ▸ hwf.root_lt
  word_root := h.word_eq.trans hwf.word_root
  word_inj := by
    intro a b ha hb hword
    rw [h.size_eq] at ha hb
    rw [h.word_eq, h.word_eq] at hword
    exact hwf.word_inj ha hb hword
  parent := by
    intro t ht hroot
    rw [h.size_eq] at ht
    simpa only [h.word_eq] using hwf.parent ht hroot
  ascending := by
    intro s state hget
    obtain ⟨before, hbefore, hchildren⟩ := h.exists_old hget
    exact hchildren ▸ hwf.ascending hbefore
  mem_children := by
    intro s state letter t hget
    obtain ⟨before, hbefore, hchildren⟩ := h.exists_old hget
    rw [← hchildren, hwf.mem_children hbefore, h.size_eq, h.word_eq, h.word_eq]

end SameShape

/-! ## Adding words -/

/-- What adding words keeps: the words of the states that were there, and all terminals. -/
structure Grows (old new : Trie) : Prop where
  size_le : old.size ≤ new.size
  word_eq : ∀ {s}, s < old.size → new.word s = old.word s
  terminal_eq : ∀ s, new.terminal? s = old.terminal? s

theorem Grows.refl (trie : Trie) : Grows trie trie := ⟨le_rfl, fun _ => rfl, fun _ => rfl⟩

theorem Grows.trans {a b c : Trie} (hab : Grows a b) (hbc : Grows b c) : Grows a c where
  size_le := hab.size_le.trans hbc.size_le
  word_eq := fun hs => (hbc.word_eq (hs.trans_le hab.size_le)).trans (hab.word_eq hs)
  terminal_eq := fun s => (hbc.terminal_eq s).trans (hab.terminal_eq s)

def grow (trie : Trie) (s : Nat) (letter : UInt8) : Trie :=
  (trie.modify s (·.addChild letter trie.size)).push (.leaf (letter :: trie.word s))

section Grow

variable {trie : Trie} {s : Nat} {letter : UInt8}

theorem size_grow : (trie.grow s letter).size = trie.size + 1 := by
  simp [grow]

theorem getElem?_grow (r : Nat) :
    (trie.grow s letter)[r]? =
      if r = trie.size then some (.leaf (letter :: trie.word s))
      else if s = r then trie[r]?.map (·.addChild letter trie.size)
      else trie[r]? := by
  simp [grow, Array.getElem?_push, Array.getElem?_modify]

theorem word_grow (r : Nat) :
    (trie.grow s letter).word r =
      if r = trie.size then letter :: trie.word s else trie.word r := by
  rw [word, getElem?_grow]
  by_cases hr : r = trie.size
  · simp [hr, TrieState.leaf]
  · by_cases hs : s = r
    · subst hs
      simp only [hr, if_false, if_true, Option.map_map]
      rfl
    · simp [hr, hs, word]

theorem grows_grow : Grows trie (trie.grow s letter) where
  size_le := by simp [size_grow]
  word_eq := fun hr => by rw [word_grow, if_neg hr.ne]
  terminal_eq := by
    intro r
    rw [terminal?, terminal?, getElem?_grow]
    by_cases hr : r = trie.size
    · simp [hr, TrieState.leaf]
    · by_cases he : s = r
      · subst he
        cases h : trie[s]? <;> simp [hr, TrieState.addChild]
      · simp [hr, he]

/-- A state of the trie with one more state is the new one, or was there before with the same edges
but for the one to the new state. -/
theorem eq_leaf_or_exists_old {r : Nat} {state : TrieState}
    (hget : (trie.grow s letter)[r]? = some state) :
    r = trie.size ∧ state = .leaf (letter :: trie.word s) ∨
      r < trie.size ∧ ∃ old, trie[r]? = some old ∧ ∀ edge, edge ∈ state.children ↔
        (r = s ∧ edge = (letter, trie.size)) ∨ edge ∈ old.children := by
  rw [getElem?_grow] at hget
  split_ifs at hget with hnew hparent
  · exact Or.inl ⟨hnew, (Option.some.inj hget).symm⟩
  · obtain ⟨old, hold, rfl⟩ := Option.map_eq_some_iff.mp hget
    refine Or.inr ⟨(Array.getElem?_eq_some_iff.mp hold).1, old, hold, fun edge => ?_⟩
    rw [TrieState.addChild, TrieState.mem_insertChild, and_iff_right hparent.symm]
  · refine Or.inr ⟨(Array.getElem?_eq_some_iff.mp hget).1, state, hget, fun edge => ?_⟩
    simp [Ne.symm hparent]

theorem WellFormed.word_inj_grow (h : trie.WellFormed) (hs : s < trie.size)
    (hnone : trie.child? s letter = none) {a b : Nat} (ha : a < (trie.grow s letter).size)
    (hb : b < (trie.grow s letter).size)
    (hword : (trie.grow s letter).word a = (trie.grow s letter).word b) : a = b := by
  have hfresh := (h.child?_eq_none_iff hs).mp hnone
  rw [size_grow] at ha hb
  rw [word_grow, word_grow] at hword
  split_ifs at hword with h₁ h₂ h₂
  · omega
  · exact (hfresh b (by omega) hword.symm).elim
  · exact (hfresh a (by omega) hword).elim
  · exact h.word_inj (by omega) (by omega) hword

theorem WellFormed.mem_children_grow (h : trie.WellFormed) (hs : s < trie.size)
    (hnone : trie.child? s letter = none) {r t : Nat} {state : TrieState} {l : UInt8}
    (hget : (trie.grow s letter)[r]? = some state) :
    (l, t) ∈ state.children ↔
      t < (trie.grow s letter).size ∧
        (trie.grow s letter).word t = l :: (trie.grow s letter).word r := by
  rw [size_grow, word_grow, word_grow]
  rcases eq_leaf_or_exists_old hget with ⟨hr, rfl⟩ | ⟨hr, old, hold, hedges⟩
  · -- A child of the new state would have a word that continues the new one.
    rw [if_pos hr]
    refine iff_of_false List.not_mem_nil ?_
    rintro ⟨ht, hword⟩
    split_ifs at hword with hnew
    · have hlength := congrArg List.length hword
      simp at hlength
    · obtain ⟨p, hp, hpword⟩ := h.exists_of_word_eq_cons (by omega) hword
      exact (h.child?_eq_none_iff hs).mp hnone p hp hpword
  · rw [hedges, h.mem_children hold, if_neg hr.ne]
    by_cases hnew : t = trie.size
    · rw [if_pos hnew, hnew]
      constructor
      · rintro (⟨rfl, hedge⟩ | ⟨hlt, -⟩)
        · rw [(Prod.mk.inj hedge).1]
          exact ⟨Nat.lt_succ_self _, rfl⟩
        · exact (lt_irrefl _ hlt).elim
      · rintro ⟨-, hword⟩
        obtain ⟨rfl, hsame⟩ := List.cons.inj hword
        exact Or.inl ⟨h.word_inj hr hs hsame.symm, rfl⟩
    · rw [if_neg hnew]
      constructor
      · rintro (⟨-, hedge⟩ | ⟨hlt, hword⟩)
        · exact (hnew (Prod.mk.inj hedge).2).elim
        · exact ⟨by omega, hword⟩
      · rintro ⟨hlt, hword⟩
        exact Or.inr ⟨by omega, hword⟩

theorem WellFormed.ascending_grow (h : trie.WellFormed) (hs : s < trie.size)
    (hnone : trie.child? s letter = none) {r : Nat} {state : TrieState}
    (hget : (trie.grow s letter)[r]? = some state) : TrieState.Ascending state.children := by
  rw [getElem?_grow] at hget
  split_ifs at hget with hnew hparent
  · obtain rfl := Option.some.inj hget
    exact .nil
  · obtain ⟨old, hold, rfl⟩ := Option.map_eq_some_iff.mp hget
    subst hparent
    apply (h.ascending hold).insertChild
    intro t ht
    have hmem := (h.mem_children hold).mp ht
    exact (h.child?_eq_none_iff hs).mp hnone t hmem.1 hmem.2
  · exact h.ascending hget

theorem WellFormed.grow (h : trie.WellFormed) (hs : s < trie.size)
    (hnone : trie.child? s letter = none) : (trie.grow s letter).WellFormed where
  root_lt := by simpa [size_grow] using h.root_lt.le
  word_root := by rw [word_grow, if_neg (by exact h.root_lt.ne), h.word_root]
  word_inj := h.word_inj_grow hs hnone
  parent := by
    intro t ht hroot
    rw [size_grow] at ht
    by_cases hnew : t = trie.size
    · refine ⟨s, by omega, letter, ?_⟩
      rw [word_grow, word_grow, if_pos hnew, if_neg hs.ne]
    · obtain ⟨r, hr, l, hword⟩ := h.parent (by omega) hroot
      refine ⟨r, hr, l, ?_⟩
      rw [word_grow, word_grow, if_neg hnew, if_neg (by omega), hword]
  ascending := h.ascending_grow hs hnone
  mem_children := h.mem_children_grow hs hnone

theorem WellFormed.extend_spec (h : trie.WellFormed) (hs : s < trie.size) (letter : UInt8) :
    (trie.extend s letter).1.WellFormed ∧ Grows trie (trie.extend s letter).1 ∧
      (trie.extend s letter).2 < (trie.extend s letter).1.size ∧
        (trie.extend s letter).1.word (trie.extend s letter).2 = letter :: trie.word s := by
  cases hchild : trie.child? s letter with
  | some next =>
      obtain ⟨hlt, hword⟩ := (h.child?_eq_some_iff hs).mp hchild
      simp only [extend, hchild]
      exact ⟨h, Grows.refl trie, hlt, hword⟩
  | none =>
      simp only [extend, hchild]
      exact ⟨h.grow hs hchild, grows_grow, by simp, (word_grow trie.size).trans (if_pos rfl)⟩

end Grow

/-- A word is added to the front of the word of the state that it starts from, as words are kept
with the last letter first. -/
theorem WellFormed.insert_spec {trie : Trie} (h : trie.WellFormed) {s : Nat} (hs : s < trie.size)
    (letters : Bytes) :
    (trie.insert s letters).1.WellFormed ∧ Grows trie (trie.insert s letters).1 ∧
      (trie.insert s letters).2 < (trie.insert s letters).1.size ∧
        (trie.insert s letters).1.word (trie.insert s letters).2 =
          letters.reverse ++ trie.word s := by
  induction letters generalizing trie s with
  | nil => exact ⟨h, Grows.refl trie, hs, by simp [insert]⟩
  | cons letter rest ih =>
      obtain ⟨hwf, hgrows, hlt, hword⟩ := h.extend_spec hs letter
      obtain ⟨hwf', hgrows', hlt', hword'⟩ := ih hwf hlt
      refine ⟨hwf', hgrows.trans hgrows', hlt', ?_⟩
      simpa [insert, hword] using hword'

end Trie

end LiteralSieve
