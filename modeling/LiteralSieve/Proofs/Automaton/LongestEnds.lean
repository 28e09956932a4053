import LiteralSieve.Automaton.Links
import LiteralSieve.Proofs.Automaton.TrieShape

namespace LiteralSieve

/-!
# Longest ends of a text

Texts are kept like words, with the letter read last in front, so an end of a text is a prefix of
the list. The state for a text is that of its longest end in the trie. One letter further, the new
state depends on the old one alone, and the links suffice to find it.
-/

theorem prefix_dropLast_iff {α : Type*} {xs ys : List α} :
    xs <+: ys.dropLast ↔ xs <+: ys ∧ xs.length ≤ ys.length - 1 := by
  rw [List.dropLast_eq_take, List.prefix_take_iff]

namespace Trie

/-- The state stands for the longest end of the text that is in the trie. -/
structure Longest (trie : Trie) (past : Bytes) (s : StateId) : Prop where
  lt_size : s < trie.size
  isPrefix : trie.word s <+: past
  depth_le : ∀ t < trie.size, trie.word t <+: past → trie.depth t ≤ trie.depth s

/-- The state is a key. -/
def IsKey (trie : Trie) (s : StateId) : Prop := (trie.terminal? s).isSome

/-- The state of the longest end of the text that is a key, if there is one. -/
def LongestKey (trie : Trie) (past : Bytes) : Option StateId → Prop
  | none => ∀ t < trie.size, trie.IsKey t → ¬ trie.word t <+: past
  | some s => s < trie.size ∧ trie.IsKey s ∧ trie.word s <+: past ∧
      ∀ t < trie.size, trie.IsKey t → trie.word t <+: past → trie.depth t ≤ trie.depth s

/-- Link and output of a state are the longest proper ends of its word, in the trie and among the
keys. -/
structure LinkedAt (trie : Trie) (s : StateId) : Prop where
  fail_root : s = root → trie.fail? s = none
  fail : s ≠ root → ∃ f, trie.fail? s = some f ∧ trie.Longest (trie.word s).dropLast f
  output_root : s = root → trie.output? s = none
  output : s ≠ root → trie.LongestKey (trie.word s).dropLast (trie.output? s)

def Linked (trie : Trie) : Prop := ∀ s < trie.size, trie.LinkedAt s

section Longest

variable {trie : Trie} {past : Bytes} {s t : Nat} {letter : UInt8}

theorem longest_self (hs : s < trie.size) : trie.Longest (trie.word s) s where
  lt_size := hs
  isPrefix := List.prefix_rfl
  depth_le := fun _ _ hpre => hpre.length_le

theorem longest_nil (h : trie.WellFormed) : trie.Longest [] root where
  lt_size := h.root_lt
  isPrefix := by simp [h.word_root]
  depth_le := fun _ _ hpre => by simp [depth_eq, List.prefix_nil.mp hpre]

theorem Longest.prefix_word (h : trie.Longest past s) (ht : t < trie.size)
    (hpre : trie.word t <+: past) : trie.word t <+: trie.word s :=
  List.prefix_of_prefix_length_le hpre h.isPrefix (h.depth_le t ht hpre)

/-- One letter further, only the state for the text before matters. -/
theorem Longest.cons (hwf : trie.WellFormed) (h : trie.Longest past s)
    (ht : trie.Longest (letter :: trie.word s) t) : trie.Longest (letter :: past) t where
  lt_size := ht.lt_size
  isPrefix := ht.isPrefix.trans (List.cons_prefix_cons.mpr ⟨rfl, h.isPrefix⟩)
  depth_le := by
    intro u hu hpre
    cases hword : trie.word u with
    | nil => simp [depth_eq, hword]
    | cons l w =>
        rw [hword] at hpre
        obtain ⟨rfl, hw⟩ := List.cons_prefix_cons.mp hpre
        obtain ⟨r, hr, rfl⟩ := hwf.exists_of_word_eq_cons hu hword
        apply ht.depth_le u hu
        rw [hword]
        exact List.cons_prefix_cons.mpr ⟨rfl, h.prefix_word hr hw⟩

/-- Where the whole text is not in the trie, its proper ends are all there is. -/
theorem Longest.of_dropLast (h : trie.Longest past.dropLast s)
    (hnone : ∀ t < trie.size, trie.word t ≠ past) : trie.Longest past s where
  lt_size := h.lt_size
  isPrefix := (prefix_dropLast_iff.mp h.isPrefix).1
  depth_le := by
    intro t ht hpre
    have hlt : (trie.word t).length < past.length :=
      lt_of_le_of_ne hpre.length_le fun e => hnone t ht (hpre.eq_of_length e)
    exact h.depth_le t ht (prefix_dropLast_iff.mpr ⟨hpre, by omega⟩)

/-- A proper end in the trie is shorter than the word. -/
theorem Longest.depth_lt (hwf : trie.WellFormed) (hs : s < trie.size) (hroot : s ≠ root)
    (h : trie.Longest (trie.word s).dropLast t) : trie.depth t < trie.depth s := by
  have hpos := List.length_pos_iff.mpr (hwf.word_ne_nil hs hroot)
  have hle := (prefix_dropLast_iff.mp h.isPrefix).2
  simp only [depth_eq]
  omega

theorem Longest.longestKey (h : trie.Longest past s) {key : Option StateId}
    (hkey : trie.LongestKey (trie.word s) key) : trie.LongestKey past key := by
  cases key with
  | none => exact fun t ht hk hpre => hkey t ht hk (h.prefix_word ht hpre)
  | some o =>
      obtain ⟨ho, hk, hpre, hmax⟩ := hkey
      exact ⟨ho, hk, hpre.trans h.isPrefix,
        fun t ht hkt ht' => hmax t ht hkt (h.prefix_word ht ht')⟩

theorem LinkedAt.nearestKey (hwf : trie.WellFormed) (hs : s < trie.size)
    (h : trie.LinkedAt s) : trie.LongestKey (trie.word s) (trie.nearestKey s) := by
  by_cases hkey : (trie.terminal? s).isSome
  · rw [Trie.nearestKey, if_pos hkey]
    exact ⟨hs, hkey, List.prefix_rfl, fun t _ _ hpre => hpre.length_le⟩
  · rw [Trie.nearestKey, if_neg hkey]
    have hshort : ∀ t < trie.size, trie.IsKey t → trie.word t <+: trie.word s →
        (trie.word t).length < (trie.word s).length := by
      intro t ht hk hpre
      refine lt_of_le_of_ne hpre.length_le fun e => hkey ?_
      rwa [← hwf.word_inj ht hs (hpre.eq_of_length e)]
    by_cases hroot : s = root
    · rw [h.output_root hroot]
      intro t ht hk hpre
      have hlt := hshort t ht hk hpre
      simp [hroot, hwf.word_root] at hlt
    · have houtput := h.output hroot
      cases ho : trie.output? s with
      | none =>
          rw [ho] at houtput
          intro t ht hk hpre
          have hlt := hshort t ht hk hpre
          exact houtput t ht hk (prefix_dropLast_iff.mpr ⟨hpre, by omega⟩)
      | some o =>
          rw [ho] at houtput
          obtain ⟨hlt, hk, hpre, hmax⟩ := houtput
          refine ⟨hlt, hk, (prefix_dropLast_iff.mp hpre).1, fun t ht hkt ht' => ?_⟩
          have hlt := hshort t ht hkt ht'
          exact hmax t ht hkt (prefix_dropLast_iff.mpr ⟨ht', by omega⟩)

/-- Following links from a state finds the state after a letter, if all states up to its length
have their links. -/
theorem follow_longest (hwf : trie.WellFormed) (hs : s < trie.size)
    (hlinked : ∀ t < trie.size, trie.depth t ≤ trie.depth s → trie.LinkedAt t) {fuel : Nat}
    (hfuel : trie.depth s < fuel) :
    trie.Longest (letter :: trie.word s) (trie.follow letter fuel s) := by
  induction fuel generalizing s with
  | zero => omega
  | succ fuel ih =>
      cases hchild : trie.child? s letter with
      | some next =>
          obtain ⟨hlt, hword⟩ := (hwf.child?_eq_some_iff hs).mp hchild
          rw [follow, hchild, ← hword]
          exact longest_self hlt
      | none =>
          have hnone := (hwf.child?_eq_none_iff hs).mp hchild
          by_cases hroot : s = root
          · simp only [follow, hchild, (hlinked s hs le_rfl).fail_root hroot]
            rw [hroot, hwf.word_root] at hnone ⊢
            exact Longest.of_dropLast (by simpa using longest_nil hwf) hnone
          · obtain ⟨f, hf, hlongest⟩ := (hlinked s hs le_rfl).fail hroot
            have hdepth := hlongest.depth_lt hwf hs hroot
            have hnext := ih hlongest.lt_size
              (fun t ht hle => hlinked t ht (hle.trans hdepth.le)) (by omega)
            simp only [follow, hchild, hf]
            refine Longest.of_dropLast ?_ hnone
            rw [List.dropLast_cons_of_ne_nil (hwf.word_ne_nil hs hroot)]
            exact hlongest.cons hwf hnext

/-- A child's link is found from that of its parent. -/
theorem childFail_longest (hwf : trie.WellFormed) (hs : s < trie.size)
    (hlinked : ∀ t < trie.size, trie.depth t ≤ trie.depth s → trie.LinkedAt t) :
    trie.Longest (letter :: trie.word s).dropLast (trie.childFail s letter) := by
  by_cases hroot : s = root
  · simp only [childFail, (hlinked s hs le_rfl).fail_root hroot]
    rw [hroot, hwf.word_root]
    exact longest_nil hwf
  · obtain ⟨f, hf, hlongest⟩ := (hlinked s hs le_rfl).fail hroot
    have hdepth := hlongest.depth_lt hwf hs hroot
    have hnext : trie.Longest (letter :: trie.word f) (trie.next f letter) :=
      follow_longest hwf hlongest.lt_size
        (fun t ht hle => hlinked t ht (hle.trans hdepth.le)) (Nat.lt_succ_self _)
    simp only [childFail, hf]
    rw [List.dropLast_cons_of_ne_nil (hwf.word_ne_nil hs hroot)]
    exact hlongest.cons hwf hnext

end Longest

end Trie

end LiteralSieve
