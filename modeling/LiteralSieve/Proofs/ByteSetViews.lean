import LiteralSieve.ByteSet
import Mathlib.Data.Set.Card

namespace LiteralSieve

/-!
# What is asked of a set of bytes

A set of bytes is asked for its members one by one, for all of them in ascending order, for their
number, and whether there is none, none beyond ASCII, or just one. The answers show a mathematical
set if they are right for it. Those of a set of bits show the set of all bytes that it says it
contains.
-/

/-- What can be asked of a set of bytes, with the answers. -/
structure SetView where
  contains : UInt8 → Bool
  toList : List UInt8
  size : Nat
  isEmpty : Bool
  isAscii : Bool
  single? : Option UInt8

/-- The answers are those for the set with these members. -/
structure SetView.Shows (view : SetView) (members : Set UInt8) : Prop where
  contains : ∀ b, view.contains b = true ↔ b ∈ members
  ascending : view.toList.Pairwise (· < ·)
  listed : ∀ b, b ∈ view.toList ↔ b ∈ members
  size : view.size = members.ncard
  isEmpty : view.isEmpty = true ↔ members = ∅
  isAscii : view.isAscii = true ↔ ∀ b ∈ members, b < 0x80
  single? : ∀ b, view.single? = some b ↔ members = {b}

theorem Byte.pairwise_all : Byte.all.Pairwise (· < ·) := by
  rw [Byte.all, List.pairwise_map]
  apply List.pairwise_lt_range.imp_of_mem
  intro i j hi hj hlt
  exact (UInt8.ofNat_lt_iff_lt (List.mem_range.mp hi) (List.mem_range.mp hj)).mpr hlt

namespace ByteSet

/-- Sets with the same members have the same bits. -/
theorem eq_of_contains {s t : ByteSet} (h : ∀ b, s.contains b = t.contains b) : s = t := by
  obtain ⟨s⟩ := s
  obtain ⟨t⟩ := t
  congr 1
  apply BitVec.eq_of_getLsbD_eq
  intro i hi
  exact (getLsbD_eq_contains ⟨s⟩ hi).trans ((h _).trans (getLsbD_eq_contains ⟨t⟩ hi).symm)

def view (s : ByteSet) : SetView :=
  ⟨s.contains, s.toList, s.size, s.isEmpty, s.isAscii, s.single?⟩

theorem cpopNatRec_eq_countP {w : Nat} (x : BitVec w) (n acc : Nat) :
    x.cpopNatRec n acc = acc + (List.range n).countP fun i => x.getLsbD i := by
  induction n generalizing acc with
  | zero => rfl
  | succ n ih =>
      rw [BitVec.cpopNatRec_succ, ih, List.range_succ, List.countP_append]
      cases hbit : x.getLsbD n <;> simp [hbit]
      omega

/-- The bits that are set are as many as the members. -/
theorem size_eq_length (s : ByteSet) : s.size = s.toList.length := by
  have hbits : ∀ i ∈ List.range 256, s.bits.getLsbD i = (s.contains ∘ UInt8.ofNat) i :=
    fun i hi => getLsbD_eq_contains s (List.mem_range.mp hi)
  calc
    s.size = (List.range 256).countP fun i => s.bits.getLsbD i := by
      rw [size, BitVec.toNat_cpop, cpopNatRec_eq_countP, Nat.zero_add]
    _ = (List.range 256).countP (s.contains ∘ UInt8.ofNat) := by
      apply List.countP_congr
      intro i hi
      rw [hbits i hi]
    _ = s.toList.length := by
      rw [← List.countP_map, List.countP_eq_length_filter]
      rfl

theorem isAscii_iff (s : ByteSet) : s.isAscii = true ↔ ∀ b, s.contains b = true → b < 0x80 := by
  rw [isAscii, beq_iff_eq]
  constructor
  · intro hclear b hb
    by_contra hlarge
    have hle : 128 ≤ b.toNat := UInt8.not_lt.mp hlarge
    have hbit := congrArg (fun x => x.getLsbD (b.toNat - 128)) hclear
    simp only [BitVec.getLsbD_ushiftRight, Nat.add_sub_cancel' hle] at hbit
    simp [contains, hbit] at hb
  · intro h
    apply BitVec.eq_of_getLsbD_eq
    intro i hi
    have hzero : (0 : BitVec 256).getLsbD i = false := BitVec.getLsbD_zero
    rw [BitVec.getLsbD_ushiftRight, hzero]
    by_cases hlt : 128 + i < 256
    · rw [getLsbD_eq_contains s hlt, Bool.eq_false_iff]
      intro hb
      have hsmall : (UInt8.ofNat (128 + i)).toNat < 128 := UInt8.lt_iff_toNat_lt.mp (h _ hb)
      rw [UInt8.toNat_ofNat_of_lt' hlt] at hsmall
      omega
    · exact BitVec.getLsbD_of_ge _ _ (Nat.not_lt.mp hlt)

theorem single?_eq_some_iff (s : ByteSet) (b : UInt8) : s.single? = some b ↔ s.toList = [b] := by
  rw [single?]
  split
  case h_1 a h => simp [h]
  case h_2 h => simpa using h b

theorem pairwise_toList (s : ByteSet) : s.toList.Pairwise (· < ·) := Byte.pairwise_all.filter _

theorem nodup_toList (s : ByteSet) : s.toList.Nodup :=
  s.pairwise_toList.imp fun hlt heq => by simp [heq] at hlt

/-- A list in ascending order is told by its members. -/
theorem toList_eq_singleton_iff (s : ByteSet) (b : UInt8) :
    s.toList = [b] ↔ { a | s.contains a = true } = {b} := by
  simp only [Set.ext_iff, Set.mem_ofPred_eq, Set.mem_singleton_iff, ← mem_toList]
  constructor
  · intro h a
    rw [h, List.mem_singleton]
  · intro h
    apply List.perm_singleton.mp
    apply (List.perm_ext_iff_of_nodup s.nodup_toList (List.nodup_singleton b)).mpr
    intro a
    rw [h, List.mem_singleton]

theorem view_shows (s : ByteSet) : s.view.Shows { b | s.contains b = true } where
  contains _ := Iff.rfl
  ascending := s.pairwise_toList
  listed _ := mem_toList
  size := by
    have hmembers : { b | s.contains b = true } = (s.toList.toFinset : Set UInt8) := by
      ext b
      simp [mem_toList]
    calc
      s.view.size = s.toList.length := s.size_eq_length
      _ = s.toList.toFinset.card := (List.toFinset_card_of_nodup s.nodup_toList).symm
      _ = Set.ncard { b | s.contains b = true } := by rw [hmembers, Set.ncard_coe_finset]
  isEmpty := by
    rw [Set.eq_empty_iff_forall_notMem]
    calc
      s.isEmpty = true ↔ s.toList = [] := by rw [isEmpty_eq, List.isEmpty_iff]
      _ ↔ ∀ b, b ∉ s.toList := List.eq_nil_iff_forall_not_mem
      _ ↔ ∀ b, b ∉ { b | s.contains b = true } := by simp only [mem_toList, Set.mem_ofPred_eq]
  isAscii := s.isAscii_iff
  single? b := (s.single?_eq_some_iff b).trans (s.toList_eq_singleton_iff b)

end ByteSet

end LiteralSieve
