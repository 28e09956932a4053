import LiteralSieve.Byte

namespace LiteralSieve

/-!
# Sets of bytes

A set is one bit per byte value, so that union and complement are single operations on the bits.
`contains` is its view: the lemmas below say what each operation does to it.
-/

structure ByteSet where
  bits : BitVec 256
deriving DecidableEq

namespace ByteSet

def empty : ByteSet := ⟨0⟩

instance : Inhabited ByteSet := ⟨empty⟩

def contains (s : ByteSet) (b : UInt8) : Bool := s.bits.getLsbD b.toNat

def insert (s : ByteSet) (b : UInt8) : ByteSet := ⟨s.bits ||| BitVec.twoPow 256 b.toNat⟩

def insertAll (s : ByteSet) (bytes : Bytes) : ByteSet := bytes.foldl insert s

/-- Every byte from `lo` to `hi`, both included; none if `hi` comes first. -/
def insertRange (s : ByteSet) (lo hi : UInt8) : ByteSet :=
  s.insertAll (Byte.all.filter fun b => lo ≤ b && b ≤ hi)

def union (s t : ByteSet) : ByteSet := ⟨s.bits ||| t.bits⟩

def complement (s : ByteSet) : ByteSet := ⟨~~~s.bits⟩

/-- The members in ascending order. -/
def toList (s : ByteSet) : List UInt8 := Byte.all.filter s.contains

/-- Every letter of the set gains its other case. -/
def closeCase (s : ByteSet) : ByteSet :=
  s.insertAll ((s.toList.filter Byte.isAlpha).map Byte.flipCase)

def ofPred (p : UInt8 → Bool) : ByteSet := empty.insertAll (Byte.all.filter p)

def size (s : ByteSet) : Nat := s.bits.cpop.toNat

def isEmpty (s : ByteSet) : Bool := s.bits == 0

/-- No member is `0x80` or more: the upper half of the bits is clear. -/
def isAscii (s : ByteSet) : Bool := s.bits >>> 128 == 0

def single? (s : ByteSet) : Option UInt8 :=
  match s.toList with
  | [b] => some b
  | _ => none

def describe (s : ByteSet) : String :=
  let member (b : UInt8) : String :=
    if Byte.isGraphic b then String.singleton (Byte.toChar b) else "\\x" ++ Byte.hex b
  "[" ++ String.join (s.toList.map member) ++ "]"

@[simp] theorem contains_empty (b : UInt8) : empty.contains b = false := by
  simp [empty, contains]

theorem contains_union (s t : ByteSet) (b : UInt8) :
    (s.union t).contains b = (s.contains b || t.contains b) := by
  simp [union, contains]

theorem contains_complement (s : ByteSet) (b : UInt8) :
    s.complement.contains b = !s.contains b := by
  simp [complement, contains, b.toNat_lt]

theorem contains_insert (s : ByteSet) (a b : UInt8) :
    (s.insert a).contains b = (s.contains b || a == b) := by
  have ha := a.toNat_lt
  by_cases h : a = b
  · subst h
    simp [insert, contains, ha]
  · have h' : a.toNat ≠ b.toNat := fun e => h (UInt8.toNat_inj.mp e)
    simp [insert, contains, BitVec.getLsbD_twoPow, h, h']

theorem contains_insertAll (s : ByteSet) (bytes : Bytes) (b : UInt8) :
    (s.insertAll bytes).contains b = (s.contains b || bytes.contains b) := by
  induction bytes generalizing s with
  | nil => simp [insertAll]
  | cons a bytes ih =>
      have step : s.insertAll (a :: bytes) = (s.insert a).insertAll bytes := rfl
      rw [step, ih, contains_insert, List.contains_cons, Bool.or_assoc]
      by_cases h : a = b
      · simp [h]
      · simp [beq_false_of_ne h, beq_false_of_ne (Ne.symm h)]

theorem mem_toList {s : ByteSet} {b : UInt8} : b ∈ s.toList ↔ s.contains b = true := by
  simp [toList, Byte.mem_all]

theorem getLsbD_eq_contains (s : ByteSet) {i : Nat} (h : i < 256) :
    s.bits.getLsbD i = s.contains (UInt8.ofNat i) := by
  have hi : (UInt8.ofNat i).toNat = i := UInt8.toNat_ofNat_of_lt' h
  simp only [contains, hi]

theorem isEmpty_eq (s : ByteSet) : s.isEmpty = s.toList.isEmpty := by
  apply Bool.eq_iff_iff.mpr
  simp only [isEmpty, beq_iff_eq, List.isEmpty_iff]
  constructor
  · intro h
    apply List.eq_nil_iff_forall_not_mem.mpr
    intro b hb
    simp [mem_toList, contains, h] at hb
  · intro h
    apply BitVec.eq_of_getLsbD_eq
    intro i hi
    have hmem : UInt8.ofNat i ∉ s.toList := by simp [h]
    simpa [mem_toList, ← getLsbD_eq_contains s hi] using hmem

theorem contains_ofPred (p : UInt8 → Bool) (b : UInt8) : (ofPred p).contains b = p b := by
  rw [Bool.eq_iff_iff]
  simp [ofPred, contains_insertAll, Byte.mem_all]

theorem contains_insertRange (s : ByteSet) (lo hi b : UInt8) :
    (s.insertRange lo hi).contains b = (s.contains b || (lo ≤ b && b ≤ hi)) := by
  rw [Bool.eq_iff_iff]
  simp [insertRange, contains_insertAll, Byte.mem_all]

theorem contains_closeCase {s : ByteSet} {b : UInt8} :
    s.closeCase.contains b = true ↔
      s.contains b = true ∨ ∃ a, s.contains a = true ∧ Byte.isAlpha a = true ∧
        Byte.flipCase a = b := by
  simp [closeCase, contains_insertAll, mem_toList, and_assoc]

end ByteSet

end LiteralSieve
