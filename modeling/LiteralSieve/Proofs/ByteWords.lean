import LiteralSieve.Proofs.ByteSetViews

namespace LiteralSieve

/-!
# Sets of bytes in four words

The 256 bits of a set fit in four machine words: the upper two bits of a byte name its word, and
the lower six its bit there. All operations go word by word or shift one bit to its place. Put side
by side, the words are the bits of a `ByteSet`, and each operation on them is the operation on that
set. What is asked of either set is answered as for the mathematical set that was put together in
the same way.
-/

structure ByteWords where
  words : Vector UInt64 4
deriving DecidableEq

namespace ByteWords

def empty : ByteWords := ⟨Vector.replicate 4 0⟩

theorem shift_lt (b : UInt8) : (b >>> 6).toNat < 4 :=
  Byte.forall_of_all (fun b => (b >>> 6).toNat < 4) (by decide +kernel) b

/-- Which of the words has the bit of this byte. -/
def place (b : UInt8) : Fin 4 := ⟨(b >>> 6).toNat, shift_lt b⟩

/-- The word with nothing but the bit of this byte. -/
def bit (b : UInt8) : UInt64 := 1 <<< (b &&& 63).toUInt64

def contains (s : ByteWords) (b : UInt8) : Bool := s.words[place b] &&& bit b != 0

def insert (s : ByteWords) (b : UInt8) : ByteWords :=
  ⟨s.words.set (place b) (s.words[place b] ||| bit b)⟩

def insertAll (s : ByteWords) (bytes : Bytes) : ByteWords := bytes.foldl insert s

/-- Every byte from `lo` to `hi`, both included; none if `hi` comes first. -/
def insertRange (s : ByteWords) (lo hi : UInt8) : ByteWords :=
  s.insertAll (Byte.all.filter fun b => lo ≤ b && b ≤ hi)

def union (s t : ByteWords) : ByteWords := ⟨Vector.zipWith (· ||| ·) s.words t.words⟩

def complement (s : ByteWords) : ByteWords := ⟨s.words.map (~~~ ·)⟩

def toList (s : ByteWords) : List UInt8 := Byte.all.filter s.contains

def closeCase (s : ByteWords) : ByteWords :=
  s.insertAll ((s.toList.filter Byte.isAlpha).map Byte.flipCase)

/-- The number of bits that are set, word by word. -/
def size (s : ByteWords) : Nat := (s.words.toList.map fun w => w.toBitVec.cpop.toNat).sum

def isEmpty (s : ByteWords) : Bool := s.words.all (· == 0)

def isAscii (s : ByteWords) : Bool := s.words[2] == 0 && s.words[3] == 0

def single? (s : ByteWords) : Option UInt8 := if s.size = 1 then s.toList.head? else none

/-- The words side by side, the first one lowest. -/
def bits (s : ByteWords) : BitVec (64 + 64 + 64 + 64) :=
  s.words[3].toBitVec ++ s.words[2].toBitVec ++ s.words[1].toBitVec ++ s.words[0].toBitVec

def toByteSet (s : ByteWords) : ByteSet := ⟨s.bits⟩

/-! ## Words and bits -/

theorem place_val (b : UInt8) : (place b).val = b.toNat / 64 :=
  Byte.forall_of_all (fun b => (place b).val = b.toNat / 64) (by decide +kernel) b

theorem toBitVec_bit (b : UInt8) : (bit b).toBitVec = BitVec.twoPow 64 (b.toNat % 64) :=
  Byte.forall_of_all (fun b => (bit b).toBitVec = BitVec.twoPow 64 (b.toNat % 64))
    (by decide +kernel) b

/-- A word with one bit tells that bit of another word. -/
theorem and_bit_ne_zero (w : UInt64) (b : UInt8) :
    (w &&& bit b != 0) = w.toBitVec.getLsbD (b.toNat % 64) := by
  have hlt : b.toNat % 64 < 64 := Nat.mod_lt _ (by decide)
  have hne : BitVec.twoPow 64 (b.toNat % 64) ≠ 0#64 := by
    intro hzero
    have hbit := congrArg (fun x => x.getLsbD (b.toNat % 64)) hzero
    simp [hlt] at hbit
  have hand : (w &&& bit b = 0) ↔ w.toBitVec &&& BitVec.twoPow 64 (b.toNat % 64) = 0#64 := by
    simp [← UInt64.toBitVec_inj, toBitVec_bit]
  rw [Bool.eq_iff_iff, bne_iff_ne, ne_eq, hand, BitVec.and_twoPow]
  cases hbit : w.toBitVec.getLsbD (b.toNat % 64) <;> simp [hne]

theorem contains_eq (s : ByteWords) (b : UInt8) :
    s.contains b = s.words[place b].toBitVec.getLsbD (b.toNat % 64) :=
  and_bit_ne_zero _ b

theorem getLsbD_append_of_lt {n i : Nat} (x : BitVec n) (y : BitVec 64) (hi : i < 64) :
    (x ++ y).getLsbD i = y.getLsbD i := by
  rw [BitVec.getLsbD_append, if_pos hi]

theorem getLsbD_append_add {n : Nat} (x : BitVec n) (y : BitVec 64) (i : Nat) :
    (x ++ y).getLsbD (64 + i) = x.getLsbD i := by
  rw [BitVec.getLsbD_append, if_neg (by omega), Nat.add_sub_cancel_left]

/-- The bits of a word come after those of the words before. -/
theorem getLsbD_bits (s : ByteWords) (k : Fin 4) {i : Nat} (hi : i < 64) :
    s.bits.getLsbD (64 * k.val + i) = s.words[k].toBitVec.getLsbD i := by
  match k with
  | 0 =>
      rw [show 64 * (0 : Fin 4).val + i = i by omega]
      exact getLsbD_append_of_lt _ _ hi
  | 1 =>
      rw [show 64 * (1 : Fin 4).val + i = 64 + i by omega]
      exact (getLsbD_append_add _ _ _).trans (getLsbD_append_of_lt _ _ hi)
  | 2 =>
      rw [show 64 * (2 : Fin 4).val + i = 64 + (64 + i) by omega, bits, getLsbD_append_add,
        getLsbD_append_add]
      exact getLsbD_append_of_lt _ _ hi
  | 3 =>
      rw [show 64 * (3 : Fin 4).val + i = 64 + (64 + (64 + i)) by omega, bits, getLsbD_append_add,
        getLsbD_append_add, getLsbD_append_add]
      rfl

theorem contains_toByteSet (s : ByteWords) (b : UInt8) :
    s.toByteSet.contains b = s.contains b := by
  have hb : b.toNat = 64 * (place b).val + b.toNat % 64 := by
    rw [place_val]
    exact (Nat.div_add_mod _ _).symm
  have hbit := getLsbD_bits s (place b) (Nat.mod_lt b.toNat (by decide : 0 < 64))
  rw [← hb] at hbit
  rw [contains_eq, ← hbit]
  rfl

theorem contains_insert (s : ByteWords) (a b : UInt8) :
    (s.insert a).contains b = (s.contains b || a == b) := by
  have hlt : a.toNat % 64 < 64 := Nat.mod_lt _ (by decide)
  have hmod := Nat.div_add_mod a.toNat 64
  have hmod' := Nat.div_add_mod b.toNat 64
  simp only [contains_eq, insert, Fin.getElem_fin, Vector.getElem_set]
  split
  case isTrue hplace =>
    -- Two bytes of one word are the same byte if they have the same bit there.
    have hsame : a.toNat % 64 = b.toNat % 64 ↔ a = b := by
      rw [place_val, place_val] at hplace
      rw [← UInt8.toNat_inj]
      omega
    simp [hplace, toBitVec_bit, hlt, hsame, Bool.beq_eq_decide_eq]
  case isFalse hplace =>
    have hne : a ≠ b := fun heq => hplace (heq ▸ rfl)
    simp [hne]

@[simp] theorem contains_empty (b : UInt8) : empty.contains b = false := by
  simp [contains_eq, empty]

theorem contains_union (s t : ByteWords) (b : UInt8) :
    (s.union t).contains b = (s.contains b || t.contains b) := by
  simp [contains_eq, union]

theorem contains_complement (s : ByteWords) (b : UInt8) :
    s.complement.contains b = !s.contains b := by
  simp [contains_eq, complement, Nat.mod_lt]

/-! ## Operations word by word -/

@[simp] theorem toByteSet_empty : empty.toByteSet = ByteSet.empty :=
  ByteSet.eq_of_contains fun b => by simp [contains_toByteSet]

@[simp] theorem toByteSet_insert (s : ByteWords) (b : UInt8) :
    (s.insert b).toByteSet = s.toByteSet.insert b :=
  ByteSet.eq_of_contains fun a => by
    simp only [contains_toByteSet, contains_insert, ByteSet.contains_insert]

@[simp] theorem toByteSet_insertAll (s : ByteWords) (bytes : Bytes) :
    (s.insertAll bytes).toByteSet = s.toByteSet.insertAll bytes := by
  induction bytes generalizing s with
  | nil => rfl
  | cons b bytes ih =>
      have hwords : s.insertAll (b :: bytes) = (s.insert b).insertAll bytes := rfl
      have hset (t : ByteSet) : t.insertAll (b :: bytes) = (t.insert b).insertAll bytes := rfl
      rw [hwords, hset, ih, toByteSet_insert]

@[simp] theorem toByteSet_insertRange (s : ByteWords) (lo hi : UInt8) :
    (s.insertRange lo hi).toByteSet = s.toByteSet.insertRange lo hi :=
  toByteSet_insertAll s _

@[simp] theorem toByteSet_union (s t : ByteWords) :
    (s.union t).toByteSet = s.toByteSet.union t.toByteSet :=
  ByteSet.eq_of_contains fun b => by
    simp only [contains_toByteSet, contains_union, ByteSet.contains_union]

@[simp] theorem toByteSet_complement (s : ByteWords) :
    s.complement.toByteSet = s.toByteSet.complement :=
  ByteSet.eq_of_contains fun b => by
    simp only [contains_toByteSet, contains_complement, ByteSet.contains_complement]

theorem toList_toByteSet (s : ByteWords) : s.toByteSet.toList = s.toList :=
  List.filter_congr fun b _ => contains_toByteSet s b

@[simp] theorem toByteSet_closeCase (s : ByteWords) :
    s.closeCase.toByteSet = s.toByteSet.closeCase := by
  rw [closeCase, toByteSet_insertAll, ← toList_toByteSet]
  rfl

/-! ## What is asked of the words -/

theorem toList_words (s : ByteWords) :
    s.words.toList = [s.words[0], s.words[1], s.words[2], s.words[3]] := by
  obtain ⟨⟨⟨words⟩, hsize⟩⟩ := s
  match words, hsize with
  | [_, _, _, _], _ => rfl

theorem size_toByteSet (s : ByteWords) : s.toByteSet.size = s.size := by
  have hbits : s.toByteSet.size = s.bits.cpop.toNat := rfl
  rw [hbits, bits, BitVec.toNat_cpop_append, BitVec.toNat_cpop_append, BitVec.toNat_cpop_append,
    size, toList_words]
  simp only [List.map_cons, List.map_nil, List.sum_cons, List.sum_nil]
  omega

/-- A word is zero if the set has none of its bytes. -/
theorem word_eq_zero_iff (s : ByteWords) (k : Fin 4) :
    s.words[k] = 0 ↔ ∀ b, place b = k → s.contains b = false := by
  constructor
  · rintro hword b rfl
    simp [contains_eq, hword]
  · intro h
    apply UInt64.eq_of_toBitVec_eq
    apply BitVec.eq_of_getLsbD_eq
    intro i hi
    have hk := k.isLt
    have hb : (UInt8.ofNat (64 * k.val + i)).toNat = 64 * k.val + i :=
      UInt8.toNat_ofNat_of_lt' (by simp [UInt8.size]; omega)
    have hplace : place (UInt8.ofNat (64 * k.val + i)) = k := by
      apply Fin.ext
      rw [place_val, hb]
      omega
    have hbit := h _ hplace
    simp only [contains_eq, hplace, hb] at hbit
    simpa [Nat.mod_eq_of_lt hi] using hbit

theorem isEmpty_iff (s : ByteWords) : s.isEmpty = true ↔ ∀ b, s.contains b = false := by
  have hwords : s.isEmpty = true ↔ ∀ k : Fin 4, s.words[k] = 0 := by
    simp [isEmpty, Vector.all_eq_true, Fin.forall_iff]
  simp only [hwords, word_eq_zero_iff]
  exact ⟨fun h b => h (place b) b rfl, fun h _ b _ => h b⟩

theorem isAscii_iff (s : ByteWords) : s.isAscii = true ↔ ∀ b, s.contains b = true → b < 0x80 := by
  have hwords : s.isAscii = true ↔ s.words[(2 : Fin 4)] = 0 ∧ s.words[(3 : Fin 4)] = 0 := by
    simp [isAscii]
  have hplace (b : UInt8) : place b = 2 ∨ place b = 3 ↔ ¬b < 0x80 :=
    Byte.forall_of_all (fun b => place b = 2 ∨ place b = 3 ↔ ¬b < 0x80) (by decide +kernel) b
  rw [hwords, word_eq_zero_iff, word_eq_zero_iff]
  constructor
  · rintro ⟨hthird, hfourth⟩ b hb
    by_contra hlarge
    rcases (hplace b).mpr hlarge with h | h
    · simp [hthird b h] at hb
    · simp [hfourth b h] at hb
  · intro h
    refine ⟨fun b hb => ?_, fun b hb => ?_⟩
    · exact Bool.eq_false_iff.mpr fun hin => (hplace b).mp (Or.inl hb) (h b hin)
    · exact Bool.eq_false_iff.mpr fun hin => (hplace b).mp (Or.inr hb) (h b hin)

def view (s : ByteWords) : SetView :=
  ⟨s.contains, s.toList, s.size, s.isEmpty, s.isAscii, s.single?⟩

theorem isEmpty_toByteSet (s : ByteWords) : s.toByteSet.isEmpty = s.isEmpty := by
  have hset : s.toByteSet.isEmpty = true ↔ ∀ b, s.contains b = false := by
    simp [ByteSet.isEmpty_eq, List.isEmpty_iff, List.eq_nil_iff_forall_not_mem, ByteSet.mem_toList,
      contains_toByteSet]
  exact Bool.eq_iff_iff.mpr (hset.trans s.isEmpty_iff.symm)

theorem isAscii_toByteSet (s : ByteWords) : s.toByteSet.isAscii = s.isAscii := by
  have hset : s.toByteSet.isAscii = true ↔ ∀ b, s.contains b = true → b < 0x80 := by
    simp only [ByteSet.isAscii_iff, contains_toByteSet]
  exact Bool.eq_iff_iff.mpr (hset.trans s.isAscii_iff.symm)

/-- A set with one bit has one member, which is the first. -/
theorem single?_toByteSet (s : ByteWords) : s.toByteSet.single? = s.single? := by
  rw [single?, ← size_toByteSet, ByteSet.size_eq_length, ← toList_toByteSet, ByteSet.single?]
  cases s.toByteSet.toList with
  | nil => rfl
  | cons b rest => cases rest <;> simp

theorem view_toByteSet (s : ByteWords) : s.toByteSet.view = s.view := by
  rw [view, ← funext (contains_toByteSet s), ← toList_toByteSet, ← size_toByteSet,
    ← isEmpty_toByteSet, ← isAscii_toByteSet, ← single?_toByteSet]
  rfl

end ByteWords

/-! ## Sets as they are put together -/

/-- How a set is put together from empty ones, operation by operation. -/
inductive SetTerm where
  | empty
  | insert (term : SetTerm) (b : UInt8)
  | insertRange (term : SetTerm) (lo hi : UInt8)
  | union (term other : SetTerm)
  | complement (term : SetTerm)
  | closeCase (term : SetTerm)

/-- Two letters that differ in their case and in nothing else. -/
def AreCases (a b : UInt8) : Prop := a ≠ b ∧ Byte.toLower a = Byte.toLower b

namespace SetTerm

/-- The members of the mathematical set. -/
def members : SetTerm → Set UInt8
  | empty => ∅
  | insert term b => term.members ∪ {b}
  | insertRange term lo hi => term.members ∪ { b | lo ≤ b ∧ b ≤ hi }
  | union term other => term.members ∪ other.members
  | complement term => term.membersᶜ
  | closeCase term => term.members ∪ { b | ∃ a ∈ term.members, AreCases a b }

def toByteSet : SetTerm → ByteSet
  | empty => .empty
  | insert term b => term.toByteSet.insert b
  | insertRange term lo hi => term.toByteSet.insertRange lo hi
  | union term other => term.toByteSet.union other.toByteSet
  | complement term => term.toByteSet.complement
  | closeCase term => term.toByteSet.closeCase

def toByteWords : SetTerm → ByteWords
  | empty => .empty
  | insert term b => term.toByteWords.insert b
  | insertRange term lo hi => term.toByteWords.insertRange lo hi
  | union term other => term.toByteWords.union other.toByteWords
  | complement term => term.toByteWords.complement
  | closeCase term => term.toByteWords.closeCase

theorem areCases_iff {a b : UInt8} :
    AreCases a b ↔ Byte.isAlpha a = true ∧ Byte.flipCase a = b := by
  constructor
  · rintro ⟨hne, hlower⟩
    exact (Byte.eq_or_flipCase_eq hlower).resolve_left hne
  · rintro ⟨halpha, rfl⟩
    exact Byte.forall_of_all (fun a => Byte.isAlpha a = true →
      a ≠ Byte.flipCase a ∧ Byte.toLower a = Byte.toLower (Byte.flipCase a)) (by decide +kernel) a
      halpha

/-- Every operation does to the bits what it does to the members. -/
theorem contains_toByteSet (term : SetTerm) (b : UInt8) :
    term.toByteSet.contains b = true ↔ b ∈ term.members := by
  induction term generalizing b with
  | empty => simp [toByteSet, members]
  | insert term a ih =>
      simp [toByteSet, members, ByteSet.contains_insert, ih, eq_comm (a := a), or_comm]
  | insertRange term lo hi ih => simp [toByteSet, members, ByteSet.contains_insertRange, ih]
  | union term other ih ihother =>
      simp [toByteSet, members, ByteSet.contains_union, ih, ihother]
  | complement term ih =>
      simp [toByteSet, members, ByteSet.contains_complement, ← ih]
  | closeCase term ih =>
      simp only [toByteSet, members, ByteSet.contains_closeCase, ih, Set.mem_union,
        Set.mem_ofPred_eq, areCases_iff]

theorem toByteSet_toByteWords (term : SetTerm) : term.toByteWords.toByteSet = term.toByteSet := by
  induction term with
  | empty => exact ByteWords.toByteSet_empty
  | insert term b ih => rw [toByteWords, toByteSet, ByteWords.toByteSet_insert, ih]
  | insertRange term lo hi ih => rw [toByteWords, toByteSet, ByteWords.toByteSet_insertRange, ih]
  | union term other ih ihother =>
      rw [toByteWords, toByteSet, ByteWords.toByteSet_union, ih, ihother]
  | complement term ih => rw [toByteWords, toByteSet, ByteWords.toByteSet_complement, ih]
  | closeCase term ih => rw [toByteWords, toByteSet, ByteWords.toByteSet_closeCase, ih]

/-- However a set is put together, all its answers are those for the mathematical set, whether it is
kept in one piece or in four words, and the words side by side are that piece. -/
theorem views_show_members (term : SetTerm) :
    term.toByteSet.view.Shows term.members ∧ term.toByteWords.view.Shows term.members ∧
      term.toByteWords.toByteSet = term.toByteSet := by
  have hmembers : { b | term.toByteSet.contains b = true } = term.members :=
    Set.ext term.contains_toByteSet
  have hshows := term.toByteSet.view_shows
  rw [hmembers] at hshows
  have hwords := term.toByteSet_toByteWords
  refine ⟨hshows, ?_, hwords⟩
  rwa [← ByteWords.view_toByteSet, hwords]

/-- Of a range and a digit only the letters gain their other case. -/
example : (closeCase (insert (insertRange empty 0x61 0x62) 0x31)).toByteWords.toList =
    [0x31, 0x41, 0x42, 0x61, 0x62] := by
  decide +kernel

end SetTerm

end LiteralSieve
