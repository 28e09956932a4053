import LiteralSieve.Proofs.Pattern.Denotation
import LiteralSieve.Proofs.Pattern.Scopes
import LiteralSieve.Proofs.Pattern.Simplification

namespace LiteralSieve

/-!
# Values of atoms

What a term of the notation stands for is what the atom stands for that is read of it, whether it is
kept as a literal, as a choice of bytes or as a gap.
-/

open Node Grammar

/-! ## Cases of letters -/

namespace Byte

theorem flipCase_flipCase (b : UInt8) : flipCase (flipCase b) = b :=
  forall_of_all (fun b => flipCase (flipCase b) = b) (by decide +kernel) b

theorem isAlpha_flipCase (b : UInt8) : isAlpha (flipCase b) = isAlpha b :=
  forall_of_all (fun b => isAlpha (flipCase b) = isAlpha b) (by decide +kernel) b

/-- The cases of a letter in ascending order. -/
theorem filter_cases {b : UInt8} (h : isAlpha b = true) :
    all.filter (fun a => b == a || (isAlpha a && b == flipCase a)) = [toUpper b, toLower b] := by
  have hall := forall_of_all (fun b => isAlpha b = true →
    all.filter (fun a => b == a || (isAlpha a && b == flipCase a)) = [toUpper b, toLower b])
    (by decide +kernel)
  exact hall b h

end Byte

/-! ## Sets -/

namespace ByteSet

variable {s : ByteSet}

theorem isAscii_eq (s : ByteSet) : s.isAscii = s.toList.all Byte.isAscii := by
  apply Bool.eq_iff_iff.mpr
  simp only [isAscii, beq_iff_eq, List.all_eq_true, Byte.isAscii, decide_eq_true_eq]
  constructor
  · intro h b hb
    by_contra hlarge
    have hle : 128 ≤ b.toNat := UInt8.le_iff_toNat_le.mp (UInt8.not_lt.mp hlarge)
    have hbit := congrArg (·.getLsbD (b.toNat - 128)) h
    simp only [BitVec.getLsbD_ushiftRight, Nat.add_sub_cancel' hle] at hbit
    exact absurd (mem_toList.mp hb) (by simp [contains, hbit])
  · intro h
    have hupper : ∀ k, 128 ≤ k → k < 256 → s.bits.getLsbD k = false := by
      intro k hle hlt
      rw [getLsbD_eq_contains s hlt]
      apply Bool.eq_false_iff.mpr
      intro hmem
      have hascii := UInt8.lt_iff_toNat_lt.mp (h _ (mem_toList.mpr hmem))
      rw [UInt8.toNat_ofNat_of_lt' hlt] at hascii
      exact absurd (hle.trans_lt hascii) (lt_irrefl 128)
    apply BitVec.eq_of_getLsbD_eq
    intro i _
    by_cases hi : 128 + i < 256
    · simp [hupper (128 + i) (by omega) hi]
    · simp [BitVec.getLsbD_of_ge s.bits (128 + i) (by omega)]

theorem isSpelledOut_of_literal? {b : UInt8} (expansion : Bool) (h : s.literal? = some b) :
    Value.isSpelledOut expansion s.toList = true := by
  obtain ⟨hlist, hascii⟩ := literal?_eq_some_iff.mp h
  simp [Value.isSpelledOut, hlist, hascii]

theorem isSpelledOut_of_literal?_eq_none (expansion : Bool) (h : s.literal? = none) :
    Value.isSpelledOut expansion s.toList = (expansion && !s.isEmpty && s.isAscii) := by
  rw [Value.isSpelledOut, isEmpty_eq, isAscii_eq]
  cases hlist : s.toList with
  | nil => simp
  | cons b rest =>
      cases rest with
      | nil =>
          have hb : Byte.isAscii b = false := by
            apply Bool.eq_false_iff.mpr
            intro hb
            have hsome : s.literal? = some b := literal?_eq_some_iff.mpr ⟨hlist, hb⟩
            rw [h] at hsome
            cases hsome
          simp [hb]
      | cons c rest => simp [Bool.and_comm]

theorem paths_node (expansion : Bool) (s : ByteSet) (source : Extent) :
    (s.node expansion source).paths =
      if expansion && !s.isEmpty && s.isAscii then s.toList.map fun b => [.byte b]
      else [[.gap]] := by
  rw [node]
  cases expansion <;> cases s.isEmpty <;> cases s.isAscii <;> simp [pathsOfAny_bytes]

theorem isGap_node (expansion : Bool) (s : ByteSet) (source : Extent) :
    (s.node expansion source).isGap = !(expansion && !s.isEmpty && s.isAscii) := by
  rw [node]
  cases expansion <;> cases s.isEmpty <;> cases s.isAscii <;> rfl

theorem proper_node (expansion : Bool) (s : ByteSet) (source : Extent) :
    (s.node expansion source).Proper :=
  has_node hereditary_proper 0 expansion s source

end ByteSet

/-! ## Atoms -/

namespace Atom

/-- What an atom that a quantifier binds to as a whole stands for. -/
inductive HasValue : Atom → Value → Prop where
  | char (c : Char) : HasValue (.char c) (.char (String.utf8EncodeChar c))
  | set (members : ByteSet) : HasValue (.set members) (.oneOf members.toList)
  | node {n : Node} (proper : n.Proper) (isGap : n.isGap = false) :
    HasValue (.node n) (.group n.paths)
  | gap : HasValue .gap .gap

variable {atom : Atom} {value : Value}

theorem HasValue.paths_toNode (h : HasValue atom value) (expansion : Bool) (source : Extent) :
    (atom.toNode expansion source).paths = value.once expansion := by
  cases h with
  | char c => exact paths_literal _ source
  | gap => exact paths_gap source
  | node proper isGap => rfl
  | set members =>
      rw [toNode, Value.once]
      split
      case h_1 b hliteral =>
        have hlist := (ByteSet.literal?_eq_some_iff.mp hliteral).1
        rw [if_pos (ByteSet.isSpelledOut_of_literal? expansion hliteral), hlist]
        exact paths_literal [b] source
      case h_2 hliteral =>
        rw [ByteSet.isSpelledOut_of_literal?_eq_none expansion hliteral, ByteSet.paths_node]

theorem HasValue.isGap_toNode (h : HasValue atom value) (expansion : Bool) (source : Extent) :
    (atom.toNode expansion source).isGap = value.isLoneGap expansion := by
  cases h with
  | char c => rfl
  | gap => rfl
  | node proper isGap => exact isGap
  | set members =>
      rw [toNode, Value.isLoneGap]
      split
      case h_1 b hliteral =>
        rw [ByteSet.isSpelledOut_of_literal? expansion hliteral]
        rfl
      case h_2 hliteral =>
        rw [ByteSet.isSpelledOut_of_literal?_eq_none expansion hliteral, ByteSet.isGap_node]

theorem HasValue.proper_toNode (h : HasValue atom value) (expansion : Bool) (source : Extent) :
    (atom.toNode expansion source).Proper := by
  have hproper : atom.Has Proper := by
    cases h with
    | node proper isGap => exact proper
    | _ => exact trivial
  exact hproper.toNode hereditary_proper 0 expansion source

/-- What is written out of an atom is what is written out of its value. -/
theorem HasValue.writtenOut? (h : HasValue atom value) (q : Quantifier) :
    value.writtenOut? q = (Draft.inlineCount? q atom).map fun found =>
      (List.replicate found.2 (String.utf8EncodeChar found.1)).flatten := by
  cases h with
  | char c =>
      rw [Value.writtenOut?, Draft.inlineCount?, Draft.maxInline]
      split <;> rfl
  | _ => rfl

/-! ## Atoms in scopes -/

variable {s : ByteSet} {isMember : UInt8 → Bool}

theorem hasValue_set (h : ∀ b, s.contains b = isMember b) :
    HasValue (.set s) (.oneOf (Byte.all.filter isMember)) := by
  have hlist : s.toList = Byte.all.filter isMember := congrArg Byte.all.filter (funext h)
  exact hlist ▸ .set s

theorem contains_closeCase_eq (h : ∀ b, s.contains b = isMember b) (b : UInt8) :
    s.closeCase.contains b = (isMember b || (Byte.isAlpha b && isMember (Byte.flipCase b))) := by
  apply Bool.eq_iff_iff.mpr
  simp only [ByteSet.contains_closeCase, Bool.or_eq_true, Bool.and_eq_true, h]
  apply or_congr_right
  constructor
  · rintro ⟨a, ha, halpha, rfl⟩
    rw [Byte.isAlpha_flipCase, Byte.flipCase_flipCase]
    exact ⟨halpha, ha⟩
  · rintro ⟨halpha, hb⟩
    exact ⟨Byte.flipCase b, hb, (Byte.isAlpha_flipCase b).trans halpha, Byte.flipCase_flipCase b⟩

theorem hasValue_char_under (reading : Reading) {extended : Bool} (scope : Bool) (c : Char) :
    ((char c).under ⟨extended, scope⟩ reading.caseSensitive).HasValue (.ofChar reading scope c) := by
  rw [under, Value.ofChar]
  cases scope with
  | false => exact .char c
  | true =>
      rw [if_pos rfl, if_pos rfl, caseless]
      split
      case isFalse => exact .gap
      case isTrue hascii =>
        split
        case isFalse => exact .char c
        case isTrue hletter =>
          have halpha := (isAlpha_charByte hascii).trans (Bool.and_eq_true_iff.mp hletter).2
          have hinsert : ∀ b, (ByteSet.empty.insert (charByte c)).contains b =
              (charByte c == b) := fun b => by simp [ByteSet.contains_insert]
          exact Byte.filter_cases halpha ▸ hasValue_set (contains_closeCase_eq hinsert)

theorem hasValue_set_under (reading : Reading) {extended : Bool} (scope : Bool)
    (h : ∀ b, s.contains b = isMember b) :
    ((set s).under ⟨extended, scope⟩ reading.caseSensitive).HasValue
      (.ofSet reading scope isMember) := by
  have hclosed : ∀ b, (if scope && reading.caseSensitive then s.closeCase else s).contains b =
      (isMember b ||
        (scope && reading.caseSensitive && Byte.isAlpha b && isMember (Byte.flipCase b))) := by
    intro b
    cases scope && reading.caseSensitive with
    | false => exact (h b).trans (Bool.or_false _).symm
    | true => exact contains_closeCase_eq h b
  have hunder : (set s).under ⟨extended, scope⟩ reading.caseSensitive =
      set (if scope && reading.caseSensitive then s.closeCase else s) := by
    cases scope <;> rfl
  rw [hunder]
  exact hasValue_set hclosed

theorem hasValue_gap_under (flags : Flags) (caseSensitive : Bool) :
    (gap.under flags caseSensitive).HasValue .gap := by
  rw [under]
  split <;> exact .gap

end Atom

end LiteralSieve
