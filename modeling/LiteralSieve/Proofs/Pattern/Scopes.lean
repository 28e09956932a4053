import LiteralSieve.Proofs.Pattern.Drafts
import LiteralSieve.Proofs.Pattern.Grammar

namespace LiteralSieve

/-!
# Letters in scopes without case

Where literals are searched for as they are written, an atom in a scope without case is widened to
both cases of its letters. Where they are not, the search does the same. Either way an atom keeps
all words that it has without case.
-/

/-- A property of all ASCII characters, checked for one after another. -/
theorem forall_ascii {p : Char → Prop} (h : ∀ n < 128, p (Char.ofNat n)) {c : Char}
    (hc : isAsciiChar c = true) : p c := by
  have hlt : c.toNat < 128 := by
    rw [isAsciiChar, decide_eq_true_eq, UInt32.lt_iff_toNat_lt] at hc
    exact hc
  have hp := h c.toNat hlt
  rwa [Char.ofNat_toNat] at hp

theorem utf8EncodeChar_of_isAscii {c : Char} (h : isAsciiChar c = true) :
    String.utf8EncodeChar c = [charByte c] :=
  forall_ascii (p := fun c => String.utf8EncodeChar c = [charByte c]) (by decide +kernel) h

theorem isAlpha_charByte {c : Char} (h : isAsciiChar c = true) :
    Byte.isAlpha (charByte c) = c.isAlpha :=
  forall_ascii (p := fun c => Byte.isAlpha (charByte c) = c.isAlpha) (by decide +kernel) h

variable {fold : UInt8 → UInt8} {insensitive scope : Bool}

theorem toLower_eq_of_caseFold_eq {a b : UInt8} (h : caseFold scope a = caseFold scope b) :
    Byte.toLower a = Byte.toLower b := by
  cases scope with
  | false => exact congrArg Byte.toLower h
  | true => exact h

theorem IgnoresCase.fold_eq (hfold : IgnoresCase insensitive fold) {a b : UInt8}
    (h : caseFold insensitive a = caseFold insensitive b) : fold a = fold b := by
  cases hcase : insensitive with
  | false =>
      rw [hcase] at h
      exact congrArg fold h
  | true =>
      rw [← hfold hcase a, ← hfold hcase b, toLower_eq_of_caseFold_eq h]

theorem map_fold_eq_of_caseFold (hfold : IgnoresCase insensitive fold) {xs ys : Bytes}
    (h : xs.map (caseFold insensitive) = ys.map (caseFold insensitive)) :
    xs.map fold = ys.map fold := by
  induction xs generalizing ys with
  | nil =>
      obtain rfl := List.map_eq_nil_iff.mp h.symm
      rfl
  | cons x xs ih =>
      cases ys with
      | nil => cases h
      | cons y ys =>
          rw [List.map_cons, List.map_cons, List.cons.injEq] at h
          rw [List.map_cons, List.map_cons, hfold.fold_eq h.1, ih h.2]

theorem spellings_caseFold_le (hfold : IgnoresCase insensitive fold) (bytes : Bytes) :
    spellings (caseFold insensitive) bytes ≤ spellings fold bytes :=
  fun _ hword => map_fold_eq_of_caseFold hfold hword

theorem mem_spellings_singleton {word : Bytes} {b : UInt8} :
    word ∈ spellings fold [b] ↔ ∃ a, word = [a] ∧ fold a = fold b := by
  rw [mem_spellings, List.map_singleton]
  constructor
  · intro h
    obtain ⟨a, rfl, ha⟩ := List.map_eq_singleton_iff.mp h
    exact ⟨a, rfl, ha⟩
  · rintro ⟨a, rfl, ha⟩
    rw [List.map_singleton, ha]

theorem contains_closeCase_of_toLower_eq {s : ByteSet} {a b : UInt8} (ha : s.contains a = true)
    (h : Byte.toLower a = Byte.toLower b) : s.closeCase.contains b = true := by
  rcases Byte.eq_or_flipCase_eq h with rfl | ⟨halpha, hflip⟩
  · exact ByteSet.contains_closeCase.mpr (Or.inl ha)
  · exact ByteSet.contains_closeCase.mpr (Or.inr ⟨a, ha, halpha, hflip⟩)

/-! ## Atoms under options -/

/-- A set keeps every byte that equals a member, up to case where it does not count. -/
theorem oneByte_le_under (hfold : IgnoresCase insensitive fold) (extended : Bool) {s : ByteSet}
    {p : UInt8 → Prop} (h : ∀ b, p b → ∃ a, s.contains a = true ∧
      caseFold (insensitive || scope) a = caseFold (insensitive || scope) b) :
    Grammar.oneByte p ≤
      ((Atom.set s).under ⟨extended, scope⟩ (!insensitive)).language fold := by
  rintro word ⟨b, rfl, hb⟩
  obtain ⟨a, ha, heq⟩ := h b hb
  have hset : ∀ t : ByteSet, t.contains b = true → [b] ∈ (Atom.set t).language fold :=
    fun t ht => ⟨b, ht, self_mem_spellings [b]⟩
  cases insensitive with
  | true =>
      have hsearch : [b] ∈ (Atom.set s).language fold :=
        ⟨a, ha, mem_spellings_singleton.mpr ⟨b, rfl, hfold.fold_eq heq.symm⟩⟩
      cases scope with
      | false => exact hsearch
      | true => exact hsearch
  | false =>
      cases scope with
      | false =>
          obtain rfl : a = b := heq
          exact hset s ha
      | true => exact hset s.closeCase (contains_closeCase_of_toLower_eq ha heq)

theorem language_char_le_under (hfold : IgnoresCase insensitive fold) (extended : Bool) (c : Char) :
    spellings (caseFold (insensitive || scope)) (String.utf8EncodeChar c) ≤
      ((Atom.char c).under ⟨extended, scope⟩ (!insensitive)).language fold := by
  cases scope with
  | false =>
      rw [Bool.or_false]
      exact spellings_caseFold_le hfold _
  | true =>
      rw [Bool.or_true, Atom.under, if_pos rfl, Atom.caseless]
      split
      case isFalse => exact le_top
      case isTrue hascii =>
        cases insensitive with
        | true => exact spellings_caseFold_le hfold _
        | false =>
            intro word hword
            rw [utf8EncodeChar_of_isAscii hascii] at hword
            obtain ⟨b, rfl, hb⟩ := mem_spellings_singleton.mp hword
            split
            case isTrue =>
              refine ⟨b, contains_closeCase_of_toLower_eq ?_ hb.symm, self_mem_spellings [b]⟩
              rw [ByteSet.contains_insert, beq_self_eq_true, Bool.or_true]
            case isFalse hletter =>
              rw [Bool.not_false, Bool.true_and, ← isAlpha_charByte hascii] at hletter
              rcases Byte.eq_or_flipCase_eq hb.symm with heq | ⟨halpha, -⟩
              · rw [Atom.language, utf8EncodeChar_of_isAscii hascii, heq]
                exact self_mem_spellings [b]
              · exact absurd halpha hletter

end LiteralSieve
