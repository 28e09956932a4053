import LiteralSieve.Proofs.Pattern.Denotation
import LiteralSieve.Proofs.Pattern.Lexemes
import LiteralSieve.Proofs.Pattern.Values

namespace LiteralSieve

/-!
# Reading terms

The texts of terms, of openings and of quantities are read back whatever stands after them, the
terms as atoms that stand for the same.
-/

namespace Grammar

/-! ## Sets -/

/-- The bytes with a property, or those without it. -/
def signedSet (negated : Bool) (isMember : UInt8 → Bool) : ByteSet :=
  if negated then (ByteSet.ofPred isMember).complement else ByteSet.ofPred isMember

theorem contains_signedSet (negated : Bool) (isMember : UInt8 → Bool) (b : UInt8) :
    (signedSet negated isMember).contains b = (isMember b != negated) := by
  rw [signedSet, ByteSet.contains_negated, ByteSet.contains_ofPred]

theorem EscapedSet.ofEscape?_letter (negated : Bool) (set : EscapedSet) :
    ByteSet.ofEscape? (set.letter negated) = some (signedSet negated set.isMember) := by
  cases set <;> cases negated <;> rfl

theorem NamedSet.ofName?_name (set : NamedSet) :
    ByteSet.ofName? (String.ofList set.name) = some (ByteSet.ofPred set.isMember) := by
  cases set <;> rfl

theorem NamedSet.bracketName?_text (negated : Bool) (set : NamedSet) (rest : List Char) :
    ClassMember.bracketName? ((set.text negated).tail ++ rest) =
      some (negated, String.ofList set.name, (set.text negated).length - 1) := by
  cases set <;> cases negated <;> rfl

namespace SetItem

def member : SetItem → ClassMember
  | char c => .byte c.byte
  | range lo hi _ => .set (ByteSet.empty.insertRange lo.byte hi.byte)
  | escaped negated set => .set (signedSet negated set.isMember)
  | named negated set => .set (signedSet negated set.isMember)

theorem has_member (item : SetItem) (b : UInt8) : item.member.has b = item.isMember b := by
  cases item with
  | char c => rfl
  | range lo hi ordered => simp [member, ClassMember.has, ByteSet.contains_insertRange, isMember]
  | escaped negated set => exact contains_signedSet negated set.isMember b
  | named negated set => exact contains_signedSet negated set.isMember b

/-- A set by itself is read whatever stands after it. -/
theorem readItem_of_read {start : Nat} {cursor : Cursor} {members : ByteSet} {n : Nat}
    (h : ClassMember.read start cursor = .ok (.set members, n)) :
    ClassMember.readItem start cursor = .ok (.set members, n) := by
  rw [ClassMember.readItem, h]
  rfl

def asRead : SetItem → ReadItem
  | char c => (ClassItem.char c).asRead
  | range lo hi ordered => (ClassItem.range lo hi ordered).asRead
  | escaped negated set =>
    { text := set.text negated
      member := .set (signedSet negated set.isMember)
      narrow := rfl
      text_eq_cons := ⟨'\\', [set.letter negated], rfl, by decide⟩
      readItem_text := fun start offset rest _ => by
        apply readItem_of_read
        rw [EscapedSet.text, List.cons_append, List.singleton_append, ClassMember.read,
          ClassMember.ofEscape?, set.ofEscape?_letter]
        rfl }
  | named negated set =>
    { text := set.text negated
      member := .set (signedSet negated set.isMember)
      narrow := rfl
      text_eq_cons := ⟨'[', (set.text negated).tail, rfl, by decide⟩
      readItem_text := fun start offset rest _ => by
        have htext : set.text negated ++ rest = '[' :: ((set.text negated).tail ++ rest) := rfl
        apply readItem_of_read
        rw [htext, ClassMember.read, set.bracketName?_text]
        dsimp only
        rw [set.ofName?_name]
        rfl }

theorem text_asRead (item : SetItem) : item.asRead.text = item.text := by
  cases item <;> rfl

theorem member_asRead (item : SetItem) : item.asRead.member = item.member := by
  cases item <;> rfl

end SetItem

namespace BracketSet

/-- What a set in brackets is read as. -/
def members (set : BracketSet) : ByteSet :=
  bracketMembers set.negated (set.items.map SetItem.asRead)

theorem contains_members (set : BracketSet) (b : UInt8) :
    set.members.contains b = set.isMember b := by
  rw [members, contains_bracketMembers, List.any_map, isMember]
  simp only [Function.comp_def, SetItem.member_asRead, SetItem.has_member]

theorem readClass_text (set : BracketSet) {offset : Nat} {rest : List Char} :
    readClass ⟨offset, set.text ++ rest⟩ = .ok (.set set.members, set.text.length - 1) := by
  have htext : set.text = bracketText set.negated (set.items.map SetItem.asRead) := by
    rw [text, bracketText, List.flatMap_map]
    simp only [SetItem.text_asRead]
    rfl
  rw [htext]
  exact readClass_bracketText set.negated fun hnil => set.ne_nil (List.map_eq_nil_iff.mp hnil)

end BracketSet

end Grammar

/-! ## Terms -/

open Grammar

variable {scope : Bool} {rest : List Char}

theorem readsAs_anchor (anchor : Anchor) (flags : Flags) (rest : List Char) :
    ReadsAs flags anchor.text (.atom .gap) rest := by
  cases anchor with
  | lineStart => exact readsAs_gap (by decide) flags rest
  | lineEnd => exact readsAs_gap (by decide) flags rest
  | escaped letter known =>
      refine ⟨'\\', [letter], rfl, fun offset => ?_⟩
      simp only [List.mem_cons, List.not_mem_nil, or_false] at known
      rcases known with rfl | rfl | rfl | rfl | rfl | rfl <;> rfl

theorem readsAs_escapedSet (flags : Flags) (negated : Bool) (set : EscapedSet) (rest : List Char) :
    ReadsAs flags (set.text negated) (.atom (.set (signedSet negated set.isMember))) rest := by
  apply readsAs_backslash
  rw [List.nil_append, Escaped.atom?, set.ofEscape?_letter]
  rfl

theorem readsAs_bracketSet (flags : Flags) (set : BracketSet) (rest : List Char) :
    ReadsAs flags set.text (.atom (.set set.members)) rest := by
  refine ⟨'[', set.text.tail, rfl, fun offset => ?_⟩
  have hread : readClass ⟨offset, '[' :: (set.text.tail ++ rest)⟩ =
      .ok (.set set.members, set.text.tail.length) := set.readClass_text
  rw [Lexeme.read, hread]

/-! ## Openings -/

theorem name?_chars (name : GroupName) {closer : Char} (h : Opener.isNameChar closer = false)
    (rest : List Char) :
    Opener.name? closer (name.chars ++ closer :: rest) = some (name.chars.length + 1) := by
  have htake : (name.chars ++ closer :: rest).takeWhile Opener.isNameChar = name.chars := by
    rw [List.takeWhile_append_of_pos name.isName, List.takeWhile_cons_of_neg (by simp [h]),
      List.append_nil]
  rw [Opener.name?, htake]
  simp [name.ne_nil]

theorem named_chars (flags : Flags) (name : GroupName) {closer : Char}
    (h : Opener.isNameChar closer = false) (rest : List Char) :
    Opener.named flags 1 (Opener.name? closer (name.chars ++ closer :: rest)) =
      .ok (.body false flags, name.chars.length + 2) := by
  rw [name?_chars name h, Opener.named, Nat.add_comm]

theorem readSpecial_angled (flags : Flags) (name : GroupName) (rest : List Char) :
    Opener.readSpecial flags ('<' :: (name.chars ++ '>' :: rest)) =
      Opener.named flags 1 (Opener.name? '>' (name.chars ++ '>' :: rest)) := by
  obtain ⟨first, others, hchars⟩ := List.exists_cons_of_ne_nil name.ne_nil
  have hfirst : Opener.isNameChar first = true := name.isName first (by simp [hchars])
  have hassertion : first ≠ '=' ∧ first ≠ '!' := by
    constructor <;> rintro rfl <;> exact absurd hfirst (by decide)
  simp [hchars, Opener.readSpecial, hassertion]

/-- The opening of a sub-pattern is told by what stands after its question mark. -/
theorem readsAs_special {flags inside : Flags} {text : List Char}
    (h : Opener.readSpecial flags (text ++ rest) = .ok (.body false inside, text.length)) :
    ReadsAs flags ('(' :: '?' :: text) (.body false inside) rest := by
  refine ⟨'(', '?' :: text, rfl, fun offset => ?_⟩
  have hread : Opener.read flags ('?' :: (text ++ rest)) =
      .ok (.body false inside, text.length + 1) := by
    rw [Opener.read, h]
    rfl
  rw [List.cons_append, Lexeme.read, hread]
  rfl

theorem readsAs_groupOpening (opening : Opening) {extended : Bool} (h : Unquantified rest) :
    ReadsAs ⟨extended, scope⟩ opening.text (.body false ⟨extended, opening.scope scope⟩) rest := by
  cases opening with
  | capturing => exact readsAs_opening .capturing h
  | plain => exact readsAs_opening .plain h
  | caseless => exact readsAs_opening .caseless h
  | caseful => exact readsAs_opening .caseful h
  | atomic =>
      apply readsAs_special
      rfl
  | angled name =>
      apply readsAs_special
      have hread := (readSpecial_angled ⟨extended, scope⟩ name rest).trans
        (named_chars _ name (by decide) rest)
      simpa [Opening.scope] using hread
  | quoted name =>
      apply readsAs_special
      have hread : Opener.readSpecial ⟨extended, scope⟩
          (Opening.apostrophe :: (name.chars ++ Opening.apostrophe :: rest)) =
            .ok (.body false ⟨extended, scope⟩, name.chars.length + 2) :=
        named_chars _ name (by decide) rest
      simpa [Opening.scope] using hread

/-! ## Quantities -/

theorem fault?_quantity (quantity : Quantity) : quantity.repetition.quantifier.fault? = none := by
  have hleast := Nat.not_lt.mpr quantity.least_le
  rw [Quantifier.fault?, Quantifier.maxBound]
  cases hmost : quantity.repetition.quantifier.most with
  | none => simp [hleast]
  | some most =>
      have hmostBound := Nat.not_lt.mpr (quantity.most_le most hmost)
      have hordered := Nat.not_lt.mpr (quantity.ordered most hmost)
      simp [hleast, hmostBound, hordered]

theorem suffixLength_manner (manner : Option Manner) (h : Unquantified rest) :
    Quantifier.suffixLength (manner.elim [] Manner.text ++ rest) =
      (manner.elim [] Manner.text).length := by
  cases manner with
  | none => exact Quantifier.suffixLength_of_unquantified h
  | some manner => cases manner <;> rfl

theorem read_quantity (quantity : Option Quantity) (offset : Nat) (h : Unquantified rest) :
    Quantifier.read false ⟨offset, quantityText quantity ++ rest⟩ =
      .ok (quantity.map (·.repetition.quantifier), (quantityText quantity).length) := by
  cases quantity with
  | none => simp [Quantifier.read, quantityText, Quantifier.leading?_of_unquantified h]
  | some quantity =>
      have hsuffix := suffixLength_manner quantity.manner h
      simp [Quantifier.read, quantityText, Quantity.text, List.append_assoc,
        Repetition.leading?_text, Quantifier.held_of_fault? (fault?_quantity quantity),
        fault?_quantity, hsuffix, Quantifier.starts_of_unquantified h]

end LiteralSieve
