import LiteralSieve.Pattern.Class
import LiteralSieve.Proofs.Pattern.Grammar
import LiteralSieve.Proofs.Pattern.Scopes

namespace LiteralSieve

/-!
# Reading classes

A class that was written is read back as the set of its members. Its items are read one by one, and
each adds to the set what it holds.
-/

/-! ## Contents -/

theorem ByteSet.contains_negated (negated : Bool) (s : ByteSet) (b : UInt8) :
    (if negated then s.complement else s).contains b = (s.contains b != negated) := by
  cases negated with
  | true => exact (contains_complement s b).trans (Bool.bne_true _).symm
  | false => exact (Bool.bne_false _).symm

namespace ClassMember

def has (b : UInt8) : ClassMember → Bool
  | byte c => c == b
  | set members => members.contains b
  | _ => false

def isWide : ClassMember → Bool
  | wide => true
  | _ => false

end ClassMember

namespace ClassContent

theorem contains_add (content : ClassContent) (member : ClassMember) (b : UInt8) :
    (content.add member).members.contains b = (content.members.contains b || member.has b) := by
  cases member with
  | byte c => exact ByteSet.contains_insert content.members c b
  | set members => exact ByteSet.contains_union content.members members b
  | wide | nothing => exact (Bool.or_false _).symm

theorem wide_add (content : ClassContent) (member : ClassMember) :
    (content.add member).wide = (content.wide || member.isWide) := by
  cases member with
  | wide => exact (Bool.or_true _).symm
  | _ => exact (Bool.or_false _).symm

theorem contains_foldl_add (members : List ClassMember) (content : ClassContent) (b : UInt8) :
    (members.foldl add content).members.contains b =
      (content.members.contains b || members.any (·.has b)) := by
  induction members generalizing content with
  | nil => exact (Bool.or_false _).symm
  | cons member members ih =>
      rw [List.foldl_cons, ih, contains_add, List.any_cons, Bool.or_assoc]

theorem wide_foldl_add (members : List ClassMember) (content : ClassContent) :
    (members.foldl add content).wide = (content.wide || members.any (·.isWide)) := by
  induction members generalizing content with
  | nil => exact (Bool.or_false _).symm
  | cons member members ih => rw [List.foldl_cons, ih, wide_add, List.any_cons, Bool.or_assoc]

end ClassContent

namespace Grammar

/-! ## Punctuation -/

/-- What is no letter and no digit stands for itself after a backslash. -/
structure Literal (c : Char) : Prop where
  isDigit : c.isDigit = false
  isDigitOf : Escaped.isDigitOf 8 c = false
  isGapLetter : Escaped.isGapLetter c = false
  controlLetter? : Escaped.controlLetter? c = none
  ofEscape? : ByteSet.ofEscape? c = none

theorem isDigitOf_of_isAlphanum_eq_false {c : Char} (h : c.isAlphanum = false) (base : Nat) :
    Escaped.isDigitOf base c = false := by
  obtain ⟨hletter, hdigit⟩ := Bool.or_eq_false_iff.mp h
  obtain ⟨hupper, hlower⟩ := Bool.or_eq_false_iff.mp hletter
  have hsmall : ¬('a' ≤ c ∧ c ≤ 'f') := by
    rintro ⟨hlow, hhigh⟩
    have hin : c.isLower = true :=
      Bool.and_eq_true_iff.mpr ⟨decide_eq_true hlow, decide_eq_true (Char.le_trans hhigh (by decide))⟩
    exact Bool.eq_false_iff.mp hlower hin
  have hcapital : ¬('A' ≤ c ∧ c ≤ 'F') := by
    rintro ⟨hlow, hhigh⟩
    have hin : c.isUpper = true := decide_eq_true ⟨hlow, Char.le_trans hhigh (by decide)⟩
    exact Bool.eq_false_iff.mp hupper hin
  simp [Escaped.isDigitOf, Escaped.digit?, hdigit, hsmall, hcapital]

theorem literal_of_isAlphanum_eq_false {c : Char} (h : c.isAlphanum = false) : Literal c where
  isDigit := (Bool.or_eq_false_iff.mp h).2
  isDigitOf := isDigitOf_of_isAlphanum_eq_false h 8
  isGapLetter := by
    apply Bool.eq_false_iff.mpr
    intro hmem
    have hall : "bBAzZGKXRNC".toList.all Char.isAlphanum = true := by decide
    have hc := List.all_eq_true.mp hall c (List.contains_iff_mem.mp hmem)
    exact Bool.eq_false_iff.mp h hc
  controlLetter? := by
    unfold Escaped.controlLetter?
    split
    case h_7 => rfl
    all_goals cases h
  ofEscape? := by
    unfold ByteSet.ofEscape?
    split
    case h_11 => rfl
    all_goals cases h

theorem isAlphanum_of_isPunctuation {c : Char} (h : isPunctuation c = true) :
    c.isAlphanum = false := by
  obtain ⟨hascii, hsign⟩ := Bool.and_eq_true_iff.mp h
  have hall := forall_ascii
    (p := fun c => Byte.isPunctuation (charByte c) = true → c.isAlphanum = false)
    (by decide +kernel) hascii
  exact hall hsign

theorem literal_of_isPunctuation {c : Char} (h : isPunctuation c = true) : Literal c :=
  literal_of_isAlphanum_eq_false (isAlphanum_of_isPunctuation h)

theorem ofCode_of_isAscii {c : Char} (h : isAsciiChar c = true) :
    ClassMember.ofCode c.toNat = .byte (charByte c) := by
  rw [isAsciiChar, decide_eq_true_eq, UInt32.lt_iff_toNat_lt] at h
  rw [ClassMember.ofCode, if_pos (show c.toNat < 0x80 from h), charByte]

/-! ## Members -/

theorem ofEscape?_of_isPunctuation {c : Char} (h : isPunctuation c = true) (rest : List Char) :
    ClassMember.ofEscape? c rest = some (.byte (charByte c), 0) := by
  have hliteral := literal_of_isPunctuation h
  rw [ClassMember.ofEscape?, hliteral.ofEscape?]
  dsimp only
  unfold ClassMember.ofLetter?
  split
  case h_13 =>
    rw [hliteral.isDigitOf, if_neg Bool.false_ne_true, hliteral.controlLetter?, Option.getD_none,
      ofCode_of_isAscii (Bool.and_eq_true_iff.mp h).1]
  all_goals exact absurd h (by decide)

variable {start offset : Nat} {rest : List Char}

theorem ClassChar.read_text (c : ClassChar) :
    ClassMember.read start ⟨offset, c.text ++ rest⟩ = .ok (.byte c.byte, c.text.length - 1) := by
  rw [ClassChar.text]
  split
  case isTrue hescaped =>
    rw [List.cons_append, List.singleton_append, ClassMember.read,
      ofEscape?_of_isPunctuation (c.punctuation hescaped)]
    rfl
  case isFalse hplain =>
    have hsign : c.char ∉ classSigns := c.plain (Bool.eq_false_iff.mpr hplain)
    have hbracket : c.char ≠ '[' := fun heq => hsign (heq ▸ by decide)
    have hbackslash : c.char ≠ '\\' := fun heq => hsign (heq ▸ by decide)
    simp [ClassMember.read, hbackslash, ofCode_of_isAscii c.isAscii, ClassChar.byte]

/-- The first character of a member is no sign of the class. -/
theorem ClassChar.text_eq_cons (c : ClassChar) :
    ∃ first tail, c.text = first :: tail ∧ first ∉ ['^', '-', ']'] := by
  rw [ClassChar.text]
  split
  case isTrue => exact ⟨'\\', [c.char], rfl, by decide⟩
  case isFalse hplain =>
    refine ⟨c.char, [], rfl, fun hmem => c.plain (Bool.eq_false_iff.mpr hplain) ?_⟩
    revert hmem
    simp [classSigns]
    tauto

def Shorthand.members (negated : Bool) : Shorthand → ByteSet
  | digit => if negated then ByteSet.digits.complement else ByteSet.digits
  | space => if negated then ByteSet.spaces.complement else ByteSet.spaces
  | word => if negated then ByteSet.wordBytes.complement else ByteSet.wordBytes

theorem Shorthand.contains_members (negated : Bool) (kind : Shorthand) (b : UInt8) :
    (kind.members negated).contains b = true ↔ kind.Holds negated b := by
  cases kind <;> cases negated <;>
    simp [members, Holds, isMember, ByteSet.contains_complement, ByteSet.digits, ByteSet.spaces,
      ByteSet.wordBytes, ByteSet.contains_ofPred]

theorem Shorthand.ofEscape?_letter (negated : Bool) (kind : Shorthand) :
    ByteSet.ofEscape? (kind.letter negated) = some (kind.members negated) := by
  cases kind <;> cases negated <;> rfl

theorem Shorthand.read_text (negated : Bool) (kind : Shorthand) :
    ClassMember.read start ⟨offset, kind.text negated ++ rest⟩ =
      .ok (.set (kind.members negated), 1) := by
  rw [Shorthand.text, List.cons_append, List.singleton_append, ClassMember.read,
    ClassMember.ofEscape?, kind.ofEscape?_letter]

/-! ## Items -/

/-- The text is read as this byte of a class, whatever comes after it. -/
structure ReadsByte (b : UInt8) (text : List Char) : Prop where
  text_eq_cons : ∃ first tail, text = first :: tail ∧ first ∉ ['^', '-', ']']
  read_text : ∀ (start offset : Nat) (rest : List Char),
    ClassMember.read start ⟨offset, text ++ rest⟩ = .ok (.byte b, text.length - 1)

theorem startsRange_of_head? (h : rest.head? ≠ some '-') :
    ClassMember.startsRange rest = false := by
  unfold ClassMember.startsRange
  split
  · exact absurd rfl h
  · rfl

namespace ReadsByte

variable {b lo hi : UInt8} {text first last : List Char}

theorem length_pos (h : ReadsByte b text) : 0 < text.length := by
  obtain ⟨c, tail, rfl, -⟩ := h.text_eq_cons
  exact Nat.succ_pos _

theorem advance (h : ReadsByte b text) (offset : Nat) (rest : List Char) :
    Cursor.advance ⟨offset, text ++ rest⟩ (text.length - 1 + 1) =
      ⟨offset + width text, rest⟩ := by
  rw [Nat.sub_add_cancel h.length_pos, Cursor.advance_append]

/-- A byte is an item if no dash follows it. -/
theorem readItem (h : ReadsByte b text) (hrest : rest.head? ≠ some '-') :
    ClassMember.readItem start ⟨offset, text ++ rest⟩ = .ok (.byte b, text.length - 1) := by
  rw [ClassMember.readItem, h.read_text]
  simp only [bind, Except.bind, h.advance, startsRange_of_head? hrest]
  rfl

/-- A dash between two bytes makes them a range, or is at fault. -/
theorem readItem_range (hlo : ReadsByte lo first) (hhi : ReadsByte hi last) :
    ClassMember.readItem start ⟨offset, first ++ '-' :: (last ++ rest)⟩ =
      (ClassMember.range lo (offset + width first) (.byte hi)).map fun item =>
        (item, first.length + last.length) := by
  have hstarts : ClassMember.startsRange ('-' :: (last ++ rest)) = true := by
    obtain ⟨c, tail, rfl, hc⟩ := hhi.text_eq_cons
    rw [List.cons_append, ClassMember.startsRange, bne_iff_ne]
    rintro rfl
    exact hc (by decide)
  have hlast : Cursor.advance ⟨offset + width first, '-' :: (last ++ rest)⟩ 1 =
      ⟨offset + width first + width ['-'], last ++ rest⟩ := Cursor.advance_append _ ['-'] _
  have hlength : first.length - 1 + (last.length - 1) + 2 = first.length + last.length := by
    have hfirst := hlo.length_pos
    have hsecond := hhi.length_pos
    omega
  rw [ClassMember.readItem, hlo.read_text]
  simp only [bind, Except.bind, hlo.advance, hstarts, hlast, hhi.read_text, hlength, if_true]
  cases ClassMember.range lo (offset + width first) (.byte hi) <;> rfl

end ReadsByte

theorem ClassChar.readsByte (c : ClassChar) : ReadsByte c.byte c.text :=
  ⟨c.text_eq_cons, fun _ _ _ => c.read_text⟩

def ClassItem.member : ClassItem → ClassMember
  | char c => .byte c.byte
  | range lo hi _ => .set (ByteSet.empty.insertRange lo.byte hi.byte)
  | shorthand negated kind => .set (kind.members negated)

theorem ClassItem.has_member (item : ClassItem) (b : UInt8) :
    item.member.has b = true ↔ item.Holds b := by
  cases item with
  | char c => simp [member, ClassMember.has, Holds]
  | range lo hi ordered => simp [member, ClassMember.has, ByteSet.contains_insertRange, Holds]
  | shorthand negated kind => exact kind.contains_members negated b

theorem ClassItem.text_eq_cons (item : ClassItem) :
    ∃ first tail, item.text = first :: tail ∧ first ∉ ['^', '-', ']'] := by
  cases item with
  | char c => exact c.text_eq_cons
  | range lo hi ordered =>
      obtain ⟨first, tail, htext, hfirst⟩ := lo.text_eq_cons
      exact ⟨first, tail ++ '-' :: hi.text, by rw [ClassItem.text, htext]; rfl, hfirst⟩
  | shorthand negated kind => exact ⟨'\\', [kind.letter negated], rfl, by decide⟩

/-- An item is read back if no dash follows it. -/
theorem ClassItem.readItem_text (item : ClassItem) (h : rest.head? ≠ some '-') :
    ClassMember.readItem start ⟨offset, item.text ++ rest⟩ =
      .ok (item.member, item.text.length - 1) := by
  cases item with
  | char c => exact c.readsByte.readItem h
  | range lo hi ordered =>
      have hrange : ClassMember.range lo.byte (offset + width lo.text) (.byte hi.byte) =
          .ok (.set (ByteSet.empty.insertRange lo.byte hi.byte)) := if_pos ordered
      have hlength : (range lo hi ordered).text.length - 1 = lo.text.length + hi.text.length := by
        simp [text]
      rw [hlength, ClassItem.text, List.append_assoc, List.cons_append,
        lo.readsByte.readItem_range hi.readsByte, hrange]
      rfl
  | shorthand negated kind =>
      rw [ClassMember.readItem, ClassItem.text, kind.read_text]
      rfl

/-! ## Whole classes -/

/-- An item as it is written, with what it is read as if no dash follows. -/
structure ReadItem where
  text : List Char
  member : ClassMember
  narrow : member.isWide = false
  text_eq_cons : ∃ first tail, text = first :: tail ∧ first ∉ ['^', '-', ']']
  readItem_text : ∀ (start offset : Nat) {rest : List Char}, rest.head? ≠ some '-' →
    ClassMember.readItem start ⟨offset, text ++ rest⟩ = .ok (member, text.length - 1)

def ClassItem.asRead (item : ClassItem) : ReadItem where
  text := item.text
  member := item.member
  narrow := by cases item <;> rfl
  text_eq_cons := item.text_eq_cons
  readItem_text _ _ _ h := item.readItem_text h

/-- No item starts with a sign of the class. -/
theorem head?_items (items : List ReadItem) {sign : Char} (hsign : sign ∈ ['^', '-', ']'])
    (h : rest.head? ≠ some sign) : (items.flatMap (·.text) ++ rest).head? ≠ some sign := by
  cases items with
  | nil => exact h
  | cons item items =>
      obtain ⟨first, tail, htext, hfirst⟩ := item.text_eq_cons
      rw [List.flatMap_cons, htext]
      intro heq
      obtain rfl := Option.some.inj heq
      exact hfirst hsign

/-- The items are added one after another, and what comes after them is read next. -/
theorem readFrom_items (items : List ReadItem) (first : Bool) (content : ClassContent)
    (h : rest.head? ≠ some '-') :
    ClassContent.readFrom start first content ⟨offset, items.flatMap (·.text) ++ rest⟩ =
      (ClassContent.readFrom start (first && items.isEmpty)
        ((items.map (·.member)).foldl ClassContent.add content)
        ⟨offset + width (items.flatMap (·.text)), rest⟩).map fun found =>
          (found.1, (items.flatMap (·.text)).length + found.2) := by
  induction items generalizing first content offset with
  | nil =>
      simp only [List.flatMap_nil, List.nil_append, List.isEmpty_nil, Bool.and_true, List.map_nil,
        List.foldl_nil, width_nil, Nat.add_zero, List.length_nil, Nat.zero_add]
      cases ClassContent.readFrom start first content ⟨offset, rest⟩ <;> rfl
  | cons item items ih =>
      obtain ⟨c, tail, htext, hc⟩ := item.text_eq_cons
      have hopen : ¬(c = ']' ∧ first = false) := by
        rintro ⟨rfl, -⟩
        exact hc (by decide)
      have hlength : item.text.length - 1 + 1 = item.text.length := by rw [htext]; rfl
      have hitem : ClassMember.readItem start
          ⟨offset, c :: (tail ++ (items.flatMap (·.text) ++ rest))⟩ =
            .ok (item.member, item.text.length - 1) := by
        rw [← List.cons_append, ← htext]
        exact item.readItem_text start offset (head?_items items (by decide) h)
      have hadvance : Cursor.advance ⟨offset, c :: (tail ++ (items.flatMap (·.text) ++ rest))⟩
          item.text.length = ⟨offset + width item.text, items.flatMap (·.text) ++ rest⟩ := by
        rw [← List.cons_append, ← htext, Cursor.advance_append]
      rw [List.flatMap_cons, List.append_assoc, htext, List.cons_append, ClassContent.readFrom,
        if_neg hopen, hitem]
      dsimp only
      rw [hlength, hadvance, ih, ← htext, width_append, ← Nat.add_assoc, List.length_append]
      simp only [Bool.false_and, List.isEmpty_cons, Bool.and_false, List.map_cons, List.foldl_cons]
      cases ClassContent.readFrom start false _ _ with
      | error fault => rfl
      | ok found =>
          simp only [Except.map, Except.ok.injEq, Prod.mk.injEq, true_and]
          omega

/-- The items up to the closing bracket. -/
theorem readFrom_closed {items : List ReadItem} (hne : items ≠ []) (first : Bool)
    (content : ClassContent) :
    ClassContent.readFrom start first content
        ⟨offset, items.flatMap (·.text) ++ ']' :: rest⟩ =
      .ok ((items.map (·.member)).foldl ClassContent.add content,
        (items.flatMap (·.text)).length + 1) := by
  have hlater : (first && items.isEmpty) = false := by
    rw [Bool.eq_false_iff.mpr (mt List.isEmpty_iff.mp hne), Bool.and_false]
  rw [readFrom_items items first content (by simp), hlater, ClassContent.readFrom,
    if_pos ⟨rfl, rfl⟩]
  rfl

/-- The bytes that some item holds. -/
def itemSet (items : List ReadItem) : ByteSet :=
  ((items.map (·.member)).foldl ClassContent.add .empty).members

theorem contains_itemSet (items : List ReadItem) (b : UInt8) :
    (itemSet items).contains b = items.any (·.member.has b) := by
  rw [itemSet, ClassContent.contains_foldl_add, ClassContent.empty, ByteSet.contains_empty,
    Bool.false_or, List.any_map]
  rfl

/-- What a class of these items is read as. -/
def bracketMembers (negated : Bool) (items : List ReadItem) : ByteSet :=
  if negated then (itemSet items).complement else itemSet items

theorem contains_bracketMembers (negated : Bool) (items : List ReadItem) (b : UInt8) :
    (bracketMembers negated items).contains b = (items.any (·.member.has b) != negated) := by
  rw [bracketMembers, ByteSet.contains_negated, contains_itemSet]

/-- What stands before the items. -/
def hat (negated : Bool) : List Char := if negated then ['^'] else []

theorem length_hat (negated : Bool) : (hat negated).length = if negated then 1 else 0 := by
  cases negated <;> rfl

/-- Only the sign of a negated class stands where a hat negates. -/
theorem head?_hat (negated : Bool) (h : rest.head? ≠ some '^') :
    ((hat negated ++ rest).head? == some '^') = negated := by
  cases negated with
  | true => rfl
  | false => exact beq_eq_false_iff_ne.mpr h

theorem readClass_items (negated : Bool) {items : List ReadItem} (hne : items ≠ []) :
    readClass ⟨offset, '[' :: (hat negated ++ (items.flatMap (·.text) ++ ']' :: rest))⟩ =
      .ok (.set (bracketMembers negated items),
        (hat negated).length + ((items.flatMap (·.text)).length + 1)) := by
  have hinside : Cursor.advance
      ⟨offset, '[' :: (hat negated ++ (items.flatMap (·.text) ++ ']' :: rest))⟩ 1 =
        ⟨offset + width ['['], hat negated ++ (items.flatMap (·.text) ++ ']' :: rest)⟩ :=
    Cursor.advance_append offset ['['] _
  have hread : ClassContent.readFrom offset true .empty
      ⟨offset + width ['['] + width (hat negated), items.flatMap (·.text) ++ ']' :: rest⟩ =
        .ok ((items.map (·.member)).foldl ClassContent.add .empty,
          (items.flatMap (·.text)).length + 1) := readFrom_closed hne true .empty
  have hwide : ((items.map (·.member)).foldl ClassContent.add .empty).wide = false := by
    rw [ClassContent.wide_foldl_add, ClassContent.empty, Bool.false_or, List.any_map]
    exact List.any_eq_false.mpr fun item _ => Bool.eq_false_iff.mp item.narrow
  have hatom : ((items.map (·.member)).foldl ClassContent.add .empty).atom negated =
      .set (bracketMembers negated items) := by
    rw [ClassContent.atom, hwide, if_neg Bool.false_ne_true]
    rfl
  have hhat : (items.flatMap (·.text) ++ ']' :: rest).head? ≠ some '^' :=
    head?_items items (by decide) (by simp)
  rw [readClass, hinside]
  dsimp only
  rw [head?_hat negated hhat, ← length_hat, Cursor.advance_append, hread, ← hatom]
  rfl

def bracketText (negated : Bool) (items : List ReadItem) : List Char :=
  '[' :: hat negated ++ items.flatMap (·.text) ++ [']']

theorem readClass_bracketText (negated : Bool) {items : List ReadItem} (hne : items ≠ []) :
    readClass ⟨offset, bracketText negated items ++ rest⟩ =
      .ok (.set (bracketMembers negated items), (bracketText negated items).length - 1) := by
  have htext : bracketText negated items ++ rest =
      '[' :: (hat negated ++ (items.flatMap (·.text) ++ ']' :: rest)) := by
    simp [bracketText]
  have hlength : (bracketText negated items).length - 1 =
      (hat negated).length + ((items.flatMap (·.text)).length + 1) := by
    simp [bracketText]
  rw [htext, hlength]
  exact readClass_items negated hne

namespace CharClass

/-- What a class is read as. -/
def members (c : CharClass) : ByteSet := bracketMembers c.negated (c.items.map ClassItem.asRead)

theorem contains_members {c : CharClass} {b : UInt8} :
    c.members.contains b = true ↔ ((∃ item ∈ c.items, item.Holds b) ↔ c.negated = false) := by
  rw [members, contains_bracketMembers, List.any_map, bne_iff_ne, ne_eq]
  have hany : c.items.any ((fun item => item.member.has b) ∘ ClassItem.asRead) = true ↔
      ∃ item ∈ c.items, item.Holds b := by
    rw [List.any_eq_true]
    exact exists_congr fun item => and_congr_right fun _ => item.has_member b
  rw [← hany]
  cases c.items.any _ <;> cases c.negated <;> decide

theorem readClass_text (c : CharClass) :
    readClass ⟨offset, c.text ++ rest⟩ = .ok (.set c.members, c.text.length - 1) := by
  have htext : c.text = bracketText c.negated (c.items.map ClassItem.asRead) := by
    rw [text, bracketText, List.flatMap_map]
    rfl
  rw [htext]
  exact readClass_bracketText c.negated fun hnil => c.ne_nil (List.map_eq_nil_iff.mp hnil)

/-- The set of a class has a member for each byte that the class holds. -/
theorem exists_contains_of_holds {caseless : Bool} {c : CharClass} {b : UInt8}
    (h : c.Holds caseless b) :
    ∃ a, c.members.contains a = true ∧ caseFold caseless a = caseFold caseless b := by
  rw [Holds] at h
  split at h
  case isTrue hnegated =>
    refine ⟨b, contains_members.mpr ?_, rfl⟩
    rw [hnegated]
    refine iff_of_false ?_ (by decide)
    rintro ⟨item, hitem, hholds⟩
    exact h ⟨item, hitem, b, hholds, rfl⟩
  case isFalse hpositive =>
    obtain ⟨item, hitem, a, ha, heq⟩ := h
    refine ⟨a, contains_members.mpr ?_, heq⟩
    exact iff_of_true ⟨item, hitem, ha⟩ (Bool.eq_false_iff.mpr hpositive)

end CharClass

end Grammar

end LiteralSieve
