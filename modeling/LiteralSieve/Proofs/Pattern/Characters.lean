import LiteralSieve.Proofs.Numerals
import LiteralSieve.Proofs.Pattern.Lexemes

namespace LiteralSieve

/-!
# Characters in a pattern

A character is written as it stands, with a backslash or by a code. A code is read up to its last
digit and no further: it ends after a fixed number of digits or with its brace, so a digit or a brace
behind it belongs to what comes next.
-/

/-- The digits as characters. -/
def digitChars (digits : Bytes) : List Char := digits.map Byte.toChar

theorem length_digitChars (digits : Bytes) : (digitChars digits).length = digits.length :=
  List.length_map _

section

variable {base limit n : Nat} {digits : Bytes} {rest : List Char}

theorem WritesDigit.digit?_toChar {d : Nat} {b : UInt8} (h : WritesDigit d b) (hlt : d < base) :
    Escaped.digit? base (Byte.toChar b) = some d := by
  -- Which digit it is does not depend on the base.
  have hvalue : Escaped.digit? 16 (Byte.toChar b) = some d → Escaped.digit? base (Byte.toChar b) =
      some d := by
    intro hsixteen
    rw [Escaped.digit?, Option.filter_eq_some_iff] at hsixteen ⊢
    exact ⟨hsixteen.1, decide_eq_true hlt⟩
  apply hvalue
  cases h with
  | figure h =>
      have hall : ∀ d < 10, Escaped.digit? 16 (Byte.toChar (UInt8.ofNat (0x30 + d))) = some d := by
        decide
      exact hall _ h
  | capital h =>
      have hall : ∀ d < 6,
          Escaped.digit? 16 (Byte.toChar (UInt8.ofNat (0x41 + d))) = some (10 + d) := by
        decide
      exact hall _ h
  | small h =>
      have hall : ∀ d < 6,
          Escaped.digit? 16 (Byte.toChar (UInt8.ofNat (0x61 + d))) = some (10 + d) := by
        decide
      exact hall _ h

namespace Numeral

theorem isDigitOf (h : Numeral base n digits) :
    ∀ c ∈ digitChars digits, Escaped.isDigitOf base c = true := by
  intro c hc
  obtain ⟨b, hb, rfl⟩ := List.mem_map.mp hc
  obtain ⟨d, hlt, hwrites⟩ := h.exists_writesDigit hb
  rw [Escaped.isDigitOf, hwrites.digit?_toChar hlt]
  rfl

theorem number_digitChars (h : Numeral base n digits) :
    Escaped.number base (digitChars digits) = min n maxNumber := by
  rw [Escaped.number, digitChars, List.map_map]
  apply h.heldNumber_map
  intro d b hlt hb
  rw [Function.comp_apply, hb.digit?_toChar hlt, Option.getD_some]

/-- The digits are all that is taken, if there may be no more or no more come. -/
theorem leadingDigits_digitChars (h : Numeral base n digits) (hle : digits.length ≤ limit)
    (hstop : ∀ c ∈ (rest.take (limit - digits.length)).head?, Escaped.isDigitOf base c = false) :
    Escaped.leadingDigits base limit (digitChars digits ++ rest) = digitChars digits := by
  have hafter : (rest.take (limit - digits.length)).takeWhile (Escaped.isDigitOf base) = [] := by
    cases hrest : rest.take (limit - digits.length) with
    | nil => rfl
    | cons c more =>
        have hc := hstop c (by rw [hrest]; rfl)
        exact List.takeWhile_cons_of_neg (Bool.eq_false_iff.mp hc)
  rw [Escaped.leadingDigits, List.take_append, length_digitChars,
    List.take_of_length_le ((length_digitChars digits).trans_le hle),
    List.takeWhile_append_of_pos h.isDigitOf, hafter, List.append_nil]

theorem leadingDigits_of_length_eq (h : Numeral base n digits) (hlength : digits.length = limit)
    (rest : List Char) :
    Escaped.leadingDigits base limit (digitChars digits ++ rest) = digitChars digits := by
  apply h.leadingDigits_digitChars hlength.le
  rw [hlength, Nat.sub_self, List.take_zero]
  exact fun c hc => nomatch hc

theorem digits?_of_leadingDigits (h : Numeral base n digits)
    (hleading : Escaped.leadingDigits base limit rest = digitChars digits) :
    Escaped.digits? base limit rest = some (min n maxNumber, digits.length) := by
  have hne : digitChars digits ≠ [] := mt List.map_eq_nil_iff.mp h.ne_nil
  rw [Escaped.digits?, hleading, h.number_digitChars, length_digitChars]
  exact if_neg (mt List.isEmpty_iff.mp hne)

theorem digits?_of_length_eq (h : Numeral base n digits) (hle : n ≤ maxNumber)
    (hlength : digits.length = limit) (rest : List Char) :
    Escaped.digits? base limit (digitChars digits ++ rest) = some (n, digits.length) := by
  rw [h.digits?_of_leadingDigits (h.leadingDigits_of_length_eq hlength rest), Nat.min_eq_left hle]

/-- In braces a code is read, or refused if it is larger than all. -/
theorem braced?_digitChars (h : Numeral base n digits) (hle : digits.length ≤ limit)
    (hbrace : Escaped.isDigitOf base '}' = false) (rest : List Char) :
    Escaped.braced? base limit ('{' :: (digitChars digits ++ '}' :: rest)) =
      if n ≤ Escaped.maxCode then some (n, digits.length + 2) else none := by
  have hread : Escaped.digits? base limit (digitChars digits ++ '}' :: rest) =
      some (min n maxNumber, digits.length) := by
    apply h.digits?_of_leadingDigits
    apply h.leadingDigits_digitChars hle
    intro c hc
    rw [List.head?_take] at hc
    split at hc
    · cases hc
    · obtain rfl := Option.some.inj hc
      exact hbrace
  have hclose : ((digitChars digits ++ '}' :: rest).drop digits.length).head? = some '}' := by
    rw [← length_digitChars, List.drop_left]
    rfl
  have hbound : Escaped.maxCode < maxNumber := by decide
  simp only [Escaped.braced?, hread, hclose, true_and, min_maxNumber_le_iff hbound]
  split
  case isTrue hcode => rw [min_maxNumber_of_le hbound hcode]
  case isFalse => rfl

theorem hex?_digitChars (h : Numeral 16 n digits) (hle : n ≤ maxNumber)
    (hlength : digits.length = 2) (rest : List Char) :
    Escaped.hex? (digitChars digits ++ rest) = some (n, digits.length) := by
  obtain ⟨first, more, rfl⟩ := List.exists_cons_of_ne_nil h.ne_nil
  have hfirst : Byte.toChar first ≠ '{' := by
    intro heq
    have hdigit := h.isDigitOf (Byte.toChar first) List.mem_cons_self
    rw [heq] at hdigit
    cases hdigit
  have hread := h.digits?_of_length_eq hle hlength rest
  unfold Escaped.hex?
  split
  case h_1 heq => exact absurd (List.cons.inj heq).1 hfirst
  case h_2 => exact hread

end Numeral

end

namespace Grammar

/-- The ways in which a code is written after a backslash. -/
inductive Code (n : Nat) : List Char → Prop
  | hexadecimal {digits : Bytes} (h : Numeral 16 n digits) (hlength : digits.length = 2) :
      Code n ('x' :: digitChars digits)
  | hexadecimalBraced {digits : Bytes} (h : Numeral 16 n digits) (hlength : digits.length ≤ 8) :
      Code n ('x' :: '{' :: (digitChars digits ++ ['}']))
  | octalBraced {digits : Bytes} (h : Numeral 8 n digits) (hlength : digits.length ≤ 11) :
      Code n ('o' :: '{' :: (digitChars digits ++ ['}']))
  | unicode {digits : Bytes} (h : Numeral 16 n digits) (hlength : digits.length = 4) :
      Code n ('u' :: digitChars digits)
  | octal {digits : Bytes} (h : Numeral 8 n digits) (hlength : digits.length = 2) :
      Code n ('0' :: digitChars digits)
  /-- The sign is visible and no small letter. -/
  | control {sign : Char} (hlow : '!' ≤ sign) (hhigh : sign ≤ '~') (hcase : sign.isLower = false)
      (h : sign.toNat ^^^ 0x40 = n) : Code n ['c', sign]

theorem control?_sign {sign : Char} (hlow : '!' ≤ sign) (hhigh : sign ≤ '~')
    (hcase : sign.isLower = false) (rest : List Char) :
    Escaped.control? (sign :: rest) = some (sign.toNat ^^^ 0x40, 1) := by
  have hvisible : ' ' ≤ sign ∧ sign ≤ '~' := ⟨Char.le_trans (by decide) hlow, hhigh⟩
  have hupper : sign.toUpper = sign := dif_neg fun ⟨hlow, hhigh⟩ =>
    Bool.eq_false_iff.mp hcase
      (Bool.and_eq_true_iff.mpr ⟨decide_eq_true hlow, decide_eq_true hhigh⟩)
  rw [Escaped.control?, if_pos hvisible, hupper]

/-- An escape with a code is read as the code's character, whatever comes after it. -/
theorem Code.atom?_eq {n : Nat} {text : List Char} (h : Code n text) (hcode : n ≤ Escaped.maxCode) :
    ∃ letter tail, text = letter :: tail ∧
      ∀ rest, Escaped.atom? letter (tail ++ rest) = some (Atom.ofCode n, tail.length) := by
  have hle : n ≤ maxNumber := hcode.trans (by decide)
  cases h with
  | @hexadecimal digits h hlength =>
      refine ⟨'x', digitChars digits, rfl, fun rest => ?_⟩
      change (Escaped.hex? _).map Escaped.coded = _
      rw [h.hex?_digitChars hle hlength, length_digitChars]
      rfl
  | @hexadecimalBraced digits h hlength =>
      refine ⟨'x', '{' :: (digitChars digits ++ ['}']), rfl, fun rest => ?_⟩
      change (Escaped.braced? 16 8 ('{' :: (digitChars digits ++ ['}'] ++ rest))).map _ = _
      rw [List.append_assoc, List.singleton_append, h.braced?_digitChars hlength rfl, if_pos hcode]
      simp [Escaped.coded, length_digitChars]
  | @octalBraced digits h hlength =>
      refine ⟨'o', '{' :: (digitChars digits ++ ['}']), rfl, fun rest => ?_⟩
      change (Escaped.braced? 8 11 ('{' :: (digitChars digits ++ ['}'] ++ rest))).map _ = _
      rw [List.append_assoc, List.singleton_append, h.braced?_digitChars hlength rfl, if_pos hcode]
      simp [Escaped.coded, length_digitChars]
  | @unicode digits h hlength =>
      refine ⟨'u', digitChars digits, rfl, fun rest => ?_⟩
      change some (Escaped.coded (Escaped.unicode _)) = _
      rw [Escaped.unicode, h.digits?_of_length_eq hle hlength, length_digitChars, hlength]
      rfl
  | @octal digits h hlength =>
      refine ⟨'0', digitChars digits, rfl, fun rest => ?_⟩
      change some (Escaped.coded (Escaped.number 8 (Escaped.leadingDigits 8 2 _),
        (Escaped.leadingDigits 8 2 _).length)) = _
      rw [h.leadingDigits_of_length_eq hlength, h.number_digitChars,
        Nat.min_eq_left hle]
      rfl
  | @control sign hlow hhigh hcase h =>
      refine ⟨'c', [sign], rfl, fun rest => ?_⟩
      change (Escaped.control? _).map Escaped.coded = _
      rw [List.singleton_append, control?_sign hlow hhigh hcase, h]
      rfl

/-! ## Spellings of a character -/

/-- The blanks that may be layout. -/
def layoutSigns : List Char := [' ', '\t', '\n', Char.ofNat 0x0B, Char.ofNat 0x0C, '\r']

/-- How a character is written that stands for itself; `blanks` tells whether layout is ignored
there. -/
inductive SpellsChar (blanks : Bool) (c : Char) : List Char → Prop
  | raw (h : c ∉ reservedSigns) (hlayout : blanks = true → c ∉ '#' :: layoutSigns) :
      SpellsChar blanks c [c]
  | escaped (h : c.isAlphanum = false) : SpellsChar blanks c ['\\', c]
  | code {text : List Char} (hascii : isAsciiChar c = true) (h : Code c.toNat text) :
      SpellsChar blanks c ('\\' :: text)

theorem mem_layoutSigns_of_isLayout {c : Char} (h : isLayout c = true) : c ∈ layoutSigns := by
  rw [isLayout, decide_eq_true_eq] at h
  rcases h with rfl | ⟨hlow, hhigh⟩
  · exact List.mem_cons_self
  · have hascii : isAsciiChar c = true :=
      decide_eq_true (UInt32.lt_of_le_of_lt hhigh (by decide))
    have hall := forall_ascii (p := fun c => '\t' ≤ c → c ≤ '\r' → c ∈ layoutSigns)
      (by decide +kernel) hascii
    exact hall hlow hhigh

theorem isLayout_of_mem {c : Char} (h : c ∈ layoutSigns) : isLayout c = true := by
  have hall : layoutSigns.all isLayout = true := by decide
  exact List.all_eq_true.mp hall c h

variable {blanks scope : Bool} {c : Char} {text rest : List Char}

theorem SpellsChar.readsAs (h : SpellsChar blanks c text) (rest : List Char) :
    ReadsAs ⟨blanks, scope⟩ text (.atom (.char c)) rest := by
  cases h with
  | escaped h => exact readsAs_escaped h _ rest
  | raw h hlayout =>
      apply readsAs_ordinary
      · exact fun hmem => h (List.mem_of_mem_take (i := 8) hmem)
      · have hquantifier : c ∉ quantifierSigns := fun hmem => h (List.mem_of_mem_drop (i := 8) hmem)
        exact Quantifier.starts_of_unquantified (unquantified_cons hquantifier)
      · intro hextended
        obtain ⟨hcomment, hblank⟩ := not_or.mp (mt List.mem_cons.mpr (hlayout hextended))
        exact ⟨Bool.eq_false_iff.mpr (mt mem_layoutSigns_of_isLayout hblank), hcomment⟩
  | code hascii h =>
      have hlt : c.toNat < 0x80 := by
        rw [isAsciiChar, decide_eq_true_eq, UInt32.lt_iff_toNat_lt] at hascii
        exact hascii
      have hmax : c.toNat ≤ Escaped.maxCode := hlt.le.trans (by decide)
      have hchar : Atom.ofCode c.toNat = .char c := by
        rw [Atom.ofCode, if_pos hlt, Char.ofNat_toNat]
      obtain ⟨letter, tail, rfl, hread⟩ := h.atom?_eq hmax
      exact readsAs_backslash (hchar ▸ hread rest)

/-- A spelling starts with no sign of a quantifier, and with no layout where that is ignored. -/
theorem SpellsChar.text_eq_cons (h : SpellsChar blanks c text) :
    ∃ first tail, text = first :: tail ∧ first ∉ quantifierSigns ∧
      (blanks = true → first ∉ '#' :: layoutSigns) := by
  cases h with
  | raw h hlayout =>
      exact ⟨c, [], rfl, fun hmem => h (List.mem_of_mem_drop (i := 8) hmem), hlayout⟩
  | escaped h => exact ⟨'\\', [c], rfl, by decide, fun _ => by decide⟩
  | code hascii h => exact ⟨'\\', _, rfl, by decide, fun _ => by decide⟩

end Grammar

end LiteralSieve
