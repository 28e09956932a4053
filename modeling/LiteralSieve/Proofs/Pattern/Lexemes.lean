import LiteralSieve.Pattern.Lexeme
import LiteralSieve.Proofs.Pattern.Classes
import LiteralSieve.Proofs.Pattern.Repetitions

namespace LiteralSieve

/-!
# Reading lexemes

The texts of factors, of the openings of groups and of the signs between them are read back as
lexemes, whatever stands after them.
-/

open Grammar

/-- The text is read as one lexeme before the rest. -/
def ReadsAs (flags : Flags) (text : List Char) (lexeme : Lexeme) (rest : List Char) : Prop :=
  ∃ c tail, text = c :: tail ∧
    ∀ offset, Lexeme.read flags offset c (tail ++ rest) = .ok (lexeme, tail.length)

variable {scope : Bool} {rest : List Char}

theorem readsAs_bar (flags : Flags) (rest : List Char) : ReadsAs flags ['|'] .bar rest :=
  ⟨'|', [], rfl, fun _ => rfl⟩

theorem readsAs_close (flags : Flags) (rest : List Char) : ReadsAs flags [')'] .close rest :=
  ⟨')', [], rfl, fun _ => rfl⟩

/-! ## Characters and sets -/

theorem readsAs_gap {c : Char} (h : c = '^' ∨ c = '$' ∨ c = '.') (flags : Flags)
    (rest : List Char) : ReadsAs flags [c] (.atom .gap) rest := by
  rcases h with rfl | rfl | rfl <;> exact ⟨_, [], rfl, fun _ => rfl⟩

theorem atom?_of_isAlphanum_eq_false {c : Char} (h : c.isAlphanum = false) (rest : List Char) :
    Escaped.atom? c rest = some (.char c, 0) := by
  have hliteral := literal_of_isAlphanum_eq_false h
  rw [Escaped.atom?, hliteral.ofEscape?]
  dsimp only
  unfold Escaped.ofLetter?
  split
  case h_12 =>
    rw [hliteral.isGapLetter, if_neg Bool.false_ne_true, hliteral.isDigit,
      if_neg Bool.false_ne_true, hliteral.controlLetter?]
    rfl
  all_goals cases h

/-- A backslash and what is read after it. -/
theorem readsAs_backslash {flags : Flags} {letter : Char} {tail : List Char} {atom : Atom}
    (h : Escaped.atom? letter (tail ++ rest) = some (atom, tail.length)) :
    ReadsAs flags ('\\' :: letter :: tail) (.atom atom) rest := by
  refine ⟨'\\', letter :: tail, rfl, fun offset => ?_⟩
  rw [List.cons_append, Lexeme.read, h]
  rfl

theorem readsAs_escaped {c : Char} (h : c.isAlphanum = false) (flags : Flags)
    (rest : List Char) : ReadsAs flags ['\\', c] (.atom (.char c)) rest :=
  readsAs_backslash (atom?_of_isAlphanum_eq_false h rest)

/-- The signs that have a meaning wherever an atom may stand, but for those of quantifiers. -/
def structureSigns : List Char := ['\\', '|', '(', ')', '[', '^', '$', '.']

/-- A character stands for itself where it is no sign, starts no quantifier and is no layout. -/
theorem readsAs_ordinary {c : Char} {flags : Flags} (h : c ∉ structureSigns)
    (hstarts : Quantifier.starts (c :: rest) = false)
    (hlayout : flags.extended = true → isLayout c = false ∧ c ≠ '#') :
    ReadsAs flags [c] (.atom (.char c)) rest := by
  refine ⟨c, [], rfl, fun offset => ?_⟩
  have hblank : ¬(flags.extended = true ∧ isLayout c = true) :=
    fun hboth => Bool.eq_false_iff.mp (hlayout hboth.1).1 hboth.2
  have hcomment : ¬(flags.extended = true ∧ c = '#') := fun hboth => (hlayout hboth.1).2 hboth.2
  rw [List.nil_append]
  unfold Lexeme.read
  split
  case h_9 =>
    rw [hstarts, if_neg Bool.false_ne_true, if_neg hblank, if_neg hcomment]
    rfl
  all_goals exact absurd (by decide) h

theorem readsAs_plain {c : Char} (h : c ∉ reservedSigns) (rest : List Char) :
    ReadsAs ⟨false, scope⟩ [c] (.atom (.char c)) rest := by
  have hquantifier : c ∉ quantifierSigns := fun hmem => h (List.mem_of_mem_drop (i := 8) hmem)
  apply readsAs_ordinary
  · exact fun hmem => h (List.mem_of_mem_take (i := 8) hmem)
  · exact Quantifier.starts_of_unquantified (unquantified_cons hquantifier)
  · exact fun hextended => absurd hextended Bool.false_ne_true

theorem readsAs_char (c : Char) (rest : List Char) :
    ReadsAs ⟨false, scope⟩ (charText c) (.atom (.char c)) rest := by
  rw [charText]
  split
  case isTrue hpunctuation =>
    exact readsAs_escaped (isAlphanum_of_isPunctuation hpunctuation) _ rest
  case isFalse hplain =>
    have hall : reservedSigns.all isPunctuation = true := by decide
    exact readsAs_plain (fun hmem => hplain (List.all_eq_true.mp hall c hmem)) rest

theorem readsAs_shorthand (flags : Flags) (negated : Bool) (kind : Shorthand) (rest : List Char) :
    ReadsAs flags (kind.text negated) (.atom (.set (kind.members negated))) rest := by
  apply readsAs_backslash
  rw [List.nil_append, Escaped.atom?, kind.ofEscape?_letter]
  rfl

theorem readsAs_class (flags : Flags) (content : CharClass) (rest : List Char) :
    ReadsAs flags content.text (.atom (.set content.members)) rest := by
  refine ⟨'[', content.text.tail, rfl, fun offset => ?_⟩
  have hread : readClass ⟨offset, '[' :: (content.text.tail ++ rest)⟩ =
      .ok (.set content.members, content.text.tail.length) := content.readClass_text
  rw [Lexeme.read, hread]

/-! ## Groups -/

theorem opener_read_of_unquantified (h : Unquantified rest) (flags : Flags) :
    Opener.read flags rest = .ok (.body false flags, 0) := by
  unfold Opener.read
  split
  case h_4 => rfl
  all_goals exact absurd (h _ rfl) (by decide)

theorem readsAs_opening (kind : GroupKind) {extended : Bool} (h : Unquantified rest) :
    ReadsAs ⟨extended, scope⟩ kind.text (.body false ⟨extended, kind.scope scope⟩) rest := by
  cases kind with
  | capturing =>
      refine ⟨'(', [], rfl, fun offset => ?_⟩
      rw [List.nil_append, Lexeme.read, opener_read_of_unquantified h]
      rfl
  | plain => exact ⟨'(', ['?', ':'], rfl, fun offset => rfl⟩
  | caseless => exact ⟨'(', ['?', 'i', ':'], rfl, fun offset => rfl⟩
  | caseful => exact ⟨'(', ['?', '-', 'i', ':'], rfl, fun offset => rfl⟩

end LiteralSieve
