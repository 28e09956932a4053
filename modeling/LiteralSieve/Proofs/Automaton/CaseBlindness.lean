import LiteralSieve.Proofs.Spellings

namespace LiteralSieve

/-!
# Texts that differ in case

Signs of escapes are no letters, hexadecimal digits write the same number in either case, and names
of characters are known in either case too. So the case of a text moves no border between its letters,
and changes no letter but in its own case. An automaton that does not tell the cases apart shows the
same hits in both texts, also where a neighbour decides whether a hit is a whole word.
-/

/-- The texts differ at most in the case of ASCII letters. -/
def SameButCase (text other : Bytes) : Prop :=
  List.Forall₂ (fun a b => a = b ∨ (Byte.isAlpha a = true ∧ b = Byte.flipCase a)) text other

instance (text other : Bytes) : Decidable (SameButCase text other) :=
  inferInstanceAs (Decidable (List.Forall₂ _ text other))

namespace Byte

theorem toLower_flipCase {b : UInt8} (h : isAlpha b = true) : toLower (flipCase b) = toLower b :=
  forall_of_all (fun b => isAlpha b = true → toLower (flipCase b) = toLower b)
    (by decide +kernel) b h

@[simp] theorem toLower_toLower (b : UInt8) : toLower (toLower b) = toLower b :=
  forall_of_all (fun b => toLower (toLower b) = toLower b) (by decide +kernel) b

@[simp] theorem hexValue?_toLower (b : UInt8) : hexValue? (toLower b) = hexValue? b :=
  forall_of_all (fun b => hexValue? (toLower b) = hexValue? b) (by decide +kernel) b

@[simp] theorem isDigit_toLower (b : UInt8) : isDigit (toLower b) = isDigit b :=
  forall_of_all (fun b => isDigit (toLower b) = isDigit b) (by decide +kernel) b

@[simp] theorem isWord_toUpper (b : UInt8) : isWord (toUpper b) = isWord b :=
  forall_of_all (fun b => isWord (toUpper b) = isWord b) (by decide +kernel) b

@[simp] theorem toUpper_toUpper (b : UInt8) : toUpper (toUpper b) = toUpper b :=
  forall_of_all (fun b => toUpper (toUpper b) = toUpper b) (by decide +kernel) b

/-- A byte that is no letter is met in the lowered text where it stands. -/
theorem toLower_beq (sign : UInt8) (h : isAlpha sign = false) (b : UInt8) :
    (toLower b == sign) = (b == sign) := by
  have hletter : ∀ c : UInt8, isAlpha c = true → (c == sign) = false := by
    intro c hc
    refine beq_eq_false_iff_ne.mpr fun heq => ?_
    rw [heq, h] at hc
    exact Bool.noConfusion hc
  rcases eq_toLower_or b with hb | ⟨hb, hlower, -⟩
  · rw [← hb]
  · rw [hletter b hb, hletter (toLower b) hlower]

end Byte

theorem SameButCase.map_toLower_eq {text other : Bytes} (h : SameButCase text other) :
    text.map Byte.toLower = other.map Byte.toLower := by
  induction h with
  | nil => rfl
  | cons hb _ ih =>
      rw [List.map_cons, List.map_cons, ih]
      rcases hb with rfl | ⟨halpha, rfl⟩
      · rfl
      · rw [Byte.toLower_flipCase halpha]

/-! ## Escapes -/

namespace Escape

theorem hexNumber?_map_toLower (n : Nat) (rest : Bytes) :
    hexNumber? n (rest.map Byte.toLower) = hexNumber? n rest := by
  simp only [hexNumber?, ← List.map_take, List.length_map, List.foldlM_map, Byte.hexValue?_toLower]

theorem url?_map_toLower (rest : Bytes) : url? (rest.map Byte.toLower) = url? rest := by
  have hnarrow : urlNarrow? (rest.map Byte.toLower) = urlNarrow? rest := by
    rw [urlNarrow?, urlNarrow?, hexNumber?_map_toLower]
  have hwide : urlWide? (rest.map Byte.toLower) = urlWide? rest := by
    cases rest with
    | nil => rfl
    | cons u rest =>
        have hu : (Byte.toLower u == 0x75 || Byte.toLower u == 0x55) = (u == 0x75 || u == 0x55) :=
          Byte.forall_of_all (fun u => (Byte.toLower u == 0x75 || Byte.toLower u == 0x55) =
            (u == 0x75 || u == 0x55)) (by decide +kernel) u
        rw [List.map_cons, urlWide?, urlWide?, hu, hexNumber?_map_toLower]
  rw [url?, url?, hwide, hnarrow]

theorem boundedNumber_map_toLower (base : Nat) (digits : Bytes) :
    boundedNumber base (digits.map Byte.toLower) = boundedNumber base digits := by
  simp only [boundedNumber, List.map_map, Function.comp_def, Byte.hexValue?_toLower]

theorem htmlCode?_map_toLower (base skip : Nat) (isDigit : UInt8 → Bool)
    (hdigit : ∀ b, isDigit (Byte.toLower b) = isDigit b) (rest : Bytes) :
    htmlCode? base skip isDigit (rest.map Byte.toLower) = htmlCode? base skip isDigit rest := by
  have hrun : ((rest.map Byte.toLower).drop skip).takeWhile isDigit =
      ((rest.drop skip).takeWhile isDigit).map Byte.toLower := by
    rw [← List.map_drop, List.takeWhile_map]
    congr 2
    funext b
    exact hdigit b
  simp only [htmlCode?, hrun, List.isEmpty_map, List.length_map, boundedNumber_map_toLower]

theorem htmlName?_map_toLower (rest : Bytes) :
    htmlName? (rest.map Byte.toLower) = htmlName? rest := by
  have hlower : Byte.toLower ∘ Byte.toLower = Byte.toLower := funext Byte.toLower_toLower
  simp only [htmlName?, ← List.map_take, List.map_map, hlower]

theorem htmlBody?_of_ne {rest : Bytes} (h : ∀ x more, rest ≠ 0x23 :: x :: more) :
    htmlBody? rest = htmlName? rest := by
  unfold htmlBody?
  split
  case h_1 x more => exact absurd rfl (h x more)
  case h_2 => rfl

theorem htmlBody?_map_toLower (rest : Bytes) :
    htmlBody? (rest.map Byte.toLower) = htmlBody? rest := by
  by_cases hcode : ∃ x more, rest = 0x23 :: x :: more
  · obtain ⟨x, more, rfl⟩ := hcode
    have hx : (Byte.toLower x == 0x78 || Byte.toLower x == 0x58) = (x == 0x78 || x == 0x58) :=
      Byte.forall_of_all (fun x => (Byte.toLower x == 0x78 || Byte.toLower x == 0x58) =
        (x == 0x78 || x == 0x58)) (by decide +kernel) x
    have hdecimal := htmlCode?_map_toLower 10 1 Byte.isDigit Byte.isDigit_toLower (0x23 :: x :: more)
    have hhexadecimal := htmlCode?_map_toLower 16 2 (fun b => (Byte.hexValue? b).isSome)
      (fun b => congrArg Option.isSome (Byte.hexValue?_toLower b)) (0x23 :: x :: more)
    have hlower : Byte.toLower 0x23 = 0x23 := rfl
    rw [List.map_cons, List.map_cons, hlower] at hdecimal hhexadecimal ⊢
    rw [htmlBody?, htmlBody?, hx, hdecimal, hhexadecimal]
  · -- The sign of a code is no letter, so the lowered text does not start a code either.
    have hsame : ∀ x more, rest.map Byte.toLower ≠ 0x23 :: x :: more := by
      intro x more heq
      obtain ⟨sign, _, rfl, hsign, hmore⟩ := List.map_eq_cons_iff.mp heq
      obtain ⟨x, more, rfl, -, -⟩ := List.map_eq_cons_iff.mp hmore
      have hbeq := Byte.toLower_beq 0x23 rfl sign
      rw [hsign, beq_self_eq_true] at hbeq
      exact hcode ⟨x, more, by rw [beq_iff_eq.mp hbeq.symm]⟩
    rw [htmlBody?_of_ne hsame, htmlName?_map_toLower,
      htmlBody?_of_ne fun x more heq => hcode ⟨x, more, heq⟩]

theorem html?_map_toLower (rest : Bytes) : html? (rest.map Byte.toLower) = html? rest := by
  have hsemicolon : ∀ i : Nat,
      ((rest.map Byte.toLower)[i]? == some 0x3B) = (rest[i]? == some 0x3B) := by
    intro i
    rw [List.getElem?_map]
    cases rest[i]? with
    | none => rfl
    | some b => exact Byte.toLower_beq 0x3B rfl b
  simp only [html?, htmlBody?_map_toLower, hsemicolon]

end Escape

/-! ## Letters -/

/-- The letter in upper case, at the same place. -/
def Letter.raise (letter : Letter) : Letter := { letter with byte := Byte.toUpper letter.byte }

namespace EscapeMode

variable {mode : EscapeMode} {text other : Bytes}

theorem readLetter_map_toLower (mode : EscapeMode) (b : UInt8) (rest : Bytes) :
    (mode.readLetter (Byte.toLower b) (rest.map Byte.toLower)).2 = (mode.readLetter b rest).2 ∧
      Byte.toUpper (mode.readLetter (Byte.toLower b) (rest.map Byte.toLower)).1 =
        Byte.toUpper (mode.readLetter b rest).1 := by
  cases mode with
  | plain => exact ⟨rfl, Byte.toUpper_toLower b⟩
  | url =>
      simp only [readLetter, Byte.toLower_beq 0x2B rfl,
        Byte.toLower_beq 0x25 rfl, Escape.url?_map_toLower]
      split_ifs with hplus hpercent
      · exact ⟨rfl, rfl⟩
      · cases Escape.url? rest with
        | none => exact ⟨rfl, Byte.toUpper_toLower b⟩
        | some escape => exact ⟨rfl, rfl⟩
      · exact ⟨rfl, Byte.toUpper_toLower b⟩
  | html =>
      simp only [readLetter, Byte.toLower_beq 0x26 rfl, Escape.html?_map_toLower]
      split_ifs with hampersand
      · cases Escape.html? rest with
        | none => exact ⟨rfl, Byte.toUpper_toLower b⟩
        | some escape => exact ⟨rfl, rfl⟩
      · exact ⟨rfl, Byte.toUpper_toLower b⟩

/-- A text has its letters where the lowered text has them, and the same but for their case. -/
theorem map_raise_lettersFrom (mode : EscapeMode) (offset : Nat) (text : Bytes) :
    (mode.lettersFrom offset (text.map Byte.toLower)).map Letter.raise =
      (mode.lettersFrom offset text).map Letter.raise := by
  fun_induction mode.lettersFrom offset text with
  | case1 offset => simp [lettersFrom]
  | case2 offset b rest byte used hread ih =>
      obtain ⟨hused, hbyte⟩ := mode.readLetter_map_toLower b rest
      rw [hread] at hused hbyte
      rw [List.map_cons, lettersFrom_cons, List.map_cons, List.map_cons, hused, ← List.map_drop, ih]
      simp only [Letter.raise, hbyte]

theorem map_raise_letters (mode : EscapeMode) (h : SameButCase text other) :
    (mode.letters text).map Letter.raise = (mode.letters other).map Letter.raise := by
  rw [letters_eq_lettersFrom, letters_eq_lettersFrom, ← map_raise_lettersFrom mode 0 text,
    h.map_toLower_eq, map_raise_lettersFrom]

end EscapeMode

/-! ## Scans -/

namespace Automaton

variable {V : Type} {automaton : Automaton V} {text other : Bytes}

theorem touchesWord_raise (letter : Option Letter) :
    touchesWord (letter.map Letter.raise) = touchesWord letter := by
  cases letter with
  | none => rfl
  | some letter => exact Byte.isWord_toUpper letter.byte

theorem hitAt?_raise (past : List Letter) (ahead : Option Letter) (s : StateId) :
    automaton.hitAt? (past.map Letter.raise) (ahead.map Letter.raise) s =
      automaton.hitAt? past ahead s := by
  simp only [hitAt?, List.head?_map, List.getElem?_map, touchesWord_raise, Option.bind_eq_bind,
    Option.bind_map, Function.comp_def, Letter.raise]

theorem hitsFrom_raise (hcase : automaton.config.caseInsensitive = true) (s : StateId)
    (past letters : List Letter) :
    automaton.hitsFrom s (past.map Letter.raise) (letters.map Letter.raise) =
      automaton.hitsFrom s past letters := by
  induction letters generalizing s past with
  | nil => rfl
  | cons letter rest ih =>
      have hfold : automaton.fold letter.raise.byte = automaton.fold letter.byte := by
        simp only [fold, AutomatonConfig.fold, hcase, if_true, Letter.raise, Byte.toUpper_toUpper]
      have hhits : ∀ past ahead s, automaton.hitsAt (List.map Letter.raise past)
          (Option.map Letter.raise ahead) s = automaton.hitsAt past ahead s := by
        intro past ahead s
        simp only [hitsAt, funext (hitAt?_raise past ahead)]
      simp only [List.map_cons, hitsFrom, hfold]
      rw [← List.map_cons, ← List.map_take, List.head?_map, hhits, ih]

/-- Where case does not count, texts that differ in case have the same hits. -/
theorem findAll_of_sameButCase (hcase : automaton.config.caseInsensitive = true)
    (h : SameButCase text other) (mode : EscapeMode) :
    automaton.findAll text mode = automaton.findAll other mode := by
  rw [findAll, findAll, ← hitsFrom_raise hcase, mode.map_raise_letters h, hitsFrom_raise hcase]

end Automaton

end LiteralSieve
