import LiteralSieve.Proofs.Automaton.Occurrences

namespace LiteralSieve

/-!
# Scans of escaped texts

The letters of a text follow each other without a break, each with the raw offsets around it. So
they are the letters of the decoded text but for these offsets, and since a scan passes offsets on
without looking at them, it shows in an escaped text what it shows in the decoded one.
-/

/-! ## What an escape takes -/

namespace Escape

variable {rest : Bytes} {value : UInt8} {used : Nat}

theorem le_length_of_hexNumber? {n code : Nat} (h : hexNumber? n rest = some code) :
    n ≤ rest.length := by
  rw [hexNumber?] at h
  split at h
  case isTrue hlength =>
    rw [List.length_take] at hlength
    omega
  case isFalse => cases h

theorem used_le_of_url? (h : url? rest = some (value, used)) : used ≤ rest.length := by
  rcases (Option.orElse_eq_some _ _ _).mp h with hwide | ⟨-, hnarrow⟩
  · cases rest with
    | nil => cases hwide
    | cons u rest =>
        rw [urlWide?] at hwide
        split at hwide
        case isTrue =>
          obtain ⟨code, hcode, heq⟩ := Option.map_eq_some_iff.mp hwide
          obtain ⟨-, rfl⟩ := Prod.mk.inj heq
          exact Nat.succ_le_succ (le_length_of_hexNumber? hcode)
        case isFalse => cases hwide
  · obtain ⟨code, hcode, heq⟩ := Option.map_eq_some_iff.mp hnarrow
    obtain ⟨-, rfl⟩ := Prod.mk.inj heq
    exact le_length_of_hexNumber? hcode

theorem used_le_of_htmlCode? {base skip : Nat} {isDigit : UInt8 → Bool}
    (h : htmlCode? base skip isDigit rest = some (value, used)) : used ≤ rest.length := by
  rw [htmlCode?] at h
  split at h
  case isTrue => cases h
  case isFalse hdigits =>
    obtain ⟨-, rfl⟩ := Prod.mk.inj (Option.some.inj h)
    have hle := (List.takeWhile_prefix isDigit (l := rest.drop skip)).length_le
    have hpos : 0 < ((rest.drop skip).takeWhile isDigit).length :=
      List.length_pos_iff.mpr (mt List.isEmpty_iff.mpr hdigits)
    rw [List.length_drop] at hle
    omega

theorem used_le_of_htmlName? (h : htmlName? rest = some (value, used)) : used ≤ rest.length := by
  obtain ⟨⟨name, code⟩, -, hname⟩ := List.exists_of_findSome?_eq_some h
  dsimp only at hname
  split at hname
  case isTrue hequal =>
    obtain ⟨-, rfl⟩ := Prod.mk.inj (Option.some.inj hname)
    have hlength := congrArg List.length (beq_iff_eq.mp hequal)
    rw [List.length_map, List.length_take] at hlength
    omega
  case isFalse => cases hname

theorem used_le_of_htmlBody? (h : htmlBody? rest = some (value, used)) : used ≤ rest.length := by
  unfold htmlBody? at h
  split at h
  case h_1 =>
    split at h
    · exact used_le_of_htmlCode? h
    · exact used_le_of_htmlCode? h
  case h_2 => exact used_le_of_htmlName? h

theorem used_le_of_html? (h : html? rest = some (value, used)) : used ≤ rest.length := by
  obtain ⟨⟨code, body⟩, hbody, heq⟩ := Option.map_eq_some_iff.mp h
  obtain ⟨-, rfl⟩ := Prod.mk.inj heq
  split
  case isTrue hsemicolon =>
    -- The semicolon after the body is a byte of the text too.
    exact (List.getElem?_eq_some_iff.mp (beq_iff_eq.mp hsemicolon)).1
  case isFalse => exact used_le_of_htmlBody? hbody

end Escape

namespace EscapeMode

/-- A letter takes no more bytes than there are. -/
theorem used_le_length (mode : EscapeMode) (b : UInt8) (rest : Bytes) :
    (mode.readLetter b rest).2 ≤ rest.length := by
  cases mode with
  | plain => exact Nat.zero_le _
  | url =>
      rw [readLetter]
      split
      · exact Nat.zero_le _
      · split
        · cases hurl : Escape.url? rest with
          | none => exact Nat.zero_le _
          | some escape => exact Escape.used_le_of_url? hurl
        · exact Nat.zero_le _
  | html =>
      rw [readLetter]
      split
      · cases hhtml : Escape.html? rest with
        | none => exact Nat.zero_le _
        | some escape => exact Escape.used_le_of_html? hhtml
      · exact Nat.zero_le _

/-! ## Letters without a break -/

/-- The offset at which letters end that start at a given one. -/
def stopOf (offset : Nat) (letters : List Letter) : Nat :=
  (letters.getLast?.map (·.stop)).getD offset

theorem stopOf_cons (offset : Nat) (letter : Letter) (letters : List Letter) :
    stopOf offset (letter :: letters) = stopOf letter.stop letters := by
  cases letters with
  | nil => rfl
  | cons next letters => simp [stopOf, List.getLast?_cons]

theorem lettersFrom_cons (mode : EscapeMode) (offset : Nat) (b : UInt8) (rest : Bytes) :
    mode.lettersFrom offset (b :: rest) =
      ⟨offset, offset + 1 + (mode.readLetter b rest).2, (mode.readLetter b rest).1⟩ ::
        mode.lettersFrom (offset + 1 + (mode.readLetter b rest).2)
          (rest.drop (mode.readLetter b rest).2) := by
  rw [lettersFrom]

/-- After some letters of a text, the others are read from where these stop. -/
theorem lettersFrom_of_append {mode : EscapeMode} {offset : Nat} {text : Bytes}
    {front back : List Letter} (h : mode.lettersFrom offset text = front ++ back) :
    offset ≤ stopOf offset front ∧ stopOf offset front ≤ offset + text.length ∧
      back = mode.lettersFrom (stopOf offset front) (text.drop (stopOf offset front - offset)) := by
  induction front generalizing offset text with
  | nil => simpa [stopOf] using h.symm
  | cons letter front ih =>
      cases text with
      | nil => simp [lettersFrom] at h
      | cons b rest =>
          rw [lettersFrom_cons, List.cons_append] at h
          obtain ⟨rfl, htail⟩ := List.cons.inj h
          have hused := mode.used_le_length b rest
          obtain ⟨hle, hbound, hback⟩ := ih htail
          rw [List.length_drop] at hbound
          rw [stopOf_cons]
          dsimp only
          refine ⟨by omega, by rw [List.length_cons]; omega, hback.trans ?_⟩
          rw [List.drop_drop]
          obtain ⟨n, hn⟩ := Nat.exists_eq_add_of_le hle
          rw [hn, show offset + 1 + (mode.readLetter b rest).2 + n - offset =
            (mode.readLetter b rest).2 + n + 1 by omega, List.drop_succ_cons]
          congr 2
          omega

theorem head?_lettersFrom (mode : EscapeMode) (text : Bytes) (offset : Nat) :
    (mode.lettersFrom offset (text.drop offset)).head? = mode.letterAt? text offset := by
  rw [letterAt?]
  cases text.drop offset with
  | nil => rw [lettersFrom]; rfl
  | cons b rest => rw [lettersFrom_cons]; rfl

/-- The letter ahead of those read is the one that is read afresh where these stop, in the mode in
effect for the whole text. -/
theorem head?_eq_letterAt? {mode : EscapeMode} {text : Bytes} {front back : List Letter}
    (h : mode.letters text = front ++ back) :
    back.head? = (mode.inEffect text).letterAt? text (stopOf 0 front) := by
  obtain ⟨-, -, hback⟩ := lettersFrom_of_append h
  rw [hback, Nat.sub_zero, head?_lettersFrom]

theorem stopOf_letters (mode : EscapeMode) (text : Bytes) :
    stopOf 0 (mode.letters text) = text.length := by
  obtain ⟨-, hle, hback⟩ := lettersFrom_of_append (List.append_nil (mode.letters text)).symm
  rw [Nat.zero_add] at hle
  rw [Nat.sub_zero] at hback
  refine Nat.le_antisymm hle (List.drop_eq_nil_iff.mp ?_)
  cases hrest : text.drop (stopOf 0 (mode.letters text)) with
  | nil => rfl
  | cons b rest =>
      rw [hrest, lettersFrom_cons] at hback
      cases hback

/-- The raw offset before the letter with this number; after the last letter the text ends. -/
def rawOffset (mode : EscapeMode) (text : Bytes) (i : Nat) : Nat :=
  ((mode.letters text)[i]?.map (·.start)).getD text.length

theorem start_eq_of_letterAt? {mode : EscapeMode} {text : Bytes} {offset : Nat} {letter : Letter}
    (h : mode.letterAt? text offset = some letter) : letter.start = offset := by
  rw [letterAt?] at h
  cases hrest : text.drop offset with
  | nil =>
      rw [hrest] at h
      cases h
  | cons b rest =>
      rw [hrest] at h
      exact (congrArg Letter.start (Option.some.inj h)).symm

/-- Letters start where those before them stop. -/
theorem rawOffset_eq_stopOf (mode : EscapeMode) (text : Bytes) (i : Nat) :
    mode.rawOffset text i = stopOf 0 ((mode.letters text).take i) := by
  cases h : (mode.letters text)[i]? with
  | none =>
      rw [List.take_of_length_le (List.getElem?_eq_none_iff.mp h), stopOf_letters, rawOffset, h]
      rfl
  | some letter =>
      have hfresh : some letter = (mode.inEffect text).letterAt? text
          (stopOf 0 ((mode.letters text).take i)) := by
        rw [← head?_eq_letterAt? (List.take_append_drop i _).symm, List.head?_drop, h]
      rw [rawOffset, h]
      exact start_eq_of_letterAt? hfresh.symm

/-- A letter that is read afresh where a letter of the text starts is this letter. -/
theorem letterAt?_rawOffset (mode : EscapeMode) (text : Bytes) (i : Nat) :
    (mode.inEffect text).letterAt? text (mode.rawOffset text i) = (mode.letters text)[i]? := by
  rw [rawOffset_eq_stopOf, ← head?_eq_letterAt? (List.take_append_drop i _).symm, List.head?_drop]

/-- A letter stops where the next one starts, and the last one where the text ends. -/
theorem stop_eq_rawOffset {mode : EscapeMode} {text : Bytes} {i : Nat} {letter : Letter}
    (h : (mode.letters text)[i]? = some letter) :
    letter.stop = mode.rawOffset text (i + 1) := by
  rw [rawOffset_eq_stopOf, stopOf, List.getLast?_take, Nat.add_sub_cancel, h]
  simp

end EscapeMode

/-! ## Other offsets -/

/-- The letter between other offsets. -/
def Letter.relocate (f : Nat → Nat) (letter : Letter) : Letter :=
  ⟨f letter.start, f letter.stop, letter.byte⟩

/-- The letters of a text are those of the decoded text, at their raw offsets. -/
theorem EscapeMode.letters_eq_map_relocate (mode : EscapeMode) (text : Bytes) :
    mode.letters text =
      (plain.letters (mode.decode text)).map (.relocate (mode.rawOffset text)) := by
  apply List.ext_getElem?
  intro i
  rw [List.getElem?_map, getElem?_letters_plain, decode, List.getElem?_map]
  cases h : (mode.letters text)[i]? with
  | none => rfl
  | some letter =>
      have hstart : letter.start = mode.rawOffset text i := by
        rw [rawOffset, h]
        rfl
      simp only [Option.map_some, Letter.relocate, ← hstart, ← stop_eq_rawOffset h]

/-- The hit between other offsets. -/
def Hit.relocate {V : Type} (f : Nat → Nat) (hit : Hit V) : Hit V :=
  { hit with offset := f hit.offset, stop := f hit.stop }

namespace Automaton

variable {V : Type} (automaton : Automaton V) (f : Nat → Nat)

@[simp] theorem touchesWord_relocate (letter : Option Letter) :
    touchesWord (letter.map (.relocate f)) = touchesWord letter := by
  cases letter <;> rfl

theorem hitAt?_relocate (past : List Letter) (ahead : Option Letter) (s : StateId) :
    automaton.hitAt? (past.map (.relocate f)) (ahead.map (.relocate f)) s =
      (automaton.hitAt? past ahead s).map (.relocate f) := by
  simp only [hitAt?, List.head?_map, List.getElem?_map, touchesWord_relocate]
  cases automaton.trie.terminal? s with
  | none => rfl
  | some id =>
      simp only [Option.bind_eq_bind, Option.bind_some]
      cases automaton.terminals.get? id with
      | none => rfl
      | some terminal =>
          cases past.head? with
          | none => rfl
          | some last =>
              cases past[automaton.trie.depth s - 1]? with
              | none => rfl
              | some first =>
                  simp only [Option.map_some, Option.bind_some]
                  split <;> rfl

theorem hitsAt_relocate (past : List Letter) (ahead : Option Letter) (s : StateId) :
    automaton.hitsAt (past.map (.relocate f)) (ahead.map (.relocate f)) s =
      (automaton.hitsAt past ahead s).map (.relocate f) := by
  rw [hitsAt, hitsAt, List.map_filterMap]
  congr 1
  funext s
  exact automaton.hitAt?_relocate f past ahead s

/-- A scan takes the offsets of letters over into hits, and does not depend on them otherwise. -/
theorem hitsFrom_relocate (s : StateId) (past letters : List Letter) :
    automaton.hitsFrom s (past.map (.relocate f)) (letters.map (.relocate f)) =
      (automaton.hitsFrom s past letters).map (.relocate f) := by
  induction letters generalizing s past with
  | nil => rfl
  | cons letter rest ih =>
      have hpast : (letter.relocate f :: past.map (.relocate f)).take (automaton.maxLength + 1) =
          ((letter :: past).take (automaton.maxLength + 1)).map (.relocate f) := by
        rw [← List.map_cons, List.map_take]
      simp only [List.map_cons, hitsFrom, List.map_append]
      rw [hpast, List.head?_map, hitsAt_relocate, ih]
      rfl

theorem findAll_relocate (text : Bytes) (mode : EscapeMode) :
    automaton.findAll text mode =
      (automaton.findAll (mode.decode text) .plain).map (.relocate (mode.rawOffset text)) := by
  rw [findAll, findAll]
  split
  · rw [mode.letters_eq_map_relocate text]
    exact automaton.hitsFrom_relocate _ Trie.root [] _
  · rfl

end Automaton

theorem visitAll_map {α β σ : Type} (visit : β → σ → ForInStep σ) (f : α → β) (xs : List α)
    (acc : σ) : visitAll visit (xs.map f) acc = visitAll (fun a => visit (f a)) xs acc := by
  induction xs generalizing acc with
  | nil => rfl
  | cons a xs ih =>
      rw [List.map_cons, visitAll, visitAll]
      cases visit (f a) acc with
      | done acc => rfl
      | yield acc => exact ih acc

/-- A search of an escaped text shows the hits in the decoded text, in the same order, each between
the raw offsets of its first letter and of the letter after it. There the letters around a hit are
those around it in the decoded text, also when they are read afresh. -/
theorem Automaton.search_decoded {V : Type} (automaton : Automaton V) (text : Bytes)
    (mode : EscapeMode) :
    automaton.findAll text mode =
        (automaton.findAll (mode.decode text) .plain).map (.relocate (mode.rawOffset text)) ∧
      (∀ {σ : Type} (visit : Hit V → σ → ForInStep σ) (acc : σ),
        automaton.search text mode visit acc = automaton.search (mode.decode text) .plain
          (fun hit => visit (hit.relocate (mode.rawOffset text))) acc) ∧
      ∀ i, ((mode.inEffect text).letterAt? text (mode.rawOffset text i)).map (·.byte) =
        (mode.decode text)[i]? := by
  refine ⟨automaton.findAll_relocate text mode, fun visit acc => ?_, fun i => ?_⟩
  · rw [search, search, findAll_relocate, visitAll_map]
  · rw [mode.letterAt?_rawOffset, EscapeMode.decode, List.getElem?_map]

/-- The key is one for whole words, so its occurrence in a longer word is passed over. -/
example : ((((Automaton.new .standard).add (utf8 "cat") 7 true).map fun added =>
      (added.1.compile.1.findAll (utf8 "a+%63at%2Ccats&cat") .url).map fun hit =>
        (hit.offset, hit.stop, hit.id)).toOption) = some [(2, 7, 0), (15, 18, 0)] := by
  decide +kernel

end LiteralSieve
