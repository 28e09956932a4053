import LiteralSieve.Proofs.Automaton.Decoding
import LiteralSieve.Proofs.Numerals

namespace LiteralSieve

/-!
# Spellings

A byte can be written in many ways in an escaped text. Whatever stands around a spelling, it is read
as one letter: an escape ends after a fixed number of digits, after a name of which none begins
another, or with the semicolon after its digits. So texts that are written letter by letter, in any
spellings, decode to what they are to mean, and every letter starts where its spelling does.
-/

/-- How a byte is written in a URL. -/
inductive UrlSpells : UInt8 → Bytes → Prop
  | raw {b : UInt8} (hpercent : b ≠ 0x25) (hplus : b ≠ 0x2B) : UrlSpells b [b]
  | space : UrlSpells 0x20 [0x2B]
  | code {n : Nat} {digits : Bytes} (h : Numeral 16 n digits) (hlength : digits.length = 2) :
      UrlSpells (UInt8.ofNat n) (0x25 :: digits)
  /-- The full-width form of a visible character. -/
  | fullWidth {u : UInt8} {n : Nat} {digits : Bytes} (hu : u = 0x75 ∨ u = 0x55)
      (h : Numeral 16 n digits) (hlength : digits.length = 4) (hlow : 0xFF01 ≤ n)
      (hhigh : n ≤ 0xFF5E) : UrlSpells (UInt8.ofNat (n - 0xFEE0)) (0x25 :: u :: digits)
  | wide {u : UInt8} {n : Nat} {digits : Bytes} (hu : u = 0x75 ∨ u = 0x55)
      (h : Numeral 16 n digits) (hlength : digits.length = 4)
      (hother : n < 0xFF01 ∨ 0xFF5E < n) : UrlSpells (UInt8.ofNat n) (0x25 :: u :: digits)

/-- The characters that have names. -/
def namedCharacters : List (String × Char) :=
  [("quot", '"'), ("amp", '&'), ("lt", '<'), ("gt", '>'), ("nbsp", '\u00a0')]

/-- How a byte is written in HTML. -/
inductive HtmlSpells : UInt8 → Bytes → Prop
  | raw {b : UInt8} (h : b ≠ 0x26) : HtmlSpells b [b]
  | decimal {n : Nat} {digits : Bytes} (h : Numeral 10 n digits) (hlt : n < 2 ^ 32) :
      HtmlSpells (UInt8.ofNat n) (0x26 :: 0x23 :: digits ++ [0x3B])
  | hexadecimal {x : UInt8} {n : Nat} {digits : Bytes} (hx : x = 0x78 ∨ x = 0x58)
      (h : Numeral 16 n digits) (hlt : n < 2 ^ 32) :
      HtmlSpells (UInt8.ofNat n) (0x26 :: 0x23 :: x :: digits ++ [0x3B])
  | named {name : String} {c : Char} {letters : Bytes} (hname : (name, c) ∈ namedCharacters)
      (hletters : letters.map Byte.toLower = utf8 name) :
      HtmlSpells (UInt8.ofNat c.toNat) (0x26 :: letters ++ [0x3B])

/-- How a byte is written in a text that is read in this mode. -/
def EscapeMode.Spells : EscapeMode → UInt8 → Bytes → Prop
  | plain, b, spelling => spelling = [b]
  | url, b, spelling => UrlSpells b spelling
  | html, b, spelling => HtmlSpells b spelling

/-! ## Numbers -/

namespace Numeral

variable {base n : Nat} {digits : Bytes}

theorem foldlM_eq (h : Numeral base n digits) :
    digits.foldlM (fun acc b => (Byte.hexValue? b).map fun d => acc * base + d) 0 = some n := by
  induction h with
  | digit _ hb => simp [hb.hexValue?_eq]
  | concat _ _ hb ih => simp [List.foldlM_append, ih, hb.hexValue?_eq]

theorem hexNumber?_append (h : Numeral 16 n digits) (rest : Bytes) :
    Escape.hexNumber? digits.length (digits ++ rest) = some n := by
  rw [Escape.hexNumber?, List.take_left, if_pos rfl]
  exact h.foldlM_eq

theorem boundedNumber_eq (h : Numeral base n digits) :
    Escape.boundedNumber base digits = min n maxNumber := by
  apply h.heldNumber_map
  intro d b _ hb
  rw [hb.hexValue?_eq, Option.getD_some]

/-- A run of digits is read up to the semicolon after it. -/
theorem htmlCode?_eq (h : Numeral base n digits) (hlt : n < 2 ^ 32) (isDigit : UInt8 → Bool)
    (hdigit : ∀ {d b}, d < base → WritesDigit d b → isDigit b = true)
    (hsemicolon : isDigit 0x3B = false) (intro rest : Bytes) :
    Escape.htmlCode? base intro.length isDigit (intro ++ digits ++ 0x3B :: rest) =
      some (UInt8.ofNat n, intro.length + digits.length) := by
  have hrun : ((intro ++ digits ++ 0x3B :: rest).drop intro.length).takeWhile isDigit = digits := by
    rw [List.append_assoc, List.drop_left, List.takeWhile_append_of_pos]
    · simp [hsemicolon]
    · intro b hb
      obtain ⟨d, hd, hwrites⟩ := h.exists_writesDigit hb
      exact hdigit hd hwrites
  have hbound : n ≤ maxNumber := Nat.le_of_lt_succ hlt
  rw [Escape.htmlCode?, hrun, if_neg (mt List.isEmpty_iff.mp h.ne_nil), h.boundedNumber_eq,
    Nat.min_eq_left hbound]
  refine congrArg some (Prod.ext ?_ rfl)
  exact UInt8.ofNat_mod_size

end Numeral

/-! ## One spelling -/

/-- The bytes are read as this letter, whatever comes after them. -/
def EscapeMode.Reads (mode : EscapeMode) (b : UInt8) (spelling : Bytes) : Prop :=
  ∃ first more, spelling = first :: more ∧
    ∀ rest, mode.readLetter first (more ++ rest) = (b, more.length)

theorem beq_or_beq_of_eq {b x y : UInt8} (h : b = x ∨ b = y) : (b == x || b == y) = true := by
  rcases h with rfl | rfl <;> simp

section Url

variable {n : Nat} {digits : Bytes}

theorem url?_code (h : Numeral 16 n digits) (hlength : digits.length = 2) (rest : Bytes) :
    Escape.url? (digits ++ rest) = some (UInt8.ofNat n, 2) := by
  have hnarrow : Escape.urlNarrow? (digits ++ rest) = some (UInt8.ofNat n, 2) := by
    rw [Escape.urlNarrow?, ← hlength, h.hexNumber?_append]
    rfl
  -- No digit is the letter that introduces a longer code.
  have hwide : Escape.urlWide? (digits ++ rest) = none := by
    obtain ⟨first, more, rfl⟩ := List.exists_cons_of_ne_nil h.ne_nil
    obtain ⟨d, -, hwrites⟩ := h.exists_writesDigit List.mem_cons_self
    have hvalue := hwrites.hexValue?_eq
    rw [List.cons_append, Escape.urlWide?, if_neg]
    intro hu
    rcases Bool.or_eq_true _ _ ▸ hu with hu | hu <;>
    · rw [beq_iff_eq.mp hu] at hvalue
      cases hvalue
  rw [Escape.url?, hwide, hnarrow]
  rfl

theorem url?_wide {u : UInt8} (hu : u = 0x75 ∨ u = 0x55) (h : Numeral 16 n digits)
    (hlength : digits.length = 4) (rest : Bytes) :
    Escape.url? (u :: digits ++ rest) = some (Escape.narrow n, 5) := by
  have hwide : Escape.urlWide? (u :: digits ++ rest) = some (Escape.narrow n, 5) := by
    rw [List.cons_append, Escape.urlWide?, if_pos (beq_or_beq_of_eq hu), ← hlength,
      h.hexNumber?_append]
    rfl
  rw [Escape.url?, hwide]
  rfl

theorem readLetter_percent {rest : Bytes} {escape : UInt8 × Nat}
    (h : Escape.url? rest = some escape) : EscapeMode.url.readLetter 0x25 rest = escape := by
  change (Escape.url? rest).getD _ = escape
  rw [h]
  rfl

theorem UrlSpells.reads {b : UInt8} {spelling : Bytes} (h : UrlSpells b spelling) :
    EscapeMode.Reads .url b spelling := by
  cases h with
  | raw hpercent hplus =>
      refine ⟨b, [], rfl, fun rest => ?_⟩
      simp [EscapeMode.readLetter, hpercent, hplus]
  | space => exact ⟨0x2B, [], rfl, fun rest => rfl⟩
  | @code n digits h hlength =>
      refine ⟨0x25, digits, rfl, fun rest => ?_⟩
      rw [hlength]
      exact readLetter_percent (url?_code h hlength rest)
  | @fullWidth u n digits hu h hlength hlow hhigh =>
      refine ⟨0x25, u :: digits, rfl, fun rest => ?_⟩
      have hnarrow : Escape.narrow n = UInt8.ofNat (n - 0xFEE0) := if_pos ⟨hlow, hhigh⟩
      rw [← hnarrow, List.length_cons, hlength]
      exact readLetter_percent (url?_wide hu h hlength rest)
  | @wide u n digits hu h hlength hother =>
      refine ⟨0x25, u :: digits, rfl, fun rest => ?_⟩
      have hnarrow : Escape.narrow n = UInt8.ofNat n :=
        (if_neg (by omega)).trans UInt8.ofNat_mod_size
      rw [← hnarrow, List.length_cons, hlength]
      exact readLetter_percent (url?_wide hu h hlength rest)

end Url

section Html

variable {n : Nat} {digits : Bytes}

/-- The semicolon after an escape belongs to it. -/
theorem html?_of_htmlBody? {body : Bytes} {b : UInt8} {rest : Bytes}
    (h : Escape.htmlBody? (body ++ 0x3B :: rest) = some (b, body.length)) :
    Escape.html? (body ++ 0x3B :: rest) = some (b, body.length + 1) := by
  have hsemicolon : (body ++ 0x3B :: rest)[body.length]? = some 0x3B := by
    rw [List.getElem?_append_right le_rfl, Nat.sub_self]
    rfl
  rw [Escape.html?, h, Option.map_some]
  dsimp only
  rw [hsemicolon]
  rfl

theorem htmlBody?_decimal (h : Numeral 10 n digits) (hlt : n < 2 ^ 32) (rest : Bytes) :
    Escape.htmlBody? (0x23 :: digits ++ 0x3B :: rest) =
      some (UInt8.ofNat n, (0x23 :: digits).length) := by
  have hcode := h.htmlCode?_eq hlt Byte.isDigit (fun hd hwrites => hwrites.isDigit hd) rfl
    [0x23] rest
  obtain ⟨first, more, rfl⟩ := List.exists_cons_of_ne_nil h.ne_nil
  obtain ⟨d, hd, hwrites⟩ := h.exists_writesDigit List.mem_cons_self
  have hfirst := hwrites.isDigit hd
  have hx : ¬((first == 0x78 || first == 0x58) = true) := by
    intro hx
    rcases Bool.or_eq_true _ _ ▸ hx with hx | hx <;>
    · rw [beq_iff_eq.mp hx] at hfirst
      cases hfirst
  rw [List.cons_append, List.cons_append, Escape.htmlBody?, if_neg hx]
  rw [List.length_cons, Nat.add_comm]
  exact hcode

theorem htmlBody?_hexadecimal {x : UInt8} (hx : x = 0x78 ∨ x = 0x58) (h : Numeral 16 n digits)
    (hlt : n < 2 ^ 32) (rest : Bytes) :
    Escape.htmlBody? (0x23 :: x :: digits ++ 0x3B :: rest) =
      some (UInt8.ofNat n, (0x23 :: x :: digits).length) := by
  have hcode := h.htmlCode?_eq hlt (fun b => (Byte.hexValue? b).isSome)
    (fun _ hwrites => by rw [hwrites.hexValue?_eq]; rfl) rfl [0x23, x] rest
  rw [List.cons_append, List.cons_append, Escape.htmlBody?, if_pos (beq_or_beq_of_eq hx)]
  rw [List.length_cons, List.length_cons, Nat.add_assoc, Nat.add_comm]
  exact hcode

theorem head?_of_take {rest letters : Bytes} (hne : letters ≠ [])
    (h : (rest.take letters.length).map Byte.toLower = letters) :
    rest.head?.map Byte.toLower = letters.head? := by
  have hhead := congrArg List.head? h
  rwa [List.head?_map, List.head?_take, if_neg (List.length_pos_iff.mpr hne).ne'] at hhead

/-- The names of characters begin with different letters, so no name is taken for another. -/
theorem htmlName?_eq {name : String} {b : UInt8} {letters : Bytes}
    (hname : (name, b) ∈ Escape.entities) (hletters : letters.map Byte.toLower = utf8 name)
    (rest : Bytes) : Escape.htmlName? (letters ++ rest) = some (b, letters.length) := by
  have hheads : (Escape.entities.map fun x => (utf8 x.1).head?).Nodup := by decide +kernel
  have hne : ∀ x ∈ Escape.entities, utf8 x.1 ≠ [] := by decide +kernel
  have hlength : (utf8 name).length = letters.length := by rw [← hletters, List.length_map]
  have htake : ((letters ++ rest).take (utf8 name).length).map Byte.toLower = utf8 name := by
    rw [hlength, List.take_left, hletters]
  cases hfound : Escape.htmlName? (letters ++ rest) with
  | none =>
      have hnone := List.findSome?_eq_none_iff.mp hfound _ hname
      simp [htake] at hnone
  | some found =>
      obtain ⟨other, hother, heq⟩ := List.exists_of_findSome?_eq_some hfound
      dsimp only at heq
      split at heq
      case isFalse => cases heq
      case isTrue hmatch =>
        have hsame : (utf8 other.1).head? = (utf8 name).head? :=
          (head?_of_take (hne _ hother) (beq_iff_eq.mp hmatch)).symm.trans
            (head?_of_take (hne _ hname) htake)
        obtain rfl := List.inj_on_of_nodup_map hheads hother hname hsame
        rw [← heq, hlength]

theorem htmlBody?_named {name : String} {c : Char} {letters : Bytes}
    (hname : (name, c) ∈ namedCharacters) (hletters : letters.map Byte.toLower = utf8 name)
    (rest : Bytes) :
    Escape.htmlBody? (letters ++ 0x3B :: rest) = some (UInt8.ofNat c.toNat, letters.length) := by
  have hentries : ∀ x ∈ namedCharacters, (x.1, UInt8.ofNat x.2.toNat) ∈ Escape.entities ∧
      (utf8 x.1).head?.any (· ≠ 0x23) := by decide +kernel
  obtain ⟨hentry, hhead⟩ := hentries _ hname
  obtain ⟨first, more, rfl⟩ : ∃ first more, letters = first :: more := by
    refine List.exists_cons_of_ne_nil fun hnil => ?_
    rw [← hletters, hnil] at hhead
    cases hhead
  have hfirst : first ≠ 0x23 := by
    rintro rfl
    rw [← hletters] at hhead
    cases hhead
  unfold Escape.htmlBody?
  split
  case h_1 heq => exact (hfirst (List.cons.inj heq).1).elim
  case h_2 => exact htmlName?_eq hentry hletters (0x3B :: rest)

theorem readLetter_ampersand {rest : Bytes} {escape : UInt8 × Nat}
    (h : Escape.html? rest = some escape) : EscapeMode.html.readLetter 0x26 rest = escape := by
  change (Escape.html? rest).getD _ = escape
  rw [h]
  rfl

theorem HtmlSpells.reads {b : UInt8} {spelling : Bytes} (h : HtmlSpells b spelling) :
    EscapeMode.Reads .html b spelling := by
  have hescape : ∀ {b body}, (∀ rest, Escape.htmlBody? (body ++ 0x3B :: rest) =
      some (b, body.length)) → EscapeMode.Reads .html b (0x26 :: body ++ [0x3B]) := by
    intro b body hbody
    refine ⟨0x26, body ++ [0x3B], rfl, fun rest => ?_⟩
    rw [List.append_assoc, List.singleton_append, List.length_append]
    exact readLetter_ampersand (html?_of_htmlBody? (hbody rest))
  cases h with
  | raw h =>
      refine ⟨b, [], rfl, fun rest => ?_⟩
      simp [EscapeMode.readLetter, h]
  | decimal h hlt => exact hescape (htmlBody?_decimal h hlt)
  | hexadecimal hx h hlt => exact hescape (htmlBody?_hexadecimal hx h hlt)
  | named hname hletters => exact hescape (htmlBody?_named hname hletters)

end Html

theorem EscapeMode.Spells.reads {mode : EscapeMode} {b : UInt8} {spelling : Bytes}
    (h : mode.Spells b spelling) : mode.Reads b spelling := by
  cases mode with
  | plain => exact ⟨b, [], h, fun rest => rfl⟩
  | url => exact UrlSpells.reads h
  | html => exact HtmlSpells.reads h

/-! ## Whole texts -/

namespace EscapeMode

variable {mode : EscapeMode} {bytes : Bytes} {spellings : List Bytes}

theorem readLetter_of_isEscape {b : UInt8} (h : mode.isEscape b = false) (rest : Bytes) :
    mode.readLetter b rest = (b, 0) := by
  cases mode with
  | plain => rfl
  | url =>
      obtain ⟨hpercent, hplus⟩ := Bool.or_eq_false_iff.mp h
      simp [readLetter, beq_eq_false_iff_ne.mp hpercent, beq_eq_false_iff_ne.mp hplus]
  | html => simp [readLetter, beq_eq_false_iff_ne.mp h]

/-- A text without escapes has the same letters in every mode. -/
theorem lettersFrom_of_not_needsDecoding {text : Bytes} (h : mode.needsDecoding text = false)
    (offset : Nat) : mode.lettersFrom offset text = plain.lettersFrom offset text := by
  induction text generalizing offset with
  | nil => simp [lettersFrom]
  | cons b text ih =>
      rw [needsDecoding, List.any_cons, Bool.or_eq_false_iff] at h
      obtain ⟨hb, htext⟩ := h
      have hplain : plain.readLetter b text = (b, 0) := rfl
      rw [lettersFrom_cons, lettersFrom_cons, readLetter_of_isEscape hb, hplain]
      exact congrArg _ (ih htext _)

theorem letters_eq_lettersFrom (mode : EscapeMode) (text : Bytes) :
    mode.letters text = mode.lettersFrom 0 text := by
  cases h : mode.needsDecoding text with
  | true => rw [letters, inEffect, h, if_pos rfl]
  | false =>
      rw [letters, inEffect, h, if_neg Bool.false_ne_true, lettersFrom_of_not_needsDecoding h]

theorem lettersFrom_flatten (h : List.Forall₂ mode.Spells bytes spellings) (offset : Nat) :
    (mode.lettersFrom offset spellings.flatten).map (·.byte) = bytes ∧
      (mode.lettersFrom offset spellings.flatten).map (·.start) =
        (List.range spellings.length).map fun i => offset + (spellings.take i).flatten.length := by
  induction h generalizing offset with
  | nil => simp [lettersFrom]
  | @cons b spelling bytes spellings hb _ ih =>
      obtain ⟨first, more, rfl, hread⟩ := hb.reads
      obtain ⟨hbytes, hstarts⟩ := ih (offset + 1 + more.length)
      rw [List.flatten_cons, List.cons_append, lettersFrom_cons, hread, List.drop_left,
        List.map_cons, List.map_cons, hbytes, hstarts]
      refine ⟨rfl, ?_⟩
      rw [List.length_cons, List.range_succ_eq_map, List.map_cons, List.map_map]
      refine congrArg₂ List.cons rfl (List.map_congr_left fun i _ => ?_)
      simp
      omega

/-- A text that is written letter by letter decodes to the letters it was written for, and each of
them starts where its spelling does. -/
theorem decode_spellings (h : List.Forall₂ mode.Spells bytes spellings) :
    mode.decode spellings.flatten = bytes ∧
      (mode.letters spellings.flatten).map (·.start) =
        (List.range spellings.length).map fun i => (spellings.take i).flatten.length := by
  rw [decode, letters_eq_lettersFrom]
  simpa using lettersFrom_flatten h 0

/-- Digits and a `u` after an escape for `%`, and digits, a `#` and a semicolon after references. -/
theorem decode_spellings_neighbours :
    let urlSpellings : List Bytes :=
      [[0x25, 0x32, 0x35], [0x75], [0x25, 0x55, 0x46, 0x66, 0x32, 0x31], [0x2B]]
    let htmlSpellings : List Bytes :=
      [[0x26, 0x41, 0x6D, 0x50, 0x3B], [0x23], [0x26, 0x23, 0x30, 0x36, 0x35, 0x3B], [0x31], [0x3B]]
    List.Forall₂ url.Spells [0x25, 0x75, 0x41, 0x20] urlSpellings ∧
    url.decode urlSpellings.flatten = [0x25, 0x75, 0x41, 0x20] ∧
    List.Forall₂ html.Spells [0x26, 0x23, 0x41, 0x31, 0x3B] htmlSpellings ∧
    (html.letters htmlSpellings.flatten).map (·.start) = [0, 5, 6, 12, 13] := by
  intro urlSpellings htmlSpellings
  have h25 : Numeral 16 0x25 [0x32, 0x35] :=
    .concat (.digit (d := 2) (by decide) (.figure (by decide))) (d := 5) (by decide)
      (.figure (by decide))
  have hFf21 : Numeral 16 0xFF21 [0x46, 0x66, 0x32, 0x31] :=
    .concat (.concat (.concat (.digit (d := 15) (by decide) (.capital (d := 5) (by decide)))
      (d := 15) (by decide) (.small (d := 5) (by decide))) (d := 2) (by decide)
        (.figure (by decide))) (d := 1) (by decide) (.figure (by decide))
  have h065 : Numeral 10 65 [0x30, 0x36, 0x35] :=
    .concat (.concat (.digit (d := 0) (by decide) (.figure (by decide))) (d := 6) (by decide)
      (.figure (by decide))) (d := 5) (by decide) (.figure (by decide))
  have hwide : UrlSpells (UInt8.ofNat (0xFF21 - 0xFEE0))
      (0x25 :: 0x55 :: [0x46, 0x66, 0x32, 0x31]) :=
    .fullWidth (.inr rfl) hFf21 rfl (by decide) (by decide)
  have hletter : UInt8.ofNat (0xFF21 - 0xFEE0) = 0x41 := by decide
  rw [hletter] at hwide
  have hurl : List.Forall₂ url.Spells [0x25, 0x75, 0x41, 0x20] urlSpellings :=
    .cons (.code h25 rfl) (.cons (.raw (by decide) (by decide)) (.cons hwide (.cons .space .nil)))
  have hname : ("amp", '&') ∈ namedCharacters := by decide
  have hletters : [0x41, 0x6D, 0x50].map Byte.toLower = utf8 "amp" := by decide +kernel
  have hhtml : List.Forall₂ html.Spells [0x26, 0x23, 0x41, 0x31, 0x3B] htmlSpellings :=
    .cons (.named hname hletters) (.cons (.raw (by decide)) (.cons (.decimal h065 (by decide))
      (.cons (.raw (by decide)) (.cons (.raw (by decide)) .nil))))
  exact ⟨hurl, (decode_spellings hurl).1, hhtml, (decode_spellings hhtml).2⟩

end EscapeMode

end LiteralSieve
