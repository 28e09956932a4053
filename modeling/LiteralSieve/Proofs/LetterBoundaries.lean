import LiteralSieve.Proofs.Automaton.CaseBlindness
import LiteralSieve.Proofs.Automaton.Resolution

namespace LiteralSieve

/-!
# Texts that are cut between letters

An escape is told by the bytes that it takes. So a text may be cut between two letters: an escape
before the cut is still one, and what was none does not become one. The letters of a text are those
of its parts, and the raw text between the offsets of a hit decodes to the key that was found.
-/

/-! ## Escapes before a cut -/

namespace Escape

/-- What the reader finds does not depend on the bytes behind it, and where it finds nothing it
finds nothing in a shorter text either. -/
def Local (read : Bytes → Option (UInt8 × Nat)) : Prop :=
  ∀ rest n, (∀ found ∈ read rest, found.2 ≤ n) → read (rest.take n) = read rest

theorem Local.orElse {first second : Bytes → Option (UInt8 × Nat)} (hfirst : Local first)
    (hsecond : Local second) : Local fun rest => first rest <|> second rest := by
  intro rest n h
  dsimp only at h ⊢
  cases hfound : first rest with
  | some found =>
      rw [hfound] at h
      have hcut := hfirst rest n (hfound ▸ h)
      rw [hcut, hfound]
      rfl
  | none =>
      rw [hfound] at h
      have hcut := hfirst rest n (by simp [hfound])
      rw [hcut, hfound]
      exact hsecond rest n h

theorem Local.findSome? {α : Type} {read : α → Bytes → Option (UInt8 × Nat)}
    (hread : ∀ a, Local (read a)) (xs : List α) :
    Local fun rest => xs.findSome? fun a => read a rest := by
  induction xs with
  | nil => exact fun rest n _ => rfl
  | cons a xs ih =>
      have heq : (fun rest => (a :: xs).findSome? fun a => read a rest) =
          fun rest => read a rest <|> xs.findSome? fun a => read a rest := by
        funext rest
        rw [List.findSome?_cons]
        cases read a rest <;> rfl
      rw [heq]
      exact (hread a).orElse ih

theorem hexNumber?_take {k n : Nat} {rest : Bytes} (h : ∀ code ∈ hexNumber? k rest, k ≤ n) :
    hexNumber? k (rest.take n) = hexNumber? k rest := by
  by_cases hn : k ≤ n
  · simp only [hexNumber?, List.take_take, Nat.min_eq_left hn]
  · -- What is left is shorter than the number would be.
    have hnone : hexNumber? k rest = none :=
      Option.eq_none_iff_forall_not_mem.mpr fun code hcode => hn (h code hcode)
    rw [hnone, hexNumber?]
    refine if_neg ?_
    simp only [List.length_take]
    omega

/-- A reader that takes at least `k` bytes finds nothing that would fit into fewer. -/
theorem eq_none_of_lt {found? : Option (UInt8 × Nat)} {k n : Nat}
    (hlong : ∀ found ∈ found?, k ≤ found.2) (h : ∀ found ∈ found?, found.2 ≤ n) (hn : n < k) :
    found? = none :=
  Option.eq_none_iff_forall_not_mem.mpr fun found hfound =>
    Nat.not_lt.mpr ((hlong found hfound).trans (h found hfound)) hn

theorem local_urlNarrow? : Local urlNarrow? := by
  intro rest n h
  rw [urlNarrow?, urlNarrow?, hexNumber?_take]
  exact fun code hcode => h _ (Option.mem_map_of_mem _ hcode)

theorem local_urlWide? : Local urlWide? := by
  intro rest n h
  cases rest with
  | nil => rw [List.take_nil]
  | cons u rest =>
      cases n with
      | zero =>
          have hlong : ∀ found ∈ urlWide? (u :: rest), 5 ≤ found.2 := by
            intro found hfound
            rw [urlWide?] at hfound
            split at hfound
            · obtain ⟨code, -, rfl⟩ := Option.mem_map.mp hfound
              exact Nat.le_refl 5
            · cases hfound
          exact (eq_none_of_lt hlong h (by decide)).symm
      | succ n =>
          rw [urlWide?] at h
          rw [List.take_succ_cons, urlWide?, urlWide?]
          split
          case isTrue hu =>
            rw [if_pos hu] at h
            rw [hexNumber?_take]
            exact fun code hcode => Nat.le_of_succ_le_succ (h _ (Option.mem_map_of_mem _ hcode))
          case isFalse => rfl

theorem local_url? : Local url? := local_urlWide?.orElse local_urlNarrow?

/-- The run of digits ends at the cut at the latest. -/
theorem local_htmlCode? (base skip : Nat) (isDigit : UInt8 → Bool) :
    Local (htmlCode? base skip isDigit) := by
  intro rest n h
  have hrun : ((rest.take n).drop skip).takeWhile isDigit =
      ((rest.drop skip).takeWhile isDigit).take (n - skip) := by
    rw [List.drop_take, List.take_takeWhile]
  rw [htmlCode?] at h
  rw [htmlCode?, htmlCode?, hrun]
  split at h
  case isTrue hdigits =>
    rw [List.isEmpty_iff.mp hdigits, List.take_nil]
  case isFalse hdigits =>
    have hle : skip + ((rest.drop skip).takeWhile isDigit).length ≤ n := h _ rfl
    rw [List.take_of_length_le (by omega)]

theorem le_of_mem_htmlCode? {base skip : Nat} {isDigit : UInt8 → Bool} {rest : Bytes}
    {found : UInt8 × Nat} (h : found ∈ htmlCode? base skip isDigit rest) : skip + 1 ≤ found.2 := by
  rw [htmlCode?] at h
  split at h
  case isTrue => cases h
  case isFalse hdigits =>
    obtain rfl := Option.some.inj h
    exact Nat.add_le_add_left (List.length_pos_iff.mpr (mt List.isEmpty_iff.mpr hdigits)) skip

theorem local_htmlName? : Local htmlName? := by
  refine Local.findSome? (fun entity rest n h => ?_) entities
  obtain ⟨name, value⟩ := entity
  dsimp only at h ⊢
  by_cases hn : (utf8 name).length ≤ n
  · rw [List.take_take, Nat.min_eq_left hn]
  · have hlong : ∀ found ∈ if (rest.take (utf8 name).length).map Byte.toLower == utf8 name then
        some (value, (utf8 name).length) else none, (utf8 name).length ≤ found.2 := by
      intro found hfound
      split at hfound
      · exact (Option.some.inj hfound) ▸ Nat.le_refl _
      · cases hfound
    rw [eq_none_of_lt hlong h (Nat.not_le.mp hn)]
    -- The name is longer than what is left.
    refine if_neg fun hequal => hn ?_
    have hlength := congrArg List.length (beq_iff_eq.mp hequal)
    rw [List.length_map, List.length_take, List.length_take] at hlength
    omega

theorem local_htmlBody? : Local htmlBody? := by
  intro rest n h
  by_cases hcode : ∃ x more, rest = 0x23 :: x :: more
  · obtain ⟨x, more, rfl⟩ := hcode
    have hlong : ∀ found ∈ htmlBody? (0x23 :: x :: more), 2 ≤ found.2 := by
      intro found hfound
      rw [htmlBody?] at hfound
      split at hfound
      · exact (Nat.le_succ 2).trans (le_of_mem_htmlCode? hfound)
      · exact le_of_mem_htmlCode? hfound
    have hempty : htmlBody? [] = none := by decide +kernel
    have hsign : htmlBody? [0x23] = none := by decide +kernel
    rcases n with _ | _ | n
    · exact hempty.trans (eq_none_of_lt hlong h (by decide)).symm
    · exact hsign.trans (eq_none_of_lt hlong h (by decide)).symm
    · rw [htmlBody?] at h
      have hcut (base skip : Nat) (isDigit : UInt8 → Bool) :=
        local_htmlCode? base skip isDigit (0x23 :: x :: more) (n + 1 + 1)
      rw [List.take_succ_cons, List.take_succ_cons] at hcut ⊢
      rw [htmlBody?, htmlBody?]
      split
      case isTrue hx =>
        rw [if_pos hx] at h
        exact hcut 16 2 _ h
      case isFalse hx =>
        rw [if_neg hx] at h
        exact hcut 10 1 _ h
  · have hname : htmlBody? rest = htmlName? rest :=
      htmlBody?_of_ne fun x more heq => hcode ⟨x, more, heq⟩
    have hcutName : htmlBody? (rest.take n) = htmlName? (rest.take n) := by
      refine htmlBody?_of_ne fun x more heq => hcode ⟨x, more ++ rest.drop n, ?_⟩
      rw [← List.cons_append, ← List.cons_append, ← heq, List.take_append_drop]
    rw [hname] at h
    rw [hcutName, hname]
    exact local_htmlName? rest n h

theorem local_html? : Local html? := by
  intro rest n h
  rw [html?] at h
  have hbody : htmlBody? (rest.take n) = htmlBody? rest := by
    refine local_htmlBody? rest n fun found hfound => ?_
    have hused := h _ (Option.mem_map_of_mem _ hfound)
    dsimp only at hused
    split at hused
    · exact Nat.le_of_succ_le hused
    · exact hused
  rw [html?, html?, hbody]
  refine Option.map_congr fun found hfound => ?_
  have hused := h _ (Option.mem_map_of_mem _ hfound)
  dsimp only at hused ⊢
  rw [List.getElem?_take]
  by_cases hlt : found.2 < n
  · rw [if_pos hlt]
  · -- A semicolon would stand behind the cut.
    have hother : ¬(rest[found.2]? == some 0x3B) = true := by
      intro hsemicolon
      rw [if_pos hsemicolon] at hused
      exact hlt hused
    rw [if_neg hlt, if_neg hother]
    rfl

end Escape

namespace EscapeMode

variable {mode : EscapeMode} {text : Bytes} {front back : List Letter}

theorem getD_take {read : Bytes → Option (UInt8 × Nat)} (hread : Escape.Local read)
    {other : UInt8 × Nat} {rest : Bytes} {n : Nat} (h : ((read rest).getD other).2 ≤ n) :
    (read (rest.take n)).getD other = (read rest).getD other := by
  rw [hread rest n]
  intro found hfound
  rwa [Option.mem_def.mp hfound] at h

/-- A letter is read the same way if the text ends behind it. -/
theorem readLetter_take {b : UInt8} {rest : Bytes} {n : Nat}
    (h : (mode.readLetter b rest).2 ≤ n) :
    mode.readLetter b (rest.take n) = mode.readLetter b rest := by
  cases mode with
  | plain => rfl
  | url =>
      rw [readLetter] at h
      rw [readLetter, readLetter]
      split
      case isTrue => rfl
      case isFalse hplus =>
        rw [if_neg hplus] at h
        split
        case isTrue hpercent =>
          rw [if_pos hpercent] at h
          exact getD_take Escape.local_url? h
        case isFalse => rfl
  | html =>
      rw [readLetter] at h
      rw [readLetter, readLetter]
      split
      case isTrue hsign =>
        rw [if_pos hsign] at h
        exact getD_take Escape.local_html? h
      case isFalse => rfl

/-! ## Letters before and behind a cut -/

/-- The letters of a text that is cut where some of its letters stop are these. -/
theorem lettersFrom_take {offset : Nat} (h : mode.lettersFrom offset text = front ++ back) :
    mode.lettersFrom offset (text.take (stopOf offset front - offset)) = front := by
  induction front generalizing offset text with
  | nil => simp [stopOf, lettersFrom]
  | cons letter front ih =>
      cases text with
      | nil => simp [lettersFrom] at h
      | cons b rest =>
          rw [lettersFrom_cons, List.cons_append] at h
          obtain ⟨rfl, htail⟩ := List.cons.inj h
          obtain ⟨hle, -, -⟩ := lettersFrom_of_append htail
          have hfront := ih htail
          rw [stopOf_cons]
          dsimp only
          generalize hused : (mode.readLetter b rest).2 = used at *
          generalize stopOf (offset + 1 + used) front = stop at *
          obtain ⟨n, rfl⟩ := Nat.exists_eq_add_of_le hle
          rw [Nat.add_sub_cancel_left] at hfront
          have hcut : offset + 1 + used + n - offset = used + n + 1 := by omega
          rw [hcut, List.take_succ_cons, lettersFrom_cons, readLetter_take (by omega), hused,
            List.drop_take, Nat.add_sub_cancel_left, hfront]

/-- The bytes of letters do not depend on the offset that they are counted from. -/
theorem map_byte_lettersFrom (mode : EscapeMode) (offset : Nat) (text : Bytes) :
    (mode.lettersFrom offset text).map (·.byte) = mode.decode text := by
  have hany : ∀ other, (mode.lettersFrom offset text).map (·.byte) =
      (mode.lettersFrom other text).map (·.byte) := by
    fun_induction lettersFrom mode offset text with
    | case1 => intro other; rw [lettersFrom]
    | case2 offset b rest byte used hread ih =>
        intro other
        rw [lettersFrom_cons, hread, List.map_cons, List.map_cons, ih]
  rw [hany 0, decode, letters_eq_lettersFrom]

theorem letters_take_rawOffset (mode : EscapeMode) (text : Bytes) (i : Nat) :
    mode.letters (text.take (mode.rawOffset text i)) = (mode.letters text).take i := by
  rw [rawOffset_eq_stopOf, letters_eq_lettersFrom, letters_eq_lettersFrom]
  have hsplit : mode.lettersFrom 0 text =
      (mode.lettersFrom 0 text).take i ++ (mode.lettersFrom 0 text).drop i :=
    (List.take_append_drop i _).symm
  exact lettersFrom_take hsplit

theorem decode_take_rawOffset (mode : EscapeMode) (text : Bytes) (i : Nat) :
    mode.decode (text.take (mode.rawOffset text i)) = (mode.decode text).take i := by
  rw [decode, decode, letters_take_rawOffset, List.map_take]

/-- The letters behind a cut are read from the bytes behind it. -/
theorem drop_letters (mode : EscapeMode) (text : Bytes) (i : Nat) :
    mode.rawOffset text i ≤ text.length ∧ (mode.letters text).drop i =
      mode.lettersFrom (mode.rawOffset text i) (text.drop (mode.rawOffset text i)) := by
  have hsplit :
      mode.lettersFrom 0 text = (mode.letters text).take i ++ (mode.letters text).drop i := by
    rw [List.take_append_drop, letters_eq_lettersFrom]
  obtain ⟨-, hle, hback⟩ := lettersFrom_of_append hsplit
  rw [← rawOffset_eq_stopOf, Nat.zero_add] at hle
  rw [← rawOffset_eq_stopOf, Nat.sub_zero] at hback
  exact ⟨hle, hback⟩

theorem decode_drop_rawOffset (mode : EscapeMode) (text : Bytes) (i : Nat) :
    mode.decode (text.drop (mode.rawOffset text i)) = (mode.decode text).drop i := by
  rw [decode.eq_1 mode text, ← List.map_drop, (mode.drop_letters text i).2, map_byte_lettersFrom]

/-- The raw text between two letters decodes to the letters between them. -/
theorem decode_extract_rawOffset (mode : EscapeMode) (text : Bytes) {i j : Nat} (h : i ≤ j) :
    mode.decode (text.extract (mode.rawOffset text i) (mode.rawOffset text j)) =
      (mode.decode text).extract i j := by
  have hstart : mode.rawOffset (text.take (mode.rawOffset text j)) i = mode.rawOffset text i := by
    rw [rawOffset_eq_stopOf, letters_take_rawOffset, List.take_take, Nat.min_eq_left h,
      rawOffset_eq_stopOf]
  rw [List.extract_eq_drop_take', List.extract_eq_drop_take', ← decode_take_rawOffset, ← hstart,
    decode_drop_rawOffset]

theorem stop_of_letterAt? {offset : Nat} {letter : Letter}
    (h : mode.letterAt? text offset = some letter) :
    offset < letter.stop ∧ letter.stop ≤ text.length := by
  rw [letterAt?] at h
  cases hrest : text.drop offset with
  | nil =>
      rw [hrest] at h
      cases h
  | cons b rest =>
      rw [hrest] at h
      have hstop : offset + 1 + (mode.readLetter b rest).2 = letter.stop :=
        congrArg Letter.stop (Option.some.inj h)
      have hlength := congrArg List.length hrest
      have hused := mode.used_le_length b rest
      rw [List.length_drop, List.length_cons] at hlength
      omega

theorem rawOffset_lt_succ (mode : EscapeMode) {text : Bytes} {i : Nat}
    (h : i < (mode.letters text).length) : mode.rawOffset text i < mode.rawOffset text (i + 1) := by
  have hletter := List.getElem?_eq_getElem h
  have hfresh := (mode.letterAt?_rawOffset text i).trans hletter
  rw [← stop_eq_rawOffset hletter]
  exact (stop_of_letterAt? hfresh).1

/-- Later letters start at later offsets, and all start before the text ends. -/
theorem rawOffset_lt (mode : EscapeMode) {text : Bytes} {i j : Nat} (h : i < j)
    (hj : j ≤ (mode.letters text).length) : mode.rawOffset text i < mode.rawOffset text j := by
  induction j, h using Nat.le_induction with
  | base => exact mode.rawOffset_lt_succ hj
  | succ j hij ih => exact (ih (Nat.le_of_succ_le hj)).trans (mode.rawOffset_lt_succ hj)

/-- Letters part a text: reading leads on within the text from everywhere, the offsets of letters
ascend from its start, and the text decodes part by part where it is cut at one of them. -/
structure Parts (mode : EscapeMode) (text : Bytes) : Prop where
  reads : ∀ offset < text.length, ∃ letter, mode.letterAt? text offset = some letter ∧
    letter.start = offset ∧ offset < letter.stop ∧ letter.stop ≤ text.length
  starts : text ≠ [] → ((mode.letters text).map (·.start)).head? = some 0
  ascends : ((mode.letters text).map (·.start)).Pairwise (· < ·)
  cut : ∀ offset, offset ∈ (mode.letters text).map (·.start) ∨ offset = text.length →
    mode.decode text = mode.decode (text.take offset) ++ mode.decode (text.drop offset)

theorem exists_rawOffset_eq {offset : Nat}
    (h : offset ∈ (mode.letters text).map (·.start) ∨ offset = text.length) :
    ∃ i, mode.rawOffset text i = offset := by
  rcases h with hstart | rfl
  · obtain ⟨letter, hletter, rfl⟩ := List.mem_map.mp hstart
    obtain ⟨i, hi⟩ := List.mem_iff_getElem?.mp hletter
    exact ⟨i, by rw [rawOffset, hi]; rfl⟩
  · refine ⟨(mode.letters text).length, ?_⟩
    rw [rawOffset, List.getElem?_eq_none (Nat.le_refl _)]
    rfl

theorem parts (mode : EscapeMode) (text : Bytes) : mode.Parts text where
  reads := by
    intro offset h
    obtain ⟨b, rest, hrest⟩ := List.exists_cons_of_length_pos
      (List.length_drop ▸ Nat.sub_pos_of_lt h : 0 < (text.drop offset).length)
    obtain ⟨letter, hletter⟩ : ∃ letter, mode.letterAt? text offset = some letter :=
      ⟨_, by rw [letterAt?, hrest]⟩
    exact ⟨letter, hletter, start_eq_of_letterAt? hletter, stop_of_letterAt? hletter⟩
  starts := by
    intro hne
    obtain ⟨b, rest, rfl⟩ := List.exists_cons_of_ne_nil hne
    rw [letters_eq_lettersFrom, lettersFrom_cons]
    rfl
  ascends := by
    rw [List.pairwise_map, List.pairwise_iff_getElem]
    intro i j hi hj hlt
    simpa [rawOffset, hi, hj] using mode.rawOffset_lt hlt hj.le
  cut := by
    intro offset hoffset
    obtain ⟨i, rfl⟩ := exists_rawOffset_eq hoffset
    rw [decode_take_rawOffset, decode_drop_rawOffset, List.take_append_drop]

end EscapeMode

/-! ## Hits in the raw text -/

namespace Automaton

variable {V : Type} {config : AutomatonConfig} {additions : List (Addition V)}
  {automaton : Automaton V}

theorem compiled_of_mem_findAll {text : Bytes} {mode : EscapeMode} {hit : Hit V}
    (h : hit ∈ automaton.findAll text mode) : automaton.compiled = true := by
  rw [findAll] at h
  split at h
  case isTrue hscan => exact (Bool.and_eq_true_iff.mp hscan).1
  case isFalse => cases h

/-- Where a hit is shown in a plain text, its key stands there up to the fold. -/
theorem Stores.map_fold_extract_plain (h : Stores config additions automaton) {text : Bytes}
    {hit : Hit V} (hhit : hit ∈ automaton.findAll text .plain) :
    hit.offset < hit.stop ∧ hit.stop ≤ text.length ∧
      (text.extract hit.offset hit.stop).map config.fold = hit.terminal.key.map config.fold := by
  obtain ⟨located, hall, -, hmem⟩ := h.findAll_spec (compiled_of_mem_findAll hhit) text .plain
  rw [hall] at hhit
  obtain ⟨⟨e, hit⟩, hin, rfl⟩ := List.mem_map.mp hhit
  obtain ⟨front, back, hsplit, rfl, hfound⟩ := (hmem e hit).mp hin
  obtain ⟨hoccurs, hoffset, hstop⟩ := (h.found_plain_iff hsplit hfound.stored).mp hfound
  have hkey : automaton.foldKey hit.terminal.key = hit.terminal.key.map config.fold := by
    rw [← h.config_eq]
    rfl
  have hpos : 0 < hit.terminal.key.length := List.length_pos_iff.mpr (h.key_ne_nil hfound.stored)
  have hlength := hoccurs.le_length
  have hends := List.suffix_iff_eq_drop.mp (hkey ▸ hoccurs.ends)
  have hfits := (hkey ▸ hoccurs.ends).length_le
  rw [List.length_map, List.length_map, List.length_take, Nat.min_eq_left hlength] at hends hfits
  dsimp only
  refine ⟨by omega, by omega, ?_⟩
  rw [hends, ← List.map_drop, List.extract_eq_drop_take', hoffset, hstop]

/-- The hit is a part of the raw text that decodes to its key, up to the fold. -/
structure StandsIn (config : AutomatonConfig) (mode : EscapeMode) (text : Bytes) (hit : Hit V) :
    Prop where
  lt : hit.offset < hit.stop
  le_length : hit.stop ≤ text.length
  decodes : (mode.decode (text.extract hit.offset hit.stop)).map config.fold =
    hit.terminal.key.map config.fold

theorem Stores.standsIn_of_mem_findAll (h : Stores config additions automaton) {text : Bytes}
    {mode : EscapeMode} {hit : Hit V} (hhit : hit ∈ automaton.findAll text mode) :
    StandsIn config mode text hit := by
  rw [findAll_relocate] at hhit
  obtain ⟨plain, hplain, rfl⟩ := List.mem_map.mp hhit
  obtain ⟨hlt, hle, hkey⟩ := h.map_fold_extract_plain hplain
  have hletters : plain.stop ≤ (mode.letters text).length := by
    rwa [EscapeMode.decode, List.length_map] at hle
  refine ⟨mode.rawOffset_lt hlt hletters, (mode.drop_letters text _).1, ?_⟩
  exact (congrArg _ (mode.decode_extract_rawOffset text (Nat.le_of_lt hlt))).trans hkey

end Automaton

end LiteralSieve
