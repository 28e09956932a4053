import LiteralSieve.Proofs.Automaton.Scanning

namespace LiteralSieve

/-!
# Occurrences in a plain text

Where every byte is a letter, what a scan finds can be said with the text alone. The hits are the
pairs of a stored folded key and an offset at which the folded text ends with it, each once.
-/

namespace EscapeMode

theorem lettersFrom_plain (offset : Nat) (text : Bytes) :
    plain.lettersFrom offset text = (text.zipIdx offset).map fun (b, i) => ⟨i, i + 1, b⟩ := by
  induction text generalizing offset with
  | nil => simp [lettersFrom]
  | cons b text ih =>
      rw [lettersFrom]
      simp [readLetter, ih]

theorem letters_plain (text : Bytes) :
    plain.letters text = text.zipIdx.map fun (b, i) => ⟨i, i + 1, b⟩ := by
  rw [letters, inEffect, ite_self, lettersFrom_plain]

theorem length_letters_plain (text : Bytes) : (plain.letters text).length = text.length := by
  rw [letters_plain, List.length_map, List.length_zipIdx]

theorem getElem?_letters_plain (text : Bytes) (i : Nat) :
    (plain.letters text)[i]? = text[i]?.map fun b => ⟨i, i + 1, b⟩ := by
  rw [letters_plain, List.getElem?_map, List.getElem?_zipIdx, Option.map_map, Nat.zero_add]
  rfl

theorem decode_plain (text : Bytes) : plain.decode text = text := by
  rw [decode, letters_plain, List.map_map]
  exact List.zipIdx_map_fst 0 text

end EscapeMode

namespace Automaton

variable {V : Type} {config : AutomatonConfig} {additions : List (Addition V)}
  {automaton : Automaton V}

/-- A folded key is stored with this entry, the folded text ends with it after `e` bytes, and if it
is for whole words the bytes around it belong to no word. -/
structure Occurs (config : AutomatonConfig) (additions : List (Addition V)) (text folded : Bytes)
    (e : Nat) (entry : KeyEntry V) : Prop where
  stored : entryAt? config additions folded = some entry
  le_length : e ≤ text.length
  ends : folded <:+ (text.take e).map config.fold
  before : entry.wholeWord = true →
    ∀ b, (text.take (e - folded.length)).getLast? = some b → Byte.isWord b = false
  after : entry.wholeWord = true → ∀ b, text[e]? = some b → Byte.isWord b = false

/-- The hit shows the folded key `occurrence.1` where it ends, after `occurrence.2` bytes. -/
structure Shows (config : AutomatonConfig) (additions : List (Addition V))
    (occurrence : Bytes × Nat) (hit : Hit V) : Prop where
  offset_eq : hit.offset = occurrence.2 - occurrence.1.length
  stop_eq : hit.stop = occurrence.2
  entry_eq : entryAt? config additions occurrence.1 = some (entryOf hit.terminal)

/-- Occurrences come by their ends, and longer ones first where they end together. -/
def Precedes (a b : Bytes × Nat) : Prop := a.2 < b.2 ∨ a.2 = b.2 ∧ b.1.length < a.1.length

instance (a b : Bytes × Nat) : Decidable (Precedes a b) :=
  inferInstanceAs (Decidable (_ ∨ _))

theorem Precedes.ne {a b : Bytes × Nat} (h : Precedes a b) : a ≠ b := by
  rintro rfl
  rcases h with h | ⟨-, h⟩ <;> exact lt_irrefl _ h

theorem getElem?_reverse_eq_getLast? {α : Type*} (xs : List α) (i : Nat) :
    xs.reverse[i]? = (xs.take (xs.length - i)).getLast? := by
  rw [← List.head?_drop, List.drop_reverse, List.head?_reverse]

theorem touchesWord_eq_false_iff {letter : Option Letter} :
    touchesWord letter = false ↔ ∀ b, letter.map (·.byte) = some b → Byte.isWord b = false := by
  cases letter <;> simp [touchesWord]

section Split

variable {text : Bytes} {front back : List Letter}

theorem map_byte_front (hsplit : EscapeMode.plain.letters text = front ++ back) :
    front.map (·.byte) = text.take front.length := by
  apply List.ext_getElem?
  intro i
  have hat := EscapeMode.getElem?_letters_plain text i
  rw [hsplit] at hat
  rw [List.getElem?_map, List.getElem?_take]
  split_ifs with hi
  · rw [List.getElem?_append_left hi] at hat
    rw [hat, Option.map_map]
    exact Option.map_id_fun' ▸ rfl
  · rw [List.getElem?_eq_none (by omega)]
    rfl

theorem length_front_le (hsplit : EscapeMode.plain.letters text = front ++ back) :
    front.length ≤ text.length := by
  rw [← EscapeMode.length_letters_plain, hsplit, List.length_append]
  omega

theorem head?_back (hsplit : EscapeMode.plain.letters text = front ++ back) :
    back.head?.map (·.byte) = text[front.length]? := by
  have hat := EscapeMode.getElem?_letters_plain text front.length
  rw [hsplit, List.getElem?_append_right le_rfl, Nat.sub_self] at hat
  rw [List.head?_eq_getElem?, hat, Option.map_map]
  exact Option.map_id_fun' ▸ rfl

/-- The letter before the last `i` letters read. -/
theorem map_byte_reverse_front (hsplit : EscapeMode.plain.letters text = front ++ back) (i : Nat) :
    front.reverse[i]?.map (·.byte) = (text.take (front.length - i)).getLast? := by
  rw [getElem?_reverse_eq_getLast?, ← List.getLast?_map, List.map_take, map_byte_front hsplit,
    List.take_take, Nat.min_eq_left (Nat.sub_le _ _)]

theorem getElem?_reverse_front (hsplit : EscapeMode.plain.letters text = front ++ back) {i : Nat}
    (hi : i < front.length) :
    ∃ b, front.reverse[i]? = some ⟨front.length - 1 - i, front.length - i, b⟩ := by
  have hat := EscapeMode.getElem?_letters_plain text (front.length - 1 - i)
  have hlt : front.length - 1 - i < text.length := by
    have hle := length_front_le hsplit
    omega
  rw [hsplit, List.getElem?_append_left (by omega), List.getElem?_eq_getElem hlt] at hat
  refine ⟨text[front.length - 1 - i], ?_⟩
  rw [List.getElem?_reverse hi, hat, Option.map_some, show front.length - 1 - i + 1 = front.length - i by omega]

theorem start_reverse_front (hsplit : EscapeMode.plain.letters text = front ++ back) {n : Nat}
    (hpos : 0 < n) (hle : n ≤ front.length) (offset : Nat) :
    front.reverse[n - 1]?.map (·.start) = some offset ↔ offset = front.length - n := by
  obtain ⟨b, hfirst⟩ := getElem?_reverse_front hsplit (show n - 1 < front.length by omega)
  simp only [hfirst, Option.map_some, Option.some.injEq]
  omega

theorem stop_reverse_front (hsplit : EscapeMode.plain.letters text = front ++ back)
    (hpos : 0 < front.length) (stop : Nat) :
    front.reverse.head?.map (·.stop) = some stop ↔ stop = front.length := by
  obtain ⟨b, hlast⟩ := getElem?_reverse_front hsplit hpos
  simp only [List.head?_eq_getElem?, hlast, Option.map_some, Option.some.injEq]
  omega

theorem Stores.foldPast_front (h : Stores config additions automaton)
    (hsplit : EscapeMode.plain.letters text = front ++ back) :
    automaton.foldPast front.reverse = ((text.take front.length).map config.fold).reverse := by
  rw [← map_byte_front hsplit, List.map_map, ← List.map_reverse, foldPast, ← h.config_eq]
  rfl

end Split

/-- What a scan of a plain text finds after `e` bytes. -/
theorem Stores.found_plain_iff (h : Stores config additions automaton) {text : Bytes}
    {front back : List Letter} (hsplit : EscapeMode.plain.letters text = front ++ back)
    {hit : Hit V} (hget : automaton.terminals.get? hit.id = some hit.terminal) :
    automaton.Found front.reverse back.head? hit ↔
      Occurs config additions text (automaton.foldKey hit.terminal.key) front.length
          (entryOf hit.terminal) ∧
        hit.offset = front.length - hit.terminal.key.length ∧ hit.stop = front.length := by
  have hpos : 0 < hit.terminal.key.length := List.length_pos_iff.mpr (h.key_ne_nil hget)
  have hlength : (automaton.foldKey hit.terminal.key).length = hit.terminal.key.length :=
    List.length_map _
  have hends : (automaton.foldKey hit.terminal.key).reverse <+: automaton.foldPast front.reverse ↔
      automaton.foldKey hit.terminal.key <:+ (text.take front.length).map config.fold := by
    rw [h.foldPast_front hsplit, List.reverse_prefix]
  have hfits : automaton.foldKey hit.terminal.key <:+ (text.take front.length).map config.fold →
      hit.terminal.key.length ≤ front.length := by
    intro hsuffix
    have hle := hsuffix.length_le
    rw [hlength, List.length_map, List.length_take] at hle
    exact hle.trans (Nat.min_le_left _ _)
  have hbefore : touchesWord front.reverse[hit.terminal.key.length]? = false ↔ ∀ b,
      (text.take (front.length - (automaton.foldKey hit.terminal.key).length)).getLast? = some b →
        Byte.isWord b = false := by
    rw [touchesWord_eq_false_iff, map_byte_reverse_front hsplit, hlength]
  have hafter : touchesWord back.head? = false ↔
      ∀ b, text[front.length]? = some b → Byte.isWord b = false := by
    rw [touchesWord_eq_false_iff, head?_back hsplit]
  constructor
  · intro hfound
    have hsuffix := hends.mp hfound.ends
    have hle := hfits hsuffix
    refine ⟨⟨?_, length_front_le hsplit, hsuffix, fun hwhole => ?_, fun hwhole => ?_⟩,
      (start_reverse_front hsplit hpos hle _).mp hfound.offset_eq,
      (stop_reverse_front hsplit (hpos.trans_le hle) _).mp hfound.stop_eq⟩
    · have hentry := h.entry_eq hget
      rwa [h.word_state hget, List.reverse_reverse] at hentry
    · exact hbefore.mp (hfound.limits hwhole).1
    · exact hafter.mp (hfound.limits hwhole).2
  · rintro ⟨hoccurs, hoffset, hstop⟩
    have hle := hfits hoccurs.ends
    exact ⟨hget, hends.mpr hoccurs.ends,
      fun hwhole => ⟨hbefore.mpr (hoccurs.before hwhole), hafter.mpr (hoccurs.after hwhole)⟩,
      (start_reverse_front hsplit hpos hle _).mpr hoffset,
      (stop_reverse_front hsplit (hpos.trans_le hle) _).mpr hstop⟩

def occurrence (automaton : Automaton V) (found : Located V) : Bytes × Nat :=
  (automaton.foldKey found.2.terminal.key, found.1)

theorem pairwise_occurrence {located : List (Located V)}
    (h : located.Pairwise Located.Before) :
    (located.map automaton.occurrence).Pairwise Precedes := by
  refine List.pairwise_map.mpr (h.imp ?_)
  rintro a b (hlt | ⟨heq, hlonger⟩)
  · exact Or.inl hlt
  · exact Or.inr ⟨heq, by simpa [occurrence, foldKey, Longer] using hlonger⟩

/-- The hits in a plain text are the occurrences of the stored keys, in order. -/
theorem Stores.findAll_plain (h : Stores config additions automaton)
    (hcompiled : automaton.compiled = true) (text : Bytes) :
    ∃ occurrences : List (Bytes × Nat),
      (∀ folded e, (folded, e) ∈ occurrences ↔
        ∃ entry, Occurs config additions text folded e entry) ∧
      occurrences.Pairwise Precedes ∧
      occurrences.Forall₂ (Shows config additions) (automaton.findAll text .plain) := by
  obtain ⟨located, hall, hbefore, hmem⟩ := h.findAll_spec hcompiled text .plain
  have hshow : ∀ found ∈ located,
      (∃ entry, Occurs config additions text (automaton.occurrence found).1 found.1 entry) ∧
        Shows config additions (automaton.occurrence found) found.2 := by
    rintro ⟨e, hit⟩ hin
    obtain ⟨front, back, hsplit, rfl, hfound⟩ := (hmem e hit).mp hin
    obtain ⟨hoccurs, hoffset, hstop⟩ := (h.found_plain_iff hsplit hfound.stored).mp hfound
    refine ⟨⟨_, hoccurs⟩, ?_, hstop, hoccurs.stored⟩
    rw [hoffset, occurrence, foldKey, List.length_map]
  refine ⟨located.map automaton.occurrence, fun folded e => ?_, ?_, ?_⟩
  · rw [List.mem_map]
    constructor
    · rintro ⟨found, hfound, heq⟩
      obtain ⟨rfl, rfl⟩ := Prod.mk.inj heq
      exact (hshow found hfound).1
    · rintro ⟨entry, hoccurs⟩
      obtain ⟨id, terminal, hget, hkey, hentry⟩ := h.exists_terminal_key hoccurs.stored
      let letters := EscapeMode.plain.letters text
      have hsplit : letters = letters.take e ++ letters.drop e := (List.take_append_drop _ _).symm
      have hlength : (letters.take e).length = e := by
        rw [List.length_take, EscapeMode.length_letters_plain]
        exact Nat.min_eq_left hoccurs.le_length
      let hit : Hit V := ⟨e - terminal.key.length, e, id, terminal⟩
      refine ⟨(e, hit), (hmem e hit).mpr ⟨_, _, hsplit, hlength.symm, ?_⟩, ?_⟩
      · refine (h.found_plain_iff hsplit hget).mpr ?_
        rw [hlength]
        exact ⟨hkey.symm ▸ hentry.symm ▸ hoccurs, rfl, rfl⟩
      · rw [occurrence, hkey]
  · exact pairwise_occurrence hbefore
  · rw [hall, List.forall₂_map_left_iff, List.forall₂_map_right_iff, List.forall₂_same]
    exact fun found hfound => (hshow found hfound).2

end Automaton

end LiteralSieve
