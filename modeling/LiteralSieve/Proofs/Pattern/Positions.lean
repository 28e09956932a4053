import LiteralSieve.Pattern.Parser
import LiteralSieve.Proofs.Pattern.Lengths
import Mathlib.Data.String.Basic

namespace LiteralSieve

/-!
# Positions in a pattern

A pattern is read by whole characters, so every offset that turns up while it is read stands between
two characters: where a lexeme starts, where it ends, where its quantifier ends, and where a fault
is shown. A reader shows its faults in front of the signs of their kinds.
-/

/-- The offset stands between two characters of the pattern, or at an end. -/
def Boundary (pattern : String) (offset : Nat) : Prop :=
  String.Pos.Raw.IsValid pattern ⟨offset⟩

theorem width_toList (text : String) : width text.toList = text.utf8ByteSize := by
  have hwidth : ∀ cs, width cs = String.utf8Len cs := by
    intro cs
    induction cs with
    | nil => rfl
    | cons c cs ih => rw [width_cons, String.utf8Len_cons, ih, Nat.add_comm]
  rw [hwidth, ← String.utf8ByteSize_ofList, String.ofList_toList]

theorem boundary_iff {pattern : String} {offset : Nat} :
    Boundary pattern offset ↔
      ∃ before after, before ++ after = pattern.toList ∧ width before = offset := by
  rw [Boundary, String.Pos.Raw.isValid_iff_exists_append]
  constructor
  · rintro ⟨first, last, rfl, heq⟩
    refine ⟨first.toList, last.toList, String.toList_append.symm, ?_⟩
    rw [width_toList]
    exact (congrArg String.Pos.Raw.byteIdx heq).symm
  · rintro ⟨before, after, happend, rfl⟩
    refine ⟨String.ofList before, String.ofList after, ?_, ?_⟩
    · rw [← String.ofList_append, happend, String.ofList_toList]
    · rw [String.rawEndPos, ← width_toList, String.toList_ofList]

theorem Boundary.le {pattern : String} {offset : Nat} (h : Boundary pattern offset) :
    offset ≤ pattern.utf8ByteSize :=
  h.le_rawEndPos

/-! ## Cursors -/

namespace Cursor

/-- The cursor stands in the pattern: what is ahead is what the pattern has after the offset. -/
def Within (pattern : String) (cursor : Cursor) : Prop :=
  ∃ before, before ++ cursor.rest = pattern.toList ∧ width before = cursor.offset

variable {pattern : String} {cursor : Cursor}

theorem within_start (pattern : String) : (start pattern).Within pattern :=
  ⟨[], rfl, rfl⟩

theorem Within.boundary (h : cursor.Within pattern) : Boundary pattern cursor.offset := by
  obtain ⟨before, happend, hwidth⟩ := h
  exact boundary_iff.mpr ⟨before, cursor.rest, happend, hwidth⟩

theorem Within.advance (h : cursor.Within pattern) (n : Nat) :
    (cursor.advance n).Within pattern := by
  obtain ⟨before, happend, hwidth⟩ := h
  refine ⟨before ++ cursor.rest.take n, ?_, ?_⟩
  · rw [rest_advance, List.append_assoc, List.take_append_drop, happend]
  · rw [width_append, hwidth, Cursor.advance]

theorem offset_le_advance (cursor : Cursor) (n : Nat) : cursor.offset ≤ (cursor.advance n).offset :=
  Nat.le_add_right _ _

theorem width_take_le_advance (cursor : Cursor) {m n : Nat} (h : m ≤ n) :
    cursor.offset + width (cursor.rest.take m) ≤ (cursor.advance n).offset := by
  obtain ⟨k, rfl⟩ := Nat.exists_eq_add_of_le h
  rw [← Cursor.advance_advance]
  exact offset_le_advance (cursor.advance m) k

end Cursor

/-! ## Faults of readers -/

/-- The fault is shown at or after the cursor, in front of some character or at the end. -/
def Fault.From (cursor : Cursor) (fault : Fault) : Prop :=
  ∃ n, fault.offset = (cursor.advance n).offset

theorem Fault.From.boundary {cursor : Cursor} {fault : Fault} {pattern : String}
    (h : From cursor fault) (hwithin : cursor.Within pattern) : Boundary pattern fault.offset := by
  obtain ⟨n, hoffset⟩ := h
  exact hoffset ▸ (hwithin.advance n).boundary

/-- The characters that the faults of a kind are shown at. -/
def FaultKind.signs : FaultKind → List Char
  | unmatchedOpenParen | invalidGroup | depthLimit => ['(']
  | unmatchedCloseParen => [')']
  | unterminatedClass | unknownClassName => ['[']
  | invalidRange => ['-']
  | trailingBackslash | invalidEscape => ['\\']
  | invalidRepeatRange | repeatTooLarge => ['{']
  | nothingToRepeat | nestedQuantifier => ['*', '+', '?', '{']

/-- The fault is shown at or after the cursor, in front of a sign of its kind. -/
def Fault.Shown (cursor : Cursor) (fault : Fault) : Prop :=
  ∃ n, ∃ c ∈ fault.kind.signs, ∃ rest, cursor.advance n = ⟨fault.offset, c :: rest⟩

namespace Fault

variable {cursor : Cursor} {fault : Fault} {kind : FaultKind} {offset : Nat} {c : Char}
  {rest : List Char}

theorem shown_here (h : c ∈ kind.signs) : Shown ⟨offset, c :: rest⟩ ⟨kind, offset⟩ :=
  ⟨0, c, h, rest, Cursor.advance_zero _⟩

/-- What is ahead of a cursor decides whether a fault may be shown there. -/
theorem shown_of_rest (hrest : cursor.rest = c :: rest) (h : c ∈ kind.signs) :
    Shown cursor ⟨kind, cursor.offset⟩ :=
  ⟨0, c, h, rest, by rw [Cursor.advance_zero, ← hrest]⟩

theorem Shown.of_advance {m : Nat} (h : Shown (cursor.advance m) fault) : Shown cursor fault := by
  obtain ⟨n, c, hc, rest, hadvance⟩ := h
  exact ⟨m + n, c, hc, rest, by rw [← Cursor.advance_advance, hadvance]⟩

theorem Shown.from_cursor (h : Shown cursor fault) : From cursor fault := by
  obtain ⟨n, c, -, rest, hadvance⟩ := h
  exact ⟨n, by rw [hadvance]⟩

end Fault

namespace Quantifier

variable {rest : List Char}

theorem exists_of_starts (h : starts rest = true) :
    ∃ c ∈ FaultKind.nestedQuantifier.signs, ∃ tail, rest = c :: tail := by
  unfold starts at h
  split at h
  · exact ⟨'*', by decide, _, rfl⟩
  · exact ⟨'+', by decide, _, rfl⟩
  · exact ⟨'?', by decide, _, rfl⟩
  · exact ⟨'{', by decide, _, rfl⟩
  · cases h

/-- Only an interval has bounds that may be wrong. -/
theorem exists_of_fault? {q : Quantifier} {n : Nat} {kind : FaultKind}
    (hleading : leading? rest = some (q, n)) (hfault : q.fault? = some kind) :
    ∃ c ∈ kind.signs, ∃ tail, rest = c :: tail := by
  have hsign : '{' ∈ kind.signs := by
    unfold fault? at hfault
    split at hfault
    · obtain rfl := Option.some.inj hfault
      exact List.mem_singleton_self _
    · split at hfault
      · obtain rfl := Option.some.inj hfault
        exact List.mem_singleton_self _
      · cases hfault
  unfold leading? at hleading
  split at hleading
  case h_4 => exact ⟨'{', hsign, _, rfl⟩
  case h_5 => cases hleading
  all_goals
    obtain ⟨rfl, -⟩ := Prod.mk.inj (Option.some.inj hleading)
    cases hfault

theorem shown_of_read {extended : Bool} {cursor : Cursor} {fault : Fault}
    (h : read extended cursor = .error fault) : fault.Shown cursor := by
  unfold read at h
  dsimp only at h
  generalize (if extended then layoutLength cursor.rest else 0) = layout at h
  split at h
  case h_1 => cases h
  case h_2 q n hleading =>
    split at h
    case h_1 kind hfault =>
      obtain rfl := Except.error.inj h
      obtain ⟨c, hc, tail, hrest⟩ := exists_of_fault? hleading hfault
      exact (Fault.shown_of_rest hrest hc).of_advance
    case h_2 =>
      split at h
      case isTrue hstarts =>
        obtain rfl := Except.error.inj h
        obtain ⟨c, hc, tail, hrest⟩ := exists_of_starts hstarts
        exact (Fault.shown_of_rest hrest hc).of_advance.of_advance
      case isFalse => cases h

theorem from_of_read {extended : Bool} {cursor : Cursor} {fault : Fault}
    (h : read extended cursor = .error fault) : fault.From cursor :=
  (shown_of_read h).from_cursor

end Quantifier

namespace ClassMember

variable {start : Nat} {cursor : Cursor} {fault : Fault}

/-- A class that does not end is a fault of the whole class; all others are faults of the member. -/
theorem shown_of_read (h : read start cursor = .error fault) :
    fault = ⟨.unterminatedClass, start⟩ ∨ fault.Shown cursor := by
  unfold read at h
  split at h
  · exact Or.inl (Except.error.inj h).symm
  · split at h
    · cases h
    · split at h
      · obtain rfl := Except.error.inj h
        exact Or.inr (Fault.shown_here (List.mem_singleton_self _))
      · cases h
  · exact Or.inl (Except.error.inj h).symm
  · split at h
    · obtain rfl := Except.error.inj h
      exact Or.inr (Fault.shown_here (List.mem_singleton_self _))
    · cases h
  · cases h

theorem eq_of_range {lo : UInt8} {dash : Nat} {member : ClassMember}
    (h : range lo dash member = .error fault) : fault = ⟨.invalidRange, dash⟩ := by
  unfold range at h
  split at h
  · split at h
    · cases h
    · exact (Except.error.inj h).symm
  · cases h
  · exact (Except.error.inj h).symm

theorem exists_of_startsRange {rest : List Char} (h : startsRange rest = true) :
    ∃ tail, rest = '-' :: tail := by
  unfold startsRange at h
  split at h
  · exact ⟨_, rfl⟩
  · cases h

theorem shown_of_readItem (h : readItem start cursor = .error fault) :
    fault = ⟨.unterminatedClass, start⟩ ∨ fault.Shown cursor := by
  unfold readItem at h
  cases hfirst : read start cursor with
  | error found =>
      rw [hfirst] at h
      obtain rfl := Except.error.inj h
      exact shown_of_read hfirst
  | ok found =>
      obtain ⟨first, m⟩ := found
      rw [hfirst] at h
      cases first with
      | byte lo =>
          change (if startsRange (cursor.advance (m + 1)).rest = true then _ else _) = _ at h
          split at h
          case isTrue hrange =>
            cases hlast : read start ((cursor.advance (m + 1)).advance 1) with
            | error found =>
                rw [hlast] at h
                obtain rfl := Except.error.inj h
                exact (shown_of_read hlast).imp_right fun hshown => hshown.of_advance.of_advance
            | ok found =>
                obtain ⟨last, k⟩ := found
                rw [hlast] at h
                change (range lo (cursor.advance (m + 1)).offset last >>= _) = _ at h
                cases hitem : range lo (cursor.advance (m + 1)).offset last with
                | error found =>
                    rw [hitem] at h
                    obtain rfl := Except.error.inj h
                    obtain rfl := eq_of_range hitem
                    obtain ⟨tail, hdash⟩ := exists_of_startsRange hrange
                    exact Or.inr
                      (Fault.shown_of_rest hdash (List.mem_singleton_self _)).of_advance
                | ok item =>
                    rw [hitem] at h
                    cases h
          case isFalse => cases h
      | _ => cases h

end ClassMember

theorem ClassContent.shown_of_readFrom {start : Nat} {first : Bool} {content : ClassContent}
    {cursor : Cursor} {fault : Fault} (h : readFrom start first content cursor = .error fault) :
    fault = ⟨.unterminatedClass, start⟩ ∨ fault.Shown cursor := by
  fun_induction readFrom start first content cursor with
  | case1 => exact Or.inl (Except.error.inj h).symm
  | case2 => cases h
  | case3 first content offset c rest hclose found hitem =>
      obtain rfl := Except.error.inj h
      exact ClassMember.shown_of_readItem hitem
  | case4 first content offset c rest hclose item m hitem found hlater ih =>
      obtain rfl := Except.error.inj h
      exact (ih hlater).imp_right Fault.Shown.of_advance
  | case5 => cases h

theorem shown_of_readClass {offset : Nat} {rest : List Char} {fault : Fault}
    (h : readClass ⟨offset, '[' :: rest⟩ = .error fault) :
    fault.Shown ⟨offset, '[' :: rest⟩ := by
  unfold readClass at h
  dsimp only at h
  generalize hread : ClassContent.readFrom offset true .empty _ = read at h
  cases read with
  | error found =>
      obtain rfl := Except.error.inj h
      rcases ClassContent.shown_of_readFrom hread with rfl | hshown
      · exact Fault.shown_here (List.mem_singleton_self _)
      · exact hshown.of_advance.of_advance
  | ok found => cases h

namespace Opener

variable {flags : Flags} {rest : List Char} {kind : FaultKind}

theorem skipTo_error {opener : Opener} {n : Nat} {length : Option Nat}
    (h : skipTo opener n length = .error kind) : '(' ∈ kind.signs := by
  cases length with
  | none => exact Except.error.inj h ▸ List.mem_singleton_self _
  | some m => cases h

theorem named_error {n : Nat} {length : Option Nat} (h : named flags n length = .error kind) :
    '(' ∈ kind.signs := by
  cases length with
  | none => exact Except.error.inj h ▸ List.mem_singleton_self _
  | some m => cases h

theorem error_of_map {found : Except FaultKind (Opener × Nat)}
    {f : Opener × Nat → Opener × Nat} (h : found.map f = .error kind) : found = .error kind := by
  cases found with
  | error kind => exact h
  | ok found => cases h

theorem readOptions_error {on : Bool} (h : readOptions on flags rest = .error kind) :
    '(' ∈ kind.signs := by
  fun_induction readOptions on flags rest with
  | case1 => exact Except.error.inj h ▸ List.mem_singleton_self _
  | case2 => cases h
  | case3 => cases h
  | case4 => exact Except.error.inj h ▸ List.mem_singleton_self _
  | case5 on flags c rest hclose hcolon next =>
      rename_i ih
      exact ih (error_of_map h)

theorem readSpecial_error (h : readSpecial flags rest = .error kind) : '(' ∈ kind.signs := by
  unfold readSpecial at h
  split at h
  · exact Except.error.inj h ▸ List.mem_singleton_self _
  · exact skipTo_error h
  · cases h
  · cases h
  · exact named_error h
  · exact named_error h
  · exact skipTo_error h
  · exact skipTo_error h
  · exact Except.error.inj h ▸ List.mem_singleton_self _
  · exact skipTo_error h
  · split at h
    · cases h
    · split at h
      · cases h
      · split at h
        · exact named_error h
        · split at h
          · exact skipTo_error h
          · split at h
            · exact skipTo_error h
            · exact readOptions_error h

/-- Every fault of an opener is shown at its parenthesis. -/
theorem read_error (h : read flags rest = .error kind) : '(' ∈ kind.signs := by
  unfold read at h
  split at h
  · split at h
    · exact skipTo_error h
    · exact Except.error.inj h ▸ List.mem_singleton_self _
  · exact Except.error.inj h ▸ List.mem_singleton_self _
  · exact readSpecial_error (error_of_map h)
  · cases h

end Opener

namespace Lexeme

variable {flags : Flags} {offset : Nat} {c : Char} {rest : List Char} {fault : Fault}

theorem shown_of_read (h : read flags offset c rest = .error fault) :
    fault.Shown ⟨offset, c :: rest⟩ := by
  have hhere : ∀ {kind : FaultKind}, c ∈ kind.signs →
      (Except.error ⟨kind, offset⟩ : Except Fault (Lexeme × Nat)) = .error fault →
      fault.Shown ⟨offset, c :: rest⟩ := by
    intro kind hc heq
    obtain rfl := Except.error.inj heq
    exact Fault.shown_here hc
  unfold Lexeme.read at h
  split at h
  · cases h
  · cases h
  · split at h
    · exact hhere (List.mem_singleton_self _) h
    · split at h
      · exact hhere (List.mem_singleton_self _) h
      · cases h
  · split at h
    case h_1 hopener => exact hhere (Opener.read_error hopener) h
    case h_2 => cases h
  · split at h
    case h_1 hclass =>
      obtain rfl := Except.error.inj h
      exact shown_of_readClass hclass
    case h_2 => cases h
  · cases h
  · cases h
  · cases h
  · split at h
    case isTrue hstarts =>
      obtain ⟨d, hd, tail, heq⟩ := Quantifier.exists_of_starts hstarts
      obtain ⟨rfl, rfl⟩ := List.cons.inj heq
      have hc : c ∈ FaultKind.nothingToRepeat.signs := hd
      exact hhere hc h
    case isFalse =>
      split at h
      · cases h
      · split at h <;> cases h

theorem from_of_read (h : read flags offset c rest = .error fault) :
    fault.From ⟨offset, c :: rest⟩ :=
  (shown_of_read h).from_cursor

end Lexeme

/-! ## Steps -/

namespace ParserState

variable {reading : Reading} {state next : ParserState} {cursor stop : Cursor}

theorem addAtom_advances {start : Nat} {atom : Atom}
    (h : addAtom reading state start atom cursor = .next next stop) :
    ∃ n, n ≤ cursor.rest.length ∧ stop = cursor.advance n := by
  unfold addAtom at h
  split at h
  · cases h
  case h_2 q n hread =>
    obtain ⟨-, rfl⟩ := ParserStep.next.inj h
    exact ⟨n, Quantifier.length_read_le hread, rfl⟩

theorem apply_advances {offset : Nat} {lexeme : Lexeme}
    (h : apply reading state offset cursor lexeme = .next next stop) :
    ∃ n, n ≤ cursor.rest.length ∧ stop = cursor.advance n := by
  have hsame : ∀ {found : ParserState}, ParserStep.next found cursor = .next next stop →
      ∃ n, n ≤ cursor.rest.length ∧ stop = cursor.advance n := by
    intro found heq
    obtain ⟨-, rfl⟩ := ParserStep.next.inj heq
    exact ⟨0, Nat.zero_le _, (Cursor.advance_zero _).symm⟩
  unfold apply at h
  split at h
  · exact hsame h
  · exact hsame h
  · exact hsame h
  · unfold closeGroup at h
    split at h
    · cases h
    · exact addAtom_advances h
  · unfold openGroup at h
    split at h
    · cases h
    · exact hsame h
  · exact addAtom_advances h
  · exact addAtom_advances h

/-- A step leads to a place further on in the pattern, with all characters between that the lexeme
and the quantifier after it take. -/
theorem step_advances (h : step reading state cursor = .next next stop) :
    ∃ n, n ≤ cursor.rest.length ∧ stop = cursor.advance n := by
  unfold step at h
  split at h
  · cases h
  case h_2 offset c rest =>
    split at h
    · cases h
    case h_2 lexeme n hread =>
      obtain ⟨m, hm, rfl⟩ := apply_advances h
      have hn := Lexeme.length_read_le hread
      refine ⟨n + 1 + m, ?_, Cursor.advance_advance _ _ _⟩
      simp only [Cursor.rest_advance, List.length_drop, List.length_cons] at hm ⊢
      omega

/-- What the reading of a pattern comes by. -/
inductive Reached (reading : Reading) (pattern : String) : ParserState → Cursor → Prop
  | start : Reached reading pattern .initial (.start pattern)
  | step {state next : ParserState} {cursor stop : Cursor} (h : Reached reading pattern state cursor)
      (hstep : state.step reading cursor = .next next stop) : Reached reading pattern next stop

/-- The reading never leaves the pattern. -/
theorem Reached.within {pattern : String} (h : Reached reading pattern state cursor) :
    cursor.Within pattern := by
  induction h with
  | start => exact Cursor.within_start pattern
  | step h hstep ih =>
      obtain ⟨n, -, rfl⟩ := step_advances hstep
      exact ih.advance n

end ParserState

end LiteralSieve
