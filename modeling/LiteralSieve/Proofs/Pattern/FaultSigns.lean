import LiteralSieve.Pattern.Tree
import LiteralSieve.Proofs.Pattern.Positions

namespace LiteralSieve

/-!
# Signs that faults are shown at

A fault is shown at a sign of its kind. What a lexeme or a quantifier has wrong is shown ahead of
where it starts. A group that is not closed is shown where it opens, which may be far behind, so a
run has to keep all open groups at their parentheses.
-/

variable {pattern : String} {fault : Fault}

/-- In the pattern, a sign of the fault's kind stands where the fault is shown. -/
def Fault.ShownIn (pattern : String) (fault : Fault) : Prop :=
  ∃ c ∈ fault.kind.signs, ∃ rest, Cursor.Within pattern ⟨fault.offset, c :: rest⟩

theorem Fault.Shown.shownIn {cursor : Cursor} (h : fault.Shown cursor)
    (hwithin : cursor.Within pattern) : fault.ShownIn pattern := by
  obtain ⟨n, c, hc, rest, hadvance⟩ := h
  exact ⟨c, hc, rest, hadvance ▸ hwithin.advance n⟩

/-! ## Lexemes that structure a pattern -/

namespace Lexeme

/-- The character that a lexeme with a part in the structure of a pattern starts with. -/
def sign? : Lexeme → Option Char
  | bar => some '|'
  | close => some ')'
  | body _ _ | options _ => some '('
  | atom _ | blank => none

theorem eq_sign_of_read {flags : Flags} {offset n : Nat} {c : Char} {rest : List Char}
    {lexeme : Lexeme} (h : read flags offset c rest = .ok (lexeme, n)) :
    ∀ sign ∈ lexeme.sign?, c = sign := by
  have hnone : ∀ {found : Lexeme} {m : Nat}, found.sign? = none →
      (Except.ok (found, m) : Except Fault (Lexeme × Nat)) = .ok (lexeme, n) →
      ∀ sign ∈ lexeme.sign?, c = sign := by
    intro found m hfound heq
    obtain ⟨rfl, -⟩ := Prod.mk.inj (Except.ok.inj heq)
    simp [hfound]
  unfold Lexeme.read at h
  split at h
  · obtain ⟨rfl, -⟩ := Prod.mk.inj (Except.ok.inj h)
    simp [sign?]
  · obtain ⟨rfl, -⟩ := Prod.mk.inj (Except.ok.inj h)
    simp [sign?]
  · split at h
    · cases h
    · split at h
      · cases h
      · exact hnone rfl h
  · split at h
    case h_1 => cases h
    case h_2 opener m hopener =>
      obtain ⟨rfl, -⟩ := Prod.mk.inj (Except.ok.inj h)
      cases opener <;> simp [ofOpener, sign?]
  · split at h
    · cases h
    · exact hnone rfl h
  · exact hnone rfl h
  · exact hnone rfl h
  · exact hnone rfl h
  · split at h
    · cases h
    · split at h
      · exact hnone rfl h
      · split at h <;> exact hnone rfl h

end Lexeme

/-! ## Steps -/

/-- Every open group is kept with the place of its parenthesis. -/
def ParserState.Opened (pattern : String) (state : ParserState) : Prop :=
  ∀ outer ∈ state.outer, ∃ rest, Cursor.Within pattern ⟨outer.opening, '(' :: rest⟩

/-- A step leads on with all groups at their parentheses, or ends without a fault that is shown
elsewhere than at its sign. -/
def ParserStep.Shown (pattern : String) : ParserStep → Prop
  | next state _ => state.Opened pattern
  | done result => ∀ fault, result.root = .error fault → fault.ShownIn pattern

namespace ParserState

variable {reading : Reading} {state : ParserState} {cursor : Cursor} {offset : Nat}
  {rest : List Char}

theorem shown_fail (state : ParserState) (h : fault.ShownIn pattern) :
    (state.fail fault).Shown pattern := by
  intro found hfound
  exact Except.error.inj hfound ▸ h

theorem Opened.finish (h : state.Opened pattern) (offset : Nat) :
    (ParserStep.done (state.finish offset)).Shown pattern := by
  intro fault hfault
  rw [ParserState.finish] at hfault
  cases houter : state.outer with
  | nil =>
      rw [houter] at hfault
      cases hfault
  | cons outer others =>
      rw [houter] at hfault
      obtain rfl := Except.error.inj hfault
      obtain ⟨rest, hwithin⟩ := h outer (houter ▸ List.mem_cons_self)
      exact ⟨'(', List.mem_singleton_self _, rest, hwithin⟩

theorem Opened.addAtom (h : state.Opened pattern) (hwithin : cursor.Within pattern) (start : Nat)
    (atom : Atom) : (addAtom reading state start atom cursor).Shown pattern := by
  rw [ParserState.addAtom]
  split
  case h_1 fault hread => exact shown_fail state ((Quantifier.shown_of_read hread).shownIn hwithin)
  case h_2 => exact h

theorem Opened.openGroup (h : state.Opened pattern)
    (hwithin : Cursor.Within pattern ⟨offset, '(' :: rest⟩) (assertion : Bool) (flags : Flags)
    (cursor : Cursor) : (state.openGroup offset assertion flags cursor).Shown pattern := by
  rw [ParserState.openGroup]
  split
  · exact shown_fail state ⟨'(', List.mem_singleton_self _, rest, hwithin⟩
  · exact List.forall_mem_cons.mpr ⟨⟨rest, hwithin⟩, h⟩

theorem Opened.closeGroup (h : state.Opened pattern)
    (hsign : Cursor.Within pattern ⟨offset, ')' :: rest⟩) (hwithin : cursor.Within pattern) :
    (state.closeGroup reading offset cursor).Shown pattern := by
  rw [ParserState.closeGroup]
  split
  case h_1 =>
    intro fault hfault
    obtain rfl := Except.error.inj hfault
    exact ⟨')', List.mem_singleton_self _, rest, hsign⟩
  case h_2 opening assertion flags level outer houter =>
    rw [Opened, houter] at h
    have houtside : Opened pattern ⟨flags,
        { level with draft := { level.draft with made := state.level.madeAtEnd } }, outer⟩ :=
      (List.forall_mem_cons.mp h).2
    exact houtside.addAtom hwithin _ _

theorem Opened.apply {n : Nat} {c : Char} {lexeme : Lexeme} (h : state.Opened pattern)
    (hwithin : Cursor.Within pattern ⟨offset, c :: rest⟩)
    (hread : Lexeme.read state.flags offset c rest = .ok (lexeme, n)) :
    (state.apply reading offset (Cursor.advance ⟨offset, c :: rest⟩ (n + 1)) lexeme).Shown
      pattern := by
  have hafter := hwithin.advance (n + 1)
  have hsign := Lexeme.eq_sign_of_read hread
  unfold ParserState.apply
  split
  · exact h
  · exact h
  · exact h
  · obtain rfl := hsign ')' rfl
    exact h.closeGroup hwithin hafter
  · obtain rfl := hsign '(' rfl
    exact h.openGroup hwithin _ _ _
  case h_6 flags =>
    have hflags : Opened pattern { state with flags := flags } := h
    exact hflags.addAtom hafter _ _
  · exact h.addAtom hafter _ _

/-- One step keeps the open groups at their parentheses, and shows a fault at its sign. -/
theorem Opened.step (h : state.Opened pattern) (hwithin : cursor.Within pattern)
    (reading : Reading) : (state.step reading cursor).Shown pattern := by
  unfold ParserState.step
  split
  · exact h.finish _
  · split
    case h_1 hread => exact shown_fail state ((Lexeme.shown_of_read hread).shownIn hwithin)
    case h_2 hread => exact h.apply hwithin hread

/-! ## Runs -/

/-- A run that starts with the open groups at their parentheses shows its fault at a sign. -/
theorem Opened.run (h : state.Opened pattern) (hwithin : cursor.Within pattern)
    (hfault : (state.run reading cursor).root = .error fault) : fault.ShownIn pattern := by
  fun_induction ParserState.run reading state cursor with
  | case1 state cursor result hdone =>
      have hstep := h.step hwithin reading
      rw [hdone] at hstep
      exact hstep fault hfault
  | case2 state cursor next stop hnext ih =>
      have hstep := h.step hwithin reading
      rw [hnext] at hstep
      obtain ⟨n, -, rfl⟩ := step_advances hnext
      exact ih hstep (hwithin.advance n) hfault

end ParserState

theorem shownIn_of_parse {reading : Reading} (h : (parse reading pattern).root = .error fault) :
    fault.ShownIn pattern := by
  have hopened : ParserState.initial.Opened pattern := fun _ hmem => nomatch hmem
  exact hopened.run (Cursor.within_start pattern) h

/-! ## Bytes -/

theorem toList_loop (bytes : ByteArray) (i : Nat) (read : Bytes) :
    ByteArray.toList.loop bytes i read = read.reverse ++ bytes.data.toList.drop i := by
  fun_induction ByteArray.toList.loop bytes i read with
  | case1 i read hi ih =>
      have hlt : i < bytes.data.toList.length := by simpa using hi
      rw [ih, List.drop_eq_getElem_cons hlt]
      simp [ByteArray.get!, hi]
  | case2 i read hi =>
      have hle : bytes.data.toList.length ≤ i := by simpa using hi
      rw [List.drop_eq_nil_of_le hle, List.append_nil]

theorem utf8_eq (text : String) : utf8 text = text.toList.flatMap String.utf8EncodeChar := by
  rw [utf8, String.toUTF8, ByteArray.toList, toList_loop, List.reverse_nil, List.nil_append,
    List.drop_zero, ← String.utf8Encode_toList, List.utf8Encode, List.toList_data_toByteArray]

theorem length_flatMap_utf8EncodeChar (text : List Char) :
    (text.flatMap String.utf8EncodeChar).length = width text := by
  induction text with
  | nil => rfl
  | cons c text ih =>
      rw [List.flatMap_cons, List.length_append, String.length_utf8EncodeChar, ih, width_cons]

/-- Signs are characters of one byte. -/
theorem FaultKind.utf8EncodeChar_of_mem_signs {kind : FaultKind} {c : Char} (h : c ∈ kind.signs) :
    String.utf8EncodeChar c = [charByte c] := by
  have hall : kind.signs.all (fun c => String.utf8EncodeChar c == [charByte c]) = true := by
    cases kind <;> decide
  exact beq_iff_eq.mp (List.all_eq_true.mp hall c h)

theorem Fault.ShownIn.getElem?_utf8 (h : fault.ShownIn pattern) :
    ∃ c ∈ fault.kind.signs, (utf8 pattern)[fault.offset]? = some (charByte c) := by
  obtain ⟨c, hc, rest, before, happend, hwidth⟩ := h
  dsimp only at happend hwidth
  refine ⟨c, hc, ?_⟩
  rw [utf8_eq, ← happend, ← hwidth, ← length_flatMap_utf8EncodeChar, List.flatMap_append,
    List.getElem?_append_right (Nat.le_refl _), Nat.sub_self, List.flatMap_cons,
    FaultKind.utf8EncodeChar_of_mem_signs hc]
  rfl

namespace PatternTree

/-- The fault of any pattern that is not read is shown inside it, at a sign of the fault's kind. -/
theorem sign_of_compile (tree : PatternTree) (pattern shown : String) (expansion : Bool)
    (fault : Fault) (h : (tree.compile pattern expansion).2 = .error (.malformed fault shown)) :
    fault.offset < (utf8 pattern).length ∧
      ∃ c ∈ fault.kind.signs, (utf8 pattern)[fault.offset]? = some (charByte c) := by
  unfold compile at h
  dsimp only at h
  cases hroot : (parse ⟨expansion, tree.caseSensitive⟩ pattern).root with
  | ok root =>
      rw [hroot] at h
      cases h
  | error found =>
      rw [hroot] at h
      obtain ⟨rfl, rfl⟩ := PatternError.malformed.inj (Except.error.inj h)
      obtain ⟨c, hc, hbyte⟩ := (shownIn_of_parse hroot).getElem?_utf8
      exact ⟨(List.getElem?_eq_some_iff.mp hbyte).1, c, hc, hbyte⟩

/-- A group is open at the end, behind a class and around a group that is closed. -/
theorem sign_of_compile_open :
    let pattern := "é[^\\]x](ü|(?i:[a-c]{2})"
    let fault : Fault := ⟨.unmatchedOpenParen, 8⟩
    (empty.compile pattern true).2 = .error (.malformed fault pattern) ∧
      fault.offset < (utf8 pattern).length ∧
      ∃ c ∈ fault.kind.signs, (utf8 pattern)[fault.offset]? = some (charByte c) := by
  intro pattern fault
  have h : (empty.compile pattern true).2 = .error (.malformed fault pattern) := by decide +kernel
  exact ⟨h, sign_of_compile empty pattern pattern true fault h⟩

end PatternTree

end LiteralSieve
