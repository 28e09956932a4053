import LiteralSieve.Proofs.Pattern.Characters
import LiteralSieve.Proofs.Pattern.Reading
import LiteralSieve.Proofs.Pattern.Terms

namespace LiteralSieve

/-!
# Layout and comments

Some text in a pattern leaves no trace. Comments in groups are skipped as lexemes; layout is skipped
either so or together with the quantifier that an atom might have, and it does not matter which.
-/

open Grammar

namespace Grammar

/-- Text without a trace: blanks and comments up to the end of the line, where layout is ignored,
and comments in groups. -/
inductive Filler (blanks comments : Bool) : List Char → Prop
  | nil : Filler blanks comments []
  | blank {c : Char} {rest : List Char} (hblanks : blanks = true) (h : c ∈ layoutSigns)
      (hrest : Filler blanks comments rest) : Filler blanks comments (c :: rest)
  | line {body rest : List Char} (hblanks : blanks = true) (h : '\n' ∉ body)
      (hrest : Filler blanks comments rest) :
      Filler blanks comments ('#' :: (body ++ '\n' :: rest))
  | group {body rest : List Char} (hcomments : comments = true) (h : ')' ∉ body)
      (hrest : Filler blanks comments rest) :
      Filler blanks comments ('(' :: '?' :: '#' :: (body ++ ')' :: rest))

/-- How a quantity is written after an atom: layout may come between, but no comment in a group. -/
inductive CountText (blanks : Bool) : Option Quantity → List Char → Prop
  | none : CountText blanks none []
  | some {quantity : Quantity} {gap : List Char} (h : Filler blanks false gap) :
      CountText blanks (some quantity) (gap ++ quantity.text)

end Grammar

variable {blanks comments : Bool} {c : Char} {gap body rest : List Char}

/-! ## Lengths -/

theorem commentLength_append (h : '\n' ∉ body) (rest : List Char) :
    commentLength (body ++ '\n' :: rest) = body.length + 1 := by
  induction body with
  | nil => rfl
  | cons c body ih =>
      obtain ⟨hc, hbody⟩ := not_or.mp (mt List.mem_cons.mpr h)
      rw [List.cons_append, commentLength, if_neg (Ne.symm hc), ih hbody, List.length_cons]

theorem layoutLength_blank (h : c ∈ layoutSigns) (rest : List Char) :
    layoutLength (c :: rest) = layoutLength rest + 1 := by
  rw [layoutLength, if_pos (isLayout_of_mem h)]

theorem layoutLength_line (h : '\n' ∉ body) (rest : List Char) :
    layoutLength ('#' :: (body ++ '\n' :: rest)) = body.length + 2 + layoutLength rest := by
  have hdrop : (body ++ '\n' :: rest).drop (body.length + 1) = rest := by
    rw [List.drop_append, List.drop_eq_nil_of_le (Nat.le_succ _)]
    simp
  rw [layoutLength, if_neg (by decide), if_pos rfl, commentLength_append h, hdrop]

theorem layoutLength_of_notMem (h : c ∉ '#' :: layoutSigns) (rest : List Char) :
    layoutLength (c :: rest) = 0 := by
  obtain ⟨hcomment, hblank⟩ := not_or.mp (mt List.mem_cons.mpr h)
  rw [layoutLength, if_neg (mt mem_layoutSigns_of_isLayout hblank), if_neg hcomment]

namespace Grammar.Filler

theorem layoutLength_append (h : Filler true false gap) (rest : List Char) :
    layoutLength (gap ++ rest) = gap.length + layoutLength rest := by
  induction h with
  | nil => rw [List.nil_append, List.length_nil, Nat.zero_add]
  | blank _ h _ ih =>
      rw [List.cons_append, layoutLength_blank h, ih, List.length_cons]
      omega
  | line _ h _ ih =>
      rw [List.cons_append, List.append_assoc, List.cons_append, layoutLength_line h, ih]
      simp only [List.length_cons, List.length_append]
      omega
  | group hcomments => cases hcomments

theorem eq_nil (h : Filler false false gap) : gap = [] := by
  cases h with
  | nil => rfl
  | blank hblanks => cases hblanks
  | line hblanks => cases hblanks
  | group hcomments => cases hcomments

end Grammar.Filler

/-! ## What comes next -/

/-- No quantifier comes next, and none behind the layout ahead where that is ignored. -/
structure Calm (blanks : Bool) (rest : List Char) : Prop where
  next : Unquantified rest
  later : blanks = true → Unquantified (rest.drop (layoutLength rest))

theorem calm_nil : Calm blanks [] := ⟨unquantified_nil, fun _ => by simp [unquantified_nil]⟩

theorem calm_cons (h : c ∉ quantifierSigns) (hlayout : blanks = true → c ∉ '#' :: layoutSigns) :
    Calm blanks (c :: rest) where
  next := unquantified_cons h
  later hblanks := by
    rw [layoutLength_of_notMem (hlayout hblanks), List.drop_zero]
    exact unquantified_cons h

theorem calm_bar : Calm blanks ('|' :: rest) := calm_cons (by decide) fun _ => by decide

theorem calm_close : Calm blanks (')' :: rest) := calm_cons (by decide) fun _ => by decide

theorem Grammar.Filler.calm_append (h : Filler blanks comments gap) (hrest : Calm blanks rest) :
    Calm blanks (gap ++ rest) := by
  induction h with
  | nil => exact hrest
  | @blank c gap hblanks h _ ih =>
      have hall : layoutSigns.all (fun c => decide (c ∉ quantifierSigns)) = true := by decide
      refine ⟨unquantified_cons (of_decide_eq_true (List.all_eq_true.mp hall c h)), fun _ => ?_⟩
      rw [List.cons_append, layoutLength_blank h, List.drop_succ_cons]
      exact ih.later hblanks
  | @line body gap hblanks h _ ih =>
      refine ⟨unquantified_cons (by decide), fun _ => ?_⟩
      have hdrop : ('#' :: (body ++ '\n' :: (gap ++ rest))).drop (body.length + 2) =
          gap ++ rest := by
        rw [List.drop_succ_cons, List.drop_append, List.drop_eq_nil_of_le (Nat.le_succ _)]
        simp
      rw [List.cons_append, List.append_assoc, List.cons_append, layoutLength_line h,
        ← List.drop_drop, hdrop]
      exact ih.later hblanks
  | group => exact calm_cons (by decide) fun _ => by decide

/-! ## Reading what leaves no trace -/

namespace Lexeme

variable {flags : Flags}

theorem read_layout (hflags : flags.extended = true) (h : c ∈ layoutSigns) (offset : Nat)
    (rest : List Char) : read flags offset c rest = .ok (.blank, 0) := by
  simp only [layoutSigns, List.mem_cons, List.not_mem_nil, or_false] at h
  rcases h with rfl | rfl | rfl | rfl | rfl | rfl <;> exact if_pos ⟨hflags, rfl⟩

theorem read_line (hflags : flags.extended = true) (offset : Nat) (rest : List Char) :
    read flags offset '#' rest = .ok (.blank, commentLength rest) := by
  have hlayout : ¬(flags.extended = true ∧ isLayout '#' = true) := fun hboth => nomatch hboth.2
  exact (if_neg hlayout).trans (if_pos ⟨hflags, rfl⟩)

end Lexeme

theorem closeLength?_append (h : ')' ∉ body) (rest : List Char) :
    Opener.closeLength? (body ++ ')' :: rest) = some (body.length + 1) := by
  have hbody : body.findIdx? (· == ')') = none :=
    List.findIdx?_eq_none_iff.mpr fun c hc => beq_eq_false_iff_ne.mpr fun heq => h (heq ▸ hc)
  rw [Opener.closeLength?, List.findIdx?_append, hbody, List.findIdx?_cons]
  simp

/-- Each part of a filler is read as a blank. -/
theorem readsAs_line {flags : Flags} (hflags : flags.extended = true) (h : '\n' ∉ body)
    (rest : List Char) : ReadsAs flags ('#' :: (body ++ ['\n'])) .blank rest := by
  refine ⟨'#', body ++ ['\n'], rfl, fun offset => ?_⟩
  rw [Lexeme.read_line hflags, List.append_assoc, List.singleton_append, commentLength_append h,
    List.length_append]
  rfl

theorem readsAs_comment (flags : Flags) (h : ')' ∉ body) (rest : List Char) :
    ReadsAs flags ('(' :: '?' :: '#' :: (body ++ [')'])) .blank rest := by
  refine ⟨'(', '?' :: '#' :: (body ++ [')']), rfl, fun offset => ?_⟩
  have hclose : Opener.closeLength? (body ++ [')'] ++ rest) = some (body.length + 1) := by
    rw [List.append_assoc]
    exact closeLength?_append h rest
  have hspecial : Opener.readSpecial flags ('#' :: (body ++ [')'] ++ rest)) =
      .ok (.comment, body.length + 2) := by
    rw [Opener.readSpecial, hclose, Opener.skipTo, Nat.add_comm]
  have hread : Opener.read flags ('?' :: '#' :: (body ++ [')'] ++ rest)) =
      .ok (.comment, body.length + 3) := by
    rw [Opener.read, hspecial]
    rfl
  rw [List.cons_append, List.cons_append, Lexeme.read, hread]
  simp [Lexeme.ofOpener]

namespace ParserState

variable {reading : Reading} {state : ParserState} {text : List Char}

theorem run_blank (h : ReadsAs state.flags text .blank rest) (reading : Reading) (offset : Nat) :
    run reading state ⟨offset, text ++ rest⟩ =
      run reading state ⟨offset + width text, rest⟩ :=
  run_of_next (step_of_readsAs h)

/-- Text without a trace is passed, and the state stays as it is. -/
theorem exists_run_filler (h : Filler state.flags.extended comments gap) (reading : Reading)
    (offset : Nat) (rest : List Char) :
    ∃ stop, run reading state ⟨offset, gap ++ rest⟩ = run reading state ⟨stop, rest⟩ := by
  induction h generalizing offset with
  | nil => exact ⟨offset, rfl⟩
  | @blank c gap hblanks h _ ih =>
      have hreads : ReadsAs state.flags [c] .blank (gap ++ rest) :=
        ⟨c, [], rfl, fun offset => Lexeme.read_layout hblanks h offset _⟩
      obtain ⟨stop, hlater⟩ := ih (offset + width [c])
      exact ⟨stop, (run_blank hreads reading offset).trans hlater⟩
  | @line body gap hblanks h _ ih =>
      obtain ⟨stop, hlater⟩ := ih (offset + width ('#' :: (body ++ ['\n'])))
      have hrun := run_blank (readsAs_line hblanks h (gap ++ rest)) reading offset
      simp only [List.cons_append, List.append_assoc] at hrun ⊢
      exact ⟨stop, hrun.trans hlater⟩
  | @group body gap _ h _ ih =>
      obtain ⟨stop, hlater⟩ := ih (offset + width ('(' :: '?' :: '#' :: (body ++ [')'])))
      have hrun := run_blank (readsAs_comment state.flags h (gap ++ rest)) reading offset
      simp only [List.cons_append, List.append_assoc] at hrun ⊢
      exact ⟨stop, hrun.trans hlater⟩

/-- Layout may be passed at once. -/
theorem run_layout (hflags : state.flags.extended = true) (offset : Nat) (rest : List Char) :
    run reading state (Cursor.advance ⟨offset, rest⟩ (layoutLength rest)) =
      run reading state ⟨offset, rest⟩ := by
  have hblank : ∀ {c rest n} offset, Lexeme.read state.flags offset c rest = .ok (.blank, n) →
      run reading state (Cursor.advance ⟨offset, c :: rest⟩ (n + 1)) =
        run reading state ⟨offset, c :: rest⟩ := by
    intro c rest n offset hread
    have hstep : step reading state ⟨offset, c :: rest⟩ =
        .next state (Cursor.advance ⟨offset, c :: rest⟩ (n + 1)) := by
      rw [step, hread]
      rfl
    exact (run_of_next hstep).symm
  fun_induction layoutLength rest generalizing offset with
  | case1 => rw [Cursor.advance_zero]
  | case2 c rest h ih =>
      have hsign : c ∈ layoutSigns := mem_layoutSigns_of_isLayout h
      have hc := hblank offset (Lexeme.read_layout hflags hsign offset rest)
      rw [Nat.add_comm, ← Cursor.advance_advance, ← hc]
      exact ih _
  | case3 rest h ih =>
      have hc := hblank offset (Lexeme.read_line hflags offset rest)
      rw [← Cursor.advance_advance, ← hc]
      exact ih _
  | case4 c rest h hcomment => rw [Cursor.advance_zero]

end ParserState

/-! ## Quantities with layout before them -/

/-- A quantifier is read behind the layout ahead. -/
theorem Quantifier.read_extended (cursor : Cursor) :
    read true cursor = (read false (cursor.advance (layoutLength cursor.rest))).map fun found =>
      (found.1, layoutLength cursor.rest + found.2) := by
  have hfront : (if true = true then layoutLength cursor.rest else 0) =
      layoutLength cursor.rest := if_pos rfl
  have hno : (if false = true then
      layoutLength (cursor.advance (layoutLength cursor.rest)).rest else 0) = 0 :=
    if_neg Bool.false_ne_true
  rw [read, read, hfront, hno, Cursor.advance_zero]
  dsimp only
  split
  · rfl
  · split
    · rfl
    · split
      · rfl
      · simp [Except.map]

theorem Grammar.Quantity.layoutLength_text (quantity : Quantity) (rest : List Char) :
    layoutLength (quantity.text ++ rest) = 0 := by
  rw [Quantity.text]
  cases quantity.repetition <;> exact layoutLength_of_notMem (by decide) _

/-- A quantity is read with the layout before it; without one, the layout ahead is read. -/
theorem read_count {quantity : Option Quantity} {count : List Char}
    (h : CountText blanks quantity count) (hrest : Calm blanks rest) (offset : Nat) :
    ∃ layout, Quantifier.read blanks ⟨offset, count ++ rest⟩ =
        .ok (quantity.map (·.repetition.quantifier), count.length + layout) ∧
      (layout = 0 ∨ (blanks = true ∧ layout = layoutLength rest)) := by
  cases h with
  | none =>
      cases blanks with
      | false => exact ⟨0, read_quantity none offset hrest.next, .inl rfl⟩
      | true =>
          have hread : Quantifier.read false (Cursor.advance ⟨offset, rest⟩ (layoutLength rest)) =
              .ok (none, 0) := read_quantity none _ (hrest.later rfl)
          refine ⟨layoutLength rest, ?_, .inr ⟨rfl, rfl⟩⟩
          rw [List.nil_append, Quantifier.read_extended, hread, List.length_nil, Nat.zero_add]
          rfl
  | @some quantity gap h =>
      refine ⟨0, ?_, .inl rfl⟩
      cases blanks with
      | false =>
          rw [h.eq_nil]
          exact read_quantity (some quantity) offset hrest.next
      | true =>
          have hlayout : layoutLength (gap ++ (quantity.text ++ rest)) = gap.length := by
            rw [h.layoutLength_append, quantity.layoutLength_text, Nat.add_zero]
          have hread : Quantifier.read false ⟨offset + width gap, quantity.text ++ rest⟩ =
              .ok (some quantity.repetition.quantifier, quantity.text.length) :=
            read_quantity (some quantity) _ hrest.next
          rw [List.append_assoc, Quantifier.read_extended, hlayout, Cursor.advance_append, hread,
            List.length_append, Nat.add_zero]
          rfl

namespace ParserState

/-- An atom is added with the quantity after it, and the run goes on behind. Layout that was read
where no quantity came would be passed anyway. -/
theorem exists_run_addAtom {reading : Reading} {state before : ParserState} {cursor : Cursor}
    {start offset : Nat} {atom : Atom} {quantity : Option Quantity} {count : List Char}
    (h : CountText state.flags.extended quantity count) (hrest : Calm state.flags.extended rest)
    (hstep : step reading before cursor =
      addAtom reading state start atom ⟨offset, count ++ rest⟩) :
    ∃ stop, run reading before cursor =
      run reading (state.withDraft (state.level.draft.add reading.expansion
        (quantity.map (·.repetition.quantifier)) atom ⟨start, offset⟩ stop))
        ⟨offset + width count, rest⟩ := by
  obtain ⟨layout, hread, hlayout⟩ := read_count h hrest offset
  have hafter : Cursor.advance ⟨offset, count ++ rest⟩ (count.length + layout) =
      Cursor.advance ⟨offset + width count, rest⟩ layout := by
    rw [← Cursor.advance_advance, Cursor.advance_append]
  rw [addAtom, hread] at hstep
  dsimp only at hstep
  rw [hafter] at hstep
  let after := Cursor.advance ⟨offset + width count, rest⟩ layout
  let next := state.withDraft (state.level.draft.add reading.expansion
    (quantity.map (·.repetition.quantifier)) atom ⟨start, offset⟩ after.offset)
  have hnext : run reading before cursor = run reading next after := run_of_next hstep
  have hafter : run reading next after = run reading next ⟨offset + width count, rest⟩ := by
    rcases hlayout with rfl | ⟨hblanks, rfl⟩
    · exact congrArg (run reading next) (Cursor.advance_zero _)
    · have hflags : next.flags.extended = true := hblanks
      exact run_layout hflags _ rest
  exact ⟨after.offset, hnext.trans hafter⟩

end ParserState

end LiteralSieve
