import LiteralSieve.Pattern.Parser
import LiteralSieve.Proofs.Pattern.Lexemes
import Mathlib.Algebra.Order.Monoid.Unbundled.Pow

namespace LiteralSieve

/-!
# Reading expressions

A run of the parser over the text of an expression, if it does not fail, comes to the end of that
text in the state in which it began, but for the draft. The draft has then gained all words of the
expression.
-/

open Node Grammar

variable {fold : UInt8 → UInt8} {reading : Reading} {state : ParserState} {offset : Nat}
  {rest : List Char} {root : Node}

/-! ## What reading adds -/

/-- The second draft comes from the first by words of the language at its end. -/
structure Appends (fold : UInt8 → UInt8) (l : Language UInt8) (draft next : Draft) : Prop where
  language_le : draft.language fold * l ≤ next.language fold
  unmarked : draft.Unmarked → next.Unmarked

theorem Appends.refl (draft : Draft) : Appends fold 1 draft draft :=
  ⟨(mul_one _).le, id⟩

theorem Appends.trans {l m : Language UInt8} {first second third : Draft}
    (h : Appends fold l first second) (h' : Appends fold m second third) :
    Appends fold (l * m) first third where
  language_le := by
    rw [← mul_assoc]
    exact (mul_le_mul' h.language_le le_rfl).trans h'.language_le
  unmarked hunmarked := h'.unmarked (h.unmarked hunmarked)

theorem Appends.le_of_one_le {l : Language UInt8} {draft next : Draft}
    (h : Appends fold l draft next) (hstart : 1 ≤ draft.language fold) :
    l ≤ next.language fold :=
  ((one_mul _).symm.trans_le (mul_le_mul' hstart le_rfl)).trans h.language_le

theorem Appends.mono {l m : Language UInt8} {draft next : Draft} (h : Appends fold m draft next)
    (hle : l ≤ m) : Appends fold l draft next :=
  ⟨(mul_le_mul' le_rfl hle).trans h.language_le, h.unmarked⟩

/-- Neither a quotation nor nothing: what a quantifier binds to as a whole. -/
def Atom.IsUnit : Atom → Prop
  | quoted _ => False
  | nothing => False
  | _ => True

/-- An atom in a scope is a unit without marks as the atom itself. -/
theorem Atom.under_of_isUnit {atom : Atom} (hunit : atom.IsUnit) (hatom : atom.Unmarked)
    (flags : Flags) (caseSensitive : Bool) :
    (atom.under flags caseSensitive).IsUnit ∧ (atom.under flags caseSensitive).Unmarked := by
  rw [Atom.under]
  split
  · cases atom with
    | char c =>
        rw [Atom.caseless]
        split
        · split <;> exact ⟨trivial, trivial⟩
        · exact ⟨trivial, trivial⟩
    | node n => exact ⟨trivial, hatom⟩
    | quoted text => exact hunit.elim
    | nothing => exact hunit.elim
    | _ => exact ⟨trivial, trivial⟩
  · exact ⟨hunit, hatom⟩

theorem Atom.le_under_gap (l : Language UInt8) (flags : Flags) (caseSensitive : Bool) :
    l ≤ (Atom.gap.under flags caseSensitive).language fold := by
  rw [Atom.under]
  split <;> exact le_top

theorem repeated_mono (repetition : Option Repetition) {l m : Language UInt8} (h : l ≤ m) :
    repeated repetition l ≤ repeated repetition m := by
  cases repetition with
  | none => exact h
  | some repetition => exact fun _ ⟨k, hk, hword⟩ => ⟨k, hk, pow_le_pow_left' h k hword⟩

theorem appends_add (expansion : Bool) (draft : Draft) (repetition : Option Repetition)
    {atom : Atom} (hunit : atom.IsUnit) (hatom : atom.Unmarked) (source : Extent) (stop : Nat) :
    Appends fold (repeated repetition (atom.language fold)) draft
      (draft.add expansion (repetition.map (·.quantifier)) atom source stop) := by
  have hadd : draft.add expansion (repetition.map (·.quantifier)) atom source stop =
      draft.addPlain expansion (repetition.map (·.quantifier)) atom source stop := by
    cases atom with
    | quoted text => exact hunit.elim
    | nothing => exact hunit.elim
    | _ => rfl
  rw [hadd]
  cases repetition with
  | none =>
      exact ⟨Draft.language_le_addOnce draft source atom,
        fun h => Draft.unmarked_addOnce h source hatom⟩
  | some repetition =>
      refine ⟨?_, fun h => Draft.unmarked_addRepeated h _ hatom source stop⟩
      exact (mul_le_mul' le_rfl (repeated_le_words repetition _)).trans
        (Draft.language_le_addRepeated draft _ atom source stop)

/-! ## Levels -/

namespace Level

/-- The words of all alternatives of a level, the last one as far as it was read. -/
def language (fold : UInt8 → UInt8) (level : Level) : Language UInt8 :=
  languageOfAny fold level.finished + level.draft.language fold

structure Unmarked (level : Level) : Prop where
  finished : AllUnmarked level.finished
  draft : level.draft.Unmarked

theorem unmarked_fresh (offset made : Nat) : (fresh offset made).Unmarked :=
  ⟨trivial, Draft.unmarked_start made⟩

theorem languageOfAny_branches (level : Level) (offset : Nat) :
    languageOfAny fold (level.branches offset) = level.language fold := by
  rw [branches, languageOfAny_append, languageOfAny_cons, languageOfAny_nil, add_zero,
    Draft.sequence, language_sequence]
  rfl

theorem allUnmarked_branches {level : Level} (h : level.Unmarked) (offset : Nat) :
    AllUnmarked (level.branches offset) :=
  allUnmarked_append.mpr ⟨h.finished, ⟨rfl, Draft.unmarked_flush h.draft⟩, trivial⟩

theorem language_node (level : Level) (offset : Nat) :
    (level.node offset).language fold = level.language fold := by
  rw [node, language_choice, languageOfAny_branches]

theorem unmarked_nextBranch {level : Level} (h : level.Unmarked) (offset : Nat) :
    (level.nextBranch offset).Unmarked :=
  ⟨allUnmarked_branches h offset, Draft.unmarked_start _⟩

theorem unmarked_node {level : Level} (h : level.Unmarked) (offset : Nat) :
    (level.node offset).Unmarked := by
  rw [node, Node.Unmarked]
  exact ⟨rfl, allUnmarked_branches h offset⟩

end Level

/-! ## Steps -/

namespace ParserState

def withDraft (state : ParserState) (draft : Draft) : ParserState :=
  { state with level := { state.level with draft := draft } }

theorem step_of_readsAs {text : List Char} {lexeme : Lexeme}
    (h : ReadsAs state.flags text lexeme rest) :
    step reading state ⟨offset, text ++ rest⟩ =
      state.apply reading offset ⟨offset + width text, rest⟩ lexeme := by
  obtain ⟨c, tail, rfl, hread⟩ := h
  rw [List.cons_append, step, hread]
  dsimp only
  rw [← List.cons_append, ← List.length_cons (a := c), Cursor.advance_append]

theorem apply_of_isUnit {atom : Atom} (h : atom.IsUnit) (cursor : Cursor) :
    state.apply reading offset cursor (.atom atom) =
      state.addAtom reading offset (atom.under state.flags reading.caseSensitive) cursor := by
  cases atom with
  | quoted text => exact h.elim
  | nothing => exact h.elim
  | _ => rfl

/-- An atom is added with the quantifier that is read after it. -/
theorem addAtom_of_read {start : Nat} {atom : Atom} {text : List Char} {q : Option Quantifier}
    (hplain : state.flags.extended = false)
    (hread : Quantifier.read false ⟨offset, text ++ rest⟩ = .ok (q, text.length)) :
    addAtom reading state start atom ⟨offset, text ++ rest⟩ =
      .next (state.withDraft (state.level.draft.add reading.expansion q atom ⟨start, offset⟩
        (offset + width text))) ⟨offset + width text, rest⟩ := by
  rw [addAtom, hplain, hread]
  dsimp only
  rw [Cursor.advance_append]
  rfl

/-- An atom is added by itself if no quantifier starts after it. -/
theorem addAtom_bare {start : Nat} {atom : Atom} (hplain : state.flags.extended = false)
    (hstarts : Quantifier.starts rest = false) :
    addAtom reading state start atom ⟨offset, rest⟩ =
      .next (state.withDraft (state.level.draft.add reading.expansion none atom ⟨start, offset⟩
        offset)) ⟨offset, rest⟩ := by
  have hread : Quantifier.read false ⟨offset, [] ++ rest⟩ = .ok (none, ([] : List Char).length) :=
    Quantifier.read_of_starts_eq_false hstarts offset
  exact addAtom_of_read hplain hread

/-- Where a step adds an atom, the run goes on after its repetition, with the atom in the draft. -/
theorem run_addAtom {before : ParserState} {cursor : Cursor} {start : Nat} {atom : Atom}
    (repetition : Option Repetition) (hrest : Unquantified rest) (hunit : atom.IsUnit)
    (hatom : atom.Unmarked) (hplain : state.flags.extended = false)
    (hstep : step reading before cursor = addAtom reading state start atom
      ⟨offset, repetitionText repetition ++ rest⟩)
    (hok : (run reading before cursor).root = .ok root) :
    ∃ draft stop, run reading before cursor = run reading (state.withDraft draft) ⟨stop, rest⟩ ∧
      Appends fold (repeated repetition (atom.language fold)) state.level.draft draft := by
  rcases read_repetition repetition offset hrest with ⟨fault, hfault⟩ | hread
  · rw [addAtom, hplain, hfault] at hstep
    rw [run_of_done hstep] at hok
    cases hok
  · rw [addAtom_of_read hplain hread] at hstep
    exact ⟨_, _, run_of_next hstep, appends_add reading.expansion _ repetition hunit hatom _ _⟩

theorem run_atom {text : List Char} {atom : Atom} {l : Language UInt8}
    (repetition : Option Repetition) (hrest : Unquantified rest)
    (hreads : ReadsAs state.flags text (.atom atom) (repetitionText repetition ++ rest))
    (hunit : atom.IsUnit) (hatom : atom.Unmarked) (hplain : state.flags.extended = false)
    (hle : l ≤ (atom.under state.flags reading.caseSensitive).language fold)
    (hok : (run reading state ⟨offset, text ++ (repetitionText repetition ++ rest)⟩).root =
      .ok root) :
    ∃ draft stop, run reading state ⟨offset, text ++ (repetitionText repetition ++ rest)⟩ =
        run reading (state.withDraft draft) ⟨stop, rest⟩ ∧
      Appends fold (repeated repetition l) state.level.draft draft := by
  have hstep : step reading state ⟨offset, text ++ (repetitionText repetition ++ rest)⟩ =
      state.addAtom reading offset (atom.under state.flags reading.caseSensitive)
        ⟨offset + width text, repetitionText repetition ++ rest⟩ :=
    (step_of_readsAs hreads).trans (apply_of_isUnit hunit _)
  obtain ⟨hunit, hatom⟩ := Atom.under_of_isUnit hunit hatom state.flags reading.caseSensitive
  obtain ⟨draft, stop, hrun, happends⟩ :=
    run_addAtom repetition hrest hunit hatom hplain hstep hok
  exact ⟨draft, stop, hrun, happends.mono (repeated_mono repetition hle)⟩

end ParserState

/-! ## Beginnings -/

namespace Grammar

theorem Factor.text_eq_cons (factor : Factor) :
    ∃ first tail, factor.text = first :: tail ∧ first ∉ quantifierSigns := by
  cases factor with
  | char c =>
      rw [Factor.text, charText]
      split
      case isTrue => exact ⟨'\\', [c], rfl, by decide⟩
      case isFalse hplain =>
        exact ⟨c, [], rfl, fun hmem => hplain (isPunctuation_of_mem_quantifierSigns hmem)⟩
  | group kind body =>
      cases kind <;> exact ⟨'(', _, rfl, by decide⟩
  | _ => exact ⟨_, _, rfl, by decide⟩

theorem Concat.unquantified_text (concat : Concat) (h : Unquantified rest) :
    Unquantified (concat.text ++ rest) := by
  cases concat with
  | empty => rwa [Concat.text, List.nil_append]
  | cons factor repetition tail =>
      obtain ⟨first, others, htext, hfirst⟩ := factor.text_eq_cons
      rw [Concat.text, htext]
      exact unquantified_cons hfirst

theorem Regex.unquantified_text (regex : Regex) (h : Unquantified rest) :
    Unquantified (regex.text ++ rest) := by
  cases regex with
  | single branch =>
      rw [Regex.text]
      exact branch.unquantified_text h
  | alternative first others =>
      rw [Regex.text, List.append_assoc, List.cons_append]
      exact first.unquantified_text (unquantified_cons (by decide))

end Grammar

/-! ## Runs -/

namespace ParserState

variable {insensitive scope : Bool}

theorem Appends.of_made {l : Language UInt8} {draft next : Draft} {made : Nat}
    (h : Appends fold l { draft with made := made } next) : Appends fold l draft next := by
  have hlanguage : Draft.language fold { draft with made := made } = draft.language fold := by
    rw [Draft.language, Draft.language, Draft.flush, Draft.flush]
    cases draft.run <;> rfl
  exact ⟨hlanguage ▸ h.language_le, h.unmarked⟩

/-- After a bar, the run goes on in the next branch. -/
theorem run_bar : run reading state ⟨offset, '|' :: rest⟩ =
    run reading { state with level := state.level.nextBranch offset }
      ⟨offset + width ['|'], rest⟩ := by
  have hstep : step reading state ⟨offset, ['|'] ++ rest⟩ =
      .next { state with level := state.level.nextBranch offset }
        ⟨offset + width ['|'], rest⟩ := by
    rw [step_of_readsAs (readsAs_bar state.flags rest)]
    rfl
  exact run_of_next hstep

/-- A group that is opened has a level of its own. -/
theorem run_open {text : List Char} {flags : Flags}
    (hreads : ReadsAs state.flags text (.body false flags) rest)
    (hok : (run reading state ⟨offset, text ++ rest⟩).root = .ok root) :
    run reading state ⟨offset, text ++ rest⟩ =
      run reading ⟨flags, .fresh (offset + width text) state.level.made,
        ⟨offset, false, state.flags, state.level⟩ :: state.outer⟩ ⟨offset + width text, rest⟩ := by
  have hstep : step reading state ⟨offset, text ++ rest⟩ =
      state.openGroup offset false flags ⟨offset + width text, rest⟩ := step_of_readsAs hreads
  rw [openGroup] at hstep
  split at hstep
  case isTrue =>
    rw [run_of_done hstep] at hok
    cases hok
  case isFalse => exact run_of_next hstep

/-- A group that is closed is one atom of the level around it. -/
theorem step_close {inside around : ParserState} {opening : Nat}
    (houter : inside.outer = ⟨opening, false, around.flags, around.level⟩ :: around.outer) :
    step reading inside ⟨offset, ')' :: rest⟩ =
      addAtom reading (around.withDraft { around.level.draft with made := inside.level.madeAtEnd })
        opening (.node (inside.level.node offset)) ⟨offset + width [')'], rest⟩ := by
  have hstep : step reading inside ⟨offset, [')'] ++ rest⟩ =
      inside.apply reading offset ⟨offset + width [')'], rest⟩ .close :=
    step_of_readsAs (readsAs_close inside.flags rest)
  rw [apply, closeGroup, houter] at hstep
  exact hstep

theorem run_close {inside around : ParserState} {opening : Nat} (repetition : Option Repetition)
    (hrest : Unquantified rest) (hlevel : inside.level.Unmarked)
    (hplain : around.flags.extended = false)
    (houter : inside.outer = ⟨opening, false, around.flags, around.level⟩ :: around.outer)
    (hok : (run reading inside ⟨offset, ')' :: (repetitionText repetition ++ rest)⟩).root =
      .ok root) :
    ∃ draft stop, run reading inside ⟨offset, ')' :: (repetitionText repetition ++ rest)⟩ =
        run reading (around.withDraft draft) ⟨stop, rest⟩ ∧
      Appends fold (repeated repetition (inside.level.language fold)) around.level.draft draft := by
  have hunit : (Atom.node (inside.level.node offset)).IsUnit := trivial
  have hflags : (around.withDraft
      { around.level.draft with made := inside.level.madeAtEnd }).flags.extended = false := hplain
  obtain ⟨draft, stop, hrun, happends⟩ := run_addAtom repetition hrest hunit
    (Level.unmarked_node hlevel offset) hflags (step_close houter) hok
  rw [Atom.language, Level.language_node] at happends
  exact ⟨draft, stop, hrun, Appends.of_made happends⟩

mutual

-- A quantifier in `rest` would bind to the last factor, so there must be none.
theorem run_regex (hfold : IgnoresCase insensitive fold)
    (hreading : reading.caseSensitive = !insensitive) (regex : Regex) {scope : Bool} {state : ParserState}
    {offset : Nat} {rest : List Char} (hrest : Unquantified rest)
    (hflags : state.flags = ⟨false, scope⟩) (hlevel : state.level.Unmarked)
    (hstart : 1 ≤ state.level.draft.language fold)
    (hok : (run reading state ⟨offset, regex.text ++ rest⟩).root = .ok root) :
    ∃ level stop, run reading state ⟨offset, regex.text ++ rest⟩ =
        run reading { state with level := level } ⟨stop, rest⟩ ∧
      level.Unmarked ∧
      languageOfAny fold state.level.finished + regex.language insensitive scope ≤
        level.language fold := by
  cases regex with
  | single branch =>
      rw [Regex.text] at hok ⊢
      obtain ⟨draft, stop, hrun, happends⟩ := run_concat hfold hreading branch hrest hflags hok
      refine ⟨{ state.level with draft := draft }, stop, hrun,
        ⟨hlevel.finished, happends.unmarked hlevel.draft⟩, ?_⟩
      rw [Regex.language, Level.language]
      exact add_le_add le_rfl (happends.le_of_one_le hstart)
  | alternative first others =>
      have htext : (Regex.alternative first others).text ++ rest =
          first.text ++ '|' :: (others.text ++ rest) := by
        rw [Regex.text, List.append_assoc, List.cons_append]
      rw [htext] at hok ⊢
      have hbar : Unquantified ('|' :: (others.text ++ rest)) := unquantified_cons (by decide)
      obtain ⟨draft, middle, hfirst, happends⟩ := run_concat hfold hreading first hbar hflags hok
      rw [hfirst, run_bar] at hok ⊢
      have hbranch : (state.withDraft draft).level.Unmarked :=
        ⟨hlevel.finished, happends.unmarked hlevel.draft⟩
      have hnextFlags : ParserState.flags
          { state with level := (state.withDraft draft).level.nextBranch middle } =
            ⟨false, scope⟩ := hflags
      obtain ⟨level, stop, hrun, hunmarked, hle⟩ := run_regex hfold hreading others hrest
        hnextFlags (Level.unmarked_nextBranch hbranch middle) (Draft.language_start _).ge hok
      refine ⟨level, stop, hrun, hunmarked, le_trans ?_ hle⟩
      rw [Regex.language, ← add_assoc]
      refine add_le_add ?_ le_rfl
      rw [Level.nextBranch, Level.languageOfAny_branches, Level.language]
      exact add_le_add le_rfl (happends.le_of_one_le hstart)

theorem run_concat (hfold : IgnoresCase insensitive fold)
    (hreading : reading.caseSensitive = !insensitive) (concat : Concat) {scope : Bool}
    {state : ParserState} {offset : Nat} {rest : List Char} (hrest : Unquantified rest)
    (hflags : state.flags = ⟨false, scope⟩)
    (hok : (run reading state ⟨offset, concat.text ++ rest⟩).root = .ok root) :
    ∃ draft stop, run reading state ⟨offset, concat.text ++ rest⟩ =
        run reading (state.withDraft draft) ⟨stop, rest⟩ ∧
      Appends fold (concat.language insensitive scope) state.level.draft draft := by
  cases concat with
  | empty =>
      rw [Concat.text, Concat.language, List.nil_append]
      exact ⟨state.level.draft, offset, rfl, .refl _⟩
  | cons factor repetition others =>
      have htext : (Concat.cons factor repetition others).text ++ rest =
          factor.text ++ (repetitionText repetition ++ (others.text ++ rest)) := by
        rw [Concat.text, List.append_assoc, List.append_assoc]
      rw [htext] at hok ⊢
      obtain ⟨draft, middle, hfirst, happends⟩ := run_factor hfold hreading factor repetition
        (others.unquantified_text hrest) hflags hok
      rw [hfirst] at hok ⊢
      obtain ⟨next, stop, hrun, hothers⟩ := run_concat hfold hreading others hrest
        (show (state.withDraft draft).flags = ⟨false, scope⟩ from hflags) hok
      rw [Concat.language]
      exact ⟨next, stop, hrun, happends.trans hothers⟩

theorem run_factor (hfold : IgnoresCase insensitive fold)
    (hreading : reading.caseSensitive = !insensitive) (factor : Factor)
    (repetition : Option Repetition) {scope : Bool} {state : ParserState} {offset : Nat}
    {rest : List Char} (hrest : Unquantified rest) (hflags : state.flags = ⟨false, scope⟩)
    (hok : (run reading state
      ⟨offset, factor.text ++ (repetitionText repetition ++ rest)⟩).root = .ok root) :
    ∃ draft stop, run reading state ⟨offset, factor.text ++ (repetitionText repetition ++ rest)⟩ =
        run reading (state.withDraft draft) ⟨stop, rest⟩ ∧
      Appends fold (repeated repetition (factor.language insensitive scope))
        state.level.draft draft := by
  have hplain : state.flags.extended = false := by rw [hflags]
  cases factor with
  | char c =>
      have hreads : ReadsAs state.flags (charText c) (.atom (.char c))
          (repetitionText repetition ++ rest) := hflags ▸ readsAs_char c _
      refine run_atom repetition hrest hreads trivial trivial hplain ?_ hok
      rw [hflags, hreading, Factor.language]
      exact language_char_le_under hfold false c
  | any | lineStart | lineEnd =>
      exact run_atom repetition hrest (readsAs_gap (by decide) _ _) trivial trivial hplain
        (Atom.le_under_gap _ _ _) hok
  | shorthand negated kind =>
      refine run_atom repetition hrest (readsAs_shorthand state.flags negated kind _) trivial
        trivial hplain ?_ hok
      rw [hflags, hreading, Factor.language]
      exact oneByte_le_under hfold false fun b hb =>
        ⟨b, (kind.contains_members negated b).mpr hb, rfl⟩
  | bracket content =>
      refine run_atom repetition hrest (readsAs_class state.flags content _) trivial trivial
        hplain ?_ hok
      rw [hflags, hreading, Factor.language]
      exact oneByte_le_under hfold false fun b hb => CharClass.exists_contains_of_holds hb
  | group kind body =>
      have htext : (Factor.group kind body).text ++ (repetitionText repetition ++ rest) =
          kind.text ++ (body.text ++ ')' :: (repetitionText repetition ++ rest)) := by
        simp [Factor.text]
      -- The contents are read on a level of their own, between the opening and the closing sign.
      rw [htext] at hok ⊢
      have hclose : Unquantified (')' :: (repetitionText repetition ++ rest)) :=
        unquantified_cons (by decide)
      have hreads : ReadsAs state.flags kind.text (.body false ⟨false, kind.scope scope⟩)
          (body.text ++ ')' :: (repetitionText repetition ++ rest)) :=
        hflags ▸ readsAs_opening kind (body.unquantified_text hclose)
      have hopen := run_open hreads hok
      rw [hopen] at hok ⊢
      obtain ⟨level, stop, hbody, hlevel, hle⟩ := run_regex hfold hreading body hclose rfl
        (Level.unmarked_fresh _ _) (Draft.language_start _).ge hok
      rw [hbody] at hok ⊢
      obtain ⟨draft, stop, hrun, happends⟩ := run_close repetition hrest hlevel hplain rfl hok
      refine ⟨draft, stop, hrun, happends.mono (repeated_mono repetition ?_)⟩
      rw [Factor.language]
      exact (le_add_of_nonneg_left bot_le).trans hle

end

/-- At the end of a pattern with no group open, the level becomes the tree. -/
theorem root_run_end (reading : Reading) (level : Level) (stop : Nat) :
    (run reading { initial with level := level } ⟨stop, []⟩).root = .ok (level.node stop) := by
  have hfinish : step reading { initial with level := level } ⟨stop, []⟩ =
      .done (finish { initial with level := level } stop) := rfl
  rw [run_of_done hfinish]
  rfl

end ParserState

theorem parse_ofList (reading : Reading) (text : List Char) :
    parse reading (String.ofList text) = ParserState.run reading .initial ⟨0, text⟩ := by
  rw [parse, Cursor.start, String.toList_ofList]

/-- An expression that is read becomes a tree with all of its words. -/
theorem parse_pattern {insensitive : Bool} (hfold : IgnoresCase insensitive fold)
    (hreading : reading.caseSensitive = !insensitive) (regex : Regex)
    (hok : (parse reading regex.pattern).root = .ok root) :
    root.Unmarked ∧ regex.language insensitive false ≤ root.language fold := by
  rw [Regex.pattern, parse_ofList, ← List.append_nil regex.text] at hok
  obtain ⟨level, stop, hrun, hunmarked, hle⟩ := ParserState.run_regex hfold hreading regex
    unquantified_nil rfl (Level.unmarked_fresh 0 0) (Draft.language_start 0).ge hok
  rw [hrun, ParserState.root_run_end] at hok
  obtain rfl : level.node stop = root := Except.ok.inj hok
  refine ⟨Level.unmarked_node hunmarked stop, ?_⟩
  rw [Level.language_node]
  exact (le_add_of_nonneg_left bot_le).trans hle

end LiteralSieve
