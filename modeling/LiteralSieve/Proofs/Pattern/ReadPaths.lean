import LiteralSieve.Proofs.Pattern.DraftPaths
import LiteralSieve.Proofs.Pattern.Writings

namespace LiteralSieve

/-!
# Paths of expressions that are read

A run of the parser over an expression, however it is written, comes to its end in the state in
which it began, but for the draft, which has gained the paths that the expression denotes. Only
groups that are too deep stop it.
-/

open Node Grammar

variable {reading : Reading} {state : ParserState} {offset : Nat} {rest : List Char}
  {blanks comments scope : Bool}

/-! ## Levels -/

namespace Level

def paths (level : Level) : List Path := pathsOfAny level.finished ++ level.draft.paths

structure Proper (level : Level) : Prop where
  finished : AllProper level.finished
  draft : level.draft.Proper

theorem proper_fresh (offset made : Nat) : (fresh offset made).Proper :=
  ⟨trivial, Draft.proper_start made⟩

theorem pathsOfAny_branches (level : Level) (offset : Nat) :
    pathsOfAny (level.branches offset) = level.paths := by
  simp [branches, pathsOfAny_append, Draft.sequence, paths, Draft.paths]

theorem allProper_branches {level : Level} (h : level.Proper) (offset : Nat) :
    AllProper (level.branches offset) :=
  allProper_append.mpr ⟨h.finished, Draft.proper_flush h.draft, trivial⟩

theorem paths_node (level : Level) (offset : Nat) : (level.node offset).paths = level.paths := by
  rw [node, paths_choice, pathsOfAny_branches]

theorem proper_node {level : Level} (h : level.Proper) (offset : Nat) :
    (level.node offset).Proper :=
  ⟨List.append_ne_nil_of_right_ne_nil _ (List.cons_ne_nil _ _), allProper_branches h offset⟩

theorem proper_nextBranch {level : Level} (h : level.Proper) (offset : Nat) :
    (level.nextBranch offset).Proper :=
  ⟨allProper_branches h offset, Draft.proper_start _⟩

end Level

theorem Gains.of_made {paths : List Path} {draft next : Draft} {made : Nat}
    (h : Gains paths { draft with made := made } next) : Gains paths draft next := by
  have hpaths : Draft.paths { draft with made := made } = draft.paths := by
    rw [Draft.paths, Draft.paths, Draft.flush, Draft.flush]
    cases draft.run <;> rfl
  exact ⟨hpaths ▸ h.paths_eq, h.proper⟩

/-! ## Runs -/

namespace ParserState

theorem run_addValue {before : ParserState} {cursor : Cursor} {start : Nat} {atom : Atom}
    {value : Value} {quantity : Option Quantity} {count : List Char}
    (hcount : CountText state.flags.extended quantity count)
    (hrest : Calm state.flags.extended rest) (hvalue : atom.HasValue value)
    (hstep : step reading before cursor =
      addAtom reading state start atom ⟨offset, count ++ rest⟩) :
    ∃ draft stop, run reading before cursor = run reading (state.withDraft draft) ⟨stop, rest⟩ ∧
      Gains (value.occurring reading.expansion quantity) state.level.draft draft := by
  obtain ⟨stop, hrun⟩ := exists_run_addAtom hcount hrest hstep
  exact ⟨_, _, hrun, .add hvalue reading.expansion _ quantity _ _⟩

theorem run_value {text : List Char} {atom : Atom} {value : Value} {quantity : Option Quantity}
    {count : List Char} (hcount : CountText blanks quantity count) (hrest : Calm blanks rest)
    (hflags : state.flags = ⟨blanks, scope⟩)
    (hreads : ReadsAs ⟨blanks, scope⟩ text (.atom atom) (count ++ rest)) (hunit : atom.IsUnit)
    (hvalue : (atom.under ⟨blanks, scope⟩ reading.caseSensitive).HasValue value) :
    ∃ draft stop, run reading state ⟨offset, text ++ (count ++ rest)⟩ =
        run reading (state.withDraft draft) ⟨stop, rest⟩ ∧
      Gains (value.occurring reading.expansion quantity) state.level.draft draft := by
  have hstep : step reading state ⟨offset, text ++ (count ++ rest)⟩ =
      state.addAtom reading offset (atom.under state.flags reading.caseSensitive)
        ⟨offset + width text, count ++ rest⟩ :=
    (step_of_readsAs (hflags ▸ hreads)).trans (apply_of_isUnit hunit _)
  have hextended : state.flags.extended = blanks := by rw [hflags]
  rw [hflags] at hstep
  exact run_addValue (hextended ▸ hcount) (hextended ▸ hrest) hvalue hstep

theorem run_open_of_lt {text : List Char} {flags : Flags}
    (hreads : ReadsAs state.flags text (.body false flags) rest)
    (hdepth : state.outer.length < maxDepth) :
    run reading state ⟨offset, text ++ rest⟩ =
      run reading ⟨flags, .fresh (offset + width text) state.level.made,
        ⟨offset, false, state.flags, state.level⟩ :: state.outer⟩ ⟨offset + width text, rest⟩ := by
  have hstep : step reading state ⟨offset, text ++ rest⟩ =
      state.openGroup offset false flags ⟨offset + width text, rest⟩ := step_of_readsAs hreads
  rw [openGroup, if_neg (Nat.not_le.mpr hdepth)] at hstep
  exact run_of_next hstep

/-- A group that is closed is one atom, and stands for all its alternatives. -/
theorem run_close_value {inside around : ParserState} {opening : Nat} {quantity : Option Quantity}
    {count : List Char} (hcount : CountText around.flags.extended quantity count)
    (hrest : Calm around.flags.extended rest) (hlevel : inside.level.Proper)
    (houter : inside.outer = ⟨opening, false, around.flags, around.level⟩ :: around.outer) :
    ∃ draft stop, run reading inside ⟨offset, ')' :: (count ++ rest)⟩ =
        run reading (around.withDraft draft) ⟨stop, rest⟩ ∧
      Gains ((Value.group inside.level.paths).occurring reading.expansion quantity)
        around.level.draft draft := by
  have hvalue : (Atom.node (inside.level.node offset)).HasValue (.group inside.level.paths) :=
    inside.level.paths_node offset ▸ .node (Level.proper_node hlevel offset) rfl
  have hcount' : CountText (around.withDraft
      { around.level.draft with made := inside.level.madeAtEnd }).flags.extended quantity count :=
    hcount
  obtain ⟨draft, stop, hrun, hgains⟩ := run_addValue hcount' hrest hvalue (step_close houter)
  exact ⟨draft, stop, hrun, hgains.of_made⟩

mutual

theorem run_expression (expression : Expression) {text : List Char}
    (h : expression.Written blanks comments text) {scope : Bool} {state : ParserState}
    {offset : Nat} {rest : List Char} (hrest : Calm blanks rest)
    (hflags : state.flags = ⟨blanks, scope⟩)
    (hdepth : state.outer.length + expression.depth ≤ maxDepth)
    (hlevel : state.level.Proper) (hstart : state.level.draft.paths = [[]]) :
    ∃ level stop, run reading state ⟨offset, text ++ rest⟩ =
        run reading { state with level := level } ⟨stop, rest⟩ ∧
      level.Proper ∧
      level.paths = pathsOfAny state.level.finished ++ expression.denote reading scope := by
  cases h with
  | @single row _ hrow =>
      obtain ⟨draft, stop, hrun, hgains⟩ := run_row row hrow hrest hflags hdepth
      refine ⟨{ state.level with draft := draft }, stop, hrun,
        ⟨hlevel.finished, hgains.proper hlevel.draft⟩, ?_⟩
      rw [Level.paths, hgains.paths_eq, hstart, Path.product_one_left, Expression.denote]
  | @alternative first others _ texts hfirst hothers =>
      have hmax : state.outer.length + max first.depth others.depth ≤ maxDepth := hdepth
      have hbar : Calm blanks ('|' :: (texts ++ rest)) := calm_bar
      obtain ⟨draft, middle, hrun, hgains⟩ := run_row first hfirst hbar hflags (by omega)
      have hbranch : (state.withDraft draft).level.Proper :=
        ⟨hlevel.finished, hgains.proper hlevel.draft⟩
      have hnextFlags : ParserState.flags
          { state with level := (state.withDraft draft).level.nextBranch middle } =
            ⟨blanks, scope⟩ := hflags
      have hnextDepth : state.outer.length + others.depth ≤ maxDepth := by omega
      obtain ⟨level, stop, hmore, hproper, hpaths⟩ := run_expression others hothers hrest hnextFlags
        hnextDepth (Level.proper_nextBranch hbranch middle) (Draft.paths_start _)
      refine ⟨level, stop, ?_, hproper, ?_⟩
      · rw [List.append_assoc, List.cons_append, hrun, run_bar]
        exact hmore
      · rw [hpaths, Level.nextBranch, Level.pathsOfAny_branches, Level.paths, Expression.denote,
          List.append_assoc]
        apply congrArg (_ ++ ·)
        apply congrArg (· ++ _)
        exact hgains.paths_eq.trans (hstart ▸ Path.product_one_left)

theorem run_row (row : Row) {text : List Char} (h : row.Written blanks comments text)
    {scope : Bool} {state : ParserState} {offset : Nat} {rest : List Char}
    (hrest : Calm blanks rest) (hflags : state.flags = ⟨blanks, scope⟩)
    (hdepth : state.outer.length + row.depth ≤ maxDepth) :
    ∃ draft stop, run reading state ⟨offset, text ++ rest⟩ =
        run reading (state.withDraft draft) ⟨stop, rest⟩ ∧
      Gains (row.denote reading scope) state.level.draft draft := by
  have hextended : state.flags.extended = blanks := by rw [hflags]
  cases h with
  | empty hgap =>
      obtain ⟨stop, hrun⟩ := exists_run_filler (hextended.symm ▸ hgap) reading offset rest
      exact ⟨state.level.draft, stop, hrun, .refl _⟩
  | @cons term _ others gap text count texts hgap hterm hcount hothers =>
      have hmax : state.outer.length + max term.depth others.depth ≤ maxDepth := hdepth
      obtain ⟨start, hbefore⟩ := exists_run_filler (hextended.symm ▸ hgap) reading offset
        (text ++ (count ++ (texts ++ rest)))
      obtain ⟨draft, middle, hfirst, hgains⟩ := run_term term hterm hcount
        (hothers.calm hrest) hflags (by omega)
      have hnextFlags : (state.withDraft draft).flags = ⟨blanks, scope⟩ := hflags
      have hnextDepth : state.outer.length + others.depth ≤ maxDepth := by omega
      obtain ⟨next, stop, hmore, hlater⟩ := run_row others hothers hrest hnextFlags hnextDepth
      refine ⟨next, stop, ?_, hgains.trans hlater⟩
      rw [List.append_assoc, List.append_assoc, List.append_assoc, hbefore, hfirst]
      exact hmore

theorem run_term (term : Term) {text : List Char} (h : term.Written blanks comments text)
    {quantity : Option Quantity} {count : List Char} (hcount : CountText blanks quantity count)
    {scope : Bool} {state : ParserState} {offset : Nat} {rest : List Char}
    (hrest : Calm blanks rest) (hflags : state.flags = ⟨blanks, scope⟩)
    (hdepth : state.outer.length + term.depth ≤ maxDepth) :
    ∃ draft stop, run reading state ⟨offset, text ++ (count ++ rest)⟩ =
        run reading (state.withDraft draft) ⟨stop, rest⟩ ∧
      Gains ((term.value reading scope).occurring reading.expansion quantity)
        state.level.draft draft := by
  cases h with
  | @char c _ hchar =>
      exact run_value hcount hrest hflags (hchar.readsAs _) trivial
        (Atom.hasValue_char_under reading scope c.char)
  | any =>
      exact run_value hcount hrest hflags (readsAs_gap (by decide) _ _) trivial
        (Atom.hasValue_gap_under _ _)
  | anchor anchor =>
      exact run_value hcount hrest hflags (readsAs_anchor anchor _ _) trivial
        (Atom.hasValue_gap_under _ _)
  | escaped negated set =>
      exact run_value hcount hrest hflags (readsAs_escapedSet _ negated set _) trivial
        (Atom.hasValue_set_under reading scope (contains_signedSet negated set.isMember))
  | bracket set =>
      exact run_value hcount hrest hflags (readsAs_bracketSet _ set _) trivial
        (Atom.hasValue_set_under reading scope set.contains_members)
  | @group opening body text hbody =>
      have hinside : state.outer.length + (body.depth + 1) ≤ maxDepth := hdepth
      have hclose : Calm blanks (')' :: (count ++ rest)) := calm_close
      have hreads : ReadsAs state.flags opening.text (.body false ⟨blanks, opening.scope scope⟩)
          (text ++ ')' :: (count ++ rest)) :=
        hflags ▸ readsAs_groupOpening opening (hbody.calm hclose).next
      -- The contents are read on a level of their own, which counts for the depth.
      let inside : ParserState := ⟨⟨blanks, opening.scope scope⟩,
        .fresh (offset + width opening.text) state.level.made,
        ⟨offset, false, state.flags, state.level⟩ :: state.outer⟩
      have hopen : run reading state ⟨offset, opening.text ++ (text ++ ')' :: (count ++ rest))⟩ =
          run reading inside ⟨offset + width opening.text, text ++ ')' :: (count ++ rest)⟩ :=
        run_open_of_lt hreads (by omega)
      have hinsideFlags : inside.flags = ⟨blanks, opening.scope scope⟩ := rfl
      have hinsideDepth : inside.outer.length + body.depth ≤ maxDepth := by
        rw [List.length_cons]
        omega
      obtain ⟨level, stop, hrun, hproper, hpaths⟩ := run_expression body hbody hclose hinsideFlags
        hinsideDepth (Level.proper_fresh _ _) (Draft.paths_start _)
      have hextended : state.flags.extended = blanks := by rw [hflags]
      have houter : ParserState.outer { inside with level := level } =
          ⟨offset, false, state.flags, state.level⟩ :: state.outer := rfl
      obtain ⟨draft, last, hend, hgains⟩ := run_close_value (hextended.symm ▸ hcount)
        (hextended.symm ▸ hrest) hproper houter
      have hgroup : level.paths = body.denote reading (opening.scope scope) := hpaths
      refine ⟨draft, last, ?_, ?_⟩
      · rw [List.append_assoc, List.append_assoc, List.singleton_append, hopen, hrun, hend]
      · rw [Term.value, ← hgroup]
        exact hgains

end

/-! ## Groups that are too deep -/

theorem run_open_of_le {text : List Char} {flags : Flags}
    (hreads : ReadsAs state.flags text (.body false flags) rest)
    (hdepth : maxDepth ≤ state.outer.length) :
    (run reading state ⟨offset, text ++ rest⟩).root = .error ⟨.depthLimit, offset⟩ := by
  have hstep : step reading state ⟨offset, text ++ rest⟩ =
      state.openGroup offset false flags ⟨offset + width text, rest⟩ := step_of_readsAs hreads
  rw [openGroup, if_pos hdepth] at hstep
  rw [run_of_done hstep]

mutual

-- What stands before the group that is too deep is read as it is without it.
theorem run_expression_of_lt (expression : Expression) {text : List Char}
    (h : expression.Written blanks comments text) {scope : Bool} {state : ParserState}
    {offset : Nat} {rest : List Char} (hrest : Calm blanks rest)
    (hflags : state.flags = ⟨blanks, scope⟩) (houter : state.outer.length ≤ maxDepth)
    (hdepth : maxDepth < state.outer.length + expression.depth) :
    ∃ fault, (run reading state ⟨offset, text ++ rest⟩).root = .error fault := by
  cases h with
  | @single row _ hrow => exact run_row_of_lt row hrow hrest hflags houter hdepth
  | @alternative first others _ texts hfirst hothers =>
      have hmax : maxDepth < state.outer.length + max first.depth others.depth := hdepth
      have hbar : Calm blanks ('|' :: (texts ++ rest)) := calm_bar
      rw [List.append_assoc, List.cons_append]
      rcases Nat.lt_or_ge maxDepth (state.outer.length + first.depth) with hlt | hle
      · exact run_row_of_lt first hfirst hbar hflags houter hlt
      · obtain ⟨draft, middle, hrun, -⟩ := run_row first hfirst hbar hflags hle
        have hnextFlags : ParserState.flags
            { state with level := (state.withDraft draft).level.nextBranch middle } =
              ⟨blanks, scope⟩ := hflags
        have hnextDepth : maxDepth < state.outer.length + others.depth := by omega
        rw [hrun, run_bar]
        exact run_expression_of_lt others hothers hrest hnextFlags houter hnextDepth

theorem run_row_of_lt (row : Row) {text : List Char} (h : row.Written blanks comments text)
    {scope : Bool} {state : ParserState} {offset : Nat} {rest : List Char}
    (hrest : Calm blanks rest) (hflags : state.flags = ⟨blanks, scope⟩)
    (houter : state.outer.length ≤ maxDepth)
    (hdepth : maxDepth < state.outer.length + row.depth) :
    ∃ fault, (run reading state ⟨offset, text ++ rest⟩).root = .error fault := by
  have hextended : state.flags.extended = blanks := by rw [hflags]
  cases h with
  | empty => exact absurd hdepth (Nat.not_lt.mpr houter)
  | @cons term _ others gap text count texts hgap hterm hcount hothers =>
      have hmax : maxDepth < state.outer.length + max term.depth others.depth := hdepth
      obtain ⟨start, hbefore⟩ := exists_run_filler (hextended.symm ▸ hgap) reading offset
        (text ++ (count ++ (texts ++ rest)))
      rw [List.append_assoc, List.append_assoc, List.append_assoc, hbefore]
      rcases Nat.lt_or_ge maxDepth (state.outer.length + term.depth) with hlt | hle
      · exact run_term_of_lt term hterm hflags houter hlt
      · obtain ⟨draft, middle, hfirst, -⟩ :=
          run_term term hterm hcount (hothers.calm hrest) hflags hle
        have hnextFlags : (state.withDraft draft).flags = ⟨blanks, scope⟩ := hflags
        have hnextDepth : maxDepth < state.outer.length + others.depth := by omega
        rw [hfirst]
        exact run_row_of_lt others hothers hrest hnextFlags houter hnextDepth

theorem run_term_of_lt (term : Term) {text : List Char} (h : term.Written blanks comments text)
    {scope : Bool} {state : ParserState} {offset : Nat} {rest : List Char}
    (hflags : state.flags = ⟨blanks, scope⟩) (houter : state.outer.length ≤ maxDepth)
    (hdepth : maxDepth < state.outer.length + term.depth) :
    ∃ fault, (run reading state ⟨offset, text ++ rest⟩).root = .error fault := by
  cases h with
  | @group opening body text hbody =>
      have hinside : maxDepth < state.outer.length + (body.depth + 1) := hdepth
      have hclose : Calm blanks (')' :: rest) := calm_close
      have hreads : ReadsAs state.flags opening.text (.body false ⟨blanks, opening.scope scope⟩)
          (text ++ ')' :: rest) :=
        hflags ▸ readsAs_groupOpening opening (hbody.calm hclose).next
      rw [List.append_assoc, List.append_assoc, List.singleton_append]
      rcases Nat.lt_or_ge state.outer.length maxDepth with hlt | hle
      · rw [run_open_of_lt hreads hlt]
        exact run_expression_of_lt body hbody hclose rfl hlt (by rw [List.length_cons]; omega)
      · exact ⟨_, run_open_of_le hreads hle⟩
  | _ => exact absurd hdepth (Nat.not_lt.mpr houter)

end

end ParserState

/-- An expression whose groups are not too deep is read, and its tree has the paths that it
denotes. -/
theorem parse_expression (reading : Reading) (expression : Expression)
    (hdepth : expression.depth ≤ maxDepth) :
    ∃ root, (parse reading expression.pattern).root = .ok root ∧ root.Proper ∧
      root.paths = expression.denote reading false := by
  have hwritten : expression.Written false false expression.text := expression.written_text
  have hinitial : ParserState.initial.outer.length + expression.depth ≤ maxDepth := by
    rwa [ParserState.initial, List.length_nil, Nat.zero_add]
  obtain ⟨level, stop, hrun, hproper, hpaths⟩ := ParserState.run_expression expression hwritten
    calm_nil (show ParserState.initial.flags = ⟨false, false⟩ from rfl) hinitial
    (Level.proper_fresh 0 0) (Draft.paths_start 0)
  refine ⟨level.node stop, ?_, Level.proper_node hproper stop, ?_⟩
  · rw [Expression.pattern, parse_ofList, ← List.append_nil expression.text, hrun]
    exact ParserState.root_run_end reading level stop
  · exact (level.paths_node stop).trans hpaths

end LiteralSieve
