import LiteralSieve.Proofs.Enumeration

namespace LiteralSieve

/-!
# Layout and comments in groups

Whoever writes an expression in a group may lay it out and comment on it. The branches have the
keywords of the plain text, and what is too deep is so in every writing.
-/

open Grammar

variable {expression : Expression} {blanks comments : Bool} {text : List Char}

/-! ## Groups -/

namespace Grammar

/-- The opening of a group in which layout is ignored, or of a plain one. -/
def layoutOpening (blanks : Bool) : List Char :=
  if blanks then ['(', '?', 'x', ':'] else ['(', '?', ':']

def groupedPattern (blanks : Bool) (text : List Char) : String :=
  String.ofList (layoutOpening blanks ++ text ++ [')'])

end Grammar

theorem readsAs_layoutOpening (blanks : Bool) (rest : List Char) :
    ReadsAs .none (layoutOpening blanks) (.body false ⟨blanks, false⟩) rest := by
  cases blanks <;> exact readsAs_special rfl

/-- The state behind the opening. -/
def ParserState.grouped (blanks : Bool) : ParserState :=
  ⟨⟨blanks, false⟩, .fresh (width (layoutOpening blanks)) 0,
    [⟨0, false, initial.flags, initial.level⟩]⟩

theorem parse_groupedPattern (reading : Reading) (blanks : Bool) (text : List Char) :
    parse reading (groupedPattern blanks text) =
      ParserState.run reading (.grouped blanks)
        ⟨width (layoutOpening blanks), text ++ [')']⟩ := by
  have hdepth : ParserState.initial.outer.length < maxDepth := by decide
  rw [groupedPattern, parse_ofList, List.append_assoc,
    ParserState.run_open_of_lt (readsAs_layoutOpening blanks (text ++ [')'])) hdepth, Nat.zero_add]
  rfl

theorem parse_grouped (reading : Reading) (h : expression.Written blanks comments text)
    (hdepth : expression.depth < maxDepth) :
    ∃ root, (parse reading (groupedPattern blanks text)).root = .ok root ∧ root.Proper ∧
      root.paths = expression.denote reading false := by
  have hinside : (ParserState.grouped blanks).outer.length + expression.depth ≤ maxDepth := by
    rw [ParserState.grouped, List.length_singleton, Nat.add_comm]
    exact hdepth
  obtain ⟨level, stop, hrun, hproper, hpaths⟩ := ParserState.run_expression expression h calm_close
    (show (ParserState.grouped blanks).flags = ⟨blanks, false⟩ from rfl) hinside
    (Level.proper_fresh _ _) (Draft.paths_start _)
  have houter : ParserState.outer { ParserState.grouped blanks with level := level } =
      ⟨0, false, ParserState.initial.flags, ParserState.initial.level⟩ ::
        ParserState.initial.outer := rfl
  obtain ⟨draft, last, hclose, hgains⟩ :=
    ParserState.run_close_value .none calm_nil hproper houter
  have hlevel : (ParserState.initial.withDraft draft).level.Proper :=
    ⟨trivial, hgains.proper (Draft.proper_start 0)⟩
  refine ⟨(ParserState.initial.withDraft draft).level.node last, ?_,
    Level.proper_node hlevel last, ?_⟩
  · rw [parse_groupedPattern, hrun]
    exact (congrArg ParseResult.root hclose).trans (ParserState.root_run_end reading _ last)
  · rw [Level.paths_node]
    calc (ParserState.initial.withDraft draft).level.paths
        = Path.product [[]] level.paths := hgains.paths_eq
      _ = level.paths := Path.product_one_left
      _ = expression.denote reading false := hpaths

theorem parse_grouped_of_le (reading : Reading) (h : expression.Written blanks comments text)
    (hdepth : maxDepth ≤ expression.depth) :
    ∃ fault, (parse reading (groupedPattern blanks text)).root = .error fault := by
  have hflags : (ParserState.grouped blanks).flags = ⟨blanks, false⟩ := rfl
  have hlength : (ParserState.grouped blanks).outer.length = 1 := rfl
  have houter : (ParserState.grouped blanks).outer.length ≤ maxDepth := hlength ▸ by decide
  have hinside : maxDepth < (ParserState.grouped blanks).outer.length + expression.depth := by
    rw [hlength, Nat.add_comm]
    exact Nat.lt_succ_of_le hdepth
  rw [parse_groupedPattern]
  exact ParserState.run_expression_of_lt expression h calm_close hflags houter hinside

/-! ## Keywords -/

namespace PatternTree

/-- The keywords of each branch of a pattern after simplifying, if the pattern can be compiled. -/
def keywordBranches (tree : PatternTree) (expansion : Bool) (minLength : Nat) (pattern : String) :
    Option (List KeywordBranch) :=
  match tree.compile pattern expansion with
  | (_, .error _) => none
  | (compiled, .ok ()) =>
    match compiled.merge with
    | .error _ => none
    | .ok (merged, _) => some (merged.branches.map (Branch.keywords minLength))

theorem keywordBranches_of_root {tree : PatternTree} {expansion : Bool} {pattern : String}
    {root : Node} (hroot : (parse ⟨expansion, tree.caseSensitive⟩ pattern).root = .ok root)
    (hproper : root.Proper) (minLength : Nat) :
    tree.keywordBranches expansion minLength pattern =
      some (root.paths.map (Path.keywords minLength)) := by
  let made := (parse ⟨expansion, tree.caseSensitive⟩ pattern).made
  have hcompile : tree.compile pattern expansion =
      (⟨made, pattern, some root, tree.caseSensitive⟩, .ok ()) := by
    rw [compile, hroot]
  obtain ⟨merged, hasContent, hmerge, henumerates⟩ :=
    merge_of_root ⟨made, pattern, some root, tree.caseSensitive⟩ rfl hproper
  rw [keywordBranches, hcompile]
  dsimp only
  rw [hmerge]
  exact congrArg some (henumerates.keywords minLength)

theorem keywordBranches_of_fault {tree : PatternTree} {expansion : Bool} {pattern : String}
    {fault : Fault} (h : (parse ⟨expansion, tree.caseSensitive⟩ pattern).root = .error fault)
    (minLength : Nat) : tree.keywordBranches expansion minLength pattern = none := by
  rw [keywordBranches, compile, h]

/-- An expression in a group has the keywords of its paths, however it is written there. -/
theorem keywordBranches_grouped (tree : PatternTree) (expansion : Bool) (minLength : Nat)
    (h : expression.Written blanks comments text) :
    tree.keywordBranches expansion minLength (groupedPattern blanks text) =
      if expression.depth < maxDepth then
        some ((expression.denote ⟨expansion, tree.caseSensitive⟩ false).map
          (Path.keywords minLength))
      else none := by
  split
  case isTrue hdepth =>
    obtain ⟨root, hroot, hproper, hpaths⟩ :=
      parse_grouped ⟨expansion, tree.caseSensitive⟩ h hdepth
    rw [keywordBranches_of_root hroot hproper, hpaths]
  case isFalse hdepth =>
    obtain ⟨fault, hfault⟩ :=
      parse_grouped_of_le ⟨expansion, tree.caseSensitive⟩ h (Nat.not_lt.mp hdepth)
    exact keywordBranches_of_fault hfault minLength

/-- Layout and comments in groups leave the keywords of all branches as they are. -/
theorem keywordBranches_layout (tree : PatternTree) (expansion : Bool) (minLength : Nat)
    {plain : List Char} (hplain : expression.Written false false plain)
    (htext : expression.Written blanks true text) :
    tree.keywordBranches expansion minLength (groupedPattern blanks text) =
        tree.keywordBranches expansion minLength (groupedPattern false plain) ∧
      ((tree.keywordBranches expansion minLength (groupedPattern blanks text)).isSome = true ↔
        expression.depth < 256) := by
  have hlayout := tree.keywordBranches_grouped expansion minLength htext
  refine ⟨hlayout.trans (tree.keywordBranches_grouped expansion minLength hplain).symm, ?_⟩
  rw [hlayout, Option.isSome_ite]
  rfl

/-- The comments have signs of their own, and layout stands before all quantities. -/
theorem keywordBranches_layout_sample :
    let text := "(?x:(?<n> a #one|\n b(?#two()|[cd])x\t{2} . #)\n* (?i:ef(?#three) )\n? )"
    empty.keywordBranches true 1 text =
        empty.keywordBranches true 1 "(?:(?<n>ab|[cd])x{2}.*(?i:ef)?)" ∧
      (empty.keywordBranches true 1 text).isSome = true ∧
      empty.keywordBranches true 1 text = some ([["abxx", "ef"], ["abxx"], ["cxx", "ef"], ["cxx"],
        ["dxx", "ef"], ["dxx"]].map (·.map utf8)) := by
  intro text
  have hplain : sampleExpression.Written false false sampleExpression.text :=
    sampleExpression.written_text
  have hchar : ∀ {c : PlainChar}, c.char ∉ reservedSigns → c.char ∉ '#' :: layoutSigns →
      Term.Written true true (.char c) [c.char] := fun hraw hlayout =>
    .char (.raw hraw fun _ => hlayout)
  have hblank : Filler true true [' '] := .blank rfl (by decide) .nil
  have hone : Filler true true (' ' :: '#' :: ("one|".toList ++ '\n' :: [' '])) :=
    .blank rfl (by decide) (.line rfl (by decide) hblank)
  have htwo : Filler true true ('(' :: '?' :: '#' :: ("two(".toList ++ [')'])) :=
    .group rfl (by decide) .nil
  have hthree : Filler true true ('(' :: '?' :: '#' :: ("three".toList ++ ')' :: [' '])) :=
    .group rfl (by decide) hblank
  -- Before quantities there is layout alone.
  have htab : Filler true false ['\t'] := .blank rfl (by decide) .nil
  have hnext : Filler true false ['\n'] := .blank rfl (by decide) .nil
  have hclose : Filler true false (' ' :: '#' :: (")".toList ++ ['\n'])) :=
    .blank rfl (by decide) (.line rfl (by decide) .nil)
  have htext : sampleExpression.Written true true _ :=
    .single
      (.cons .nil
        (.group (.alternative
          (.cons hblank (hchar (by decide) (by decide)) .none
            (.cons hone (hchar (by decide) (by decide)) .none (.empty htwo)))
          (.single (.cons .nil (.bracket _) .none (.empty .nil)))))
        .none
        (.cons .nil (hchar (by decide) (by decide)) (.some htab)
          (.cons hblank .any (.some hclose)
            (.cons hblank
              (.group (.single
                (.cons .nil (hchar (by decide) (by decide)) .none
                  (.cons .nil (hchar (by decide) (by decide)) .none (.empty hthree)))))
              (.some hnext) (.empty hblank)))))
  have hdepth : sampleExpression.depth < maxDepth := by decide +kernel
  have hpaths : (sampleExpression.denote ⟨true, empty.caseSensitive⟩ false).map
      (Path.keywords 1) = [["abxx", "ef"], ["abxx"], ["cxx", "ef"], ["cxx"], ["dxx", "ef"],
        ["dxx"]].map (·.map utf8) := by
    decide +kernel
  have hgrouped := keywordBranches_grouped empty true 1 htext
  rw [if_pos hdepth, hpaths] at hgrouped
  obtain ⟨hsame, hcompiled⟩ := keywordBranches_layout empty true 1 hplain htext
  exact ⟨hsame, hcompiled.mpr hdepth, hgrouped⟩

end PatternTree

end LiteralSieve
