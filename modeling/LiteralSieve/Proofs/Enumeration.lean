import LiteralSieve.Decomposition
import LiteralSieve.Proofs.Pattern.ReadPaths

namespace LiteralSieve

/-!
# Enumerations

The branches of the tree of an expression are the paths that it denotes, before and after the tree
is simplified, and a decomposition that need not fold anything lists the keywords of those paths.
-/

open Grammar

/-! ## Trees -/

namespace PatternTree

/-- The branches of the tree are these paths, in order. -/
structure Enumerates (tree : PatternTree) (paths : List Path) : Prop where
  branches : tree.branches.map Branch.items = paths
  branchCount : tree.branchCount = min paths.length maxCount
  keywords : ∀ minLength,
    tree.branches.map (Branch.keywords minLength) = paths.map (Path.keywords minLength)

variable {tree : PatternTree} {root : Node} {expression : Expression}

theorem enumerates_of_root (h : tree.root = some root) : tree.Enumerates root.paths := by
  have hbranches : tree.branches = root.branches := by
    rw [branches, h]
    rfl
  constructor
  · exact congrArg _ hbranches
  · rw [branchCount, h]
    exact root.branchCount_eq_length_paths
  · intro minLength
    rw [hbranches, Node.paths, List.map_map]
    exact List.map_congr_left fun branch _ => branch.keywords_eq minLength

theorem compile_expression (tree : PatternTree) (expansion : Bool)
    (hdepth : expression.depth ≤ maxDepth) :
    ∃ root, root.Proper ∧
      root.paths = expression.denote ⟨expansion, tree.caseSensitive⟩ false ∧
      ∃ made, tree.compile expression.pattern expansion =
        (⟨made, expression.pattern, some root, tree.caseSensitive⟩, .ok ()) := by
  obtain ⟨root, hroot, hproper, hpaths⟩ :=
    parse_expression ⟨expansion, tree.caseSensitive⟩ expression hdepth
  refine ⟨root, hproper, hpaths,
    (parse ⟨expansion, tree.caseSensitive⟩ expression.pattern).made, ?_⟩
  simp only [compile, hroot]

theorem merge_of_root (tree : PatternTree) (h : tree.root = some root) (hproper : root.Proper) :
    ∃ merged hasContent, tree.merge = .ok (merged, hasContent) ∧ merged.Enumerates root.paths := by
  refine ⟨_, _, by rw [merge, h], ?_⟩
  rw [← Node.paths_simplified hproper]
  exact enumerates_of_root rfl

end PatternTree

/-! ## Repeats -/

theorem eraseDupsBy_loop_eq {caseInsensitive : Bool} {branches kept : List KeywordBranch}
    {seen : Std.TreeSet KeywordBranch}
    (hseen : ∀ key, seen.contains key = kept.any fun branch => key == branch.key caseInsensitive) :
    List.eraseDupsBy.loop
        (fun a b : KeywordBranch => a.key caseInsensitive == b.key caseInsensitive) branches kept =
      kept.reverse ++ withoutRepeats caseInsensitive seen branches := by
  induction branches generalizing kept seen with
  | nil => exact (List.append_nil _).symm
  | cons first branches ih =>
      rw [List.eraseDupsBy.loop, withoutRepeats, ← hseen]
      cases hfirst : seen.contains (first.key caseInsensitive) with
      | true => exact ih hseen
      | false =>
          have hinsert : ∀ key, (seen.insert (first.key caseInsensitive)).contains key =
              (first :: kept).any fun branch => key == branch.key caseInsensitive := by
            intro key
            simp only [Std.TreeSet.contains_insert, hseen, List.any_cons,
              Std.LawfulEqCmp.compare_eq_iff_eq, Bool.beq_eq_decide_eq]
            simp only [eq_comm]
          rw [ih hinsert]
          simp

/-- Of branches that are equal up to case, where it does not count, the first stays. -/
theorem withoutRepeats_eq (caseInsensitive : Bool) (branches : List KeywordBranch) :
    withoutRepeats caseInsensitive ∅ branches = branches.eraseDupsBy
      fun a b => a.key caseInsensitive == b.key caseInsensitive := by
  have hseen : ∀ key, (∅ : Std.TreeSet KeywordBranch).contains key =
      ([] : List KeywordBranch).any fun branch => key == branch.key caseInsensitive :=
    fun _ => Std.TreeSet.contains_emptyc
  exact (eraseDupsBy_loop_eq hseen).symm

/-! ## Decompositions -/

namespace DecomposeOptions

/-- The paths of an expression with the members of its sets, or without, if they would be too
many. -/
def pathsOf (options : DecomposeOptions) (expression : Expression) : List Path :=
  let denoted (expansion : Bool) : List Path :=
    expression.denote ⟨expansion, !options.caseInsensitive⟩ false
  if options.cap < min (denoted options.expansion).length maxCount ∧ options.expansion = true then
    denoted false
  else denoted options.expansion

/-- The keywords of the paths, or the fault if some path has none. -/
def decomposed (options : DecomposeOptions) (pattern : String) (paths : List Path) :
    Except PatternError Decomposition :=
  let found := paths.map (Path.keywords options.minLength)
  if [] ∈ found then .error (.unindexable pattern .bareAlternative)
  else .ok ⟨.exact, found.eraseDupsBy fun a b =>
    a.key options.caseInsensitive == b.key options.caseInsensitive⟩

end DecomposeOptions

variable {options : DecomposeOptions} {expression : Expression}

theorem simplifiedTree_expression (options : DecomposeOptions) (expansion : Bool)
    (tree : PatternTree) (hdepth : expression.depth ≤ maxDepth) :
    ∃ simplified, simplifiedTree options expansion expression.pattern tree = (simplified, .ok ()) ∧
      simplified.Enumerates (expression.denote ⟨expansion, !options.caseInsensitive⟩ false) := by
  obtain ⟨root, hproper, hpaths, made, hcompile⟩ := PatternTree.compile_expression
    (tree.setCaseSensitive !options.caseInsensitive) expansion hdepth
  obtain ⟨merged, hasContent, hmerge, henumerates⟩ := PatternTree.merge_of_root
    ⟨made, expression.pattern, some root, !options.caseInsensitive⟩ rfl hproper
  refine ⟨merged, ?_, hpaths ▸ henumerates⟩
  rw [simplifiedTree, hcompile]
  dsimp only [PatternTree.setCaseSensitive]
  rw [hmerge]

theorem chosenTree_expression (options : DecomposeOptions) (tree : PatternTree)
    (hdepth : expression.depth ≤ maxDepth) :
    ∃ chosen, chosenTree options expression.pattern tree = (chosen, .ok ()) ∧
      chosen.Enumerates (options.pathsOf expression) := by
  obtain ⟨first, hfirst, henumerates⟩ :=
    simplifiedTree_expression options options.expansion tree hdepth
  rw [chosenTree, hfirst, DecomposeOptions.pathsOf]
  dsimp only
  rw [henumerates.branchCount]
  split
  · exact simplifiedTree_expression options false first hdepth
  · exact ⟨first, rfl, henumerates⟩

theorem treeDecomposition_of_enumerates {tree : PatternTree} {paths : List Path}
    (h : tree.Enumerates paths) (hcap : min paths.length maxCount ≤ options.cap)
    (pattern : String) :
    treeDecomposition options pattern tree = options.decomposed pattern paths := by
  have hany : (paths.map (Path.keywords options.minLength)).any List.isEmpty = true ↔
      [] ∈ paths.map (Path.keywords options.minLength) := by
    simp
  rw [treeDecomposition, if_pos (h.branchCount ▸ hcap), collect, DecomposeOptions.decomposed,
    h.keywords options.minLength]
  by_cases hbare : [] ∈ paths.map (Path.keywords options.minLength)
  · rw [if_pos hbare, if_pos (hany.mpr hbare)]
  · rw [if_neg hbare, if_neg (mt hany.mp hbare), withoutRepeats_eq]

/-- The expression `(?<n>ab|[cd])x{2}.*(?i:ef)?`. -/
def sampleExpression : Expression :=
  let plain (c : Char) (h : c ∉ reservedSigns) : Term :=
    .char ⟨c, false, fun hescaped => absurd hescaped Bool.false_ne_true, fun _ => h⟩
  let member (c : Char) (hascii : isAsciiChar c = true) (h : c ∉ classSigns) : SetItem :=
    .char ⟨c, false, hascii, fun hescaped => absurd hescaped Bool.false_ne_true, fun _ => h⟩
  let cd : BracketSet :=
    ⟨false, [member 'c' (by decide) (by decide), member 'd' (by decide) (by decide)],
      List.cons_ne_nil _ _⟩
  let ab : Row := .cons (plain 'a' (by decide)) none (.cons (plain 'b' (by decide)) none .empty)
  let ef : Row := .cons (plain 'e' (by decide)) none (.cons (plain 'f' (by decide)) none .empty)
  let name : GroupName := ⟨['n'], List.cons_ne_nil _ _, fun _ hc => List.mem_singleton.mp hc ▸ rfl⟩
  let twice : Quantity := ⟨.exactly 2, none, by decide, by decide, by decide⟩
  let often : Quantity := ⟨.star, none, by decide, by decide, by decide⟩
  let perhaps : Quantity := ⟨.optional, none, by decide, by decide, by decide⟩
  let inner : Expression := .alternative ab (.single (.cons (.bracket cd) none .empty))
  .single (.cons (.group (.angled name) inner) none
    (.cons (plain 'x' (by decide)) (some twice)
      (.cons .any (some often)
        (.cons (.group .caseless (.single ef)) (some perhaps) .empty))))

def samplePaths : List Path :=
  ["abxx", "cxx", "dxx"].flatMap fun first =>
    [Path.literal (utf8 first) ++ .gap :: Path.literal (utf8 "ef"),
      Path.literal (utf8 first) ++ [.gap]]

end LiteralSieve
