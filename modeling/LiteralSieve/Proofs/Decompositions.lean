import LiteralSieve.Proofs.Coverage
import LiteralSieve.Proofs.Pattern.Hereditary
import LiteralSieve.Proofs.Pattern.Unfoldings

namespace LiteralSieve

/-!
# Well-formed decompositions

Whichever way a decomposition is found, its branches are within the cap, different, and made of
keywords that are long enough; there is at least one, since the tree of a pattern always has a word
and some branch covers it. If there is no decomposition, the error says why, and the tree is never
at fault.
-/

open Node

variable {options : DecomposeOptions} {pattern : String} {tree : PatternTree} {root : Node}

/-- What holds of a decomposition under these options. -/
structure Decomposition.WellFormed (options : DecomposeOptions) (found : Decomposition) :
    Prop where
  branches_ne_nil : found.branches ≠ []
  length_le : found.branches.length ≤ options.cap
  branch_ne_nil : ∀ branch ∈ found.branches, branch ≠ []
  minLength_le : ∀ branch ∈ found.branches, ∀ keyword ∈ branch,
    options.minLength ≤ keyword.length
  different : found.branches.Pairwise fun first second =>
    first.key options.caseInsensitive ≠ second.key options.caseInsensitive
  single : found.strategy = .keywords → ∀ branch ∈ found.branches, branch.length = 1

/-- What an error says of a pattern that has no decomposition under these options: that it cannot
be read, that too few literals stand for it, or that they are more than the cap. -/
def PatternError.Explains (options : DecomposeOptions) (pattern : String) : PatternError → Prop
  | malformed fault shown => shown = pattern ∧
      ∃ expansion, (parse ⟨expansion, !options.caseInsensitive⟩ pattern).root = .error fault
  | corruptTree => False
  | unindexable shown _ => shown = pattern
  | tooManyKeywords shown count cap => shown = pattern ∧ cap = options.cap ∧ cap < count

/-! ## Repeats -/

theorem key_ne_of_mem_withoutRepeats {caseInsensitive : Bool} {branches : List KeywordBranch}
    {seen : Std.TreeSet KeywordBranch} {branch : KeywordBranch}
    (h : branch ∈ withoutRepeats caseInsensitive seen branches) :
    seen.contains (branch.key caseInsensitive) = false := by
  induction branches generalizing seen with
  | nil => cases h
  | cons first branches ih =>
      rw [withoutRepeats] at h
      split at h
      case isTrue => exact ih h
      case isFalse hfirst =>
        rcases List.mem_cons.mp h with rfl | htail
        · exact Bool.eq_false_iff.mpr hfirst
        · have hinsert := ih htail
          rw [Std.TreeSet.contains_insert] at hinsert
          exact (Bool.or_eq_false_iff.mp hinsert).2

theorem pairwise_withoutRepeats (caseInsensitive : Bool) (seen : Std.TreeSet KeywordBranch)
    (branches : List KeywordBranch) :
    (withoutRepeats caseInsensitive seen branches).Pairwise fun first second =>
      first.key caseInsensitive ≠ second.key caseInsensitive := by
  induction branches generalizing seen with
  | nil => exact .nil
  | cons first branches ih =>
      rw [withoutRepeats]
      split
      · exact ih seen
      · refine .cons (fun second hsecond heq => ?_) (ih _)
        have hinsert := key_ne_of_mem_withoutRepeats hsecond
        rw [← heq, Std.TreeSet.contains_insert_self] at hinsert
        cases hinsert

/-! ## Branches of keywords -/

theorem length_le_of_collect {branches : List Branch} {found : List KeywordBranch}
    (h : collect options branches = some found) : found.length ≤ branches.length := by
  rw [collect] at h
  split at h
  · cases h
  · obtain rfl := Option.some.inj h
    exact (withoutRepeats_sublist _ _ _).length_le.trans (List.length_map _).le

theorem minLength_le_of_collect {branches : List Branch} {found : List KeywordBranch}
    (h : collect options branches = some found) :
    ∀ branch ∈ found, ∀ keyword ∈ branch, options.minLength ≤ keyword.length := by
  intro branch hbranch keyword hkeyword
  rw [collect] at h
  split at h
  · cases h
  · obtain rfl := Option.some.inj h
    obtain ⟨source, -, rfl⟩ := List.mem_map.mp (mem_of_mem_withoutRepeats hbranch)
    exact le_length_of_mem_keywords hkeyword

theorem pairwise_of_collect {branches : List Branch} {found : List KeywordBranch}
    (h : collect options branches = some found) :
    found.Pairwise fun first second =>
      first.key options.caseInsensitive ≠ second.key options.caseInsensitive := by
  rw [collect] at h
  split at h
  · cases h
  · obtain rfl := Option.some.inj h
    exact pairwise_withoutRepeats _ _ _

/-! ## The ladder -/

theorem DecomposeOptions.one_le_cap (options : DecomposeOptions) : 1 ≤ options.cap :=
  Nat.le_max_left _ _

theorem DecomposeOptions.cap_lt (hmax : options.maxBranches < maxCount) : options.cap < maxCount :=
  Nat.max_lt.mpr ⟨by decide, hmax⟩

/-- What is collected from few enough branches is well formed, if it is not empty. -/
theorem wellFormed_of_collect {branches : List Branch} {found : List KeywordBranch}
    {strategy : Strategy} (hstrategy : strategy ≠ .keywords)
    (h : collect options branches = some found) (hlength : branches.length ≤ options.cap)
    (hne : found ≠ []) : Decomposition.WellFormed options ⟨strategy, found⟩ where
  branches_ne_nil := hne
  length_le := (length_le_of_collect h).trans hlength
  branch_ne_nil := ne_nil_of_collect h
  minLength_le := minLength_le_of_collect h
  different := pairwise_of_collect h
  single heq := absurd heq hstrategy

theorem wellFormed_of_keywordDecomposition {found : Decomposition}
    (h : keywordDecomposition options pattern tree = .ok found) (hne : found.branches ≠ []) :
    found.WellFormed options := by
  have hsingle := eq_singleton_of_keywordDecomposition h
  have hbranches := ne_nil_of_keywordDecomposition h
  rw [keywordDecomposition] at h
  split at h
  case isFalse => cases h
  case isTrue =>
    dsimp only at h
    split at h
    case isTrue => cases h
    case isFalse hfits =>
      obtain rfl := Except.ok.inj h
      refine ⟨hne, Nat.not_lt.mp hfits, hbranches, ?_, pairwise_withoutRepeats _ _ _, ?_⟩
      · intro branch hbranch keyword hkeyword
        obtain ⟨only, hlength, rfl⟩ := hsingle branch hbranch
        exact List.mem_singleton.mp hkeyword ▸ hlength
      · intro _ branch hbranch
        obtain ⟨only, -, rfl⟩ := hsingle branch hbranch
        rfl

/-- A tree with a word has a branch that covers it, so the branches found are not none. -/
theorem branches_ne_nil_of_treeDecomposition (hroot : tree.root = some root)
    (hmarks : root.MarkedRight) {word : Bytes} (hword : word ∈ root.language Byte.toUpper)
    {found : Decomposition} (h : treeDecomposition options pattern tree = .ok found) :
    found.branches ≠ [] := by
  have hfold : IgnoresCase options.caseInsensitive Byte.toUpper := fun _ => Byte.toUpper_toLower
  obtain ⟨branch, hbranch, -⟩ := holds_of_treeDecomposition hfold hroot hmarks h hword
  exact List.ne_nil_of_mem hbranch

theorem wellFormed_of_treeDecomposition (hmax : options.maxBranches < maxCount)
    (hroot : tree.root = some root) {found : Decomposition}
    (h : treeDecomposition options pattern tree = .ok found) (hne : found.branches ≠ []) :
    found.WellFormed options := by
  have hcap : options.cap < maxCount := DecomposeOptions.cap_lt hmax
  rw [treeDecomposition] at h
  split at h
  case isTrue hfew =>
    split at h
    case h_1 branches hcollect =>
      obtain rfl := Except.ok.inj h
      -- A count below the largest one is the number of branches itself.
      have hlength : tree.branches.length ≤ options.cap := by
        rw [PatternTree.branchCount, hroot, Option.map_some, Option.getD_some,
          branchCount_eq] at hfew
        rw [PatternTree.branches, hroot, Option.map_some, Option.getD_some]
        omega
      exact wellFormed_of_collect (by decide) hcollect hlength hne
    case h_2 => cases h
  case isFalse =>
    split at h
    case h_1 branches hcollect =>
      obtain rfl := Except.ok.inj h
      have hlength : (tree.unfold true options.cap).length ≤ options.cap := by
        rw [PatternTree.unfold, hroot, Option.map_some, Option.getD_some]
        exact length_unfold_le options.one_le_cap hcap true root
      exact wellFormed_of_collect (by decide) hcollect hlength hne
    case h_2 => exact wellFormed_of_keywordDecomposition h hne

/-! ## Errors -/

theorem explains_of_keywordDecomposition {cause : PatternError}
    (h : keywordDecomposition options pattern tree = .error cause) :
    cause.Explains options pattern := by
  rw [keywordDecomposition] at h
  split at h
  case isFalse => exact Except.error.inj h ▸ rfl
  case isTrue =>
    dsimp only at h
    split at h
    case isFalse => cases h
    case isTrue hmany => exact Except.error.inj h ▸ ⟨rfl, rfl, hmany⟩

theorem explains_of_treeDecomposition {cause : PatternError}
    (h : treeDecomposition options pattern tree = .error cause) :
    cause.Explains options pattern := by
  rw [treeDecomposition] at h
  split at h
  · split at h
    · cases h
    · exact Except.error.inj h ▸ rfl
  · split at h
    · cases h
    · exact explains_of_keywordDecomposition h

/-- A tree that was read has a root, so simplifying it cannot fail. -/
theorem explains_of_simplifiedTree {expansion : Bool} {next : PatternTree} {cause : PatternError}
    (h : simplifiedTree options expansion pattern tree = (next, .error cause)) :
    cause.Explains options pattern := by
  cases hparse : (parse ⟨expansion, !options.caseInsensitive⟩ pattern).root with
  | error fault =>
      simp only [simplifiedTree, PatternTree.compile, PatternTree.setCaseSensitive, hparse,
        Prod.mk.injEq] at h
      exact Except.error.inj h.2 ▸ ⟨rfl, expansion, hparse⟩
  | ok root =>
      simp [simplifiedTree, PatternTree.compile, PatternTree.setCaseSensitive, hparse,
        PatternTree.merge] at h

theorem explains_of_chosenTree {next : PatternTree} {cause : PatternError}
    (h : chosenTree options pattern tree = (next, .error cause)) :
    cause.Explains options pattern := by
  rw [chosenTree] at h
  split at h
  case h_1 first found hfirst =>
    obtain ⟨-, hcause⟩ := Prod.mk.inj h
    exact Except.error.inj hcause ▸ explains_of_simplifiedTree hfirst
  case h_2 =>
    split at h
    · exact explains_of_simplifiedTree h
    · cases h

/-! ## Decomposers -/

theorem Decomposer.options_decompose (decomposer : Decomposer) (pattern : String) :
    (decomposer.decompose pattern).1.options = decomposer.options := by
  rw [decompose]
  split <;> rfl

/-- A decomposer that read other patterns before answers as a new one. -/
theorem Decomposer.decompose_eq_decomposition (decomposer : Decomposer) (pattern : String) :
    (decomposer.decompose pattern).2 = decomposition decomposer.options pattern := by
  have htree : ∀ tree, chosenTree decomposer.options pattern tree =
      chosenTree decomposer.options pattern .empty := fun _ => rfl
  rw [decomposition, decompose, decompose, htree]
  rfl

/-- Whatever a decomposer did before, it finds a well-formed decomposition of a pattern, or an
error that explains why there is none. -/
theorem Decomposer.decompose_wellFormed (decomposer : Decomposer) (pattern : String)
    (hmax : decomposer.options.maxBranches < 2 ^ 64 - 1) :
    match (decomposer.decompose pattern).2 with
    | .ok found => found.WellFormed decomposer.options
    | .error cause => cause.Explains decomposer.options pattern := by
  rw [decompose]
  cases hchosen : chosenTree decomposer.options pattern decomposer.tree with
  | mk tree chosen =>
      cases chosen with
      | error cause => exact explains_of_chosenTree hchosen
      | ok =>
          obtain ⟨expansion, parsed, hparse, hroot⟩ := reads_chosenTree hchosen
          obtain ⟨word, hword⟩ := (hereditary_exists_word Byte.toUpper).parse hparse
          have hmarks := markedRight_simplified (hereditary_unmarked.parse hparse)
          have hsimplified := language_le_simplified parsed hword
          dsimp only
          split
          case h_1 found hfound =>
            have hne := branches_ne_nil_of_treeDecomposition hroot hmarks hsimplified hfound
            exact wellFormed_of_treeDecomposition hmax hroot hfound hne
          case h_2 cause hcause => exact explains_of_treeDecomposition hcause

/-- A decomposer with a small cap that could not read its last pattern. -/
def Decomposer.afterFault : Decomposer := ((new ⟨3, true, 2, true⟩).decompose "(ab").1

theorem Decomposer.decompose_wellFormed_afterFault :
    afterFault.options.maxBranches < 2 ^ 64 - 1 ∧
    (afterFault.decompose "(ab|CD|AB|cd).|(EF|ef)").2 =
      .ok ⟨.keywords, [[utf8 "ab"], [utf8 "CD"], [utf8 "EF"]]⟩ ∧
    Decomposition.WellFormed afterFault.options
      ⟨.keywords, [[utf8 "ab"], [utf8 "CD"], [utf8 "EF"]]⟩ ∧
    (afterFault.decompose "(ab|CD|AB|ef).|gh").2 =
      .error (.tooManyKeywords "(ab|CD|AB|ef).|gh" 4 3) ∧
    PatternError.Explains afterFault.options "(ab|CD|AB|ef).|gh"
      (.tooManyKeywords "(ab|CD|AB|ef).|gh" 4 3) := by
  have hmax : afterFault.options.maxBranches < 2 ^ 64 - 1 := by decide +kernel
  have hfound : (afterFault.decompose "(ab|CD|AB|cd).|(EF|ef)").2 =
      .ok ⟨.keywords, [[utf8 "ab"], [utf8 "CD"], [utf8 "EF"]]⟩ := by decide +kernel
  have hmany : (afterFault.decompose "(ab|CD|AB|ef).|gh").2 =
      .error (.tooManyKeywords "(ab|CD|AB|ef).|gh" 4 3) := by decide +kernel
  have hwell := decompose_wellFormed afterFault "(ab|CD|AB|cd).|(EF|ef)" hmax
  have hexplains := decompose_wellFormed afterFault "(ab|CD|AB|ef).|gh" hmax
  rw [hfound] at hwell
  rw [hmany] at hexplains
  exact ⟨hmax, hfound, hwell, hmany, hexplains⟩

end LiteralSieve
