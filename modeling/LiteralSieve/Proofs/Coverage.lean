import LiteralSieve.Proofs.Keywords
import LiteralSieve.Proofs.Pattern.Scattered

namespace LiteralSieve

/-!
# Decompositions cover the tree

Whichever way a decomposition is found, every word of the tree that was read holds the keywords of
one of its branches. Branches that are left out equal one that is kept, up to the case that does not
count.
-/

open Node

variable {fold : UInt8 → UInt8}

/-- A branch of keywords that are not empty and that the word holds one after another. -/
def Holds (fold : UInt8 → UInt8) (branches : List KeywordBranch) (word : Bytes) : Prop :=
  ∃ branch ∈ branches, (∀ keyword ∈ branch, keyword ≠ []) ∧ word ∈ scattered fold branch

theorem scattered_congr {xs ys : KeywordBranch}
    (h : xs.map (·.map fold) = ys.map (·.map fold)) : scattered fold xs = scattered fold ys := by
  induction xs generalizing ys with
  | nil =>
      obtain rfl := List.map_eq_nil_iff.mp h.symm
      rfl
  | cons x xs ih =>
      cases ys with
      | nil => cases h
      | cons y ys =>
          obtain ⟨hhead, htail⟩ := List.cons.inj h
          have hspellings : spellings fold x = spellings fold y := by
            ext word
            rw [mem_spellings, mem_spellings, show x.map fold = y.map fold from hhead]
          rw [scattered, scattered, hspellings, ih htail]

theorem map_fold_eq_of_key_eq {caseInsensitive : Bool} (hfold : IgnoresCase caseInsensitive fold)
    {xs ys : KeywordBranch} (h : xs.key caseInsensitive = ys.key caseInsensitive) :
    xs.map (·.map fold) = ys.map (·.map fold) := by
  rw [KeywordBranch.key, KeywordBranch.key] at h
  split at h
  case isFalse => rw [h]
  case isTrue hcase =>
    have hlower : ∀ zs : KeywordBranch,
        zs.map (·.map fold) = (zs.map (·.map Byte.toLower)).map (·.map fold) := by
      intro zs
      simp [Function.comp_def, hfold hcase]
    rw [hlower xs, hlower ys, h]

theorem exists_mem_withoutRepeats {caseInsensitive : Bool} {branches : List KeywordBranch}
    {seen : Std.TreeSet KeywordBranch} {branch : KeywordBranch} (h : branch ∈ branches)
    (hseen : seen.contains (branch.key caseInsensitive) = false) :
    ∃ kept ∈ withoutRepeats caseInsensitive seen branches,
      kept.key caseInsensitive = branch.key caseInsensitive := by
  induction branches generalizing seen with
  | nil => cases h
  | cons first branches ih =>
      rw [withoutRepeats]
      by_cases hkey : first.key caseInsensitive = branch.key caseInsensitive
      · rw [hkey, hseen]
        exact ⟨first, List.mem_cons_self, hkey⟩
      · -- The first branch has another key, so `branch` is still not among the seen ones.
        have htail : branch ∈ branches := by
          rcases List.mem_cons.mp h with rfl | htail
          · exact absurd rfl hkey
          · exact htail
        split
        · exact ih htail hseen
        · have hinsert : (seen.insert (first.key caseInsensitive)).contains
              (branch.key caseInsensitive) = false := by
            rw [Std.TreeSet.contains_insert, hseen, Bool.or_false, beq_eq_false_iff_ne]
            exact fun heq => hkey (Std.LawfulEqCmp.eq_of_compare heq)
          obtain ⟨kept, hkept, heq⟩ := ih htail hinsert
          exact ⟨kept, List.mem_cons_of_mem _ hkept, heq⟩

/-- Leaving out repeats changes nothing about what words hold. -/
theorem Holds.withoutRepeats {caseInsensitive : Bool} (hfold : IgnoresCase caseInsensitive fold)
    {branches : List KeywordBranch} {word : Bytes} (h : Holds fold branches word) :
    Holds fold (withoutRepeats caseInsensitive ∅ branches) word := by
  obtain ⟨branch, hbranch, hne, hword⟩ := h
  have hseen : (∅ : Std.TreeSet KeywordBranch).contains (branch.key caseInsensitive) = false :=
    Std.TreeSet.contains_emptyc
  obtain ⟨kept, hkept, hkey⟩ := exists_mem_withoutRepeats hbranch hseen
  have hmap := map_fold_eq_of_key_eq hfold hkey
  refine ⟨kept, hkept, ?_, scattered_congr hmap ▸ hword⟩
  rintro keyword hkeyword rfl
  have hnil : ([] : Bytes) ∈ branch.map (·.map fold) :=
    hmap ▸ List.mem_map.mpr ⟨[], hkeyword, rfl⟩
  obtain ⟨other, hother, heq⟩ := List.mem_map.mp hnil
  exact hne other hother (List.map_eq_nil_iff.mp heq)

/-! ## The ladder -/

variable {options : DecomposeOptions} {pattern : String} {tree : PatternTree} {root : Node}
  {word : Bytes}

theorem minLength_pos (options : DecomposeOptions) : 0 < options.minLength :=
  Nat.lt_of_lt_of_le Nat.zero_lt_one (Nat.le_max_left _ _)

theorem ne_nil_of_minLength_le {keyword : Bytes} (h : options.minLength ≤ keyword.length) :
    keyword ≠ [] :=
  List.length_pos_iff.mp (Nat.lt_of_lt_of_le (minLength_pos options) h)

/-- A word of one of the branches holds the keywords that are collected from it. -/
theorem holds_of_collect (hfold : IgnoresCase options.caseInsensitive fold)
    {branches : List Branch} {found : List KeywordBranch}
    (h : collect options branches = some found) (hword : word ∈ languageOfBranches fold branches) :
    Holds fold found word := by
  rw [collect] at h
  split at h
  case isTrue => cases h
  case isFalse =>
    obtain rfl := Option.some.inj h
    obtain ⟨branch, hbranch, hin⟩ := hword
    refine Holds.withoutRepeats hfold ⟨_, List.mem_map_of_mem hbranch, ?_, ?_⟩
    · intro keyword hkeyword
      exact ne_nil_of_minLength_le (le_length_of_mem_keywords hkeyword)
    · exact languageOfAll_le_keywords options.minLength branch hin

theorem holds_of_keywordDecomposition (hfold : IgnoresCase options.caseInsensitive fold)
    (hroot : tree.root = some root) (hmarks : root.MarkedRight) {found : Decomposition}
    (h : keywordDecomposition options pattern tree = .ok found)
    (hword : word ∈ root.language fold) : Holds fold found.branches word := by
  rw [keywordDecomposition] at h
  split at h
  case isFalse => cases h
  case isTrue hcovers =>
    dsimp only at h
    split at h
    · cases h
    · obtain rfl := Except.ok.inj h
      rw [PatternTree.covers, hroot, Option.any_some] at hcovers
      obtain ⟨keyword, hmem, hlength, hin⟩ :=
        language_le_holdsOneOf (minLength_pos options) hmarks hcovers hword
      refine Holds.withoutRepeats hfold ⟨[keyword], ?_, ?_, hin⟩
      · refine List.mem_map.mpr ⟨keyword, List.mem_filter.mpr ⟨?_, decide_eq_true hlength⟩, rfl⟩
        rw [PatternTree.literals, hroot]
        exact hmem
      · intro other hother
        rw [List.mem_singleton.mp hother]
        exact ne_nil_of_minLength_le hlength

/-- On every rung of the ladder, a word of the tree holds the keywords of a branch. -/
theorem holds_of_treeDecomposition (hfold : IgnoresCase options.caseInsensitive fold)
    (hroot : tree.root = some root) (hmarks : root.MarkedRight) {found : Decomposition}
    (h : treeDecomposition options pattern tree = .ok found)
    (hword : word ∈ root.language fold) : Holds fold found.branches word := by
  rw [treeDecomposition] at h
  split at h
  · -- All branches are few enough.
    split at h
    case h_1 hcollect =>
      obtain rfl := Except.ok.inj h
      refine holds_of_collect hfold hcollect ?_
      rw [PatternTree.branches, hroot, Option.map_some, Option.getD_some,
        languageOfBranches_branches]
      exact hword
    case h_2 => cases h
  · -- Some choices stay folded; where a branch has no keyword then, single keywords are left.
    split at h
    case h_1 hcollect =>
      obtain rfl := Except.ok.inj h
      refine holds_of_collect hfold hcollect ?_
      rw [PatternTree.unfold, hroot, Option.map_some, Option.getD_some, languageOfBranches_unfold]
      exact hword
    case h_2 => exact holds_of_keywordDecomposition hfold hroot hmarks h hword

/-! ## The tree that is chosen -/

/-- The tree is a reading of the pattern, simplified. -/
def Reads (options : DecomposeOptions) (pattern : String) (tree : PatternTree) : Prop :=
  ∃ expansion root, (parse ⟨expansion, !options.caseInsensitive⟩ pattern).root = .ok root ∧
    tree.root = some root.adjust.mark.mergeLiterals

theorem reads_simplifiedTree {expansion : Bool} {next : PatternTree}
    (h : simplifiedTree options expansion pattern tree = (next, .ok ())) :
    Reads options pattern next := by
  cases hparse : (parse ⟨expansion, !options.caseInsensitive⟩ pattern).root with
  | error fault => simp [simplifiedTree, PatternTree.compile, PatternTree.setCaseSensitive, hparse] at h
  | ok root =>
      simp only [simplifiedTree, PatternTree.compile, PatternTree.setCaseSensitive, hparse,
        PatternTree.merge, Prod.mk.injEq, and_true] at h
      exact ⟨expansion, root, hparse, h ▸ rfl⟩

theorem reads_chosenTree {next : PatternTree}
    (h : chosenTree options pattern tree = (next, .ok ())) : Reads options pattern next := by
  rw [chosenTree] at h
  split at h
  case h_1 => cases h
  case h_2 first hfirst =>
    split at h
    · exact reads_simplifiedTree h
    · obtain ⟨rfl, -⟩ := Prod.mk.inj h
      exact reads_simplifiedTree hfirst

/-- A word of every reading of the pattern holds the keywords of a branch of its decomposition. -/
theorem holds_of_decomposition (hfold : IgnoresCase options.caseInsensitive fold)
    {found : Decomposition} (h : decomposition options pattern = .ok found)
    (hword : ∀ expansion root, (parse ⟨expansion, !options.caseInsensitive⟩ pattern).root = .ok root →
      root.Unmarked ∧ word ∈ root.language fold) : Holds fold found.branches word := by
  rw [decomposition, Decomposer.decompose] at h
  split at h
  case h_1 => cases h
  case h_2 tree hchosen =>
    obtain ⟨expansion, root, hparse, hroot⟩ := reads_chosenTree hchosen
    obtain ⟨hunmarked, hin⟩ := hword expansion root hparse
    exact holds_of_treeDecomposition hfold hroot (markedRight_simplified hunmarked) h
      (language_le_simplified root hin)

end LiteralSieve
