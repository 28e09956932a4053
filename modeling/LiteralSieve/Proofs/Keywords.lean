import LiteralSieve.Decomposition

namespace LiteralSieve

/-!
# Keyword branches

A decomposition has no branch without keywords.
-/

theorem withoutRepeats_sublist (caseInsensitive : Bool) (seen : Std.TreeSet KeywordBranch)
    (branches : List KeywordBranch) :
    (withoutRepeats caseInsensitive seen branches).Sublist branches := by
  induction branches generalizing seen with
  | nil => exact .slnil
  | cons first branches ih =>
      rw [withoutRepeats]
      split
      · exact (ih seen).cons first
      · exact (ih _).cons_cons first

theorem mem_of_mem_withoutRepeats {caseInsensitive : Bool} {branches : List KeywordBranch}
    {seen : Std.TreeSet KeywordBranch} {branch : KeywordBranch}
    (h : branch ∈ withoutRepeats caseInsensitive seen branches) : branch ∈ branches :=
  (withoutRepeats_sublist caseInsensitive seen branches).subset h

theorem ne_nil_of_collect {options : DecomposeOptions} {branches : List Branch}
    {found : List KeywordBranch} (h : collect options branches = some found) :
    ∀ branch ∈ found, branch ≠ [] := by
  intro branch hbranch
  rw [collect] at h
  split at h
  case isTrue => cases h
  case isFalse hany =>
    obtain rfl := Option.some.inj h
    have hmem := mem_of_mem_withoutRepeats hbranch
    rintro rfl
    exact hany (List.any_eq_true.mpr ⟨[], hmem, rfl⟩)

/-- A branch of single keywords is one literal that is long enough. -/
theorem eq_singleton_of_keywordDecomposition {options : DecomposeOptions} {pattern : String}
    {tree : PatternTree} {found : Decomposition}
    (h : keywordDecomposition options pattern tree = .ok found) :
    ∀ branch ∈ found.branches,
      ∃ keyword : Bytes, options.minLength ≤ keyword.length ∧ branch = [keyword] := by
  intro branch hbranch
  rw [keywordDecomposition] at h
  split at h
  case isFalse => cases h
  case isTrue =>
    dsimp only at h
    split at h
    · cases h
    · obtain rfl := Except.ok.inj h
      obtain ⟨keyword, hkeyword, rfl⟩ := List.mem_map.mp (mem_of_mem_withoutRepeats hbranch)
      exact ⟨keyword, of_decide_eq_true (List.mem_filter.mp hkeyword).2, rfl⟩

theorem ne_nil_of_keywordDecomposition {options : DecomposeOptions} {pattern : String}
    {tree : PatternTree} {found : Decomposition}
    (h : keywordDecomposition options pattern tree = .ok found) :
    ∀ branch ∈ found.branches, branch ≠ [] := by
  intro branch hbranch
  obtain ⟨keyword, -, rfl⟩ := eq_singleton_of_keywordDecomposition h branch hbranch
  exact List.cons_ne_nil _ _

theorem ne_nil_of_treeDecomposition {options : DecomposeOptions} {pattern : String}
    {tree : PatternTree} {found : Decomposition}
    (h : treeDecomposition options pattern tree = .ok found) :
    ∀ branch ∈ found.branches, branch ≠ [] := by
  rw [treeDecomposition] at h
  split at h
  · split at h
    case h_1 hcollect =>
      obtain rfl := Except.ok.inj h
      exact ne_nil_of_collect hcollect
    case h_2 => cases h
  · split at h
    case h_1 hcollect =>
      obtain rfl := Except.ok.inj h
      exact ne_nil_of_collect hcollect
    case h_2 => exact ne_nil_of_keywordDecomposition h

/-- Every branch of a decomposition has a keyword. -/
theorem ne_nil_of_decomposition {options : DecomposeOptions} {pattern : String}
    {found : Decomposition} (h : decomposition options pattern = .ok found) :
    ∀ branch ∈ found.branches, branch ≠ [] := by
  rw [decomposition, Decomposer.decompose] at h
  split at h
  · cases h
  · exact ne_nil_of_treeDecomposition h

end LiteralSieve
