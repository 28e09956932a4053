import LiteralSieve.Pattern.Branches
import LiteralSieve.Pattern.Unfolding
import LiteralSieve.Proofs.Pattern.Language

namespace LiteralSieve

/-!
# Languages of branches

The branches of a tree have the words of the tree between them, and so have those of an unfolding,
whichever choices stay folded.
-/

open Node

variable {fold : UInt8 → UInt8}

/-- The words that follow one of the branches. -/
def languageOfBranches (fold : UInt8 → UInt8) (branches : List Branch) : Language UInt8 :=
  {word | ∃ branch ∈ branches, word ∈ languageOfAll fold branch}

theorem mem_languageOfBranches {word : Bytes} {branches : List Branch} :
    word ∈ languageOfBranches fold branches ↔
      ∃ branch ∈ branches, word ∈ languageOfAll fold branch := Iff.rfl

@[simp] theorem languageOfBranches_nil : languageOfBranches fold [] = 0 := by
  ext word
  simp [mem_languageOfBranches]

@[simp] theorem languageOfBranches_singleton (branch : Branch) :
    languageOfBranches fold [branch] = languageOfAll fold branch := by
  ext word
  simp [mem_languageOfBranches]

theorem languageOfBranches_append (xs ys : List Branch) :
    languageOfBranches fold (xs ++ ys) =
      languageOfBranches fold xs + languageOfBranches fold ys := by
  ext word
  simp [mem_languageOfBranches, Language.mem_add, or_and_right, exists_or]

theorem mem_combine {branch : Branch} {heads tails : List Branch} :
    branch ∈ combine heads tails ↔ ∃ head ∈ heads, ∃ tail ∈ tails, head ++ tail = branch := by
  simp [combine]

theorem languageOfBranches_combine (heads tails : List Branch) :
    languageOfBranches fold (combine heads tails) =
      languageOfBranches fold heads * languageOfBranches fold tails := by
  ext word
  rw [Language.mem_mul]
  constructor
  · rintro ⟨branch, hbranch, hword⟩
    obtain ⟨head, hhead, tail, htail, rfl⟩ := mem_combine.mp hbranch
    rw [languageOfAll_append, Language.mem_mul] at hword
    obtain ⟨first, hfirst, last, hlast, rfl⟩ := hword
    exact ⟨first, ⟨head, hhead, hfirst⟩, last, ⟨tail, htail, hlast⟩, rfl⟩
  · rintro ⟨first, ⟨head, hhead, hfirst⟩, last, ⟨tail, htail, hlast⟩, rfl⟩
    refine ⟨head ++ tail, mem_combine.mpr ⟨head, hhead, tail, htail, rfl⟩, ?_⟩
    rw [languageOfAll_append]
    exact Language.append_mem_mul hfirst hlast

namespace Node

mutual

theorem languageOfBranches_branches (node : Node) :
    languageOfBranches fold node.branches = node.language fold := by
  cases node with
  | literal bytes source => simp [branches]
  | gap source => simp [branches]
  | sequence children hollow source =>
      rw [branches, language_sequence, languageOfBranches_branchesOfAll]
  | choice children disabled source =>
      rw [branches, language_choice, languageOfBranches_branchesOfAny]

theorem languageOfBranches_branchesOfAll (nodes : List Node) :
    languageOfBranches fold (branchesOfAll nodes) = languageOfAll fold nodes := by
  cases nodes with
  | nil => simp [branchesOfAll]
  | cons node nodes =>
      rw [branchesOfAll, languageOfBranches_combine, languageOfBranches_branches,
        languageOfBranches_branchesOfAll, languageOfAll_cons]

theorem languageOfBranches_branchesOfAny (nodes : List Node) :
    languageOfBranches fold (branchesOfAny nodes) = languageOfAny fold nodes := by
  cases nodes with
  | nil => simp [branchesOfAny]
  | cons node nodes =>
      rw [branchesOfAny, languageOfBranches_append, languageOfBranches_branches,
        languageOfBranches_branchesOfAny, languageOfAny_cons]

end

end Node

/-! ## Unfoldings -/

namespace Unfolding

mutual

/-- The words that an unfolding lets through. -/
def language (fold : UInt8 → UInt8) : Unfolding → Language UInt8
  | single node => node.language fold
  | sequence parts => languageOfAll fold parts
  | choice parts => languageOfAny fold parts

def languageOfAll (fold : UInt8 → UInt8) : List Unfolding → Language UInt8
  | [] => 1
  | part :: parts => part.language fold * languageOfAll fold parts

def languageOfAny (fold : UInt8 → UInt8) : List Unfolding → Language UInt8
  | [] => 0
  | part :: parts => part.language fold + languageOfAny fold parts

end

mutual

theorem languageOfBranches_branches (part : Unfolding) :
    languageOfBranches fold part.branches = part.language fold := by
  cases part with
  | single node => simp [branches, language]
  | sequence parts => rw [branches, language, languageOfBranches_branchesOfAll]
  | choice parts => rw [branches, language, languageOfBranches_branchesOfAny]

theorem languageOfBranches_branchesOfAll (parts : List Unfolding) :
    languageOfBranches fold (branchesOfAll parts) = languageOfAll fold parts := by
  cases parts with
  | nil => simp [branchesOfAll, languageOfAll]
  | cons part parts =>
      rw [branchesOfAll, languageOfBranches_combine, languageOfBranches_branches,
        languageOfBranches_branchesOfAll, languageOfAll]

theorem languageOfBranches_branchesOfAny (parts : List Unfolding) :
    languageOfBranches fold (branchesOfAny parts) = languageOfAny fold parts := by
  cases parts with
  | nil => simp [branchesOfAny, languageOfAny]
  | cons part parts =>
      rw [branchesOfAny, languageOfBranches_append, languageOfBranches_branches,
        languageOfBranches_branchesOfAny, languageOfAny]

end

end Unfolding

namespace Node

mutual

theorem language_folded (node : Node) : node.folded.language fold = node.language fold := by
  cases node with
  | literal bytes source => rw [folded, Unfolding.language]
  | gap source => rw [folded, Unfolding.language]
  | sequence children hollow source =>
      rw [folded, Unfolding.language, language_sequence, languageOfAll_foldedAll]
  | choice children disabled source => rw [folded, Unfolding.language]

theorem languageOfAll_foldedAll (nodes : List Node) :
    Unfolding.languageOfAll fold (foldedAll nodes) = languageOfAll fold nodes := by
  cases nodes with
  | nil => rw [foldedAll, Unfolding.languageOfAll, languageOfAll_nil]
  | cons node nodes =>
      rw [foldedAll, Unfolding.languageOfAll, language_folded, languageOfAll_foldedAll,
        languageOfAll_cons]

end

mutual

/-- Whatever the greedy unfolding decides, it has the words of the node. -/
theorem language_unfoldIn (deep : Bool) (cap : Nat) (whole : Nat → Nat) (node : Node) :
    (node.unfoldIn deep cap whole).language fold = node.language fold := by
  cases node with
  | literal bytes source => rw [unfoldIn, Unfolding.language]
  | gap source => rw [unfoldIn, Unfolding.language]
  | sequence children hollow source =>
      rw [unfoldIn, Unfolding.language, language_sequence]
      split
      · exact languageOfAll_unfoldAll cap whole 1 children
      · exact languageOfAll_foldedAll children
  | choice children disabled source =>
      rw [unfoldIn]
      split
      · rw [Unfolding.language]
      · rw [Unfolding.language, language_choice, languageOfAny_unfoldAny]

theorem languageOfAll_unfoldAll (cap : Nat) (whole : Nat → Nat) (before : Nat)
    (nodes : List Node) :
    Unfolding.languageOfAll fold (unfoldAll cap whole before nodes) =
      languageOfAll fold nodes := by
  cases nodes with
  | nil => rw [unfoldAll, Unfolding.languageOfAll, languageOfAll_nil]
  | cons node nodes =>
      rw [unfoldAll, Unfolding.languageOfAll, language_unfoldIn, languageOfAll_unfoldAll,
        languageOfAll_cons]

theorem languageOfAny_unfoldAny (deep : Bool) (cap : Nat) (whole : Nat → Nat) (before : Nat)
    (nodes : List Node) :
    Unfolding.languageOfAny fold (unfoldAny deep cap whole before nodes) =
      languageOfAny fold nodes := by
  cases nodes with
  | nil => rw [unfoldAny, Unfolding.languageOfAny, languageOfAny_nil]
  | cons node nodes =>
      rw [unfoldAny, Unfolding.languageOfAny, language_unfoldIn, languageOfAny_unfoldAny,
        languageOfAny_cons]

end

theorem languageOfBranches_unfold (deep : Bool) (cap : Nat) (root : Node) :
    languageOfBranches fold (root.unfold deep cap).branches = root.language fold := by
  rw [Unfolding.languageOfBranches_branches, unfold, language_unfoldIn]

end Node

end LiteralSieve
