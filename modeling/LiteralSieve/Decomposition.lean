import LiteralSieve.Pattern.Tree
import Std.Data.TreeSet

namespace LiteralSieve

/-!
# Decomposition

A pattern is turned into branches of keywords, such that every text with a match holds all keywords
of some branch, in order. Three ways are tried, each coarser than the one before: all branches of
the pattern, first with and then without the members of its sets; the branches in which some choices
stay folded; and single keywords of which every branch has one.
-/

structure DecomposeOptions where
  maxBranches : Nat
  /-- Sets become choices of their members, if the branches are not too many. -/
  expansion : Bool
  minKeywordLength : Nat
  caseInsensitive : Bool
deriving DecidableEq, Inhabited

/-- How the branches were found. -/
inductive Strategy where
  | exact
  | folded
  | keywords
deriving DecidableEq, Inhabited

/-- Keywords in the order in which a text must hold them. -/
abbrev KeywordBranch := List Bytes

structure Decomposition where
  strategy : Strategy
  branches : List KeywordBranch
deriving DecidableEq, Inhabited

namespace DecomposeOptions

def standard : DecomposeOptions := ⟨100000, true, 2, true⟩

/-- At least one branch is allowed. -/
def cap (options : DecomposeOptions) : Nat := max 1 options.maxBranches

/-- A keyword has at least one byte. -/
def minLength (options : DecomposeOptions) : Nat := max 1 options.minKeywordLength

end DecomposeOptions

/-- The form of a branch that equal branches share: without case where letters have none. -/
def KeywordBranch.key (caseInsensitive : Bool) (branch : KeywordBranch) : KeywordBranch :=
  if caseInsensitive then branch.map (·.map Byte.toLower) else branch

/-- The branches without those that equal an earlier one; `seen` holds the forms of those before. -/
def withoutRepeats (caseInsensitive : Bool) (seen : Std.TreeSet KeywordBranch) :
    List KeywordBranch → List KeywordBranch
  | [] => []
  | branch :: branches =>
    let key := branch.key caseInsensitive
    if seen.contains key then withoutRepeats caseInsensitive seen branches
    else branch :: withoutRepeats caseInsensitive (seen.insert key) branches

/-- The different keyword branches of these branches; `none` if one of them has no keyword. -/
def collect (options : DecomposeOptions) (branches : List Branch) :
    Option (List KeywordBranch) :=
  let found := branches.map (Branch.keywords options.minLength)
  if found.any List.isEmpty then none
  else some (withoutRepeats options.caseInsensitive ∅ found)

/-- The tree of a pattern, simplified. -/
def simplifiedTree (options : DecomposeOptions) (expansion : Bool) (pattern : String)
    (tree : PatternTree) : PatternTree × Except PatternError Unit :=
  let (tree, compiled) :=
    (tree.setCaseSensitive !options.caseInsensitive).compile pattern expansion
  match compiled with
  | .error cause => (tree, .error cause)
  | .ok () =>
    match tree.merge with
    | .error cause => (tree, .error cause)
    | .ok (tree, _) => (tree, .ok ())

/-- The tree that the branches of a pattern are taken from: without the members of sets, if they
make too many branches. -/
def chosenTree (options : DecomposeOptions) (pattern : String) (tree : PatternTree) :
    PatternTree × Except PatternError Unit :=
  match simplifiedTree options options.expansion pattern tree with
  | (tree, .error cause) => (tree, .error cause)
  | (tree, .ok ()) =>
    if options.cap < tree.branchCount ∧ options.expansion then
      simplifiedTree options false pattern tree
    else (tree, .ok ())

/-- Keywords of which every branch of the tree has one. -/
def keywordDecomposition (options : DecomposeOptions) (pattern : String) (tree : PatternTree) :
    Except PatternError Decomposition :=
  if tree.covers options.minLength then
    let long := tree.literals.filter fun bytes => options.minLength ≤ bytes.length
    let branches := withoutRepeats options.caseInsensitive ∅ (long.map fun bytes => [bytes])
    if options.cap < branches.length then
      .error (.tooManyKeywords pattern branches.length options.cap)
    else .ok ⟨.keywords, branches⟩
  else .error (.unindexable pattern .uncovered)

def treeDecomposition (options : DecomposeOptions) (pattern : String) (tree : PatternTree) :
    Except PatternError Decomposition :=
  if tree.branchCount ≤ options.cap then
    match collect options tree.branches with
    | some branches => .ok ⟨.exact, branches⟩
    | none => .error (.unindexable pattern .bareAlternative)
  else
    match collect options (tree.unfold true options.cap) with
    | some branches => .ok ⟨.folded, branches⟩
    | none => keywordDecomposition options pattern tree

/-- Decomposes patterns with the same options and shows the tree of the last one. -/
structure Decomposer where
  options : DecomposeOptions
  tree : PatternTree
deriving Inhabited

namespace Decomposer

def new (options : DecomposeOptions) : Decomposer := ⟨options, .empty⟩

def clear (decomposer : Decomposer) : Decomposer :=
  { decomposer with tree := decomposer.tree.clear }

/-- The decomposition of a pattern, which does not depend on the patterns before. -/
def decompose (decomposer : Decomposer) (pattern : String) :
    Decomposer × Except PatternError Decomposition :=
  let options := decomposer.options
  match chosenTree options pattern decomposer.tree with
  | (tree, .error cause) => (⟨options, tree⟩, .error cause)
  | (tree, .ok ()) => (⟨options, tree⟩, treeDecomposition options pattern tree)

end Decomposer

def decomposition (options : DecomposeOptions) (pattern : String) :
    Except PatternError Decomposition :=
  ((Decomposer.new options).decompose pattern).2

def decompose (pattern : String) : Except PatternError (List KeywordBranch) :=
  (decomposition .standard pattern).map (·.branches)

end LiteralSieve
