import LiteralSieve.Proofs.Coverage
import LiteralSieve.Proofs.Pattern.Coarsening
import LiteralSieve.Proofs.Pattern.Hollowness

namespace LiteralSieve

/-!
# Patterns without content

A merge tells whether every alternative of a pattern has content. Where one has none, no way down the
ladder leads to a decomposition: the alternative has no keyword among the branches, also if choices
stay folded or sets are read without their members, and no set of keywords covers it.
-/

open Node

/-- A node that is no literal takes no part in a keyword. -/
def Node.IsBare (node : Node) : Prop := node.isLiteral = false

theorem Node.isBare_of_isGap {node : Node} (h : node.isGap = true) : node.IsBare := by
  cases node with
  | gap source => rfl
  | _ => cases h

/-! ## Unfoldings -/

namespace Unfolding

variable {p : Node → Prop} {parts : List Unfolding}

theorem someBranch_branchesOfAll :
    SomeBranch p (branchesOfAll parts) ↔ ∀ part ∈ parts, SomeBranch p part.branches := by
  induction parts with
  | nil => simp [branchesOfAll, SomeBranch]
  | cons part parts ih => rw [branchesOfAll, someBranch_combine, ih, List.forall_mem_cons]

theorem someBranch_branchesOfAny :
    SomeBranch p (branchesOfAny parts) ↔ ∃ part ∈ parts, SomeBranch p part.branches := by
  induction parts with
  | nil => simp [branchesOfAny, SomeBranch]
  | cons part parts ih =>
      rw [branchesOfAny, someBranch_append, ih]
      simp

theorem someBranch_single {node : Node} : SomeBranch p (single node).branches ↔ p node := by
  simp [branches, SomeBranch]

end Unfolding

namespace Node

variable {node : Node} {nodes : List Node} {part : Unfolding} {cap : Nat} {deep : Bool}

theorem foldedAll_eq_map (nodes : List Node) : foldedAll nodes = nodes.map folded := by
  induction nodes with
  | nil => rw [foldedAll, List.map_nil]
  | cons node nodes ih => rw [foldedAll, ih, List.map_cons]

/-- Every part of an unfolded sequence is an unfolding of a child. -/
theorem exists_of_mem_unfoldAll {whole : Nat → Nat} {before : Nat}
    (h : part ∈ unfoldAll cap whole before nodes) :
    ∃ node ∈ nodes, ∃ whole', part = node.unfoldIn true cap whole' := by
  induction nodes generalizing before with
  | nil =>
      rw [unfoldAll] at h
      cases h
  | cons node nodes ih =>
      rw [unfoldAll] at h
      rcases List.mem_cons.mp h with rfl | hlater
      · exact ⟨node, List.mem_cons_self, _, rfl⟩
      · obtain ⟨other, hother, hpart⟩ := ih hlater
        exact ⟨other, List.mem_cons_of_mem _ hother, hpart⟩

/-- Every child of an unfolded choice has a part there. -/
theorem exists_mem_unfoldAny (h : node ∈ nodes) (whole : Nat → Nat) (before : Nat) :
    ∃ whole', node.unfoldIn deep cap whole' ∈ unfoldAny deep cap whole before nodes := by
  induction nodes generalizing before with
  | nil => cases h
  | cons first nodes ih =>
      rw [unfoldAny]
      rcases List.mem_cons.mp h with rfl | hlater
      · exact ⟨_, List.mem_cons_self⟩
      · obtain ⟨whole', hpart⟩ := ih hlater (before + (first.unfoldIn deep cap _).count)
        exact ⟨whole', List.mem_cons_of_mem _ hpart⟩

theorem someBranch_folded (h : SomeBranch (fun leaf => leaf.isGap = true) node.branches) :
    SomeBranch IsBare node.folded.branches := by
  induction node using children_induction with
  | literal bytes source =>
      rw [folded, Unfolding.branches]
      exact h.imp isBare_of_isGap
  | gap source =>
      rw [folded, Unfolding.branches]
      exact h.imp isBare_of_isGap
  | sequence children hollow source ih =>
      rw [folded, Unfolding.branches, Unfolding.someBranch_branchesOfAll, foldedAll_eq_map]
      exact List.forall_mem_map.mpr fun child hchild =>
        ih child hchild (someBranch_sequence.mp h child hchild)
  | choice children disabled source ih =>
      rw [folded]
      exact Unfolding.someBranch_single.mpr rfl

/-- Whichever choices stay folded, a branch without content leaves one without literals. -/
theorem someBranch_unfoldIn (h : SomeBranch (fun leaf => leaf.isGap = true) node.branches)
    (deep : Bool) (whole : Nat → Nat) : SomeBranch IsBare (node.unfoldIn deep cap whole).branches := by
  induction node using children_induction generalizing deep whole with
  | literal bytes source =>
      rw [unfoldIn, Unfolding.branches]
      exact h.imp isBare_of_isGap
  | gap source =>
      rw [unfoldIn, Unfolding.branches]
      exact h.imp isBare_of_isGap
  | sequence children hollow source ih =>
      have hchildren := someBranch_sequence.mp h
      rw [unfoldIn, Unfolding.branches, Unfolding.someBranch_branchesOfAll]
      split
      · intro part hpart
        obtain ⟨child, hchild, whole', rfl⟩ := exists_of_mem_unfoldAll hpart
        exact ih child hchild (hchildren child hchild) true whole'
      · rw [foldedAll_eq_map]
        exact List.forall_mem_map.mpr fun child hchild => someBranch_folded (hchildren child hchild)
  | choice children disabled source ih =>
      obtain ⟨child, hchild, hbranch⟩ := someBranch_choice.mp h
      rw [unfoldIn]
      split
      · exact Unfolding.someBranch_single.mpr rfl
      · rw [Unfolding.branches, Unfolding.someBranch_branchesOfAny]
        obtain ⟨whole', hpart⟩ := exists_mem_unfoldAny hchild whole 0
        exact ⟨_, hpart, ih child hchild hbranch deep whole'⟩

end Node

/-! ## The ladder -/

variable {options : DecomposeOptions} {pattern : String} {tree : PatternTree} {root : Node}

theorem keywordsFrom_bare {minLength : Nat} {run : Bytes} {leaf : Node} {rest : Branch}
    (h : leaf.IsBare) : keywordsFrom minLength run (leaf :: rest) =
      finishedRun minLength run ++ keywordsFrom minLength [] rest := by
  cases leaf with
  | literal bytes source => cases h
  | gap source => rfl
  | sequence children hollow source => rfl
  | choice children disabled source => rfl

theorem keywords_eq_nil {minLength : Nat} (hmin : 0 < minLength) {branch : Branch}
    (h : ∀ leaf ∈ branch, leaf.IsBare) : branch.keywords minLength = [] := by
  have hrun : finishedRun minLength [] = [] := if_neg (Nat.not_le.mpr hmin)
  rw [Branch.keywords]
  induction branch with
  | nil => rw [keywordsFrom, hrun]
  | cons leaf branch ih =>
      obtain ⟨hleaf, hlater⟩ := List.forall_mem_cons.mp h
      rw [keywordsFrom_bare hleaf, hrun, ih hlater]
      rfl

theorem collect_eq_none {branches : List Branch} (h : SomeBranch IsBare branches) :
    collect options branches = none := by
  obtain ⟨branch, hbranch, hbare⟩ := h
  have hnil : [] ∈ branches.map (Branch.keywords options.minLength) :=
    List.mem_map.mpr ⟨branch, hbranch, keywords_eq_nil (minLength_pos options) hbare⟩
  rw [collect]
  exact if_pos (List.any_eq_true.mpr ⟨[], hnil, rfl⟩)

/-- No rung of the ladder holds a tree without content. -/
theorem treeDecomposition_of_isHollow (hroot : tree.root = some root) (hsettled : Every Settled root)
    (hhollow : root.isHollow = true) :
    ∃ shortage, treeDecomposition options pattern tree = .error (.unindexable pattern shortage) := by
  have hbranch := (isHollow_iff hsettled).mp hhollow
  rw [treeDecomposition]
  split
  · have hnone : collect options tree.branches = none := by
      rw [PatternTree.branches, hroot]
      exact collect_eq_none (hbranch.imp isBare_of_isGap)
    rw [hnone]
    exact ⟨_, rfl⟩
  · have hnone : collect options (tree.unfold true options.cap) = none := by
      rw [PatternTree.unfold, hroot]
      exact collect_eq_none (someBranch_unfoldIn hbranch true id)
    have hcovers : tree.covers options.minLength ≠ true := by
      rw [PatternTree.covers, hroot]
      intro hcovers
      exact Bool.false_ne_true ((isHollow_of_covers hcovers).symm.trans hhollow)
    rw [hnone]
    dsimp only
    rw [keywordDecomposition, if_neg hcovers]
    exact ⟨_, rfl⟩

theorem isHollow_simplified (node : Node) :
    node.adjust.mark.mergeLiterals.isHollow = node.isHollow := by
  rw [isHollow_mergeLiterals, isHollow_mark, isHollow_adjust]

/-- A pattern that can be read has a simplified tree. -/
theorem simplifiedTree_of_parse (tree : PatternTree) {expansion : Bool}
    (h : (parse ⟨expansion, !options.caseInsensitive⟩ pattern).root = .ok root) :
    ∃ next, simplifiedTree options expansion pattern tree = (next, .ok ()) ∧
      next.root = some root.adjust.mark.mergeLiterals := by
  simp [simplifiedTree, PatternTree.compile, PatternTree.setCaseSensitive, PatternTree.merge, h]

/-- Whichever tree is chosen for a pattern without content, it has none. -/
theorem chosenTree_of_isHollow (tree : PatternTree)
    (h : (parse ⟨options.expansion, !options.caseInsensitive⟩ pattern).root = .ok root)
    (hhollow : root.isHollow = true) :
    ∃ chosen node, chosenTree options pattern tree = (chosen, .ok ()) ∧
      chosen.root = some node ∧ Every Settled node ∧ node.isHollow = true := by
  have hsettled : ∀ {reading : Reading} {node : Node}, (parse reading pattern).root = .ok node →
      Every Settled node.adjust.mark.mergeLiterals :=
    fun hnode => (every_normal_simplified (hereditary_unmarked.parse hnode)).settled
  obtain ⟨first, hfirst, hroot⟩ := simplifiedTree_of_parse tree h
  rw [chosenTree, hfirst]
  dsimp only
  split
  · -- The sets are read again without their members.
    obtain ⟨coarse, hcoarse, hless⟩ := exists_coarse_root h
    obtain ⟨second, hsecond, hroot'⟩ := simplifiedTree_of_parse tree hcoarse
    exact ⟨second, _, hsecond, hroot', hsettled hcoarse,
      (isHollow_simplified coarse).trans (hless hhollow)⟩
  · exact ⟨first, _, rfl, hroot, hsettled h, (isHollow_simplified root).trans hhollow⟩

namespace PatternTree

/-- A merge finds an alternative without content if and only if there is a branch of gaps, and then
the pattern cannot be decomposed, however short keywords may be and however many branches there may
be. -/
theorem merge_decides_content (old : PatternTree) {expansion : Bool} {compiled : PatternTree}
    (h : old.compile pattern expansion = (compiled, .ok ())) :
    ∃ merged found, compiled.merge = .ok (merged, found) ∧
      (found = false ↔ ∃ branch ∈ merged.branches, ∀ leaf ∈ branch, leaf.isGap = true) ∧
      (found = false → ∀ decomposer : Decomposer, decomposer.options.expansion = expansion →
        decomposer.options.caseInsensitive = (!old.caseSensitive) →
        ∃ shortage, (decomposer.decompose pattern).2 = .error (.unindexable pattern shortage)) := by
  obtain ⟨root, hroot, -, hparse⟩ := root_of_compile h
  have hmerge : compiled.merge = .ok ({ compiled with
      made := compiled.made + root.adjust.mark.mergeCost
      root := some root.adjust.mark.mergeLiterals }, !root.adjust.mark.isHollow) := by
    rw [merge, hroot]
  have hsettled : Every Settled root.adjust.mark.mergeLiterals :=
    (every_normal_simplified (hereditary_unmarked.parse hparse)).settled
  refine ⟨_, _, hmerge, ?_, fun hfound decomposer hexpansion hcase => ?_⟩
  · rw [Bool.not_eq_false', ← isHollow_mergeLiterals, isHollow_iff hsettled]
    rfl
  · have hhollow : root.isHollow = true := by
      rwa [Bool.not_eq_false', isHollow_mark, isHollow_adjust] at hfound
    have hreading : (parse ⟨decomposer.options.expansion, !decomposer.options.caseInsensitive⟩
        pattern).root = .ok root := by
      rw [hexpansion, hcase, Bool.not_not]
      exact hparse
    obtain ⟨chosen, node, hchosen, hnode, hset, hnone⟩ :=
      chosenTree_of_isHollow decomposer.tree hreading hhollow
    rw [Decomposer.decompose, hchosen]
    exact treeDecomposition_of_isHollow hnode hset hnone

/-- The second alternative is a gap. With one branch allowed, the sets are read again without their
members, a choice stays folded, and a cover is asked for in the end. -/
theorem merge_decides_content_sets :
    let pattern := "(?:[a-c][d-f]|.)"
    ∃ compiled merged shortage, empty.compile pattern true = (compiled, .ok ()) ∧
      compiled.merge = .ok (merged, false) ∧
      (∃ branch ∈ merged.branches, ∀ leaf ∈ branch, leaf.isGap = true) ∧
      ((Decomposer.new ⟨1, true, 1, true⟩).decompose pattern).2 =
        .error (.unindexable pattern shortage) := by
  intro pattern
  let compiled := (empty.compile pattern true).1
  have hcompiled : empty.compile pattern true = (compiled, .ok ()) :=
    Prod.ext rfl (by decide +kernel)
  obtain ⟨merged, found, hmerge, hbranch, hnone⟩ := merge_decides_content empty hcompiled
  have hfound : found = false := by
    have hresult : compiled.merge.toOption.all (fun result => !result.2) = true := by decide +kernel
    rw [hmerge] at hresult
    simpa [Except.toOption] using hresult
  subst hfound
  obtain ⟨shortage, hshortage⟩ := hnone rfl (Decomposer.new ⟨1, true, 1, true⟩) rfl rfl
  exact ⟨compiled, merged, shortage, hcompiled, hmerge, hbranch.mp rfl, hshortage⟩

end PatternTree

end LiteralSieve
