import LiteralSieve.Proofs.Pattern.Branches
import LiteralSieve.Proofs.Pattern.Expansions
import LiteralSieve.Proofs.Pattern.Passes
import Mathlib.Order.Monotone.Basic

namespace LiteralSieve

/-!
# Greedy unfoldings

The greedy unfolding of a tree stays within its cap and cannot be gone further: it has branches, no
more than the cap, and whichever folded choice were unfolded besides, there would be too many. A
tree that has few enough branches is unfolded as a whole.
-/

/-! ## One choice more -/

namespace Unfolding

/-- `more` unfolds what `part` unfolds, and `node` besides, which is a choice that `part` leaves
folded. The choices inside it stay folded. -/
inductive OneMore (node : Node) : Unfolding → Unfolding → Prop
  | here {children : List Node} {disabled : Bool} {source : Extent}
      (h : node = .choice children disabled source) :
      OneMore node (.single node) (.choice (Node.foldedAll children))
  | sequence (front back : List Unfolding) {part more : Unfolding} (h : OneMore node part more) :
      OneMore node (.sequence (front ++ part :: back)) (.sequence (front ++ more :: back))
  | choice (front back : List Unfolding) {part more : Unfolding} (h : OneMore node part more) :
      OneMore node (.choice (front ++ part :: back)) (.choice (front ++ more :: back))

variable {node : Node}

mutual

/-- A choice in an entry was left folded somewhere. -/
theorem exists_oneMore {part : Unfolding} {entry : Branch} (hentry : entry ∈ part.branches)
    (hnode : node ∈ entry) {children : List Node} {disabled : Bool} {source : Extent}
    (hchoice : node = .choice children disabled source) : ∃ more, OneMore node part more := by
  cases part with
  | single other =>
      rw [branches, List.mem_singleton] at hentry
      subst hentry
      obtain rfl := List.mem_singleton.mp hnode
      exact ⟨_, .here hchoice⟩
  | sequence parts =>
      rw [branches] at hentry
      obtain ⟨front, part, back, rfl, more, hmore⟩ :=
        exists_oneMore_of_all hentry hnode hchoice
      exact ⟨_, .sequence front back hmore⟩
  | choice parts =>
      rw [branches] at hentry
      obtain ⟨front, part, back, rfl, more, hmore⟩ :=
        exists_oneMore_of_any hentry hnode hchoice
      exact ⟨_, .choice front back hmore⟩

theorem exists_oneMore_of_all {parts : List Unfolding} {entry : Branch}
    (hentry : entry ∈ branchesOfAll parts) (hnode : node ∈ entry) {children : List Node}
    {disabled : Bool} {source : Extent} (hchoice : node = .choice children disabled source) :
    ∃ front part back, parts = front ++ part :: back ∧ ∃ more, OneMore node part more := by
  cases parts with
  | nil =>
      rw [branchesOfAll, List.mem_singleton] at hentry
      subst hentry
      cases hnode
  | cons part parts =>
      rw [branchesOfAll] at hentry
      obtain ⟨head, hhead, tail, htail, rfl⟩ := mem_combine.mp hentry
      rcases List.mem_append.mp hnode with hfirst | hlater
      · exact ⟨[], part, parts, rfl, exists_oneMore hhead hfirst hchoice⟩
      · obtain ⟨front, found, back, rfl, hmore⟩ := exists_oneMore_of_all htail hlater hchoice
        exact ⟨part :: front, found, back, rfl, hmore⟩

theorem exists_oneMore_of_any {parts : List Unfolding} {entry : Branch}
    (hentry : entry ∈ branchesOfAny parts) (hnode : node ∈ entry) {children : List Node}
    {disabled : Bool} {source : Extent} (hchoice : node = .choice children disabled source) :
    ∃ front part back, parts = front ++ part :: back ∧ ∃ more, OneMore node part more := by
  cases parts with
  | nil => cases hentry
  | cons part parts =>
      rw [branchesOfAny] at hentry
      rcases List.mem_append.mp hentry with hfirst | hlater
      · exact ⟨[], part, parts, rfl, exists_oneMore hfirst hnode hchoice⟩
      · obtain ⟨front, found, back, rfl, hmore⟩ := exists_oneMore_of_any hlater hnode hchoice
        exact ⟨part :: front, found, back, rfl, hmore⟩

end

end Unfolding

namespace Node

theorem countSum_foldedAll (nodes : List Node) :
    Unfolding.countSum (foldedAll nodes) = nodes.length := by
  induction nodes with
  | nil => rw [foldedAll, Unfolding.countSum, List.length_nil]
  | cons node nodes ih =>
      rw [foldedAll, Unfolding.countSum, count_folded, ih, List.length_cons, Nat.add_comm]

/-! ## Unfolding takes no branches away -/

mutual

theorem count_unfoldIn_pos (deep : Bool) (cap : Nat) (whole : Nat → Nat) {node : Node}
    (h : node.Proper) : 0 < (node.unfoldIn deep cap whole).count := by
  cases node with
  | literal bytes source => exact Nat.one_pos
  | gap source => exact Nat.one_pos
  | sequence children hollow source =>
      rw [unfoldIn, Unfolding.count]
      split
      · exact countProduct_unfoldAll_pos cap whole 1 h
      · rw [countProduct_foldedAll]
        exact Nat.one_pos
  | choice children disabled source =>
      rw [unfoldIn]
      split
      · exact Nat.one_pos
      · rw [Unfolding.count]
        exact (List.length_pos_of_ne_nil h.1).trans_le
          (length_le_countSum_unfoldAny deep cap whole 0 h.2)

theorem countProduct_unfoldAll_pos (cap : Nat) (whole : Nat → Nat) (before : Nat)
    {nodes : List Node} (h : AllProper nodes) :
    0 < Unfolding.countProduct (unfoldAll cap whole before nodes) := by
  cases nodes with
  | nil => exact Nat.one_pos
  | cons node nodes =>
      rw [unfoldAll, Unfolding.countProduct]
      exact Nat.mul_pos (count_unfoldIn_pos true cap _ h.1)
        (countProduct_unfoldAll_pos cap whole _ h.2)

theorem length_le_countSum_unfoldAny (deep : Bool) (cap : Nat) (whole : Nat → Nat)
    (before : Nat) {nodes : List Node} (h : AllProper nodes) :
    nodes.length ≤ Unfolding.countSum (unfoldAny deep cap whole before nodes) := by
  cases nodes with
  | nil => exact Nat.zero_le _
  | cons node nodes =>
      rw [unfoldAny, Unfolding.countSum, List.length_cons, Nat.add_comm]
      exact Nat.add_le_add (count_unfoldIn_pos deep cap _ h.1)
        (length_le_countSum_unfoldAny deep cap whole _ h.2)

end

mutual

theorem length_branches_pos {node : Node} (h : node.Proper) : 0 < node.branches.length := by
  cases node with
  | literal bytes source => exact Nat.one_pos
  | gap source => exact Nat.one_pos
  | sequence children hollow source =>
      rw [branches]
      exact length_branchesOfAll_pos h
  | choice children disabled source =>
      rw [branches]
      exact (List.length_pos_of_ne_nil h.1).trans_le (length_le_length_branchesOfAny h.2)

theorem length_branchesOfAll_pos {nodes : List Node} (h : AllProper nodes) :
    0 < (branchesOfAll nodes).length := by
  cases nodes with
  | nil => exact Nat.one_pos
  | cons node nodes =>
      rw [branchesOfAll, length_combine]
      exact Nat.mul_pos (length_branches_pos h.1) (length_branchesOfAll_pos h.2)

theorem length_le_length_branchesOfAny {nodes : List Node} (h : AllProper nodes) :
    nodes.length ≤ (branchesOfAny nodes).length := by
  cases nodes with
  | nil => exact Nat.zero_le _
  | cons node nodes =>
      rw [branchesOfAny, List.length_append, List.length_cons, Nat.add_comm]
      exact Nat.add_le_add (length_branches_pos h.1) (length_le_length_branchesOfAny h.2)

end

/-! ## No choice more -/

mutual

/-- Whatever stays folded, it would lift the number of branches over the cap. The greedy unfolding
compared with fewer branches than there are in the end, as what came later was folded then. -/
theorem lt_whole_of_oneMore {cap : Nat} {whole : Nat → Nat} (hwhole : Monotone whole)
    {node choice : Node} (h : node.Proper) {more : Unfolding}
    (hmore : Unfolding.OneMore choice (node.unfoldIn true cap whole) more) :
    cap < whole more.count := by
  cases node with
  | literal bytes source =>
      rw [unfoldIn] at hmore
      cases hmore with
      | here hchoice => cases hchoice
  | gap source =>
      rw [unfoldIn] at hmore
      cases hmore with
      | here hchoice => cases hchoice
  | sequence children hollow source =>
      rw [unfoldIn, if_pos rfl] at hmore
      generalize hparts : unfoldAll cap whole 1 children = parts at hmore
      cases hmore with
      | sequence front back hmore =>
          have hlt := lt_whole_of_oneMore_all hwhole h hparts hmore
          rwa [Nat.one_mul] at hlt
  | choice children disabled source =>
      rw [unfoldIn] at hmore
      split at hmore
      case isTrue hcap =>
        cases hmore with
        | here hchoice =>
            obtain ⟨rfl, -, -⟩ := Node.choice.inj hchoice
            rw [Unfolding.count, countSum_foldedAll]
            exact hcap.trans_le (Nat.min_le_left _ _)
      case isFalse =>
        generalize hparts : unfoldAny true cap whole 0 children = parts at hmore
        cases hmore with
        | choice front back hmore =>
            have hlt := lt_whole_of_oneMore_any hwhole h.2 hparts hmore
            rwa [Nat.zero_add] at hlt

theorem lt_whole_of_oneMore_all {cap : Nat} {whole : Nat → Nat} (hwhole : Monotone whole)
    {before : Nat} {nodes : List Node} {choice : Node} (h : AllProper nodes)
    {front back : List Unfolding} {part more : Unfolding}
    (hparts : unfoldAll cap whole before nodes = front ++ part :: back)
    (hmore : Unfolding.OneMore choice part more) :
    cap < whole (before * Unfolding.countProduct (front ++ more :: back)) := by
  cases nodes with
  | nil =>
      rw [unfoldAll] at hparts
      exact absurd hparts.symm (List.append_ne_nil_of_right_ne_nil _ (List.cons_ne_nil _ _))
  | cons node nodes =>
      rw [unfoldAll] at hparts
      cases front with
      | nil =>
          obtain ⟨rfl, rfl⟩ := List.cons.inj hparts
          have hback := countProduct_unfoldAll_pos cap whole
            (before * (node.unfoldIn true cap fun n => whole (before * n)).count) h.2
          have hlater : before * more.count ≤ before * (more.count * _) :=
            Nat.mul_le_mul_left before (Nat.le_mul_of_pos_right _ hback)
          exact (lt_whole_of_oneMore (fun _ _ hle => hwhole (Nat.mul_le_mul_left before hle))
            h.1 hmore).trans_le (hwhole hlater)
      | cons first front =>
          obtain ⟨rfl, hrest⟩ := List.cons.inj hparts
          have hlt := lt_whole_of_oneMore_all hwhole h.2 hrest hmore
          rwa [Nat.mul_assoc] at hlt

theorem lt_whole_of_oneMore_any {cap : Nat} {whole : Nat → Nat} (hwhole : Monotone whole)
    {before : Nat} {nodes : List Node} {choice : Node} (h : AllProper nodes)
    {front back : List Unfolding} {part more : Unfolding}
    (hparts : unfoldAny true cap whole before nodes = front ++ part :: back)
    (hmore : Unfolding.OneMore choice part more) :
    cap < whole (before + Unfolding.countSum (front ++ more :: back)) := by
  cases nodes with
  | nil =>
      rw [unfoldAny] at hparts
      exact absurd hparts.symm (List.append_ne_nil_of_right_ne_nil _ (List.cons_ne_nil _ _))
  | cons node nodes =>
      rw [unfoldAny] at hparts
      cases front with
      | nil =>
          obtain ⟨rfl, rfl⟩ := List.cons.inj hparts
          have hback := length_le_countSum_unfoldAny true cap whole
            (before + (node.unfoldIn true cap fun n => whole (before + n + nodes.length)).count)
            h.2
          have hlater : before + more.count + nodes.length ≤ before + (more.count + _) :=
            (Nat.add_le_add_left hback _).trans_eq (Nat.add_assoc _ _ _)
          exact (lt_whole_of_oneMore
            (fun _ _ hle => hwhole (Nat.add_le_add_right (Nat.add_le_add_left hle before) _))
            h.1 hmore).trans_le (hwhole hlater)
      | cons first front =>
          obtain ⟨rfl, hrest⟩ := List.cons.inj hparts
          have hlt := lt_whole_of_oneMore_any hwhole h.2 hrest hmore
          rwa [Nat.add_assoc] at hlt

end

/-! ## Nothing folded -/

mutual

/-- If all branches are within the cap, no choice stays folded. -/
theorem branches_unfoldIn {cap : Nat} {whole : Nat → Nat} (hwhole : Monotone whole) {node : Node}
    (h : node.Proper) (hfew : whole node.branches.length ≤ cap) :
    (node.unfoldIn true cap whole).branches = node.branches := by
  cases node with
  | literal bytes source => rfl
  | gap source => rfl
  | sequence children hollow source =>
      rw [branches] at hfew ⊢
      rw [unfoldIn, if_pos rfl, Unfolding.branches]
      exact branchesOfAll_unfoldAll hwhole h (by rwa [Nat.one_mul])
  | choice children disabled source =>
      rw [branches] at hfew ⊢
      have hlength : whole children.length ≤ cap :=
        (hwhole (length_le_length_branchesOfAny h.2)).trans hfew
      rw [unfoldIn, if_neg (Nat.not_lt.mpr ((Nat.min_le_left _ _).trans hlength)),
        Unfolding.branches]
      exact branchesOfAny_unfoldAny hwhole h.2 (by rwa [Nat.zero_add])

theorem branchesOfAll_unfoldAll {cap : Nat} {whole : Nat → Nat} (hwhole : Monotone whole)
    {before : Nat} {nodes : List Node} (h : AllProper nodes)
    (hfew : whole (before * (branchesOfAll nodes).length) ≤ cap) :
    Unfolding.branchesOfAll (unfoldAll cap whole before nodes) = branchesOfAll nodes := by
  cases nodes with
  | nil => rfl
  | cons node nodes =>
      rw [branchesOfAll, length_combine] at hfew
      have hlater : before * node.branches.length ≤
          before * (node.branches.length * (branchesOfAll nodes).length) :=
        Nat.mul_le_mul_left before (Nat.le_mul_of_pos_right _ (length_branchesOfAll_pos h.2))
      have hpart := branches_unfoldIn (fun _ _ hle => hwhole (Nat.mul_le_mul_left before hle)) h.1
        ((hwhole hlater).trans hfew)
      rw [unfoldAll, Unfolding.branchesOfAll, branchesOfAll, hpart]
      refine congrArg _ (branchesOfAll_unfoldAll hwhole h.2 ?_)
      rwa [← Unfolding.length_branches, hpart, Nat.mul_assoc]

theorem branchesOfAny_unfoldAny {cap : Nat} {whole : Nat → Nat} (hwhole : Monotone whole)
    {before : Nat} {nodes : List Node} (h : AllProper nodes)
    (hfew : whole (before + (branchesOfAny nodes).length) ≤ cap) :
    Unfolding.branchesOfAny (unfoldAny true cap whole before nodes) = branchesOfAny nodes := by
  cases nodes with
  | nil => rfl
  | cons node nodes =>
      rw [branchesOfAny, List.length_append] at hfew
      have hlater : before + node.branches.length + nodes.length ≤
          before + (node.branches.length + (branchesOfAny nodes).length) :=
        (Nat.add_le_add_left (length_le_length_branchesOfAny h.2) _).trans_eq (Nat.add_assoc _ _ _)
      have hpart := branches_unfoldIn
        (fun _ _ hle => hwhole (Nat.add_le_add_right (Nat.add_le_add_left hle before) _)) h.1
        ((hwhole hlater).trans hfew)
      rw [unfoldAny, Unfolding.branchesOfAny, branchesOfAny, hpart]
      refine congrArg _ (branchesOfAny_unfoldAny hwhole h.2 ?_)
      rwa [← Unfolding.length_branches, hpart, Nat.add_assoc]

end

end Node

/-! ## Trees -/

namespace PatternTree

/-- A greedy unfolding of a tree: it has branches within the cap, what it leaves folded are choices
of which each would take it over the cap, and with them expanded it has the branches of the tree. -/
structure UnfoldsGreedily (tree : PatternTree) (root : Node) (cap : Nat) : Prop where
  pos : 1 ≤ (tree.unfold true cap).length
  le_cap : (tree.unfold true cap).length ≤ cap
  expands : ((tree.unfold true cap).flatMap Node.branchesOfAll).Perm tree.branches
  maximal : ∀ entry ∈ tree.unfold true cap, ∀ children disabled source,
    .choice children disabled source ∈ entry →
      (∃ more, Unfolding.OneMore (.choice children disabled source) (root.unfold true cap) more) ∧
      ∀ more, Unfolding.OneMore (.choice children disabled source) (root.unfold true cap) more →
        cap < more.branches.length
  full : tree.branchCount ≤ cap → tree.unfold true cap = tree.branches

theorem unfoldsGreedily_of_root {tree : PatternTree} {root : Node} (hroot : tree.root = some root)
    (hproper : root.Proper) {cap : Nat} (hpos : 1 ≤ cap) (hcap : cap < maxCount) :
    tree.UnfoldsGreedily root cap := by
  have hunfold : tree.unfold true cap = (root.unfold true cap).branches := by
    rw [PatternTree.unfold, hroot, Option.map_some, Option.getD_some]
  have hbranches : tree.branches = root.branches := by
    rw [PatternTree.branches, hroot, Option.map_some, Option.getD_some]
  constructor
  · rw [hunfold, Unfolding.length_branches]
    exact Node.count_unfoldIn_pos true cap id hproper
  · rw [hunfold]
    exact root.length_unfold_le hpos hcap true
  · rw [hunfold, hbranches]
    exact root.expand_unfoldIn true cap id
  · intro entry hentry children disabled source hnode
    rw [hunfold] at hentry
    refine ⟨Unfolding.exists_oneMore hentry hnode rfl, fun more hmore => ?_⟩
    rw [Unfolding.length_branches]
    exact Node.lt_whole_of_oneMore monotone_id hproper hmore
  · intro hfew
    rw [branchCount, hroot, Option.map_some, Option.getD_some, Node.branchCount_eq] at hfew
    rw [hunfold, hbranches]
    exact Node.branches_unfoldIn monotone_id hproper (by simp only [id]; omega)

variable {tree compiled : PatternTree} {pattern : String} {expansion : Bool}

/-- Every tree that was read, whatever passes it went through, unfolds greedily. -/
theorem afterPasses_unfoldsGreedily (h : tree.compile pattern expansion = (compiled, .ok ()))
    (passes : List Pass) {cap : Nat} (hpos : 1 ≤ cap) (hcap : cap < maxCount) :
    ∃ simplified root, compiled.afterPasses passes = .ok simplified ∧
      simplified.root = some root ∧ simplified.UnfoldsGreedily root cap := by
  obtain ⟨root, hroot, -, hparse⟩ := root_of_compile h
  obtain ⟨simplified, hsimplified, hlast, -⟩ := afterPasses_of_root hroot passes
  have hproper : root.Proper := Node.hereditary_proper.parse hparse
  exact ⟨simplified, _, hsimplified, hlast,
    unfoldsGreedily_of_root hlast (Node.kept_proper.afterPasses hproper passes) hpos hcap⟩

/-- Three of the four choices fit into seven entries. The innermost one on the right stays folded, as
there would be nine with it. -/
theorem afterPasses_unfoldsGreedily_nested :
    let pattern := "(ab|c(d|e)f)x(g|h(i|j)k)"
    ∃ compiled simplified root, empty.compile pattern true = (compiled, .ok ()) ∧
      compiled.afterPasses [.merge] = .ok simplified ∧ simplified.root = some root ∧
      (simplified.unfold true 7).length = 6 ∧ simplified.branches.length = 9 ∧
      simplified.UnfoldsGreedily root 7 := by
  intro pattern
  let compiled := (empty.compile pattern true).1
  have hcompiled : empty.compile pattern true = (compiled, .ok ()) :=
    Prod.ext rfl (by decide +kernel)
  have hlengths : (compiled.afterPasses [.merge]).toOption.map
      (fun tree => ((tree.unfold true 7).length, tree.branches.length)) = some (6, 9) := by
    decide +kernel
  obtain ⟨simplified, root, hsimplified, hroot, hgreedy⟩ :=
    afterPasses_unfoldsGreedily hcompiled [.merge] (show 1 ≤ 7 by decide) (by decide)
  rw [hsimplified] at hlengths
  obtain ⟨hunfolded, hbranches⟩ := Prod.mk.inj (Option.some.inj hlengths)
  exact ⟨compiled, simplified, root, hcompiled, hsimplified, hroot, hunfolded, hbranches, hgreedy⟩

end PatternTree

end LiteralSieve
