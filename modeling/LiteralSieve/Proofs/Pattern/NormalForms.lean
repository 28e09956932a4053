import LiteralSieve.Proofs.Forest.Slots
import LiteralSieve.Proofs.Pattern.Induction
import LiteralSieve.Proofs.Pattern.Marks
import Mathlib.Data.List.Chain

namespace LiteralSieve.Node

/-!
# Normal forms

What comes out of the three passes has a form in which none of them finds anything to do. Flattening
leaves sequences and choices with at least two children each, and none within its like. Marking sets
the marks that it would set again, and joining leaves no two literals side by side. Each pass keeps
what the ones before it have reached, so a tree that was simplified once stays as it is.
-/

def kind : Node → SlotKind
  | literal _ _ => .leaf
  | gap _ => .leaf
  | sequence _ _ _ => .sequence
  | choice _ _ _ => .choice

def isLiteral : Node → Bool
  | literal _ _ => true
  | _ => false

/-- Whether the node gives its children to a node of its kind: all do but choices with a mark. -/
def gives : Node → Bool
  | sequence _ _ _ => true
  | choice _ disabled _ => !disabled
  | _ => false

/-- A sequence or choice has at least two children, none of which would give it theirs. -/
def Settled (node : Node) : Prop :=
  node.kind ≠ .leaf → 2 ≤ node.children.length ∧
    ∀ child ∈ node.children, child.kind = node.kind → child.gives = false

/-- A sequence or choice has at least two children, none of which is of its own kind. -/
def Flat (node : Node) : Prop :=
  node.kind ≠ .leaf → 2 ≤ node.children.length ∧ ∀ child ∈ node.children, child.kind ≠ node.kind

/-- Every mark that is due is set, and a sequence has no other. -/
def Marked : Node → Prop
  | sequence children hollow source => hollow = (sequence children hollow source).isHollow
  | choice children disabled source =>
    (choice children disabled source).isHollow = true → disabled = true
  | _ => True

/-- No two literals stand side by side in a sequence. -/
def Joined : Node → Prop
  | sequence children _ _ => children.IsChain fun x y => (x.isLiteral && y.isLiteral) = false
  | _ => True

/-- No pass has anything to do at the node itself. -/
structure Normal (node : Node) : Prop where
  flat : node.Flat
  marked : node.Marked
  joined : node.Joined

variable {node child : Node} {nodes items : List Node} {hollow disabled : Bool} {source : Extent}

theorem isLiteral_eq_false (h : ∀ bytes source, node = literal bytes source → False) :
    node.isLiteral = false := by
  cases node with
  | literal bytes source => exact (h _ _ rfl).elim
  | _ => rfl

theorem exists_of_isLiteral (h : node.isLiteral = true) :
    ∃ bytes source, node = literal bytes source := by
  cases node with
  | literal bytes source => exact ⟨bytes, source, rfl⟩
  | _ => cases h

/-- A leaf has nothing to lose. -/
theorem every_of_children_eq_nil {P : Node → Prop} (hself : P node) (h : node.children = []) :
    Every P node := by
  refine ⟨hself, ?_⟩
  rw [h]
  exact List.forall_mem_nil _

theorem settled_literal (bytes : Bytes) (source : Extent) : (literal bytes source).Settled :=
  fun hkind => absurd rfl hkind

theorem normal_literal (bytes : Bytes) (source : Extent) : (literal bytes source).Normal :=
  ⟨fun hkind => absurd rfl hkind, trivial, trivial⟩

theorem normal_gap (source : Extent) : (gap source).Normal :=
  ⟨fun hkind => absurd rfl hkind, trivial, trivial⟩

/-! ## Flattening -/

theorem sequenceItems_of_gives (h : node.kind = .sequence → node.gives = false) :
    node.sequenceItems = [node] := by
  cases node with
  | sequence children hollow source => cases h rfl
  | _ => rfl

theorem choiceItems_of_gives (h : node.kind = .choice → node.gives = false) :
    node.choiceItems = [node] := by
  cases node with
  | choice children disabled source =>
      cases disabled with
      | true => rfl
      | false => cases h rfl
  | _ => rfl

theorem every_settled_sequenceItems (h : Every Settled node) : ∀ item ∈ node.sequenceItems,
    Every Settled item ∧ (item.kind = .sequence → item.gives = false) := by
  have hself : (node.kind = .sequence → node.gives = false) → ∀ item ∈ [node],
      Every Settled item ∧ (item.kind = .sequence → item.gives = false) :=
    fun hgives => List.forall_mem_singleton.mpr ⟨h, hgives⟩
  cases node with
  | sequence children hollow source =>
      have hkind : SlotKind.sequence ≠ .leaf := by decide
      exact fun item hitem => ⟨h.children item hitem, (h.self hkind).2 item hitem⟩
  | literal bytes source => exact hself fun hkind => nomatch hkind
  | gap source => exact hself fun hkind => nomatch hkind
  | choice children disabled source => exact hself fun hkind => nomatch hkind

theorem every_settled_choiceItems (h : Every Settled node) : ∀ item ∈ node.choiceItems,
    Every Settled item ∧ (item.kind = .choice → item.gives = false) := by
  have hself : (node.kind = .choice → node.gives = false) → ∀ item ∈ [node],
      Every Settled item ∧ (item.kind = .choice → item.gives = false) :=
    fun hgives => List.forall_mem_singleton.mpr ⟨h, hgives⟩
  cases node with
  | choice children disabled source =>
      have hkind : SlotKind.choice ≠ .leaf := by decide
      cases disabled with
      | true => exact hself fun _ => rfl
      | false => exact fun item hitem => ⟨h.children item hitem, (h.self hkind).2 item hitem⟩
  | literal bytes source => exact hself fun hkind => nomatch hkind
  | gap source => exact hself fun hkind => nomatch hkind
  | sequence children hollow source => exact hself fun hkind => nomatch hkind

theorem every_settled_ofSequence
    (h : ∀ item ∈ items, Every Settled item ∧ (item.kind = .sequence → item.gives = false)) :
    Every Settled (ofSequence hollow source items) := by
  match items, h with
  | [], _ => exact every_of_children_eq_nil (settled_literal [] source) rfl
  | [item], h => exact (h item List.mem_cons_self).1
  | _ :: _ :: _, h =>
      refine ⟨fun _ => ⟨Nat.le_add_left _ _, fun item hitem => (h item hitem).2⟩, ?_⟩
      exact fun item hitem => (h item hitem).1

theorem every_settled_ofChoice
    (h : ∀ item ∈ items, Every Settled item ∧ (item.kind = .choice → item.gives = false)) :
    Every Settled (ofChoice disabled source items) := by
  match items, h with
  | [], _ => exact every_of_children_eq_nil (settled_literal [] source) rfl
  | [item], h => exact (h item List.mem_cons_self).1
  | _ :: _ :: _, h =>
      refine ⟨fun _ => ⟨Nat.le_add_left _ _, fun item hitem => (h item hitem).2⟩, ?_⟩
      exact fun item hitem => (h item hitem).1

/-- Whatever a tree is, flattening settles it. -/
theorem every_settled_adjust (node : Node) : Every Settled node.adjust := by
  induction node using children_induction with
  | literal bytes source =>
      rw [adjust]
      exact every_of_children_eq_nil (settled_literal bytes source) rfl
  | gap source =>
      rw [adjust]
      exact every_of_children_eq_nil (fun hkind => absurd rfl hkind) rfl
  | sequence children hollow source ih =>
      rw [adjust, adjustSequence_eq_flatMap]
      refine every_settled_ofSequence (List.forall_mem_flatMap.mpr fun child hchild => ?_)
      exact every_settled_sequenceItems (ih child hchild)
  | choice children disabled source ih =>
      rw [adjust, adjustChoice_eq_flatMap]
      refine every_settled_ofChoice (List.forall_mem_flatMap.mpr fun child hchild => ?_)
      exact every_settled_choiceItems (ih child hchild)

theorem Unmarked.children (h : node.Unmarked) : ∀ child ∈ node.children, child.Unmarked := by
  cases node with
  | literal bytes source => exact List.forall_mem_nil _
  | gap source => exact List.forall_mem_nil _
  | sequence children hollow source => exact allUnmarked_iff.mp h.2
  | choice children disabled source => exact allUnmarked_iff.mp h.2

theorem Unmarked.gives (h : node.Unmarked) (hkind : node.kind ≠ .leaf) : node.gives = true := by
  cases node with
  | sequence children hollow source => rfl
  | choice children disabled source => exact congrArg (!·) h.1
  | literal bytes source => exact absurd rfl hkind
  | gap source => exact absurd rfl hkind

/-- Without marks, every choice gives its children to a choice around it. -/
theorem every_flat_of_unmarked (h : Every Settled node) (hunmarked : node.Unmarked) :
    Every Flat node := by
  induction h with
  | @intro node hsettled _ ih =>
      refine ⟨fun hkind => ⟨(hsettled hkind).1, fun child hchild hsame => ?_⟩,
        fun child hchild => ih child hchild (hunmarked.children child hchild)⟩
      have hgives : child.gives = true :=
        (hunmarked.children child hchild).gives fun hleaf => hkind (hsame.symm.trans hleaf)
      rw [(hsettled hkind).2 child hchild hsame] at hgives
      cases hgives

/-- There is nothing to flatten. -/
theorem adjust_eq_self (h : Every Settled node) : node.adjust = node := by
  induction h with
  | @intro node hsettled _ ih =>
      cases node with
      | literal bytes source => rw [adjust]
      | gap source => rw [adjust]
      | sequence children hollow source =>
          have hkind : SlotKind.sequence ≠ .leaf := by decide
          obtain ⟨htwo, hgives⟩ := hsettled hkind
          have hitems : ∀ child ∈ children, child.adjust.sequenceItems = [child] := fun child hchild =>
            (ih child hchild).symm ▸ sequenceItems_of_gives (hgives child hchild)
          rw [adjust, adjustSequence_eq_flatMap, List.flatMap_congr hitems, List.flatMap_singleton']
          match children, htwo with
          | _ :: _ :: _, _ => rfl
      | choice children disabled source =>
          have hkind : SlotKind.choice ≠ .leaf := by decide
          obtain ⟨htwo, hgives⟩ := hsettled hkind
          have hitems : ∀ child ∈ children, child.adjust.choiceItems = [child] := fun child hchild =>
            (ih child hchild).symm ▸ choiceItems_of_gives (hgives child hchild)
          rw [adjust, adjustChoice_eq_flatMap, List.flatMap_congr hitems, List.flatMap_singleton']
          match children, htwo with
          | _ :: _ :: _, _ => rfl

/-! ## Marking -/

theorem children_mark (node : Node) : node.mark.children = node.children.map mark := by
  cases node <;> rw [mark]
  case sequence children hollow source => exact markAll_eq_map children
  case choice children disabled source => exact markAll_eq_map children
  all_goals rfl

theorem kind_mark (node : Node) : node.mark.kind = node.kind := by
  cases node <;> rw [mark] <;> rfl

theorem Flat.mark (h : node.Flat) : node.mark.Flat := by
  intro hkind
  rw [kind_mark] at hkind ⊢
  obtain ⟨htwo, hother⟩ := h hkind
  rw [children_mark, List.length_map]
  refine ⟨htwo, List.forall_mem_map.mpr fun child hchild => ?_⟩
  rw [kind_mark]
  exact hother child hchild

theorem marked_mark (node : Node) : node.mark.Marked := by
  cases node with
  | literal bytes source => rw [mark]; exact trivial
  | gap source => rw [mark]; exact trivial
  | sequence children hollow source =>
      rw [mark, Marked, isHollow, isHollow, allHollow_markAll, isEmpty_markAll]
  | choice children disabled source =>
      rw [mark, Marked, isHollow, isHollow, anyHollow_markAll]
      exact fun hhollow => Bool.or_eq_true_iff.mpr (Or.inr hhollow)

theorem every_marked_mark (h : Every Flat node) :
    Every (fun node => node.Flat ∧ node.Marked) node.mark := by
  induction h with
  | @intro node hflat _ ih =>
      refine ⟨⟨hflat.mark, marked_mark node⟩, ?_⟩
      rw [children_mark]
      exact List.forall_mem_map.mpr ih

/-- All marks that are due are there. -/
theorem mark_eq_self (h : Every Marked node) : node.mark = node := by
  induction h with
  | @intro node hmarked _ ih =>
      cases node with
      | literal bytes source => rw [mark]
      | gap source => rw [mark]
      | sequence children hollow source =>
          have hsame : children.map mark = children := (List.map_congr_left ih).trans (List.map_id _)
          rw [mark, markAll_eq_map, hsame, ← show hollow = _ from hmarked]
      | choice children disabled source =>
          have hsame : children.map mark = children := (List.map_congr_left ih).trans (List.map_id _)
          have hor : (disabled || (choice children disabled source).isHollow) = disabled :=
            Bool.or_eq_left_iff_imp.mpr hmarked
          rw [mark, markAll_eq_map, hsame, hor]

/-! ## Joining literals -/

theorem mem_joinLiterals {run : Option Run} (h : node ∈ joinLiterals run nodes) :
    node.isLiteral = true ∨ node ∈ nodes := by
  fun_induction joinLiterals run nodes with
  | case1 => cases h
  | case2 run => exact Or.inl (List.mem_singleton.mp h ▸ rfl)
  | case3 bytes source nodes ih => exact (ih h).imp_right (List.mem_cons_of_mem _)
  | case4 run bytes source nodes ih => exact (ih h).imp_right (List.mem_cons_of_mem _)
  | case5 first nodes hfirst ih =>
      rcases List.mem_cons.mp h with rfl | hlater
      · exact Or.inr List.mem_cons_self
      · exact (ih hlater).imp_right (List.mem_cons_of_mem _)
  | case6 run first nodes hfirst ih =>
      rcases List.mem_cons.mp h with rfl | hrest
      · exact Or.inl rfl
      rcases List.mem_cons.mp hrest with rfl | hlater
      · exact Or.inr List.mem_cons_self
      · exact (ih hlater).imp_right (List.mem_cons_of_mem _)

theorem isChain_joinLiterals (run : Option Run) (nodes : List Node) :
    (joinLiterals run nodes).IsChain fun x y => (x.isLiteral && y.isLiteral) = false := by
  fun_induction joinLiterals run nodes with
  | case1 => exact .nil
  | case2 run => exact .singleton _
  | case3 bytes source nodes ih => exact ih
  | case4 run bytes source nodes ih => exact ih
  | case5 node nodes hnode ih =>
      refine List.isChain_cons.mpr ⟨fun _ _ => ?_, ih⟩
      rw [isLiteral_eq_false hnode, Bool.false_and]
  | case6 run node nodes hnode ih =>
      refine List.isChain_cons_cons.mpr ⟨?_, List.isChain_cons.mpr ⟨fun _ _ => ?_, ih⟩⟩
      · rw [isLiteral_eq_false hnode, Bool.and_false]
      · rw [isLiteral_eq_false hnode, Bool.false_and]

/-- A run that has begun comes out as a literal in front. -/
theorem exists_joinLiterals_some (run : Run) (nodes : List Node) :
    ∃ bytes source later, joinLiterals (some run) nodes = literal bytes source :: later := by
  induction nodes generalizing run with
  | nil => exact ⟨_, _, _, joinLiterals_nil (some run)⟩
  | cons node nodes ih =>
      by_cases hnode : ∃ bytes source, node = literal bytes source
      · obtain ⟨bytes, source, rfl⟩ := hnode
        rw [joinLiterals]
        exact ih _
      · exact ⟨_, _, _, joinLiterals_other (some run) fun bytes source heq => hnode ⟨bytes, source, heq⟩⟩

/-- Of several nodes, at least two are left, or all were literals. -/
theorem joinLiterals_cases (h : 2 ≤ nodes.length) :
    (∃ bytes source, joinLiterals none nodes = [literal bytes source]) ∨
      2 ≤ (joinLiterals none nodes).length := by
  match nodes, h with
  | first :: second :: later, _ =>
      by_cases hfirst : ∃ bytes source, first = literal bytes source
      · obtain ⟨bytes, source, rfl⟩ := hfirst
        obtain ⟨joined, whole, others, heq⟩ :=
          exists_joinLiterals_some ⟨bytes, source, 1⟩ (second :: later)
        rw [joinLiterals, heq]
        cases others with
        | nil => exact Or.inl ⟨joined, whole, rfl⟩
        | cons other others => exact Or.inr (Nat.le_add_left _ _)
      · have hempty := isEmpty_joinLiterals none (second :: later)
        rw [joinLiterals_other none fun bytes source heq => hfirst ⟨bytes, source, heq⟩]
        refine Or.inr (Nat.succ_le_succ (List.length_pos_iff.mpr fun hnil => ?_))
        rw [hnil] at hempty
        cases hempty

theorem ofMerged_of_two_le (h : 2 ≤ nodes.length) :
    ofMerged hollow source nodes = sequence nodes hollow source := by
  match nodes, h with
  | _ :: _ :: _, _ => rfl

/-- A flat sequence becomes a literal or stays a sequence. -/
theorem mergeLiterals_sequence_cases {children : List Node} (h : 2 ≤ children.length) :
    (∃ bytes whole, (sequence children hollow source).mergeLiterals = literal bytes whole) ∨
      2 ≤ (joinLiterals none (children.map mergeLiterals)).length ∧
        (sequence children hollow source).mergeLiterals =
          sequence (joinLiterals none (children.map mergeLiterals)) hollow source := by
  have htwo : 2 ≤ (children.map mergeLiterals).length := (List.length_map _).symm ▸ h
  rw [mergeLiterals, mergeAll_eq_map]
  rcases joinLiterals_cases htwo with ⟨bytes, whole, heq⟩ | hmany
  · rw [heq]
    exact Or.inl ⟨bytes, whole, rfl⟩
  · exact Or.inr ⟨hmany, ofMerged_of_two_le hmany⟩

/-- Nothing turns into a sequence or choice that was none. -/
theorem kind_mergeLiterals (h : node.Flat) :
    node.mergeLiterals.kind = .leaf ∨ node.mergeLiterals.kind = node.kind := by
  cases node with
  | literal bytes source => rw [mergeLiterals]; exact Or.inr rfl
  | gap source => rw [mergeLiterals]; exact Or.inr rfl
  | choice children disabled source => rw [mergeLiterals]; exact Or.inr rfl
  | sequence children hollow source =>
      have hkind : SlotKind.sequence ≠ .leaf := by decide
      have htwo : 2 ≤ children.length := (h hkind).1
      rcases mergeLiterals_sequence_cases htwo with ⟨bytes, whole, heq⟩ | ⟨-, heq⟩
      · rw [heq]
        exact Or.inl rfl
      · rw [heq]
        exact Or.inr rfl

theorem kind_mergeLiterals_ne {kind : SlotKind} (h : node.Flat) (hkind : kind ≠ .leaf)
    (hother : node.kind ≠ kind) : node.mergeLiterals.kind ≠ kind := by
  rcases kind_mergeLiterals h with hleaf | hsame
  · exact hleaf ▸ hkind.symm
  · exact hsame ▸ hother

/-- What is left of a flat sequence is a joined literal or one of the merged children. -/
theorem normal_of_mem_joinLiterals {children : List Node} {kind : SlotKind} (hkind : kind ≠ .leaf)
    (hflat : ∀ child ∈ children, child.Flat) (hother : ∀ child ∈ children, child.kind ≠ kind)
    (hnormal : ∀ child ∈ children, Every Normal child.mergeLiterals) :
    ∀ item ∈ joinLiterals none (children.map mergeLiterals),
      Every Normal item ∧ item.kind ≠ kind := by
  intro item hitem
  rcases mem_joinLiterals hitem with hliteral | hmerged
  · obtain ⟨bytes, whole, rfl⟩ := exists_of_isLiteral hliteral
    exact ⟨every_of_children_eq_nil (normal_literal bytes whole) rfl, hkind.symm⟩
  · obtain ⟨child, hchild, rfl⟩ := List.mem_map.mp hmerged
    exact ⟨hnormal child hchild,
      kind_mergeLiterals_ne (hflat child hchild) hkind (hother child hchild)⟩

/-- Joining literals in a flat and marked tree is the last thing to do. -/
theorem every_normal_mergeLiterals (h : Every (fun node => node.Flat ∧ node.Marked) node) :
    Every Normal node.mergeLiterals := by
  induction h with
  | @intro node hself hbelow ih =>
      obtain ⟨hflat, hmarked⟩ := hself
      have hflatBelow : ∀ child ∈ node.children, child.Flat := fun child hchild =>
        (hbelow child hchild).self.1
      cases node with
      | literal bytes source =>
          rw [mergeLiterals]
          exact every_of_children_eq_nil (normal_literal bytes source) rfl
      | gap source =>
          rw [mergeLiterals]
          exact every_of_children_eq_nil (normal_gap source) rfl
      | sequence children hollow source =>
          have hkind : SlotKind.sequence ≠ .leaf := by decide
          obtain ⟨hmin, hother⟩ := hflat hkind
          have htwo : 2 ≤ children.length := hmin
          have hhollow := isHollow_mergeLiterals (sequence children hollow source)
          rcases mergeLiterals_sequence_cases htwo with ⟨bytes, whole, heq⟩ | ⟨hmany, heq⟩
          · rw [heq]
            exact every_of_children_eq_nil (normal_literal bytes whole) rfl
          · rw [heq] at hhollow ⊢
            have hitems := normal_of_mem_joinLiterals hkind hflatBelow hother ih
            refine ⟨⟨fun _ => ⟨hmany, fun item hitem => (hitems item hitem).2⟩, ?_,
              isChain_joinLiterals _ _⟩, fun item hitem => (hitems item hitem).1⟩
            exact hmarked.trans hhollow.symm
      | choice children disabled source =>
          have hkind : SlotKind.choice ≠ .leaf := by decide
          obtain ⟨htwo, hother⟩ := hflat hkind
          have hhollow := isHollow_mergeLiterals (choice children disabled source)
          rw [mergeLiterals, mergeAll_eq_map] at hhollow ⊢
          refine ⟨⟨fun _ => ⟨(List.length_map _).symm ▸ htwo, ?_⟩, ?_, trivial⟩,
            List.forall_mem_map.mpr ih⟩
          · exact List.forall_mem_map.mpr fun child hchild =>
              kind_mergeLiterals_ne (hflatBelow child hchild) hkind (hother child hchild)
          · exact fun hmark => hmarked (hhollow ▸ hmark)

/-- A run ends before nodes that do not start with a literal. -/
theorem joinLiterals_of_head (run : Option Run)
    (h : ∀ node ∈ nodes.head?, node.isLiteral = false) :
    joinLiterals run nodes = runLiteral run ++ joinLiterals none nodes ∧
      joinedCount run nodes = joinedCount run [] + joinedCount none nodes := by
  cases nodes with
  | nil =>
      rw [joinLiterals_nil, joinLiterals_nil]
      exact ⟨(List.append_nil _).symm, rfl⟩
  | cons node nodes =>
      have hother : ∀ bytes source, node = literal bytes source → False := by
        rintro bytes source rfl
        cases h _ rfl
      rw [joinLiterals_other run hother, joinLiterals_other none hother, joinedCount_other run hother,
        joinedCount_other none hother, joinedCount, Nat.zero_add]
      exact ⟨rfl, rfl⟩

/-- Where no two literals stand side by side, all nodes stay and none is made. -/
theorem joinLiterals_eq_self
    (h : nodes.IsChain fun x y => (x.isLiteral && y.isLiteral) = false) :
    joinLiterals none nodes = nodes ∧ joinedCount none nodes = 0 := by
  induction nodes with
  | nil => exact ⟨joinLiterals_nil none, by rw [joinedCount]⟩
  | cons node nodes ih =>
      obtain ⟨hhead, htail⟩ := List.isChain_cons.mp h
      obtain ⟨hjoin, hcount⟩ := ih htail
      by_cases hnode : ∃ bytes source, node = literal bytes source
      · obtain ⟨bytes, source, rfl⟩ := hnode
        obtain ⟨hrun, hmade⟩ := joinLiterals_of_head (some ⟨bytes, source, 1⟩) hhead
        rw [joinLiterals, joinedCount, hrun, hmade, hjoin, hcount]
        exact ⟨rfl, rfl⟩
      · have hother : ∀ bytes source, node = literal bytes source → False :=
          fun bytes source heq => hnode ⟨bytes, source, heq⟩
        rw [joinLiterals_other none hother, joinedCount_other none hother, hjoin, hcount]
        exact ⟨rfl, rfl⟩

theorem Every.settled (h : Every Normal node) : Every Settled node :=
  h.imp fun hnormal hkind =>
    ⟨(hnormal.flat hkind).1, fun child hchild hsame =>
      absurd hsame ((hnormal.flat hkind).2 child hchild)⟩

theorem mergeAll_eq_self (nodes : List Node)
    (h : ∀ node ∈ nodes, node.mergeLiterals = node ∧ node.mergeCost = 0) :
    mergeAll nodes = nodes ∧ mergeCostAll nodes = 0 := by
  induction nodes with
  | nil => exact ⟨by rw [mergeAll], by rw [mergeCostAll]⟩
  | cons node nodes ih =>
      obtain ⟨⟨hnode, hcost⟩, hnodes⟩ := List.forall_mem_cons.mp h
      obtain ⟨hsame, hcosts⟩ := ih hnodes
      rw [mergeAll, mergeCostAll, hnode, hcost, hsame, hcosts]
      exact ⟨rfl, rfl⟩

/-- In a normal form there is nothing to join. -/
theorem mergeLiterals_eq_self (h : Every Normal node) :
    node.mergeLiterals = node ∧ node.mergeCost = 0 := by
  induction h with
  | @intro node hnormal _ ih =>
      cases node with
      | literal bytes source =>
          rw [mergeLiterals, mergeCost]
          exact ⟨rfl, rfl⟩
      | gap source =>
          rw [mergeLiterals, mergeCost]
          exact ⟨rfl, rfl⟩
      | sequence children hollow source =>
          have hkind : SlotKind.sequence ≠ .leaf := by decide
          have htwo : 2 ≤ children.length := (hnormal.flat hkind).1
          obtain ⟨hsame, hcost⟩ := mergeAll_eq_self children ih
          obtain ⟨hjoin, hcount⟩ := joinLiterals_eq_self hnormal.joined
          rw [mergeLiterals, mergeCost, hsame, hcost, hjoin, hcount, ofMerged_of_two_le htwo]
          exact ⟨rfl, rfl⟩
      | choice children disabled source =>
          obtain ⟨hsame, hcost⟩ := mergeAll_eq_self children ih
          rw [mergeLiterals, mergeCost, hsame, hcost]
          exact ⟨rfl, rfl⟩

/-! ## Trees that were simplified -/

/-- A tree without marks comes out of the passes in normal form. -/
theorem every_normal_simplified (h : node.Unmarked) :
    Every Normal node.adjust.mark.mergeLiterals :=
  every_normal_mergeLiterals (every_marked_mark
    (every_flat_of_unmarked (every_settled_adjust node) (unmarked_adjust h)))

end LiteralSieve.Node
