import LiteralSieve.Proofs.Pattern.Induction
import LiteralSieve.Proofs.Pattern.Passes
import LiteralSieve.Proofs.Pattern.Positions

namespace LiteralSieve

/-!
# Extents of nodes

Every node of a tree knows the part of the pattern that it came from. A node is placed in a pattern
if these parts fit together: each starts and stops between two characters, a child has a part of
what its parent has, and the children of a sequence stand one after the other. No pass over a tree
moves a node out of its place.
-/

namespace Extent

/-- The extent is a part of the pattern, made of whole characters. -/
structure Placed (pattern : String) (x : Extent) : Prop where
  le : x.start ≤ x.stop
  start : Boundary pattern x.start
  stop : Boundary pattern x.stop

/-- `x` is a part of `y`. -/
structure Within (x y : Extent) : Prop where
  start : y.start ≤ x.start
  stop : x.stop ≤ y.stop

theorem Within.refl (x : Extent) : x.Within x := ⟨Nat.le_refl _, Nat.le_refl _⟩

theorem Within.trans {x y z : Extent} (h : x.Within y) (h' : y.Within z) : x.Within z :=
  ⟨h'.start.trans h.start, h.stop.trans h'.stop⟩

end Extent

/-- The bytes are some characters in UTF-8. -/
def Spelled (bytes : Bytes) : Prop := ∃ text : List Char, bytes = text.flatMap String.utf8EncodeChar

theorem spelled_nil : Spelled [] := ⟨[], rfl⟩

theorem Spelled.append {first last : Bytes} (hfirst : Spelled first) (hlast : Spelled last) :
    Spelled (first ++ last) := by
  obtain ⟨before, rfl⟩ := hfirst
  obtain ⟨after, rfl⟩ := hlast
  exact ⟨before ++ after, List.flatMap_append.symm⟩

theorem Spelled.isValidUTF8 {bytes : Bytes} (h : Spelled bytes) :
    bytes.toByteArray.IsValidUTF8 := by
  obtain ⟨text, rfl⟩ := h
  exact .intro text rfl

namespace Node

/-- The nodes stand one after the other between two offsets. -/
def Row (lo hi : Nat) : List Node → Prop
  | [] => lo ≤ hi
  | node :: nodes => lo ≤ node.source.start ∧ Row node.source.stop hi nodes

mutual

/-- The node and all below it have their places in the pattern, and the literals are text. -/
def Placed (pattern : String) : Node → Prop
  | literal bytes source => source.Placed pattern ∧ Spelled bytes
  | gap source => source.Placed pattern
  | sequence children _ source =>
    source.Placed pattern ∧ Row source.start source.stop children ∧ AllPlaced pattern children
  | choice children _ source =>
    source.Placed pattern ∧ (∀ child ∈ children, child.source.Within source) ∧
      AllPlaced pattern children

def AllPlaced (pattern : String) : List Node → Prop
  | [] => True
  | node :: nodes => node.Placed pattern ∧ AllPlaced pattern nodes

end

variable {pattern : String} {node : Node} {nodes : List Node} {lo hi : Nat}

theorem allPlaced_iff : AllPlaced pattern nodes ↔ ∀ node ∈ nodes, node.Placed pattern := by
  induction nodes with
  | nil => simp [AllPlaced]
  | cons node nodes ih => simp [AllPlaced, ih]

theorem allPlaced_append {xs ys : List Node} :
    AllPlaced pattern (xs ++ ys) ↔ AllPlaced pattern xs ∧ AllPlaced pattern ys := by
  simp [allPlaced_iff, or_imp, forall_and]

theorem Placed.source (h : node.Placed pattern) : node.source.Placed pattern := by
  cases node with
  | literal bytes source => exact h.1
  | gap source => exact h
  | sequence children hollow source => exact h.1
  | choice children disabled source => exact h.1

/-! ## Rows -/

theorem Row.mono {lo' hi' : Nat} (h : Row lo hi nodes) (hlo : lo' ≤ lo) (hhi : hi ≤ hi') :
    Row lo' hi' nodes := by
  induction nodes generalizing lo lo' with
  | nil => exact hlo.trans (h.trans hhi)
  | cons node nodes ih => exact ⟨hlo.trans h.1, ih h.2 (Nat.le_refl _)⟩

theorem Row.append {mid : Nat} {xs ys : List Node} (hxs : Row lo mid xs) (hys : Row mid hi ys) :
    Row lo hi (xs ++ ys) := by
  induction xs generalizing lo with
  | nil => exact hys.mono hxs (Nat.le_refl _)
  | cons node nodes ih => exact ⟨hxs.1, ih hxs.2⟩

theorem row_singleton (node : Node) : Row node.source.start node.source.stop [node] :=
  ⟨Nat.le_refl _, Nat.le_refl _⟩

theorem Row.le (h : Row lo hi nodes) (hplaced : AllPlaced pattern nodes) : lo ≤ hi := by
  induction nodes generalizing lo with
  | nil => exact h
  | cons node nodes ih => exact h.1.trans (hplaced.1.source.le.trans (ih h.2 hplaced.2))

/-- Whoever stands in a row has a part of what the row has. -/
theorem Row.within (h : Row lo hi nodes) (hplaced : AllPlaced pattern nodes) (hnode : node ∈ nodes) :
    node.source.Within ⟨lo, hi⟩ := by
  induction nodes generalizing lo with
  | nil => cases hnode
  | cons first nodes ih =>
      rcases List.mem_cons.mp hnode with rfl | hlater
      · exact ⟨h.1, h.2.le hplaced.2⟩
      · have hwithin := ih h.2 hplaced.2 hlater
        exact ⟨h.1.trans (hplaced.1.source.le.trans hwithin.start), hwithin.stop⟩

/-! ## Flattening -/

theorem row_sequenceItems (h : node.Placed pattern) :
    Row node.source.start node.source.stop node.sequenceItems := by
  cases node with
  | sequence children hollow source => exact h.2.1
  | _ => exact row_singleton _

theorem allPlaced_sequenceItems (h : node.Placed pattern) :
    AllPlaced pattern node.sequenceItems := by
  cases node with
  | sequence children hollow source => exact h.2.2
  | _ => exact ⟨h, trivial⟩

theorem within_choiceItems (h : node.Placed pattern) :
    ∀ child ∈ node.choiceItems, child.source.Within node.source := by
  have hself : ∀ child ∈ [node], child.source.Within node.source := by
    intro child hchild
    exact List.mem_singleton.mp hchild ▸ .refl _
  cases node with
  | choice children disabled source =>
      cases disabled with
      | false => exact h.2.1
      | true => exact hself
  | _ => exact hself

theorem allPlaced_choiceItems (h : node.Placed pattern) : AllPlaced pattern node.choiceItems := by
  cases node with
  | choice children disabled source =>
      cases disabled with
      | false => exact h.2.2
      | true => exact ⟨h, trivial⟩
  | _ => exact ⟨h, trivial⟩

theorem placed_ofSequence {source : Extent} (hollow : Bool) (hsource : source.Placed pattern)
    (hrow : Row source.start source.stop nodes) (h : AllPlaced pattern nodes) :
    (ofSequence hollow source nodes).Placed pattern ∧
      (ofSequence hollow source nodes).source.Within source := by
  match nodes, hrow, h with
  | [], _, _ => exact ⟨⟨hsource, spelled_nil⟩, .refl _⟩
  | [_], hrow, h => exact ⟨h.1, hrow.within h List.mem_cons_self⟩
  | _ :: _ :: _, hrow, h => exact ⟨⟨hsource, hrow, h⟩, .refl _⟩

theorem placed_ofChoice {source : Extent} (disabled : Bool) (hsource : source.Placed pattern)
    (hwithin : ∀ node ∈ nodes, node.source.Within source) (h : AllPlaced pattern nodes) :
    (ofChoice disabled source nodes).Placed pattern ∧
      (ofChoice disabled source nodes).source.Within source := by
  match nodes, hwithin, h with
  | [], _, _ => exact ⟨⟨hsource, spelled_nil⟩, .refl _⟩
  | [_], hwithin, h => exact ⟨h.1, hwithin _ List.mem_cons_self⟩
  | _ :: _ :: _, hwithin, h => exact ⟨⟨hsource, hwithin, h⟩, .refl _⟩

mutual

/-- What takes the place of a node stays in its extent. -/
theorem placed_adjust {node : Node} (h : node.Placed pattern) :
    node.adjust.Placed pattern ∧ node.adjust.source.Within node.source := by
  cases node with
  | literal bytes source =>
      rw [adjust]
      exact ⟨h, .refl _⟩
  | gap source =>
      rw [adjust]
      exact ⟨h, .refl _⟩
  | sequence children hollow source =>
      obtain ⟨hrow, hplaced⟩ := row_adjustSequence h.2.1 h.2.2
      rw [adjust]
      exact placed_ofSequence hollow h.1 hrow hplaced
  | choice children disabled source =>
      obtain ⟨hwithin, hplaced⟩ := within_adjustChoice h.2.1 h.2.2
      rw [adjust]
      exact placed_ofChoice disabled h.1 hwithin hplaced

theorem row_adjustSequence {lo hi : Nat} {nodes : List Node} (hrow : Row lo hi nodes)
    (h : AllPlaced pattern nodes) :
    Row lo hi (adjustSequence nodes) ∧ AllPlaced pattern (adjustSequence nodes) := by
  cases nodes with
  | nil =>
      rw [adjustSequence]
      exact ⟨hrow, trivial⟩
  | cons node nodes =>
      obtain ⟨hnode, hwithin⟩ := placed_adjust h.1
      obtain ⟨hlater, hplaced⟩ := row_adjustSequence hrow.2 h.2
      rw [adjustSequence]
      refine ⟨?_, allPlaced_append.mpr ⟨allPlaced_sequenceItems hnode, hplaced⟩⟩
      exact (row_sequenceItems hnode).mono (hrow.1.trans hwithin.start) hwithin.stop |>.append hlater

theorem within_adjustChoice {source : Extent} {nodes : List Node}
    (hwithin : ∀ node ∈ nodes, node.source.Within source) (h : AllPlaced pattern nodes) :
    (∀ node ∈ adjustChoice nodes, node.source.Within source) ∧
      AllPlaced pattern (adjustChoice nodes) := by
  cases nodes with
  | nil =>
      rw [adjustChoice]
      exact ⟨hwithin, trivial⟩
  | cons node nodes =>
      obtain ⟨hfirst, hrest⟩ := List.forall_mem_cons.mp hwithin
      obtain ⟨hnode, hsource⟩ := placed_adjust h.1
      obtain ⟨hlater, hplaced⟩ := within_adjustChoice hrest h.2
      rw [adjustChoice]
      refine ⟨?_, allPlaced_append.mpr ⟨allPlaced_choiceItems hnode, hplaced⟩⟩
      exact List.forall_mem_append.mpr
        ⟨fun child hchild => ((within_choiceItems hnode child hchild).trans hsource).trans hfirst,
          hlater⟩

end

/-! ## Marking -/

@[simp] theorem source_mark (node : Node) : node.mark.source = node.source := by
  cases node <;> rw [mark] <;> rfl

theorem Row.markAll (h : Row lo hi nodes) : Row lo hi (markAll nodes) := by
  induction nodes generalizing lo with
  | nil => exact h
  | cons node nodes ih =>
      rw [Node.markAll, Row, source_mark]
      exact ⟨h.1, ih h.2⟩

theorem within_markAll {source : Extent} (h : ∀ node ∈ nodes, node.source.Within source) :
    ∀ node ∈ markAll nodes, node.source.Within source := by
  induction nodes with
  | nil => exact h
  | cons node nodes ih =>
      obtain ⟨hfirst, hrest⟩ := List.forall_mem_cons.mp h
      rw [Node.markAll]
      exact List.forall_mem_cons.mpr ⟨source_mark node ▸ hfirst, ih hrest⟩

mutual

theorem placed_mark {node : Node} (h : node.Placed pattern) : node.mark.Placed pattern := by
  cases node with
  | literal bytes source => rwa [mark]
  | gap source => rwa [mark]
  | sequence children hollow source =>
      rw [mark]
      exact ⟨h.1, h.2.1.markAll, allPlaced_markAll h.2.2⟩
  | choice children disabled source =>
      rw [mark]
      exact ⟨h.1, within_markAll h.2.1, allPlaced_markAll h.2.2⟩

theorem allPlaced_markAll {nodes : List Node} (h : AllPlaced pattern nodes) :
    AllPlaced pattern (markAll nodes) := by
  cases nodes with
  | nil => rw [markAll]; exact trivial
  | cons node nodes =>
      rw [markAll]
      exact ⟨placed_mark h.1, allPlaced_markAll h.2⟩

end

/-! ## Joining literals -/

/-- A run takes the place of its literals, from the start of the first to the stop of the last. -/
theorem row_joinLiterals {run : Option Run} (hrow : Row lo hi (runLiteral run ++ nodes))
    (h : AllPlaced pattern (runLiteral run ++ nodes)) :
    Row lo hi (joinLiterals run nodes) ∧ AllPlaced pattern (joinLiterals run nodes) := by
  fun_induction joinLiterals run nodes generalizing lo with
  | case1 => exact ⟨hrow, h⟩
  | case2 run => exact ⟨hrow, h⟩
  | case3 bytes source nodes ih => exact ih hrow h
  | case4 run bytes source nodes ih =>
      obtain ⟨hrun, hnext, hlater⟩ := h
      have hle := (hrun.1.le.trans hrow.2.1).trans hnext.1.le
      refine ih ⟨hrow.1, hrow.2.2⟩ ⟨⟨⟨hle, hrun.1.start, hnext.1.stop⟩, ?_⟩, hlater⟩
      exact hrun.2.append hnext.2
  | case5 node nodes hnode ih =>
      obtain ⟨hlater, hplaced⟩ := ih hrow.2 h.2
      exact ⟨⟨hrow.1, hlater⟩, ⟨h.1, hplaced⟩⟩
  | case6 run node nodes hnode ih =>
      obtain ⟨hlater, hplaced⟩ := ih hrow.2.2 h.2.2
      exact ⟨⟨hrow.1, hrow.2.1, hlater⟩, ⟨h.1, h.2.1, hplaced⟩⟩

theorem placed_ofMerged {source : Extent} (hollow : Bool) (hsource : source.Placed pattern)
    (hrow : Row source.start source.stop nodes) (h : AllPlaced pattern nodes) :
    (ofMerged hollow source nodes).Placed pattern ∧
      (ofMerged hollow source nodes).source.Within source := by
  match nodes, hrow, h with
  | [], hrow, h => exact ⟨⟨hsource, hrow, h⟩, .refl _⟩
  | [_], hrow, h => exact ⟨h.1, hrow.within h List.mem_cons_self⟩
  | _ :: _ :: _, hrow, h => exact ⟨⟨hsource, hrow, h⟩, .refl _⟩

mutual

theorem placed_mergeLiterals {node : Node} (h : node.Placed pattern) :
    node.mergeLiterals.Placed pattern ∧ node.mergeLiterals.source.Within node.source := by
  cases node with
  | literal bytes source =>
      rw [mergeLiterals]
      exact ⟨h, .refl _⟩
  | gap source =>
      rw [mergeLiterals]
      exact ⟨h, .refl _⟩
  | sequence children hollow source =>
      obtain ⟨hmerged, hplaced⟩ := row_mergeAll h.2.1 h.2.2
      obtain ⟨hrow, hjoined⟩ : Row source.start source.stop (joinLiterals none (mergeAll children)) ∧
          AllPlaced pattern (joinLiterals none (mergeAll children)) :=
        row_joinLiterals hmerged hplaced
      rw [mergeLiterals]
      exact placed_ofMerged hollow h.1 hrow hjoined
  | choice children disabled source =>
      obtain ⟨hwithin, hplaced⟩ := within_mergeAll h.2.1 h.2.2
      rw [mergeLiterals]
      exact ⟨⟨h.1, hwithin, hplaced⟩, .refl _⟩

theorem row_mergeAll {lo hi : Nat} {nodes : List Node} (hrow : Row lo hi nodes)
    (h : AllPlaced pattern nodes) :
    Row lo hi (mergeAll nodes) ∧ AllPlaced pattern (mergeAll nodes) := by
  cases nodes with
  | nil =>
      rw [mergeAll]
      exact ⟨hrow, trivial⟩
  | cons node nodes =>
      obtain ⟨hnode, hwithin⟩ := placed_mergeLiterals h.1
      obtain ⟨hlater, hplaced⟩ := row_mergeAll hrow.2 h.2
      rw [mergeAll]
      exact ⟨⟨hrow.1.trans hwithin.start, hlater.mono hwithin.stop (Nat.le_refl _)⟩, hnode, hplaced⟩

theorem within_mergeAll {source : Extent} {nodes : List Node}
    (hwithin : ∀ node ∈ nodes, node.source.Within source) (h : AllPlaced pattern nodes) :
    (∀ node ∈ mergeAll nodes, node.source.Within source) ∧
      AllPlaced pattern (mergeAll nodes) := by
  cases nodes with
  | nil =>
      rw [mergeAll]
      exact ⟨hwithin, trivial⟩
  | cons node nodes =>
      obtain ⟨hfirst, hrest⟩ := List.forall_mem_cons.mp hwithin
      obtain ⟨hnode, hsource⟩ := placed_mergeLiterals h.1
      obtain ⟨hlater, hplaced⟩ := within_mergeAll hrest h.2
      rw [mergeAll]
      exact ⟨List.forall_mem_cons.mpr ⟨hsource.trans hfirst, hlater⟩, hnode, hplaced⟩

end

theorem kept_placed (pattern : String) : Kept (Placed pattern) where
  adjust := fun h => (placed_adjust h).1
  mark := placed_mark
  mergeLiterals := fun h => (placed_mergeLiterals h).1

end Node

end LiteralSieve
