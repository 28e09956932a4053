import LiteralSieve.Error
import LiteralSieve.Proofs.Forest.Changes
import LiteralSieve.Proofs.Pattern.Induction

namespace LiteralSieve

/-!
# Flattening and marking in a forest

The passes over a tree are done in place: a node that changes keeps its slot. A walk that meets a
number without a slot, or a leaf with children, or goes deeper than there are slots, finds that the
forest has no tree there. Where the forest holds one, a pass turns it into the tree that the pass
makes of it, and touches no slot outside its print.
-/

namespace Slot

def withChildren (slot : Slot) (kind : SlotKind) (ids : List Nat) : Slot :=
  match kind with
  | .choice => { slot with choice := ids }
  | _ => { slot with sequence := ids }

end Slot

namespace Node

/-- The items that a node gives to a sequence or a choice. -/
def itemsFor : SlotKind → Node → List Node
  | .choice, node => node.choiceItems
  | _, node => node.sequenceItems

def adjustItems (kind : SlotKind) (nodes : List Node) : List Node :=
  nodes.flatMap fun node => node.adjust.itemsFor kind

theorem size_pos (node : Node) : 0 < node.size := by
  cases node <;> exact Nat.succ_pos _

theorem size_le_of_mem {node : Node} {nodes : List Node} (h : node ∈ nodes) :
    node.size ≤ sizeAll nodes := by
  induction nodes with
  | nil => cases h
  | cons first nodes ih =>
      rw [sizeAll]
      rcases List.mem_cons.mp h with rfl | hlater
      · exact Nat.le_add_right _ _
      · exact (ih hlater).trans (Nat.le_add_left _ _)

theorem allHollow_eq_all (nodes : List Node) :
    allHollow nodes = (nodes.map isHollow).all fun mark => mark := by
  induction nodes with
  | nil => rw [allHollow, List.map_nil, List.all_nil]
  | cons node nodes ih => rw [allHollow, ih, List.map_cons, List.all_cons]

theorem anyHollow_eq_any (nodes : List Node) :
    anyHollow nodes = (nodes.map isHollow).any fun mark => mark := by
  induction nodes with
  | nil => rw [anyHollow, List.map_nil, List.any_nil]
  | cons node nodes ih => rw [anyHollow, ih, List.map_cons, List.any_cons]

end Node

namespace Forest

/-! ## The passes -/

/-- The children in place of an enabled node of this kind, the node itself otherwise. -/
def items (forest : Forest) (kind : SlotKind) (id : Nat) : List Nat :=
  match forest.slot? id with
  | none => [id]
  | some slot => if slot.kind = kind && !slot.leaf && !slot.disabled then slot.children else [id]

/-- A node with these items, where one stands for it and none for the empty literal. -/
def settle (forest : Forest) (id : Nat) (kind : SlotKind) : List Nat → Forest × Nat
  | [] => (forest.modify id fun slot => .ofLiteral ⟨0, 0⟩ slot.source, id)
  | [only] => (forest, only)
  | ids => (forest.modify id fun slot => slot.withChildren kind ids, id)

/-- The items of adjusted children. -/
def adjustAll (adjust : Forest → Nat → Except PatternError (Forest × Nat)) (kind : SlotKind) :
    Forest → List Nat → Except PatternError (Forest × List Nat)
  | forest, [] => .ok (forest, [])
  | forest, id :: ids => do
    let (forest, child) ← adjust forest id
    let items := forest.items kind child
    let (forest, later) ← adjustAll adjust kind forest ids
    .ok (forest, items ++ later)

/-- Wrappers go, and nested sequences and choices become one, from a slot on. -/
def adjustAt : Nat → Forest → Nat → Except PatternError (Forest × Nat)
  | 0, _, _ => .error .corruptTree
  | depth + 1, forest, id =>
    match forest.slot? id with
    | none => .error .corruptTree
    | some slot =>
      if slot.leaf then
        if slot.sequence.isEmpty && slot.choice.isEmpty then .ok (forest, id)
        else .error .corruptTree
      else do
        let (forest, items) ← adjustAll (adjustAt depth) slot.kind forest slot.children
        .ok (forest.settle id slot.kind items)

/-- The slots are visited one after the other. -/
def visitEach {α : Type} (visit : Forest → Nat → Except PatternError (Forest × α)) :
    Forest → List Nat → Except PatternError (Forest × List α)
  | forest, [] => .ok (forest, [])
  | forest, id :: ids => do
    let (forest, first) ← visit forest id
    let (forest, later) ← visitEach visit forest ids
    .ok (forest, first :: later)

/-- Every sequence and choice from a slot on gets its mark, and it is known whether the first one has
content. -/
def markAt : Nat → Forest → Nat → Except PatternError (Forest × Bool)
  | 0, _, _ => .error .corruptTree
  | depth + 1, forest, id =>
    match forest.slot? id with
    | none => .error .corruptTree
    | some slot =>
      match slot.kind with
      | .leaf => .ok (forest, slot.disabled)
      | .sequence => do
        let (forest, marks) ← visitEach (markAt depth) forest slot.sequence
        let all := !slot.sequence.isEmpty && marks.all fun mark => mark
        .ok (forest.modify id fun slot => { slot with hollow := all }, all)
      | .choice => do
        let (forest, marks) ← visitEach (markAt depth) forest slot.choice
        let some := marks.any fun mark => mark
        .ok (forest.modify id fun slot => { slot with disabled := slot.disabled || some }, some)

/-! ## Turning trees into trees -/

/-- The nodes take slots of a print and new ones, and what was held there may be gone. -/
structure Turns (before : Forest) (print : List Nat) (after : Forest) (ids : List Nat)
    (nodes : List Node) (made : Nat) (print' : List Nat) : Prop where
  changes : Changes print before after
  size : after.size = before.size + made
  holds : HoldsAll after ids nodes print'
  renews : Renews before.size print print'

variable {before middle after forest : Forest} {first later print print' print'' ids ids' : List Nat}
  {nodes nodes' : List Node} {node : Node} {id made made' : Nat} {slot : Slot}

namespace Turns

theorem refl (h : HoldsAll forest ids nodes print) (hnodup : print.Nodup) :
    Turns forest print forest ids nodes 0 print where
  changes := (Changes.refl forest).mono (List.nil_subset _)
  size := rfl
  holds := h
  renews := .refl hnodup _

theorem mono (h : Turns before print after ids nodes made print'') (hsubset : print ⊆ print') :
    Turns before print' after ids nodes made print'' :=
  ⟨h.changes.mono hsubset, h.size, h.holds, h.renews.mono hsubset⟩

/-- What is held stays as it is where the later change writes nothing. -/
theorem append {first' later' : List Nat} (h : Turns before first middle ids nodes made first')
    (h' : Turns middle later after ids' nodes' made' later') (hnodup : (first ++ later).Nodup)
    (hlater : ∀ id ∈ later, id < before.size) :
    Turns before (first ++ later) after (ids ++ ids') (nodes ++ nodes') (made + made')
      (first' ++ later') := by
  have hdisjoint := List.disjoint_of_nodup_append hnodup
  have hapart : ∀ id ∈ first', id ∉ later := by
    intro id hid hin
    rcases h.renews.mem id hid with hold | hnew
    · exact hdisjoint hold hin
    · exact Nat.not_lt.mpr hnew (hlater id hin)
  refine ⟨(h.changes.mono (List.subset_append_left _ _)).trans h'.changes ?_, ?_,
    (h.holds.frame h'.changes hapart).append h'.holds,
    h.renews.append h'.renews h.changes.size_le h.holds.print_lt hlater hdisjoint⟩
  · exact fun id hid => Or.inl (List.mem_append_right _ hid)
  · rw [h'.size, h.size, Nat.add_assoc]

theorem trans (h : Turns before print middle ids nodes made print')
    (h' : Turns middle print' after ids' nodes' made' print'') :
    Turns before print after ids' nodes' (made + made') print'' :=
  ⟨h.changes.trans h'.changes h.renews.mem, by rw [h'.size, h.size, Nat.add_assoc], h'.holds,
    h.renews.trans h'.renews h.changes.size_le⟩

/-- A slot that was kept out of the change is written last. -/
theorem modify {f : Slot → Slot} (h : Turns before print after ids nodes made print')
    (hold : before.slot? id = some slot) (hout : id ∉ print)
    (hsound : after.Sound → (f slot).Sound after)
    (hnode : ∀ final : Forest, after.buffer <+: final.buffer → final.slot? id = some (f slot) →
      HoldsAll final ids nodes print' → Holds final id node (id :: print')) :
    Turns before (id :: print) (after.modify id f) [id] [node] made (id :: print') := by
  have hlt : id < before.size := lt_size_of_slot? hold
  have hslot : after.slot? id = some slot := (h.changes.kept id hlt hout).trans hold
  have hwrite := Changes.modify hslot hsound
  have hall : HoldsAll (after.modify id f) ids nodes print' :=
    h.holds.frame hwrite fun other hother hin =>
      h.renews.not_mem hout hlt (List.mem_singleton.mp hin ▸ hother)
  refine ⟨(h.changes.mono (List.subset_cons_self _ _)).trans hwrite ?_, ?_, ?_,
    h.renews.cons_old hout hlt⟩
  · exact fun other hother => Or.inl (List.mem_singleton.mp hother ▸ List.mem_cons_self)
  · rw [size_modify, h.size]
  · exact (hnode _ hwrite.buffer (slot?_modify_self hslot f) hall).all

/-- A slot that was kept out of the change needs no writing. -/
theorem keep (h : Turns before print after ids nodes made print')
    (hold : before.slot? id = some slot) (hout : id ∉ print)
    (hnode : after.slot? id = some slot → HoldsAll after ids nodes print' →
      Holds after id node (id :: print')) :
    Turns before (id :: print) after [id] [node] made (id :: print') := by
  have hlt : id < before.size := lt_size_of_slot? hold
  exact ⟨h.changes.mono (List.subset_cons_self _ _), h.size,
    (hnode ((h.changes.kept id hlt hout).trans hold) h.holds).all, h.renews.cons_old hout hlt⟩

end Turns

/-! ## Flattening -/

/-- The items of a node that the forest holds are held too. -/
theorem holdsAll_sequenceItems (h : Holds forest id node print) :
    ∃ print', HoldsAll forest (forest.items .sequence id) node.sequenceItems print' ∧
      print'.Sublist print := by
  have hself := h.all
  cases h with
  | literal hslot hreads =>
      rw [items, hslot]
      exact ⟨_, hself, .refl _⟩
  | gap hslot =>
      rw [items, hslot]
      exact ⟨_, hself, .refl _⟩
  | sequence hslot hchildren =>
      rw [items, hslot]
      exact ⟨_, hchildren, List.sublist_cons_self _ _⟩
  | choice hslot hne hchildren =>
      have hitems : forest.items .sequence id = [id] := by
        simp [items, hslot, Slot.kind_ofChoice hne]
      rw [hitems]
      exact ⟨_, hself, .refl _⟩

theorem holdsAll_choiceItems (h : Holds forest id node print) :
    ∃ print', HoldsAll forest (forest.items .choice id) node.choiceItems print' ∧
      print'.Sublist print := by
  have hself := h.all
  cases h with
  | literal hslot hreads =>
      rw [items, hslot]
      exact ⟨_, hself, .refl _⟩
  | gap hslot =>
      rw [items, hslot]
      exact ⟨_, hself, .refl _⟩
  | sequence hslot hchildren =>
      rw [items, hslot]
      exact ⟨_, hself, .refl _⟩
  | @choice id ids children disabled source print hslot hne hchildren =>
      cases disabled with
      | true =>
          have hitems : forest.items .choice id = [id] := by
            simp [items, hslot, Slot.ofChoice]
          rw [hitems]
          exact ⟨_, hself, .refl _⟩
      | false =>
          have hitems : forest.items .choice id = ids := by
            simp only [items, hslot, Slot.kind_ofChoice hne, Slot.children_ofChoice hne]
            rfl
          rw [hitems]
          exact ⟨_, hchildren, List.sublist_cons_self _ _⟩

theorem holdsAll_items {kind : SlotKind} (hkind : kind ≠ .leaf) (h : Holds forest id node print) :
    ∃ print', HoldsAll forest (forest.items kind id) (node.itemsFor kind) print' ∧
      print'.Sublist print := by
  cases kind with
  | leaf => exact absurd rfl hkind
  | sequence => exact holdsAll_sequenceItems h
  | choice => exact holdsAll_choiceItems h

namespace Turns

variable {olds : List Nat} {hollow disabled : Bool} {source : Extent}

/-- A node of which no item is left is the empty literal. -/
theorem settleNil (h : Turns before print after [] [] made print')
    (hold : before.slot? id = some slot) (hout : id ∉ print) (kind : SlotKind) :
    Turns before (id :: print) (after.settle id kind []).1 [(after.settle id kind []).2]
      [.literal [] slot.source] made (id :: print') := by
  refine h.modify hold hout (fun _ => Slot.sound_ofLiteral (reads_nil _) spelled_nil _) ?_
  intro final hbuffer hslot hall
  cases hall
  exact .literal hslot (reads_nil _)

theorem settleSequence (h : Turns before print after ids nodes made print')
    (hold : before.slot? id = some (.ofSequence olds hollow source)) (hout : id ∉ print) :
    ∃ print'', Turns before (id :: print) (after.settle id .sequence ids).1
      [(after.settle id .sequence ids).2] [.ofSequence hollow source nodes] made print'' := by
  match ids, nodes, h.holds.length_eq with
  | [], [], _ => exact ⟨_, h.settleNil hold hout .sequence⟩
  | [_], [_], _ => exact ⟨_, h.mono (List.subset_cons_self _ _)⟩
  | _ :: _ :: _, _ :: _ :: _, _ =>
      exact ⟨_, h.modify hold hout (fun _ => slotSound_ofSequence h.holds.ids_lt hollow source)
        fun final _ hslot hall => .sequence hslot hall⟩

theorem settleChoice (h : Turns before print after ids nodes made print')
    (hold : before.slot? id = some (.ofChoice olds disabled source)) (hout : id ∉ print) :
    ∃ print'', Turns before (id :: print) (after.settle id .choice ids).1
      [(after.settle id .choice ids).2] [.ofChoice disabled source nodes] made print'' := by
  match ids, nodes, h.holds.length_eq with
  | [], [], _ => exact ⟨_, h.settleNil hold hout .choice⟩
  | [_], [_], _ => exact ⟨_, h.mono (List.subset_cons_self _ _)⟩
  | _ :: _ :: _, _ :: _ :: _, _ =>
      exact ⟨_, h.modify hold hout (fun _ => slotSound_ofChoice h.holds.ids_lt disabled source)
        fun final _ hslot hall => .choice hslot (List.cons_ne_nil _ _) hall⟩

end Turns

theorem adjustAt_sequence {depth : Nat} {hollow : Bool} {source : Extent} {found : List Nat}
    (hslot : forest.slot? id = some (.ofSequence ids hollow source))
    (hvisit : adjustAll (adjustAt depth) .sequence forest ids = .ok (after, found)) :
    adjustAt (depth + 1) forest id = .ok (after.settle id .sequence found) := by
  rw [adjustAt, hslot]
  dsimp only [Slot.kind_ofSequence, Slot.children_ofSequence]
  rw [hvisit]
  rfl

theorem adjustAt_choice {depth : Nat} {disabled : Bool} {source : Extent} {found : List Nat}
    (hslot : forest.slot? id = some (.ofChoice ids disabled source)) (hne : ids ≠ [])
    (hvisit : adjustAll (adjustAt depth) .choice forest ids = .ok (after, found)) :
    adjustAt (depth + 1) forest id = .ok (after.settle id .choice found) := by
  rw [adjustAt, hslot]
  dsimp only
  rw [Slot.kind_ofChoice hne, Slot.children_ofChoice hne, hvisit]
  rfl

/-- What `adjustAt` does at every slot, if the depth is large enough. -/
def Adjusts (depth : Nat) : Prop :=
  ∀ {forest : Forest} {id : Nat} {node : Node} {print : List Nat}, Holds forest id node print →
    print.Nodup → node.size ≤ depth → ∃ after id' print',
      adjustAt depth forest id = .ok (after, id') ∧
        Turns forest print after [id'] [node.adjust] 0 print'

theorem Adjusts.all {depth : Nat} (hdepth : Adjusts depth) {kind : SlotKind} (hkind : kind ≠ .leaf)
    (h : HoldsAll forest ids nodes print) (hnodup : print.Nodup)
    (hsize : Node.sizeAll nodes ≤ depth) :
    ∃ after found print', adjustAll (adjustAt depth) kind forest ids = .ok (after, found) ∧
      Turns forest print after found (Node.adjustItems kind nodes) 0 print' := by
  induction nodes generalizing forest ids print with
  | nil =>
      cases h
      exact ⟨_, _, _, rfl, .refl .nil List.nodup_nil⟩
  | cons node nodes ih =>
      rw [Node.sizeAll] at hsize
      cases h with
      | cons hnode hnodes =>
          obtain ⟨hfirst, hlater, hdisjoint⟩ := List.nodup_append'.mp hnodup
          obtain ⟨middle, child, below, hvisit, hturn⟩ :=
            hdepth hnode hfirst ((Nat.le_add_right _ _).trans hsize)
          obtain ⟨first', hitems, hsub⟩ := holdsAll_items hkind hturn.holds.single
          have hnext := hnodes.frame hturn.changes fun _ hin hout => hdisjoint hout hin
          obtain ⟨after, found, later', hrest, hturns⟩ :=
            ih hnext hlater ((Nat.le_add_left _ _).trans hsize)
          refine ⟨after, middle.items kind child ++ found, first' ++ later', ?_, ?_⟩
          · rw [adjustAll, hvisit]
            dsimp only [bind, Except.bind]
            rw [hrest]
          · exact Turns.append ⟨hturn.changes, hturn.size, hitems, hturn.renews.sublist hsub⟩ hturns
              hnodup hnodes.print_lt

theorem adjusts (depth : Nat) : Adjusts depth := by
  intro forest id node print h hnodup hsize
  induction depth generalizing forest id node print with
  | zero => exact absurd hsize (Nat.not_le.mpr (Node.size_pos node))
  | succ depth ih =>
      cases h with
      | literal hslot hreads =>
          rw [Node.adjust]
          refine ⟨forest, id, _, ?_, .refl (Holds.literal hslot hreads).all hnodup⟩
          rw [adjustAt, hslot]
          rfl
      | gap hslot =>
          rw [Node.adjust]
          refine ⟨forest, id, _, ?_, .refl (Holds.gap hslot).all hnodup⟩
          rw [adjustAt, hslot]
          rfl
      | sequence hslot hchildren =>
          have hkind : SlotKind.sequence ≠ .leaf := by decide
          obtain ⟨hout, hbelow⟩ := List.nodup_cons.mp hnodup
          obtain ⟨after, found, print', hvisit, hturns⟩ :=
            Adjusts.all ih hkind hchildren hbelow (Nat.le_of_succ_le_succ hsize)
          obtain ⟨print'', hsettle⟩ := hturns.settleSequence hslot hout
          rw [Node.adjust, Node.adjustSequence_eq_flatMap]
          exact ⟨_, _, print'', adjustAt_sequence hslot hvisit, hsettle⟩
      | choice hslot hne hchildren =>
          have hkind : SlotKind.choice ≠ .leaf := by decide
          obtain ⟨hout, hbelow⟩ := List.nodup_cons.mp hnodup
          obtain ⟨after, found, print', hvisit, hturns⟩ :=
            Adjusts.all ih hkind hchildren hbelow (Nat.le_of_succ_le_succ hsize)
          obtain ⟨print'', hsettle⟩ := hturns.settleChoice hslot hout
          rw [Node.adjust, Node.adjustChoice_eq_flatMap]
          exact ⟨_, _, print'', adjustAt_choice hslot hne hvisit, hsettle⟩

/-! ## Marking -/

/-- What a visit that keeps every slot in its place does, if the depth is large enough. -/
def Visits {α : Type} (visit : Forest → Nat → Except PatternError (Forest × α)) (depth : Nat)
    (turn : Node → Node) (cost : Node → Nat) (result : Node → α) : Prop :=
  ∀ {forest : Forest} {id : Nat} {node : Node} {print : List Nat}, Holds forest id node print →
    print.Nodup → node.size ≤ depth → ∃ after print', visit forest id = .ok (after, result node) ∧
      Turns forest print after [id] [turn node] (cost node) print'

theorem Visits.each {α : Type} {visit : Forest → Nat → Except PatternError (Forest × α)}
    {depth : Nat} {turn : Node → Node} {cost : Node → Nat} {result : Node → α}
    (hvisits : Visits visit depth turn cost result) (h : HoldsAll forest ids nodes print)
    (hnodup : print.Nodup) (hsize : Node.sizeAll nodes ≤ depth) :
    ∃ after print', visitEach visit forest ids = .ok (after, nodes.map result) ∧
      Turns forest print after ids (nodes.map turn) (nodes.map cost).sum print' := by
  induction nodes generalizing forest ids print with
  | nil =>
      cases h
      exact ⟨_, _, rfl, .refl .nil List.nodup_nil⟩
  | cons node nodes ih =>
      rw [Node.sizeAll] at hsize
      cases h with
      | cons hnode hnodes =>
          obtain ⟨hfirst, hlater, hdisjoint⟩ := List.nodup_append'.mp hnodup
          obtain ⟨middle, first', hvisit, hturn⟩ :=
            hvisits hnode hfirst ((Nat.le_add_right _ _).trans hsize)
          have hnext := hnodes.frame hturn.changes fun _ hin hout => hdisjoint hout hin
          obtain ⟨after, later', hrest, hturns⟩ :=
            ih hnext hlater ((Nat.le_add_left _ _).trans hsize)
          refine ⟨after, first' ++ later', ?_, hturn.append hturns hnodup hnodes.print_lt⟩
          rw [visitEach, hvisit]
          dsimp only [bind, Except.bind]
          rw [hrest]
          rfl

theorem markAt_sequence {depth : Nat} {hollow : Bool} {source : Extent} {marks : List Bool}
    (hslot : forest.slot? id = some (.ofSequence ids hollow source))
    (hvisit : visitEach (markAt depth) forest ids = .ok (after, marks)) :
    let all := !ids.isEmpty && marks.all fun mark => mark
    markAt (depth + 1) forest id =
      .ok (after.modify id fun slot => { slot with hollow := all }, all) := by
  have hseen : visitEach (markAt depth) forest (Slot.ofSequence ids hollow source).sequence =
      .ok (after, marks) := hvisit
  rw [markAt, hslot]
  dsimp only [Slot.kind_ofSequence]
  rw [hseen]
  rfl

theorem markAt_choice {depth : Nat} {disabled : Bool} {source : Extent} {marks : List Bool}
    (hslot : forest.slot? id = some (.ofChoice ids disabled source)) (hne : ids ≠ [])
    (hvisit : visitEach (markAt depth) forest ids = .ok (after, marks)) :
    let some := marks.any fun mark => mark
    markAt (depth + 1) forest id =
      .ok (after.modify id fun slot => { slot with disabled := slot.disabled || some }, some) := by
  have hseen : visitEach (markAt depth) forest (Slot.ofChoice ids disabled source).choice =
      .ok (after, marks) := hvisit
  rw [markAt, hslot]
  dsimp only
  rw [Slot.kind_ofChoice hne]
  dsimp only
  rw [hseen]
  rfl

theorem visits_markAt (depth : Nat) :
    Visits (markAt depth) depth Node.mark (fun _ => 0) Node.isHollow := by
  intro forest id node print h hnodup hsize
  induction depth generalizing forest id node print with
  | zero => exact absurd hsize (Nat.not_le.mpr (Node.size_pos node))
  | succ depth ih =>
      cases h with
      | literal hslot hreads =>
          rw [Node.mark, Node.isHollow]
          refine ⟨forest, _, ?_, .refl (Holds.literal hslot hreads).all hnodup⟩
          rw [markAt, hslot]
          rfl
      | gap hslot =>
          rw [Node.mark, Node.isHollow]
          refine ⟨forest, _, ?_, .refl (Holds.gap hslot).all hnodup⟩
          rw [markAt, hslot]
          rfl
      | sequence hslot hchildren =>
          obtain ⟨hout, hbelow⟩ := List.nodup_cons.mp hnodup
          obtain ⟨after, print', hvisit, hturns⟩ :=
            Visits.each ih hchildren hbelow (Nat.le_of_succ_le_succ hsize)
          have hempty := Bool.eq_iff_iff.mpr (hchildren.isEmpty_iff)
          rw [List.sum_map_zero, ← Node.markAll_eq_map] at hturns
          rw [Node.mark, Node.isHollow, Node.allHollow_eq_all, ← hempty]
          exact ⟨_, _, markAt_sequence hslot hvisit, hturns.modify hslot hout
            (fun _ => slotSound_ofSequence hturns.holds.ids_lt _ _)
            fun final _ hslot hall => .sequence hslot hall⟩
      | choice hslot hne hchildren =>
          obtain ⟨hout, hbelow⟩ := List.nodup_cons.mp hnodup
          obtain ⟨after, print', hvisit, hturns⟩ :=
            Visits.each ih hchildren hbelow (Nat.le_of_succ_le_succ hsize)
          rw [List.sum_map_zero, ← Node.markAll_eq_map] at hturns
          rw [Node.mark, Node.isHollow, Node.anyHollow_eq_any]
          exact ⟨_, _, markAt_choice hslot hne hvisit, hturns.modify hslot hout
            (fun _ => slotSound_ofChoice hturns.holds.ids_lt _ _)
            fun final _ hslot hall => .choice hslot hne hall⟩

end Forest

end LiteralSieve
