import LiteralSieve.Proofs.Pattern.Extents
import LiteralSieve.Store.Pool

namespace LiteralSieve

/-!
# Forests

A tree can be kept in slots: each node takes one, numbered in the order in which the nodes are made,
and knows its children by their numbers. The bytes of all literals stand in one buffer, where each
literal has a span. A forest holds a tree at a slot if the slots from there on have the shape of the
tree; the slots that they are make up its print. Two trees with prints apart can be changed without
regard to each other. Numbers and spans are not bounded here.
-/

/-- What a node is, as its slot tells. -/
inductive SlotKind where
  | leaf
  | sequence
  | choice
deriving DecidableEq, Inhabited

/-- A slot names its children by their slots; one of the lists is empty. The bytes of a literal are
those of its span. -/
structure Slot where
  sequence : List Nat
  choice : List Nat
  span : Extent
  source : Extent
  leaf : Bool
  disabled : Bool
  hollow : Bool
deriving DecidableEq, Inhabited

namespace Slot

def ofLiteral (span source : Extent) : Slot := ⟨[], [], span, source, true, false, false⟩

def ofGap (source : Extent) : Slot := ⟨[], [], ⟨0, 0⟩, source, true, true, false⟩

def ofSequence (ids : List Nat) (hollow : Bool) (source : Extent) : Slot :=
  ⟨ids, [], ⟨0, 0⟩, source, false, false, hollow⟩

def ofChoice (ids : List Nat) (disabled : Bool) (source : Extent) : Slot :=
  ⟨[], ids, ⟨0, 0⟩, source, false, disabled, false⟩

def kind (slot : Slot) : SlotKind :=
  if slot.leaf then .leaf else if slot.choice.isEmpty then .sequence else .choice

def children (slot : Slot) : List Nat :=
  match slot.kind with
  | .leaf => []
  | .sequence => slot.sequence
  | .choice => slot.choice

/-- All slots that a slot names. -/
def links (slot : Slot) : List Nat := slot.sequence ++ slot.choice

def isLiteral (slot : Slot) : Bool := slot.leaf && !slot.disabled

@[simp] theorem kind_ofSequence (ids : List Nat) (hollow : Bool) (source : Extent) :
    (ofSequence ids hollow source).kind = .sequence := rfl

theorem kind_ofChoice {ids : List Nat} (h : ids ≠ []) (disabled : Bool) (source : Extent) :
    (ofChoice ids disabled source).kind = .choice := by
  cases ids with
  | nil => exact absurd rfl h
  | cons id ids => rfl

@[simp] theorem children_ofSequence (ids : List Nat) (hollow : Bool) (source : Extent) :
    (ofSequence ids hollow source).children = ids := rfl

theorem children_ofChoice {ids : List Nat} (h : ids ≠ []) (disabled : Bool) (source : Extent) :
    (ofChoice ids disabled source).children = ids := by
  rw [children, kind_ofChoice h]
  rfl

end Slot

structure Forest where
  slots : Pool Slot
  buffer : Bytes

namespace Forest

def empty : Forest := ⟨.empty, []⟩

def size (forest : Forest) : Nat := forest.slots.size

def slot? (forest : Forest) (id : Nat) : Option Slot := forest.slots.get? id

/-- The bytes that a span covers. -/
def bytesAt (forest : Forest) (span : Extent) : Bytes :=
  (forest.buffer.drop span.start).take (span.stop - span.start)

/-- The bytes of the literal in a slot. -/
def literalAt (forest : Forest) (id : Nat) : Bytes :=
  ((forest.slot? id).map fun slot => forest.bytesAt slot.span).getD []

def sourceAt (forest : Forest) (id : Nat) : Extent :=
  ((forest.slot? id).map Slot.source).getD ⟨0, 0⟩

/-- A new slot, which gets the number `forest.size`. -/
def add (forest : Forest) (slot : Slot) : Forest := { forest with slots := forest.slots.push slot }

/-- A new literal; only one that is not empty takes a span. -/
def addLiteral (forest : Forest) (bytes : Bytes) (source : Extent) : Forest :=
  let start := if bytes.isEmpty then 0 else forest.buffer.length
  ⟨forest.slots.push (.ofLiteral ⟨start, start + bytes.length⟩ source), forest.buffer ++ bytes⟩

/-- A new choice, which is the empty literal if there is nothing to choose from. -/
def addChoice (forest : Forest) (ids : List Nat) (disabled : Bool) (source : Extent) : Forest :=
  if ids.isEmpty then forest.addLiteral [] source else forest.add (.ofChoice ids disabled source)

/-- A slot gets other contents. -/
def modify (forest : Forest) (id : Nat) (f : Slot → Slot) : Forest :=
  { forest with slots := forest.slots.modify id f }

mutual

/-- The forest with a tree added, children first, and the slot of its root. -/
def store (forest : Forest) : Node → Forest × Nat
  | .literal bytes source => (forest.addLiteral bytes source, forest.size)
  | .gap source => (forest.add (.ofGap source), forest.size)
  | .sequence children hollow source =>
    let (forest, ids) := forest.storeAll children
    (forest.add (.ofSequence ids hollow source), forest.size)
  | .choice children disabled source =>
    let (forest, ids) := forest.storeAll children
    (forest.addChoice ids disabled source, forest.size)

def storeAll (forest : Forest) : List Node → Forest × List Nat
  | [] => (forest, [])
  | node :: nodes =>
    let (forest, id) := forest.store node
    let (forest, ids) := forest.storeAll nodes
    (forest, id :: ids)

end

variable {forest : Forest} {id : Nat} {slot : Slot}

theorem lt_size_of_slot? (h : forest.slot? id = some slot) : id < forest.size :=
  Pool.lt_size_of_get? h

@[simp] theorem size_add (forest : Forest) (slot : Slot) :
    (forest.add slot).size = forest.size + 1 :=
  Pool.size_push _ _

@[simp] theorem size_addLiteral (forest : Forest) (bytes : Bytes) (source : Extent) :
    (forest.addLiteral bytes source).size = forest.size + 1 :=
  Pool.size_push _ _

@[simp] theorem size_addChoice (forest : Forest) (ids : List Nat) (disabled : Bool)
    (source : Extent) : (forest.addChoice ids disabled source).size = forest.size + 1 := by
  rw [addChoice]
  split
  · exact size_addLiteral _ _ _
  · exact size_add _ _

@[simp] theorem size_modify (forest : Forest) (id : Nat) (f : Slot → Slot) :
    (forest.modify id f).size = forest.size :=
  Pool.size_modify _ _ _

theorem slot?_modify (forest : Forest) (id other : Nat) (f : Slot → Slot) :
    (forest.modify id f).slot? other =
      if id = other then (forest.slot? other).map f else forest.slot? other :=
  Pool.get?_modify _ _ _ _

theorem slot?_modify_self (h : forest.slot? id = some slot) (f : Slot → Slot) :
    (forest.modify id f).slot? id = some (f slot) := by
  rw [slot?_modify, if_pos rfl, h, Option.map_some]

mutual

theorem size_store (forest : Forest) (node : Node) :
    (forest.store node).1.size = forest.size + node.size := by
  cases node with
  | literal bytes source => rw [store, size_addLiteral, Node.size]
  | gap source => rw [store, size_add, Node.size]
  | sequence children hollow source =>
      rw [store, size_add, size_storeAll, Node.size, Nat.add_assoc]
  | choice children disabled source =>
      rw [store, size_addChoice, size_storeAll, Node.size, Nat.add_assoc]

theorem size_storeAll (forest : Forest) (nodes : List Node) :
    (forest.storeAll nodes).1.size = forest.size + Node.sizeAll nodes := by
  cases nodes with
  | nil => rw [storeAll, Node.sizeAll, Nat.add_zero]
  | cons node nodes =>
      rw [storeAll, size_storeAll, size_store, Node.sizeAll, Nat.add_assoc]

end

/-! ## Spans -/

/-- The span covers these bytes of the buffer. -/
def Reads (forest : Forest) (span : Extent) (bytes : Bytes) : Prop :=
  ∃ before after, before ++ bytes ++ after = forest.buffer ∧
    span = ⟨before.length, before.length + bytes.length⟩

theorem reads_nil (forest : Forest) : forest.Reads ⟨0, 0⟩ [] :=
  ⟨[], forest.buffer, rfl, rfl⟩

variable {span : Extent} {bytes : Bytes}

theorem Reads.mono {after : Forest} (h : forest.Reads span bytes)
    (hbuffer : forest.buffer <+: after.buffer) : after.Reads span bytes := by
  obtain ⟨before, behind, hsplit, hspan⟩ := h
  obtain ⟨more, hmore⟩ := hbuffer
  exact ⟨before, behind ++ more, by rw [← List.append_assoc, hsplit, hmore], hspan⟩

theorem Reads.bytesAt_eq (h : forest.Reads span bytes) : forest.bytesAt span = bytes := by
  obtain ⟨before, behind, hsplit, rfl⟩ := h
  rw [bytesAt, ← hsplit, List.append_assoc, Nat.add_sub_cancel_left, List.drop_left, List.take_left]

theorem Reads.le (h : forest.Reads span bytes) :
    span.start ≤ span.stop ∧ span.stop ≤ forest.buffer.length := by
  obtain ⟨before, behind, hsplit, rfl⟩ := h
  rw [← hsplit, List.length_append, List.length_append]
  exact ⟨Nat.le_add_right _ _, Nat.le_add_right _ _⟩

theorem reads_addLiteral (forest : Forest) (bytes : Bytes) (source : Extent) :
    ∃ span, (forest.addLiteral bytes source).slot? forest.size = some (.ofLiteral span source) ∧
      (forest.addLiteral bytes source).Reads span bytes := by
  refine ⟨_, (Pool.get?_push _ _ _).trans (if_pos rfl), ?_⟩
  cases bytes with
  | nil => exact reads_nil _
  | cons b bytes => exact ⟨forest.buffer, [], List.append_nil _, rfl⟩

/-! ## Held trees -/

mutual

/-- The forest has the tree at the slot. The print lists the slots from there on. -/
inductive Holds (forest : Forest) : Nat → Node → List Nat → Prop
  | literal {id : Nat} {span : Extent} {bytes : Bytes} {source : Extent}
      (hslot : forest.slot? id = some (.ofLiteral span source))
      (hreads : forest.Reads span bytes) : Holds forest id (.literal bytes source) [id]
  | gap {id : Nat} {source : Extent} (hslot : forest.slot? id = some (.ofGap source)) :
      Holds forest id (.gap source) [id]
  | sequence {id : Nat} {ids : List Nat} {children : List Node} {hollow : Bool} {source : Extent}
      {print : List Nat} (hslot : forest.slot? id = some (.ofSequence ids hollow source))
      (hchildren : HoldsAll forest ids children print) :
      Holds forest id (.sequence children hollow source) (id :: print)
  | choice {id : Nat} {ids : List Nat} {children : List Node} {disabled : Bool} {source : Extent}
      {print : List Nat} (hslot : forest.slot? id = some (.ofChoice ids disabled source))
      (hne : ids ≠ []) (hchildren : HoldsAll forest ids children print) :
      Holds forest id (.choice children disabled source) (id :: print)

inductive HoldsAll (forest : Forest) : List Nat → List Node → List Nat → Prop
  | nil : HoldsAll forest [] [] []
  | cons {id : Nat} {ids : List Nat} {node : Node} {nodes : List Node} {first later : List Nat}
      (hnode : Holds forest id node first) (hnodes : HoldsAll forest ids nodes later) :
      HoldsAll forest (id :: ids) (node :: nodes) (first ++ later)

end

variable {after : Forest} {node : Node} {nodes : List Node} {ids print : List Nat}

theorem HoldsAll.append {ids' : List Nat} {nodes' : List Node} {print' : List Nat}
    (h : HoldsAll forest ids nodes print) (h' : HoldsAll forest ids' nodes' print') :
    HoldsAll forest (ids ++ ids') (nodes ++ nodes') (print ++ print') := by
  induction nodes generalizing ids print with
  | nil =>
      cases h
      exact h'
  | cons node nodes ih =>
      cases h with
      | cons hnode hnodes =>
          rw [List.append_assoc]
          exact .cons hnode (ih hnodes)

theorem Holds.all (h : Holds forest id node print) : HoldsAll forest [id] [node] print := by
  have hall := HoldsAll.cons h .nil
  rwa [List.append_nil] at hall

theorem HoldsAll.single (h : HoldsAll forest [id] [node] print) : Holds forest id node print := by
  cases h with
  | cons hnode hnodes =>
      cases hnodes
      rwa [List.append_nil]

theorem HoldsAll.length_eq (h : HoldsAll forest ids nodes print) : ids.length = nodes.length := by
  induction nodes generalizing ids print with
  | nil =>
      cases h
      rfl
  | cons node nodes ih =>
      cases h with
      | cons hnode hnodes => rw [List.length_cons, List.length_cons, ih hnodes]

theorem HoldsAll.isEmpty_iff (h : HoldsAll forest ids nodes print) :
    ids.isEmpty ↔ nodes.isEmpty := by
  rw [List.isEmpty_iff_length_eq_zero, List.isEmpty_iff_length_eq_zero, h.length_eq]

/-- What the slot of a node says about the node. -/
theorem Holds.exists_slot (h : Holds forest id node print) :
    ∃ slot below, forest.slot? id = some slot ∧ slot.source = node.source ∧
      HoldsAll forest slot.links node.children below ∧ print = id :: below := by
  cases h with
  | literal hslot hreads => exact ⟨_, [], hslot, rfl, .nil, rfl⟩
  | gap hslot => exact ⟨_, [], hslot, rfl, .nil, rfl⟩
  | @sequence _ ids _ _ _ below hslot hchildren =>
      refine ⟨_, below, hslot, rfl, ?_, rfl⟩
      rw [Slot.links, Slot.ofSequence, List.append_nil]
      exact hchildren
  | choice hslot hne hchildren => exact ⟨_, _, hslot, rfl, hchildren, rfl⟩

theorem Holds.children_eq (h : Holds forest id node print) (hslot : forest.slot? id = some slot) :
    slot.children = slot.links := by
  cases h with
  | literal hfound hreads => exact Option.some.inj (hslot.symm.trans hfound) ▸ rfl
  | gap hfound => exact Option.some.inj (hslot.symm.trans hfound) ▸ rfl
  | sequence hfound hchildren =>
      exact Option.some.inj (hslot.symm.trans hfound) ▸ (List.append_nil _).symm
  | choice hfound hne hchildren =>
      exact Option.some.inj (hslot.symm.trans hfound) ▸ Slot.children_ofChoice hne _ _

theorem Holds.sourceAt_eq (h : Holds forest id node print) : forest.sourceAt id = node.source := by
  obtain ⟨slot, below, hslot, hsource, -⟩ := h.exists_slot
  rw [sourceAt, hslot, Option.map_some, Option.getD_some, hsource]

theorem HoldsAll.map_sourceAt (h : HoldsAll forest ids nodes print) :
    ids.map forest.sourceAt = nodes.map Node.source := by
  induction nodes generalizing ids print with
  | nil =>
      cases h
      rfl
  | cons node nodes ih =>
      cases h with
      | cons hnode hnodes => rw [List.map_cons, List.map_cons, ih hnodes, hnode.sourceAt_eq]

theorem Holds.lt_size (h : Holds forest id node print) : id < forest.size := by
  cases h with
  | literal hslot hreads => exact lt_size_of_slot? hslot
  | gap hslot => exact lt_size_of_slot? hslot
  | sequence hslot hchildren => exact lt_size_of_slot? hslot
  | choice hslot hne hchildren => exact lt_size_of_slot? hslot

mutual

theorem Holds.print_lt {id : Nat} {node : Node} {print : List Nat}
    (h : Holds forest id node print) : ∀ other ∈ print, other < forest.size := by
  have hid := h.lt_size
  cases h with
  | literal hslot hreads => exact List.forall_mem_singleton.mpr hid
  | gap hslot => exact List.forall_mem_singleton.mpr hid
  | sequence hslot hchildren => exact List.forall_mem_cons.mpr ⟨hid, hchildren.print_lt⟩
  | choice hslot hne hchildren => exact List.forall_mem_cons.mpr ⟨hid, hchildren.print_lt⟩

theorem HoldsAll.print_lt {ids : List Nat} {nodes : List Node} {print : List Nat}
    (h : HoldsAll forest ids nodes print) : ∀ other ∈ print, other < forest.size := by
  cases h with
  | nil => exact List.forall_mem_nil _
  | cons hnode hnodes => exact List.forall_mem_append.mpr ⟨hnode.print_lt, hnodes.print_lt⟩

end

theorem HoldsAll.ids_lt (h : HoldsAll forest ids nodes print) : ∀ id ∈ ids, id < forest.size := by
  induction nodes generalizing ids print with
  | nil =>
      cases h
      exact List.forall_mem_nil _
  | cons node nodes ih =>
      cases h with
      | cons hnode hnodes => exact List.forall_mem_cons.mpr ⟨hnode.lt_size, ih hnodes⟩

mutual

theorem Holds.length_print {id : Nat} {node : Node} {print : List Nat}
    (h : Holds forest id node print) : print.length = node.size := by
  cases h with
  | literal hslot hreads => rw [Node.size, List.length_singleton]
  | gap hslot => rw [Node.size, List.length_singleton]
  | sequence hslot hchildren => rw [Node.size, List.length_cons, hchildren.length_print]
  | choice hslot hne hchildren => rw [Node.size, List.length_cons, hchildren.length_print]

theorem HoldsAll.length_print {ids : List Nat} {nodes : List Node} {print : List Nat}
    (h : HoldsAll forest ids nodes print) : print.length = Node.sizeAll nodes := by
  cases h with
  | nil => rfl
  | cons hnode hnodes =>
      rw [Node.sizeAll, List.length_append, hnode.length_print, hnodes.length_print]

end

end Forest

end LiteralSieve
