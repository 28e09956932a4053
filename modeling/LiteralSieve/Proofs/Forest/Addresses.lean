import LiteralSieve.Proofs.Forest.Changes

namespace LiteralSieve

/-!
# Addresses in a forest

The address of a node lists the positions of the children on the way down to it. A tree whose print
has no repetitions is a tree indeed: no slot has two addresses. With what its nodes say about their
places in the pattern, this makes the forest well-formed below the root.
-/

namespace Node

variable {pattern : String} {node : Node} {nodes : List Node} {lo hi : Nat}

theorem Placed.children (h : node.Placed pattern) : AllPlaced pattern node.children := by
  cases node with
  | literal bytes source => exact trivial
  | gap source => exact trivial
  | sequence children hollow source => exact h.2.2
  | choice children disabled source => exact h.2.2

theorem Placed.within (h : node.Placed pattern) :
    ∀ child ∈ node.children, child.source.Within node.source := by
  cases node with
  | literal bytes source => exact List.forall_mem_nil _
  | gap source => exact List.forall_mem_nil _
  | sequence children hollow source => exact fun _ hchild => h.2.1.within h.2.2 hchild
  | choice children disabled source => exact h.2.1

/-- Whoever stands later in a row starts where the others have stopped. -/
theorem Row.pairwise (h : Row lo hi nodes) (hplaced : AllPlaced pattern nodes) :
    (nodes.map Node.source).Pairwise fun x y => x.stop ≤ y.start := by
  induction nodes generalizing lo with
  | nil => exact .nil
  | cons node nodes ih =>
      refine .cons ?_ (ih h.2 hplaced.2)
      intro source hsource
      obtain ⟨later, hlater, rfl⟩ := List.mem_map.mp hsource
      exact (h.2.within hplaced.2 hlater).start

end Node

namespace Forest

/-- The slot at an address below another slot. -/
def follow (forest : Forest) (id : Nat) : List Nat → Option Nat
  | [] => some id
  | i :: address => do
    let slot ← forest.slot? id
    let child ← slot.links[i]?
    forest.follow child address

/-- What it means that a forest has a tree for a pattern below a root. -/
structure WellFormed (forest : Forest) (pattern : String) (root : Nat) : Prop where
  /-- Every child of every slot is there. -/
  links : ∀ id slot, forest.slot? id = some slot → ∀ child ∈ slot.links, child < forest.size
  /-- The span of every slot lies in the buffer, and what it covers is text. -/
  span : ∀ id slot, forest.slot? id = some slot → slot.span.start ≤ slot.span.stop ∧
    slot.span.stop ≤ forest.buffer.length ∧
    (forest.bytesAt slot.span).toByteArray.IsValidUTF8
  /-- What is below the root is there, and in one place only. -/
  address : ∀ p id, forest.follow root p = some id → id < forest.size ∧
    ∀ q, forest.follow root q = some id → q = p
  /-- The source of a node is a part of the pattern, between two characters at both ends. -/
  source : ∀ p id slot, forest.follow root p = some id → forest.slot? id = some slot →
    slot.source.start ≤ slot.source.stop ∧ slot.source.stop ≤ pattern.utf8ByteSize ∧
    Boundary pattern slot.source.start ∧ Boundary pattern slot.source.stop
  /-- A child has a part of what its parent has. -/
  within : ∀ p id slot, forest.follow root p = some id → forest.slot? id = some slot →
    ∀ child ∈ slot.links, (forest.sourceAt child).Within slot.source
  /-- The children of a sequence stand one after the other. -/
  order : ∀ p id slot, forest.follow root p = some id → forest.slot? id = some slot →
    (slot.sequence.map forest.sourceAt).Pairwise fun x y => x.stop ≤ y.start

variable {forest : Forest} {pattern : String} {id other child i j : Nat} {address p q ids : List Nat}
  {print : List Nat} {node : Node} {nodes : List Node}

theorem follow_cons : forest.follow id (i :: address) = some other ↔
    ∃ slot child, forest.slot? id = some slot ∧ slot.links[i]? = some child ∧
      forest.follow child address = some other := by
  simp only [follow, Option.bind_eq_bind, Option.bind_eq_some_iff]
  constructor
  · rintro ⟨slot, hslot, child, hchild, hfollow⟩
    exact ⟨slot, child, hslot, hchild, hfollow⟩
  · rintro ⟨slot, child, hslot, hchild, hfollow⟩
    exact ⟨slot, hslot, child, hchild, hfollow⟩

theorem HoldsAll.exists_of_getElem? (h : HoldsAll forest ids nodes print)
    (hchild : ids[i]? = some child) :
    ∃ node ∈ nodes, ∃ print', Holds forest child node print' ∧ print'.Sublist print := by
  induction nodes generalizing ids print i with
  | nil =>
      cases h
      cases hchild
  | cons node nodes ih =>
      cases h with
      | cons hnode hnodes =>
          cases i with
          | zero =>
              obtain rfl := Option.some.inj hchild
              exact ⟨node, List.mem_cons_self, _, hnode, List.sublist_append_left _ _⟩
          | succ i =>
              obtain ⟨found, hfound, print', hholds, hsub⟩ := ih hnodes hchild
              exact ⟨found, List.mem_cons_of_mem _ hfound, print', hholds,
                hsub.trans (List.sublist_append_right _ _)⟩

theorem HoldsAll.forall₂ {R : Nat → Node → Prop} (h : HoldsAll forest ids nodes print)
    (hR : ∀ {id : Nat} {node : Node} {print : List Nat}, Holds forest id node print →
      node ∈ nodes → R id node) : List.Forall₂ R ids nodes := by
  induction nodes generalizing ids print with
  | nil =>
      cases h
      exact .nil
  | cons node nodes ih =>
      cases h with
      | cons hnode hnodes =>
          refine .cons (hR hnode List.mem_cons_self) (ih hnodes fun hholds hmem => ?_)
          exact hR hholds (List.mem_cons_of_mem _ hmem)

/-- Whatever is below a held node is held, with every property that goes down to children. -/
theorem Holds.exists_of_follow {Q : Node → Prop}
    (hQ : ∀ {node : Node}, Q node → ∀ child ∈ node.children, Q child)
    (h : Holds forest id node print) (hnode : Q node)
    (hfollow : forest.follow id address = some other) :
    ∃ node' print', Holds forest other node' print' ∧ Q node' ∧ print'.Sublist print := by
  induction address generalizing id node print with
  | nil =>
      obtain rfl := Option.some.inj hfollow
      exact ⟨node, print, h, hnode, .refl _⟩
  | cons i address ih =>
      obtain ⟨slot, child, hslot, hchild, hrest⟩ := follow_cons.mp hfollow
      obtain ⟨found, below, hfound, -, hchildren, rfl⟩ := h.exists_slot
      obtain rfl := Option.some.inj (hslot.symm.trans hfound)
      obtain ⟨inner, hinner, print', hholds, hsub⟩ := hchildren.exists_of_getElem? hchild
      obtain ⟨node', print'', hlast, hproperty, hsub'⟩ := ih hholds (hQ hnode inner hinner) hrest
      exact ⟨node', print'', hlast, hproperty, (hsub'.trans hsub).cons _⟩

theorem Holds.mem_of_follow (h : Holds forest id node print)
    (hfollow : forest.follow id address = some other) : other ∈ print := by
  obtain ⟨node', print', hholds, -, hsub⟩ :=
    h.exists_of_follow (Q := fun _ => True) (fun _ _ _ => trivial) trivial hfollow
  obtain ⟨slot, below, -, -, -, rfl⟩ := hholds.exists_slot
  exact hsub.subset List.mem_cons_self

theorem HoldsAll.mem_of_follow (h : HoldsAll forest ids nodes print)
    (hchild : ids[i]? = some child) (hfollow : forest.follow child address = some other) :
    other ∈ print := by
  obtain ⟨node, -, print', hholds, hsub⟩ := h.exists_of_getElem? hchild
  exact hsub.subset (hholds.mem_of_follow hfollow)

/-- No slot is below two children. -/
theorem HoldsAll.index_eq {child' : Nat} (h : HoldsAll forest ids nodes print)
    (hnodup : print.Nodup) (hi : ids[i]? = some child) (hj : ids[j]? = some child')
    (hp : forest.follow child p = some other) (hq : forest.follow child' q = some other) :
    i = j := by
  induction nodes generalizing ids print i j with
  | nil =>
      cases h
      cases hi
  | cons node nodes ih =>
      cases h with
      | cons hnode hnodes =>
          obtain ⟨-, hlater, hdisjoint⟩ := List.nodup_append'.mp hnodup
          cases i with
          | zero =>
              cases j with
              | zero => rfl
              | succ j =>
                  obtain rfl := Option.some.inj hi
                  exact (hdisjoint (hnode.mem_of_follow hp) (hnodes.mem_of_follow hj hq)).elim
          | succ i =>
              cases j with
              | zero =>
                  obtain rfl := Option.some.inj hj
                  exact (hdisjoint (hnode.mem_of_follow hq) (hnodes.mem_of_follow hi hp)).elim
              | succ j => exact congrArg Nat.succ (ih hnodes hlater hi hj)

theorem Holds.address_unique (h : Holds forest id node print) (hnodup : print.Nodup)
    (hp : forest.follow id p = some other) (hq : forest.follow id q = some other) : q = p := by
  induction p generalizing id node print q with
  | nil =>
      obtain rfl := Option.some.inj hp
      cases q with
      | nil => rfl
      | cons j q =>
          obtain ⟨slot, child, hslot, hchild, hrest⟩ := follow_cons.mp hq
          obtain ⟨found, below, hfound, -, hchildren, rfl⟩ := h.exists_slot
          obtain rfl := Option.some.inj (hslot.symm.trans hfound)
          exact absurd (hchildren.mem_of_follow hchild hrest) (List.nodup_cons.mp hnodup).1
  | cons i p ih =>
      obtain ⟨slot, child, hslot, hchild, hrest⟩ := follow_cons.mp hp
      obtain ⟨found, below, hfound, -, hchildren, rfl⟩ := h.exists_slot
      obtain rfl := Option.some.inj (hslot.symm.trans hfound)
      obtain ⟨hout, hbelow⟩ := List.nodup_cons.mp hnodup
      cases q with
      | nil =>
          obtain rfl := Option.some.inj hq
          exact absurd (hchildren.mem_of_follow hchild hrest) hout
      | cons j q =>
          obtain ⟨slot', child', hslot', hchild', hrest'⟩ := follow_cons.mp hq
          obtain rfl := Option.some.inj (hslot.symm.trans hslot')
          obtain rfl := hchildren.index_eq hbelow hchild hchild' hrest hrest'
          obtain rfl := Option.some.inj (hchild.symm.trans hchild')
          obtain ⟨inner, -, print', hholds, hsub⟩ := hchildren.exists_of_getElem? hchild
          rw [ih hholds (hbelow.sublist hsub) hrest hrest']

/-! ## Well-formedness -/

variable {slot : Slot} {root : Nat}

theorem Holds.placed_source (h : Holds forest id node print) (hplaced : node.Placed pattern)
    (hslot : forest.slot? id = some slot) : slot.source.Placed pattern := by
  obtain ⟨found, below, hfound, hsource, -⟩ := h.exists_slot
  obtain rfl := Option.some.inj (hslot.symm.trans hfound)
  exact hsource ▸ hplaced.source

theorem Holds.within (h : Holds forest id node print) (hplaced : node.Placed pattern)
    (hslot : forest.slot? id = some slot) :
    ∀ child ∈ slot.links, (forest.sourceAt child).Within slot.source := by
  intro child hchild
  obtain ⟨found, below, hfound, hsource, hchildren, -⟩ := h.exists_slot
  obtain rfl := Option.some.inj (hslot.symm.trans hfound)
  have hin : forest.sourceAt child ∈ node.children.map Node.source :=
    hchildren.map_sourceAt ▸ List.mem_map_of_mem hchild
  obtain ⟨inner, hinner, heq⟩ := List.mem_map.mp hin
  rw [← heq, hsource]
  exact hplaced.within inner hinner

theorem Holds.order (h : Holds forest id node print) (hplaced : node.Placed pattern)
    (hslot : forest.slot? id = some slot) :
    (slot.sequence.map forest.sourceAt).Pairwise fun x y => x.stop ≤ y.start := by
  cases h with
  | literal hfound hreads =>
      obtain rfl := Option.some.inj (hslot.symm.trans hfound)
      exact .nil
  | gap hfound =>
      obtain rfl := Option.some.inj (hslot.symm.trans hfound)
      exact .nil
  | sequence hfound hchildren =>
      obtain rfl := Option.some.inj (hslot.symm.trans hfound)
      rw [Slot.ofSequence, hchildren.map_sourceAt]
      exact hplaced.2.1.pairwise hplaced.2.2
  | choice hfound hne hchildren =>
      obtain rfl := Option.some.inj (hslot.symm.trans hfound)
      exact .nil

/-- A sound forest that holds a placed tree without repetitions is well-formed. -/
theorem Holds.wellFormed (h : Holds forest root node print) (hnodup : print.Nodup)
    (hplaced : node.Placed pattern) (hsound : forest.Sound) :
    forest.WellFormed pattern root := by
  have hbelow : ∀ {p : List Nat} {id : Nat}, forest.follow root p = some id →
      ∃ inner below, Holds forest id inner below ∧ inner.Placed pattern ∧ below.Sublist print :=
    fun hfollow => h.exists_of_follow
      (fun hinner child hchild => Node.allPlaced_iff.mp hinner.children child hchild) hplaced hfollow
  refine ⟨fun id slot hslot => (hsound id slot hslot).children, ?_, ?_, ?_, ?_, ?_⟩
  · intro id slot hslot
    obtain ⟨bytes, hreads, hspelled⟩ := (hsound id slot hslot).literal
    exact ⟨hreads.le.1, hreads.le.2, hreads.bytesAt_eq ▸ hspelled.isValidUTF8⟩
  · intro p id hfollow
    exact ⟨h.print_lt id (h.mem_of_follow hfollow), fun q hq => h.address_unique hnodup hfollow hq⟩
  · intro p id slot hfollow hslot
    obtain ⟨inner, below, hholds, hinner, -⟩ := hbelow hfollow
    have hsource := hholds.placed_source hinner hslot
    exact ⟨hsource.le, hsource.stop.le, hsource.start, hsource.stop⟩
  · intro p id slot hfollow hslot
    obtain ⟨inner, below, hholds, hinner, -⟩ := hbelow hfollow
    exact hholds.within hinner hslot
  · intro p id slot hfollow hslot
    obtain ⟨inner, below, hholds, hinner, -⟩ := hbelow hfollow
    exact hholds.order hinner hslot

end Forest

end LiteralSieve
