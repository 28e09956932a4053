import LiteralSieve.Proofs.Forest.StoredTrees
import LiteralSieve.Proofs.Pattern.NormalForms

namespace LiteralSieve

/-!
# Normal forms in a forest

A tree in normal form is held in slots of normal form: no slot names a child of its own kind or less
than two children, and leaves name none. A pass over such a tree writes to some of its slots what
they hold already, so the forest stays as it is, slot by slot.
-/

open Node (Every Normal)

namespace Forest

/-- What it means that the tree below a root is in normal form. -/
structure NormalBelow (forest : Forest) (root : Nat) : Prop where
  /-- Leaves have no children. -/
  leaf : ∀ p id slot, forest.follow root p = some id → forest.slot? id = some slot →
    slot.kind = .leaf → slot.links = []
  /-- Sequences and choices have at least two. -/
  two : ∀ p id slot, forest.follow root p = some id → forest.slot? id = some slot →
    slot.kind ≠ .leaf → 2 ≤ slot.children.length
  /-- No sequence is a child of a sequence, and no choice one of a choice. -/
  nested : ∀ p id slot, forest.follow root p = some id → forest.slot? id = some slot →
    ∀ child ∈ slot.children, ∀ inner, forest.slot? child = some inner → inner.kind ≠ slot.kind
  /-- No literals stand side by side in a sequence. -/
  apart : ∀ p id slot, forest.follow root p = some id → forest.slot? id = some slot →
    slot.sequence.IsChain fun x y => (forest.isLiteralAt x && forest.isLiteralAt y) = false

variable {forest : Forest} {print ids run : List Nat} {nodes : List Node} {node : Node}
  {id depth : Nat} {slot : Slot} {kind : SlotKind}

/-! ## Slots and nodes -/

theorem HoldsAll.exists_of_mem (h : HoldsAll forest ids nodes print) (hid : id ∈ ids) :
    ∃ node ∈ nodes, ∃ print', Holds forest id node print' := by
  obtain ⟨i, hi⟩ := List.getElem?_of_mem hid
  obtain ⟨node, hnode, print', hholds, -⟩ := h.exists_of_getElem? hi
  exact ⟨node, hnode, print', hholds⟩

theorem Holds.kind_eq (h : Holds forest id node print) (hslot : forest.slot? id = some slot) :
    slot.kind = node.kind := by
  cases h with
  | literal hfound hreads => exact Option.some.inj (hslot.symm.trans hfound) ▸ rfl
  | gap hfound => exact Option.some.inj (hslot.symm.trans hfound) ▸ rfl
  | sequence hfound hchildren => exact Option.some.inj (hslot.symm.trans hfound) ▸ rfl
  | choice hfound hne hchildren =>
      exact Option.some.inj (hslot.symm.trans hfound) ▸ Slot.kind_ofChoice hne _ _

theorem Holds.isLiteralAt_eq (h : Holds forest id node print) :
    forest.isLiteralAt id = node.isLiteral := by
  cases h with
  | literal hslot hreads => exact isLiteralAt_literal (.literal hslot hreads)
  | gap hslot => exact isLiteralAt_other (.gap hslot) fun _ _ heq => nomatch heq
  | sequence hslot hchildren =>
      exact isLiteralAt_other (.sequence hslot hchildren) fun _ _ heq => nomatch heq
  | choice hslot hne hchildren =>
      exact isLiteralAt_other (.choice hslot hne hchildren) fun _ _ heq => nomatch heq

theorem HoldsAll.map_isLiteralAt (h : HoldsAll forest ids nodes print) :
    ids.map forest.isLiteralAt = nodes.map Node.isLiteral := by
  induction nodes generalizing ids print with
  | nil =>
      cases h
      rfl
  | cons node nodes ih =>
      cases h with
      | cons hnode hnodes => rw [List.map_cons, List.map_cons, ih hnodes, hnode.isLiteralAt_eq]

/-- Literals stand apart in a sequence of slots as they do in the sequence of nodes. -/
theorem HoldsAll.isChain_isLiteralAt (h : HoldsAll forest ids nodes print)
    (hchain : nodes.IsChain fun x y => (x.isLiteral && y.isLiteral) = false) :
    ids.IsChain fun x y => (forest.isLiteralAt x && forest.isLiteralAt y) = false := by
  have hmarks : (nodes.map Node.isLiteral).IsChain fun x y => (x && y) = false :=
    (List.isChain_map _).mpr hchain
  rw [← h.map_isLiteralAt] at hmarks
  exact (List.isChain_map _).mp hmarks

/-! ## Slots of normal nodes -/

theorem Holds.links_eq_nil (h : Holds forest id node print) (hslot : forest.slot? id = some slot)
    (hkind : slot.kind = .leaf) : slot.links = [] := by
  rw [← h.children_eq hslot, Slot.children, hkind]

theorem Holds.children_held (h : Holds forest id node print) (hslot : forest.slot? id = some slot) :
    ∃ print', HoldsAll forest slot.children node.children print' := by
  obtain ⟨found, below, hfound, -, hchildren, -⟩ := h.exists_slot
  rw [h.children_eq hslot]
  obtain rfl := Option.some.inj (hslot.symm.trans hfound)
  exact ⟨below, hchildren⟩

theorem Holds.two_le (h : Holds forest id node print) (hslot : forest.slot? id = some slot)
    (hflat : node.Flat) (hkind : slot.kind ≠ .leaf) : 2 ≤ slot.children.length := by
  obtain ⟨below, hchildren⟩ := h.children_held hslot
  rw [h.kind_eq hslot] at hkind
  rw [hchildren.length_eq]
  exact (hflat hkind).1

theorem Holds.kind_ne (h : Holds forest id node print) (hslot : forest.slot? id = some slot)
    (hflat : node.Flat) {child : Nat} (hchild : child ∈ slot.children) {inner : Slot}
    (hinner : forest.slot? child = some inner) : inner.kind ≠ slot.kind := by
  obtain ⟨below, hchildren⟩ := h.children_held hslot
  obtain ⟨other, hother, print', hholds⟩ := hchildren.exists_of_mem hchild
  have hkind : node.kind ≠ .leaf := by
    intro hleaf
    rw [Slot.children, h.kind_eq hslot, hleaf] at hchild
    cases hchild
  rw [h.kind_eq hslot, hholds.kind_eq hinner]
  exact (hflat hkind).2 other hother

theorem Holds.apart (h : Holds forest id node print) (hslot : forest.slot? id = some slot)
    (hjoined : node.Joined) :
    slot.sequence.IsChain fun x y => (forest.isLiteralAt x && forest.isLiteralAt y) = false := by
  cases h with
  | sequence hfound hchildren =>
      obtain rfl := Option.some.inj (hslot.symm.trans hfound)
      exact hchildren.isChain_isLiteralAt hjoined
  | literal hfound hreads => exact Option.some.inj (hslot.symm.trans hfound) ▸ .nil
  | gap hfound => exact Option.some.inj (hslot.symm.trans hfound) ▸ .nil
  | choice hfound hne hchildren => exact Option.some.inj (hslot.symm.trans hfound) ▸ .nil

/-- A tree in normal form is held in slots of normal form. -/
theorem Holds.normalBelow (h : Holds forest id node print) (hnormal : Every Normal node) :
    forest.NormalBelow id := by
  have hbelow : ∀ {p : List Nat} {other : Nat}, forest.follow id p = some other →
      ∃ inner print', Holds forest other inner print' ∧ Normal inner := by
    intro p other hfollow
    obtain ⟨inner, print', hholds, hinner, -⟩ :=
      h.exists_of_follow (fun hevery child hchild => hevery.children child hchild) hnormal hfollow
    exact ⟨inner, print', hholds, hinner.self⟩
  refine ⟨?_, ?_, ?_, ?_⟩
  · intro p other slot hfollow hslot hkind
    obtain ⟨inner, print', hholds, -⟩ := hbelow hfollow
    exact hholds.links_eq_nil hslot hkind
  · intro p other slot hfollow hslot hkind
    obtain ⟨inner, print', hholds, hinner⟩ := hbelow hfollow
    exact hholds.two_le hslot hinner.flat hkind
  · intro p other slot hfollow hslot child hchild childSlot hchildSlot
    obtain ⟨inner, print', hholds, hinner⟩ := hbelow hfollow
    exact hholds.kind_ne hslot hinner.flat hchild hchildSlot
  · intro p other slot hfollow hslot
    obtain ⟨inner, print', hholds, hinner⟩ := hbelow hfollow
    exact hholds.apart hslot hinner.joined

/-! ## Passes that write nothing new -/

/-- Writing what is there changes nothing. -/
theorem modify_eq_self {f : Slot → Slot} (h : forest.slot? id = some slot) (hsame : f slot = slot) :
    forest.modify id f = forest := by
  obtain ⟨⟨slots⟩, buffer⟩ := forest
  have hitems : slots.modify id f = slots := by
    refine Array.ext_getElem? fun i => ?_
    rw [Array.getElem?_modify]
    split
    case isTrue heq =>
      have hslot : slots[i]? = some slot := heq ▸ h
      rw [hslot, Option.map_some, hsame]
    case isFalse => rfl
  exact congrArg (fun items => Forest.mk ⟨items⟩ buffer) hitems

/-- What a pass finds at a tree in normal form of at most some size, while it leaves the forest as it
is. -/
def Rests {α : Type} (visit : Forest → Nat → Except PatternError (Forest × α)) (depth : Nat)
    (result : Nat → Node → α) : Prop :=
  ∀ {forest : Forest} {id : Nat} {node : Node} {print : List Nat}, Holds forest id node print →
    Every Normal node → node.size ≤ depth → visit forest id = .ok (forest, result id node)

theorem Rests.of_mem {α : Type} {visit : Forest → Nat → Except PatternError (Forest × α)}
    {result : Nat → α} (hrests : Rests visit depth fun id _ => result id)
    (h : HoldsAll forest ids nodes print) (hnormal : ∀ node ∈ nodes, Every Normal node)
    (hsize : Node.sizeAll nodes ≤ depth) :
    ∀ child ∈ ids, visit forest child = .ok (forest, result child) := by
  intro child hchild
  obtain ⟨node, hnode, print', hholds⟩ := h.exists_of_mem hchild
  exact hrests hholds (hnormal node hnode) ((Node.size_le_of_mem hnode).trans hsize)

theorem adjustAll_eq_self {adjust : Forest → Nat → Except PatternError (Forest × Nat)}
    (hadjust : ∀ child ∈ ids, adjust forest child = .ok (forest, child))
    (hitems : ∀ child ∈ ids, forest.items kind child = [child]) :
    adjustAll adjust kind forest ids = .ok (forest, ids) := by
  induction ids with
  | nil => rfl
  | cons id ids ih =>
      obtain ⟨hfirst, hlater⟩ := List.forall_mem_cons.mp hadjust
      obtain ⟨hitem, hothers⟩ := List.forall_mem_cons.mp hitems
      rw [adjustAll, hfirst]
      dsimp only [bind, Except.bind]
      rw [ih hlater hothers, hitem]
      rfl

theorem items_of_kind_ne (h : forest.slot? id = some slot) (hkind : slot.kind ≠ kind) :
    forest.items kind id = [id] := by
  rw [items, h]
  dsimp only
  rw [decide_eq_false hkind]
  rfl

theorem HoldsAll.items_eq (h : HoldsAll forest ids nodes print)
    (hkind : ∀ node ∈ nodes, node.kind ≠ kind) : ∀ child ∈ ids, forest.items kind child = [child] := by
  intro child hchild
  obtain ⟨node, hnode, print', hholds⟩ := h.exists_of_mem hchild
  obtain ⟨slot, below, hslot, -⟩ := hholds.exists_slot
  exact items_of_kind_ne hslot (hholds.kind_eq hslot ▸ hkind node hnode)

theorem settle_eq_self (h : forest.slot? id = some slot) (htwo : 2 ≤ ids.length)
    (hsame : slot.withChildren kind ids = slot) : forest.settle id kind ids = (forest, id) := by
  match ids, htwo with
  | _ :: _ :: _, _ => exact congrArg (fun same => (same, id)) (modify_eq_self h hsame)

theorem rests_adjustAt (depth : Nat) : Rests (adjustAt depth) depth fun id _ => id := by
  intro forest id node print h hnormal hsize
  induction depth generalizing forest id node print with
  | zero => exact absurd hsize (Nat.not_le.mpr (Node.size_pos node))
  | succ depth ih =>
      have hbelow := hnormal.children
      cases h with
      | literal hslot hreads =>
          rw [adjustAt, hslot]
          rfl
      | gap hslot =>
          rw [adjustAt, hslot]
          rfl
      | @sequence _ ids children _ _ _ hslot hchildren =>
          have hkind : SlotKind.sequence ≠ .leaf := by decide
          obtain ⟨htwo, hother⟩ := hnormal.self.flat hkind
          have hvisit := Rests.of_mem ih hchildren hbelow (Nat.le_of_succ_le_succ hsize)
          rw [adjustAt_sequence hslot (adjustAll_eq_self hvisit (hchildren.items_eq hother))]
          exact congrArg _ (settle_eq_self hslot (hchildren.length_eq ▸ htwo) rfl)
      | @choice _ ids children _ _ _ hslot hne hchildren =>
          have hkind : SlotKind.choice ≠ .leaf := by decide
          obtain ⟨htwo, hother⟩ := hnormal.self.flat hkind
          have hvisit := Rests.of_mem ih hchildren hbelow (Nat.le_of_succ_le_succ hsize)
          rw [adjustAt_choice hslot hne (adjustAll_eq_self hvisit (hchildren.items_eq hother))]
          exact congrArg _ (settle_eq_self hslot (hchildren.length_eq ▸ htwo) rfl)

theorem Rests.each {α : Type} {visit : Forest → Nat → Except PatternError (Forest × α)}
    {result : Node → α} (hrests : Rests visit depth fun _ => result)
    (h : HoldsAll forest ids nodes print) (hnormal : ∀ node ∈ nodes, Every Normal node)
    (hsize : Node.sizeAll nodes ≤ depth) :
    visitEach visit forest ids = .ok (forest, nodes.map result) := by
  induction nodes generalizing ids print with
  | nil =>
      cases h
      rfl
  | cons node nodes ih =>
      rw [Node.sizeAll] at hsize
      obtain ⟨hfirst, hlater⟩ := List.forall_mem_cons.mp hnormal
      cases h with
      | cons hnode hnodes =>
          rw [visitEach, hrests hnode hfirst ((Nat.le_add_right _ _).trans hsize)]
          dsimp only [bind, Except.bind]
          rw [ih hnodes hlater ((Nat.le_add_left _ _).trans hsize)]
          rfl

theorem markAt_sequence_eq_self {hollow : Bool} {source : Extent}
    (hslot : forest.slot? id = some (.ofSequence ids hollow source))
    (hempty : ids.isEmpty ↔ nodes.isEmpty)
    (hvisit : visitEach (markAt depth) forest ids = .ok (forest, nodes.map Node.isHollow))
    (hmarked : (Node.sequence nodes hollow source).Marked) :
    markAt (depth + 1) forest id = .ok (forest, (Node.sequence nodes hollow source).isHollow) := by
  have hall : (Node.sequence nodes hollow source).isHollow =
      (!ids.isEmpty && (nodes.map Node.isHollow).all fun mark => mark) := by
    rw [Node.isHollow, Node.allHollow_eq_all, Bool.eq_iff_iff.mpr hempty]
  rw [Node.Marked, hall] at hmarked
  refine (markAt_sequence hslot hvisit).trans ?_
  rw [hall]
  refine congrArg (fun same => Except.ok (same, _)) (modify_eq_self hslot ?_)
  exact congrArg (Slot.ofSequence ids · source) hmarked.symm

theorem markAt_choice_eq_self {disabled : Bool} {source : Extent}
    (hslot : forest.slot? id = some (.ofChoice ids disabled source)) (hne : ids ≠ [])
    (hvisit : visitEach (markAt depth) forest ids = .ok (forest, nodes.map Node.isHollow))
    (hmarked : (Node.choice nodes disabled source).Marked) :
    markAt (depth + 1) forest id = .ok (forest, (Node.choice nodes disabled source).isHollow) := by
  have hany : (Node.choice nodes disabled source).isHollow =
      (nodes.map Node.isHollow).any fun mark => mark := by
    rw [Node.isHollow, Node.anyHollow_eq_any]
  rw [Node.Marked, hany] at hmarked
  refine (markAt_choice hslot hne hvisit).trans ?_
  rw [hany]
  refine congrArg (fun same => Except.ok (same, _)) (modify_eq_self hslot ?_)
  exact congrArg (Slot.ofChoice ids · source) (Bool.or_eq_left_iff_imp.mpr hmarked)

theorem rests_markAt (depth : Nat) : Rests (markAt depth) depth fun _ => Node.isHollow := by
  intro forest id node print h hnormal hsize
  induction depth generalizing forest id node print with
  | zero => exact absurd hsize (Nat.not_le.mpr (Node.size_pos node))
  | succ depth ih =>
      have hbelow := hnormal.children
      have hmarked := hnormal.self.marked
      cases h with
      | literal hslot hreads =>
          rw [markAt, hslot]
          dsimp only
          rw [Node.isHollow]
          rfl
      | gap hslot =>
          rw [markAt, hslot]
          dsimp only
          rw [Node.isHollow]
          rfl
      | sequence hslot hchildren =>
          have hvisit := Rests.each ih hchildren hbelow (Nat.le_of_succ_le_succ hsize)
          exact markAt_sequence_eq_self hslot hchildren.isEmpty_iff hvisit hmarked
      | choice hslot hne hchildren =>
          have hvisit := Rests.each ih hchildren hbelow (Nat.le_of_succ_le_succ hsize)
          exact markAt_choice_eq_self hslot hne hvisit hmarked

theorem flushRun_eq_self (h : run.length ≤ 1) : forest.flushRun run = (forest, run) := by
  match run, h with
  | [], _ => rfl
  | [_], _ => rfl

/-- Where no two literals stand side by side, every run ends with its first literal. -/
theorem joinAll_eq_self {visit : Forest → Nat → Except PatternError (Forest × Unit)}
    (hvisit : ∀ child ∈ ids, visit forest child = .ok (forest, ()))
    (hrun : run.length ≤ 1) (hliteral : ∀ other ∈ run, forest.isLiteralAt other = true)
    (hapart : (run ++ ids).IsChain fun x y =>
      (forest.isLiteralAt x && forest.isLiteralAt y) = false) :
    joinAll visit run forest ids = .ok (forest, run ++ ids) := by
  induction ids generalizing run with
  | nil =>
      rw [joinAll, flushRun_eq_self hrun, List.append_nil]
  | cons id ids ih =>
      obtain ⟨hfirst, hlater⟩ := List.forall_mem_cons.mp hvisit
      cases hid : forest.isLiteralAt id with
      | true =>
          -- The run before is empty: its last literal would stand beside this one.
          have hnil : run = [] := by
            rcases run with _ | ⟨other, rest⟩
            · rfl
            · obtain rfl := List.length_eq_zero_iff.mp (Nat.le_zero.mp (Nat.le_of_succ_le_succ hrun))
              have hboth := (List.isChain_cons_cons.mp hapart).1
              rw [hliteral other List.mem_cons_self, hid] at hboth
              cases hboth
          subst hnil
          rw [joinAll_literal hfirst hid]
          exact ih hlater (Nat.le_refl _) (List.forall_mem_singleton.mpr hid) hapart
      | false =>
          have hnone : joinAll visit [] (forest.flushRun run).1 ids = .ok (forest, ids) := by
            rw [flushRun_eq_self hrun]
            exact ih hlater (Nat.zero_le _) (List.forall_mem_nil _)
              (hapart.right_of_append.tail)
          rw [joinAll_other hfirst hid hnone, flushRun_eq_self hrun]

theorem settleMerged_eq_self {hollow : Bool} {source : Extent}
    (h : forest.slot? id = some (.ofSequence ids hollow source)) (htwo : 2 ≤ ids.length) :
    forest.settleMerged id ids = forest := by
  match ids, htwo with
  | _ :: _ :: _, _ => exact modify_eq_self h rfl

theorem rests_mergeAt (depth : Nat) : Rests (mergeAt depth) depth fun _ _ => () := by
  intro forest id node print h hnormal hsize
  induction depth generalizing forest id node print with
  | zero => exact absurd hsize (Nat.not_le.mpr (Node.size_pos node))
  | succ depth ih =>
      have hbelow := hnormal.children
      cases h with
      | literal hslot hreads =>
          rw [mergeAt, hslot]
          rfl
      | gap hslot =>
          rw [mergeAt, hslot]
          rfl
      | @sequence _ ids children hollow source _ hslot hchildren =>
          have hkind : SlotKind.sequence ≠ .leaf := by decide
          have htwo : 2 ≤ ids.length := hchildren.length_eq ▸ (hnormal.self.flat hkind).1
          have hvisit := Rests.of_mem ih hchildren hbelow (Nat.le_of_succ_le_succ hsize)
          have hjoin := joinAll_eq_self hvisit (Nat.zero_le _) (List.forall_mem_nil _)
            (hchildren.isChain_isLiteralAt hnormal.self.joined)
          rw [mergeAt_sequence hslot hjoin, List.nil_append, settleMerged_eq_self hslot htwo]
      | choice hslot hne hchildren =>
          have hvisit := Rests.each ih hchildren hbelow (Nat.le_of_succ_le_succ hsize)
          rw [mergeAt_choice hslot hne hvisit]

end Forest

end LiteralSieve
