import LiteralSieve.Proofs.Forest.Slots

namespace LiteralSieve

/-!
# Changes of forests

A change of a forest says which slots it may have written; all others stay, and new ones may follow.
What a forest holds outside the written slots it holds afterwards. A change also keeps a forest
sound: every child of every slot is there, and every literal is text.
-/

/-- The children of a slot are in the forest, and its literal is text that the buffer has. -/
structure Slot.Sound (forest : Forest) (slot : Slot) : Prop where
  children : ∀ id ∈ slot.links, id < forest.size
  literal : ∃ bytes, forest.Reads slot.span bytes ∧ Spelled bytes

/-- A literal has no children to look for. -/
theorem Slot.sound_ofLiteral {forest : Forest} {span : Extent} {bytes : Bytes}
    (hreads : forest.Reads span bytes) (hbytes : Spelled bytes) (source : Extent) :
    (Slot.ofLiteral span source).Sound forest :=
  ⟨fun _ hid => absurd hid List.not_mem_nil, bytes, hreads, hbytes⟩

namespace Forest

def Sound (forest : Forest) : Prop :=
  ∀ id slot, forest.slot? id = some slot → slot.Sound forest

/-- Only the slots of `owned` were written, and everything that was there is there. -/
structure Changes (owned : List Nat) (before after : Forest) : Prop where
  size_le : before.size ≤ after.size
  kept : ∀ id, id < before.size → id ∉ owned → after.slot? id = before.slot? id
  buffer : before.buffer <+: after.buffer
  sound : before.Sound → after.Sound

variable {forest before middle after : Forest} {owned owned' ids print : List Nat} {id : Nat}
  {slot : Slot} {node : Node} {nodes : List Node}

theorem sound_empty : empty.Sound := by
  intro id slot hslot
  rw [slot?, empty, Pool.get?_empty] at hslot
  cases hslot

theorem slotSound_mono (h : slot.Sound before) (hsize : before.size ≤ after.size)
    (hbuffer : before.buffer <+: after.buffer) : slot.Sound after := by
  obtain ⟨bytes, hreads, hspelled⟩ := h.literal
  exact ⟨fun id hid => (h.children id hid).trans_le hsize, bytes, hreads.mono hbuffer, hspelled⟩

namespace Changes

theorem refl (forest : Forest) : Changes [] forest forest :=
  ⟨Nat.le_refl _, fun _ _ _ => rfl, List.prefix_rfl, id⟩

theorem mono (h : Changes owned before after) (hsubset : owned ⊆ owned') :
    Changes owned' before after :=
  ⟨h.size_le, fun id hid hout => h.kept id hid fun hin => hout (hsubset hin), h.buffer, h.sound⟩

/-- What the second change writes is what the first may write, or new. -/
theorem trans (h : Changes owned before middle) (h' : Changes owned' middle after)
    (howned : ∀ id ∈ owned', id ∈ owned ∨ before.size ≤ id) : Changes owned before after := by
  refine ⟨h.size_le.trans h'.size_le, ?_, h.buffer.trans h'.buffer, h'.sound ∘ h.sound⟩
  intro id hid hout
  rw [h'.kept id (hid.trans_le h.size_le), h.kept id hid hout]
  intro hin
  rcases howned id hin with hold | hnew
  · exact hout hold
  · exact absurd hid (Nat.not_lt.mpr hnew)

theorem trans_new (h : Changes owned before middle) (h' : Changes [] middle after) :
    Changes owned before after :=
  h.trans h' (List.forall_mem_nil _)

/-- A new slot, with the bytes that come with it. -/
theorem push {bytes : Bytes} (hslots : after.slots = before.slots.push slot)
    (hbytes : after.buffer = before.buffer ++ bytes) (hslot : before.Sound → slot.Sound after) :
    Changes [] before after := by
  have hsize : before.size ≤ after.size := by
    rw [size, size, hslots, Pool.size_push]
    exact Nat.le_succ _
  have hbuffer : before.buffer <+: after.buffer := hbytes ▸ List.prefix_append _ _
  refine ⟨hsize, fun id hid _ => ?_, hbuffer, fun hsound id other hother => ?_⟩
  · rw [slot?, hslots]
    exact (Pool.get?_push _ _ _).trans (if_neg (Nat.ne_of_lt hid))
  · rw [slot?, hslots, Pool.get?_push] at hother
    split at hother
    · exact Option.some.inj hother ▸ hslot hsound
    · exact slotSound_mono (hsound id other hother) hsize hbuffer

theorem add (hslot : slot.Sound forest) : Changes [] forest (forest.add slot) := by
  have hsize : forest.size ≤ (forest.add slot).size := by
    rw [size_add]
    exact Nat.le_succ _
  exact push rfl (List.append_nil _).symm fun _ => slotSound_mono hslot hsize List.prefix_rfl

theorem addLiteral (forest : Forest) {bytes : Bytes} (hbytes : forest.Sound → Spelled bytes)
    (source : Extent) : Changes [] forest (forest.addLiteral bytes source) := by
  obtain ⟨span, hslot, hreads⟩ := forest.reads_addLiteral bytes source
  have hnew := ((Pool.get?_push _ _ _).trans (if_pos rfl)).symm.trans hslot
  refine push rfl rfl fun hsound => ?_
  rw [Option.some.inj hnew]
  exact Slot.sound_ofLiteral hreads (hbytes hsound) source

theorem modify {f : Slot → Slot} (hslot : forest.slot? id = some slot)
    (hsound : forest.Sound → (f slot).Sound forest) : Changes [id] forest (forest.modify id f) := by
  refine ⟨(size_modify _ _ _).ge, fun other _ hother => ?_, List.prefix_rfl,
    fun hforest other found hfound => ?_⟩
  · rw [slot?_modify, if_neg fun heq => hother (List.mem_singleton.mpr heq.symm)]
  · have hfoundSound : found.Sound forest := by
      rw [slot?_modify] at hfound
      split at hfound
      case isTrue heq =>
        rw [← heq, hslot, Option.map_some] at hfound
        exact Option.some.inj hfound ▸ hsound hforest
      case isFalse => exact hforest other found hfound
    exact slotSound_mono hfoundSound (size_modify _ _ _).ge List.prefix_rfl

end Changes

/-! ## Frames -/

mutual

/-- A tree that is apart from what is written stays. -/
theorem Holds.frame {id : Nat} {node : Node} {print : List Nat} (h : Holds before id node print)
    (hchange : Changes owned before after) (hapart : ∀ other ∈ print, other ∉ owned) :
    Holds after id node print := by
  have hlt := h.lt_size
  cases h with
  | literal hslot hreads =>
      have hsame := hchange.kept id hlt (hapart id List.mem_cons_self)
      exact .literal (hsame.trans hslot) (hreads.mono hchange.buffer)
  | gap hslot =>
      have hsame := hchange.kept id hlt (hapart id List.mem_cons_self)
      exact .gap (hsame.trans hslot)
  | sequence hslot hchildren =>
      obtain ⟨hself, hbelow⟩ := List.forall_mem_cons.mp hapart
      exact .sequence ((hchange.kept id hlt hself).trans hslot) (hchildren.frame hchange hbelow)
  | choice hslot hne hchildren =>
      obtain ⟨hself, hbelow⟩ := List.forall_mem_cons.mp hapart
      exact .choice ((hchange.kept id hlt hself).trans hslot) hne (hchildren.frame hchange hbelow)

theorem HoldsAll.frame {ids : List Nat} {nodes : List Node} {print : List Nat}
    (h : HoldsAll before ids nodes print) (hchange : Changes owned before after)
    (hapart : ∀ other ∈ print, other ∉ owned) : HoldsAll after ids nodes print := by
  cases h with
  | nil => exact .nil
  | cons hnode hnodes =>
      obtain ⟨hfirst, hlater⟩ := List.forall_mem_append.mp hapart
      exact .cons (hnode.frame hchange hfirst) (hnodes.frame hchange hlater)

end

theorem Holds.grow (h : Holds before id node print) (hchange : Changes [] before after) :
    Holds after id node print :=
  h.frame hchange fun _ _ => List.not_mem_nil

theorem HoldsAll.grow (h : HoldsAll before ids nodes print) (hchange : Changes [] before after) :
    HoldsAll after ids nodes print :=
  h.frame hchange fun _ _ => List.not_mem_nil

/-! ## Prints -/

/-- A print without repetitions, of slots that were in another one or are new since there were
`size` slots. -/
structure Renews (size : Nat) (old new : List Nat) : Prop where
  nodup : new.Nodup
  mem : ∀ id ∈ new, id ∈ old ∨ size ≤ id

namespace Renews

variable {size size' : Nat} {old new old' new' : List Nat}

theorem refl (h : old.Nodup) (size : Nat) : Renews size old old := ⟨h, fun _ hid => Or.inl hid⟩

theorem mono (h : Renews size old new) (hsubset : old ⊆ old') : Renews size old' new :=
  ⟨h.nodup, fun id hid => (h.mem id hid).imp_left fun hin => hsubset hin⟩

theorem trans (h : Renews size old new) (h' : Renews size' new new') (hsize : size ≤ size') :
    Renews size old new' :=
  ⟨h'.nodup, fun id hid => (h'.mem id hid).elim (h.mem id) fun hge => Or.inr (hsize.trans hge)⟩

theorem perm (h : Renews size old new) (hperm : new.Perm new') : Renews size old new' :=
  ⟨hperm.nodup h.nodup, fun id hid => h.mem id (hperm.mem_iff.mpr hid)⟩

theorem sublist (h : Renews size old new) (hsub : new'.Sublist new) : Renews size old new' :=
  ⟨h.nodup.sublist hsub, fun id hid => h.mem id (hsub.subset hid)⟩

theorem cons_new (h : Renews size old new) (hlt : ∀ other ∈ new, other < id) (hsize : size ≤ id) :
    Renews size old (id :: new) :=
  ⟨List.nodup_cons.mpr ⟨fun hin => Nat.lt_irrefl _ (hlt id hin), h.nodup⟩,
    List.forall_mem_cons.mpr ⟨Or.inr hsize, h.mem⟩⟩

theorem not_mem (h : Renews size old new) (hout : id ∉ old) (hlt : id < size) : id ∉ new :=
  fun hin => (h.mem id hin).elim hout fun hge => Nat.not_lt.mpr hge hlt

theorem cons_old (h : Renews size old new) (hout : id ∉ old) (hlt : id < size) :
    Renews size (id :: old) (id :: new) :=
  ⟨List.nodup_cons.mpr ⟨h.not_mem hout hlt, h.nodup⟩, List.forall_mem_cons.mpr
    ⟨Or.inl List.mem_cons_self, fun other hother => (h.mem other hother).imp_left
      (List.mem_cons_of_mem _)⟩⟩

/-- Prints that were apart stay so, if each gets new slots of its own. -/
theorem append (h : Renews size old new) (h' : Renews size' old' new') (hsize : size ≤ size')
    (hnew : ∀ id ∈ new, id < size') (hold' : ∀ id ∈ old', id < size) (hapart : old.Disjoint old') :
    Renews size (old ++ old') (new ++ new') := by
  refine ⟨List.nodup_append.mpr ⟨h.nodup, h'.nodup, ?_⟩, List.forall_mem_append.mpr ⟨?_, ?_⟩⟩
  · rintro id hin other hin' rfl
    rcases h'.mem id hin' with hlater | hge
    · rcases h.mem id hin with hfirst | hge
      · exact hapart hfirst hlater
      · exact Nat.not_lt.mpr hge (hold' id hlater)
    · exact Nat.not_lt.mpr hge (hnew id hin)
  · exact fun id hid => (h.mem id hid).imp_left (List.mem_append_left _)
  · exact fun id hid => (h'.mem id hid).imp (List.mem_append_right _) hsize.trans

theorem append_new (h : Renews size old new) (h' : Renews size' [] new') (hsize : size ≤ size')
    (hnew : ∀ id ∈ new, id < size') : Renews size old (new ++ new') := by
  rw [← List.append_nil old]
  exact h.append h' hsize hnew (List.forall_mem_nil _) (List.disjoint_nil_right old)

end Renews

/-! ## Storing a tree -/

theorem slotSound_ofGap (forest : Forest) (source : Extent) : (Slot.ofGap source).Sound forest :=
  ⟨fun _ hid => absurd hid List.not_mem_nil, [], reads_nil forest, spelled_nil⟩

theorem slotSound_ofSequence (h : ∀ id ∈ ids, id < forest.size) (hollow : Bool) (source : Extent) :
    (Slot.ofSequence ids hollow source).Sound forest :=
  ⟨by rwa [Slot.links, Slot.ofSequence, List.append_nil], [], reads_nil forest, spelled_nil⟩

theorem slotSound_ofChoice (h : ∀ id ∈ ids, id < forest.size) (disabled : Bool)
    (source : Extent) : (Slot.ofChoice ids disabled source).Sound forest :=
  ⟨h, [], reads_nil forest, spelled_nil⟩

/-- A new sequence of nodes that are held. -/
theorem holds_addSequence (h : HoldsAll forest ids nodes print) (hollow : Bool) (source : Extent) :
    Changes [] forest (forest.add (.ofSequence ids hollow source)) ∧
      Holds (forest.add (.ofSequence ids hollow source)) forest.size
        (.sequence nodes hollow source) (forest.size :: print) := by
  have hchange := Changes.add (slotSound_ofSequence h.ids_lt hollow source)
  exact ⟨hchange, .sequence ((Pool.get?_push _ _ _).trans (if_pos rfl)) (h.grow hchange)⟩

theorem holds_addChoice (h : HoldsAll forest ids nodes print) (hne : nodes ≠ [])
    (disabled : Bool) (source : Extent) :
    Changes [] forest (forest.addChoice ids disabled source) ∧
      Holds (forest.addChoice ids disabled source) forest.size (.choice nodes disabled source)
        (forest.size :: print) := by
  have hids : ids ≠ [] := by
    rwa [← List.length_pos_iff_ne_nil, h.length_eq, List.length_pos_iff_ne_nil]
  have hadd : forest.addChoice ids disabled source = forest.add (.ofChoice ids disabled source) :=
    if_neg (mt List.isEmpty_iff.mp hids)
  have hchange := Changes.add (slotSound_ofChoice h.ids_lt disabled source)
  rw [hadd]
  exact ⟨hchange, .choice ((Pool.get?_push _ _ _).trans (if_pos rfl)) hids (h.grow hchange)⟩

theorem holds_addLiteral (forest : Forest) {bytes : Bytes} (hbytes : forest.Sound → Spelled bytes)
    (source : Extent) :
    Changes [] forest (forest.addLiteral bytes source) ∧
      Holds (forest.addLiteral bytes source) forest.size (.literal bytes source) [forest.size] := by
  obtain ⟨span, hslot, hreads⟩ := forest.reads_addLiteral bytes source
  exact ⟨.addLiteral forest hbytes source, .literal hslot hreads⟩

/-- The forest has grown by a tree with a print of its own. -/
structure Stores (forest after : Forest) (id : Nat) (node : Node) : Prop where
  changes : Changes [] forest after
  holds : ∃ print, Holds after id node print ∧ Renews forest.size [] print

structure StoresAll (forest after : Forest) (ids : List Nat) (nodes : List Node) : Prop where
  changes : Changes [] forest after
  holds : ∃ print, HoldsAll after ids nodes print ∧ Renews forest.size [] print

theorem renews_singleton (size : Nat) : Renews size [] [size] :=
  ⟨List.nodup_singleton _, List.forall_mem_singleton.mpr (Or.inr (Nat.le_refl _))⟩

mutual

theorem stores_store {pattern : String} (forest : Forest) {node : Node} (hproper : node.Proper)
    (hplaced : node.Placed pattern) :
    Stores forest (forest.store node).1 (forest.store node).2 node := by
  cases node with
  | literal bytes source =>
      obtain ⟨hchange, hholds⟩ := holds_addLiteral forest (fun _ => hplaced.2) source
      rw [store]
      exact ⟨hchange, _, hholds, renews_singleton _⟩
  | gap source =>
      rw [store]
      refine ⟨.add (slotSound_ofGap forest source), _, .gap ?_, renews_singleton _⟩
      exact (Pool.get?_push _ _ _).trans (if_pos rfl)
  | sequence children hollow source =>
      obtain ⟨hchildren, print, hholds, hnew⟩ := stores_storeAll forest hproper hplaced.2.2
      obtain ⟨hchange, hself⟩ := holds_addSequence hholds hollow source
      rw [store]
      exact ⟨hchildren.trans_new hchange, _, hself, hnew.cons_new hholds.print_lt hchildren.size_le⟩
  | choice children disabled source =>
      obtain ⟨hchildren, print, hholds, hnew⟩ := stores_storeAll forest hproper.2 hplaced.2.2
      obtain ⟨hchange, hself⟩ := holds_addChoice hholds hproper.1 disabled source
      rw [store]
      exact ⟨hchildren.trans_new hchange, _, hself, hnew.cons_new hholds.print_lt hchildren.size_le⟩

theorem stores_storeAll {pattern : String} (forest : Forest) {nodes : List Node}
    (hproper : Node.AllProper nodes) (hplaced : Node.AllPlaced pattern nodes) :
    StoresAll forest (forest.storeAll nodes).1 (forest.storeAll nodes).2 nodes := by
  cases nodes with
  | nil =>
      rw [storeAll]
      exact ⟨.refl forest, [], .nil, .refl List.nodup_nil _⟩
  | cons node nodes =>
      obtain ⟨hfirst, first, hnode, hnew⟩ := stores_store forest hproper.1 hplaced.1
      obtain ⟨hlater, later, hnodes, hnew'⟩ :=
        stores_storeAll (forest.store node).1 hproper.2 hplaced.2
      rw [storeAll]
      exact ⟨hfirst.trans_new hlater, _, .cons (hnode.grow hlater) hnodes,
        hnew.append_new hnew' hfirst.size_le hnode.print_lt⟩

end

end Forest

end LiteralSieve
