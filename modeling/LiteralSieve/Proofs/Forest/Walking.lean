import LiteralSieve.Proofs.Forest.Addresses
import LiteralSieve.Proofs.Forest.Flattening
import LiteralSieve.Proofs.Pattern.Depths
import LiteralSieve.Visit

namespace LiteralSieve

/-!
# Walks over a forest

A walk shows the slots of a tree to a visitor, each one before those below it and with its depth,
and ends as soon as the visitor is done. Where the forest holds a tree, the slots are shown in the
order of the outline of the tree, none of them twice, and the walk needs no more calls inside each
other than the tree has levels.
-/

theorem exists_mem_of_forall₂ {α β : Type} {R : α → β → Prop} {xs : List α} {ys : List β}
    (h : List.Forall₂ R xs ys) : ∀ x ∈ xs, ∃ y ∈ ys, R x y := by
  induction h with
  | nil => exact List.forall_mem_nil _
  | @cons x y xs ys hfirst _ ih =>
      refine List.forall_mem_cons.mpr ⟨⟨y, List.mem_cons_self, hfirst⟩, fun other hother => ?_⟩
      obtain ⟨found, hfound, hrelated⟩ := ih other hother
      exact ⟨found, List.mem_cons_of_mem y hfound, hrelated⟩

/-! ## Visitors -/

section Visitors

variable {α σ : Type} {visit : α → σ → ForInStep σ} {xs : List α} {a : α} {acc : σ}

/-- The visitor is shown all of the list and is not done with any of it. -/
inductive Yields (visit : α → σ → ForInStep σ) : List α → σ → σ → Prop
  | nil (acc : σ) : Yields visit [] acc acc
  | cons {a : α} {rest : List α} {acc next last : σ} (h : visit a acc = .yield next)
      (hrest : Yields visit rest next last) : Yields visit (a :: rest) acc last

/-- What comes out of a walk over a list, and what is shown of it: all if the visitor is not done
with any of it, otherwise no more than up to the first element with which it is done. -/
inductive EndsFirst (visit : α → σ → ForInStep σ) :
    List α → σ → ForInStep σ → List α → Prop
  | all {xs : List α} {acc last : σ} (h : Yields visit xs acc last) :
      EndsFirst visit xs acc (.yield last) xs
  | first {front back : List α} {a : α} {acc middle last : σ}
      (hfront : Yields visit front acc middle) (hdone : visit a middle = .done last) :
      EndsFirst visit (front ++ a :: back) acc (.done last) (front ++ [a])

/-- The visitor, with a log of all that it was shown. -/
def logged (visit : α → σ → ForInStep σ) (a : α) : σ × List α → ForInStep (σ × List α)
  | (acc, log) =>
    match visit a acc with
    | .done last => .done (last, log ++ [a])
    | .yield next => .yield (next, log ++ [a])

theorem visitAll_append (visit : α → σ → ForInStep σ) (xs ys : List α) (acc : σ) :
    visitAll visit (xs ++ ys) acc =
      match visitAll visit xs acc with
      | .done last => .done last
      | .yield next => visitAll visit ys next := by
  induction xs generalizing acc with
  | nil => rfl
  | cons a xs ih =>
      simp only [List.cons_append, visitAll]
      cases visit a acc with
      | done last => rfl
      | yield next => exact ih next

theorem EndsFirst.cons {shown : List α} {result : ForInStep σ} {next : σ}
    (h : visit a acc = .yield next) (hrest : EndsFirst visit xs next result shown) :
    EndsFirst visit (a :: xs) acc result (a :: shown) := by
  cases hrest with
  | all hall => exact .all (.cons h hall)
  | first hfront hdone => exact .first (.cons h hfront) hdone

theorem exists_endsFirst_visitAll (visit : α → σ → ForInStep σ) (xs : List α) (acc : σ)
    (log : List α) :
    ∃ shown, (visitAll (logged visit) xs (acc, log)).value.2 = log ++ shown ∧
      EndsFirst visit xs acc (visitAll visit xs acc) shown := by
  induction xs generalizing acc log with
  | nil => exact ⟨[], by simp, .all (.nil acc)⟩
  | cons a xs ih =>
      simp only [visitAll, logged]
      cases hvisit : visit a acc with
      | done last => exact ⟨[a], rfl, .first (.nil acc) hvisit⟩
      | yield next =>
          obtain ⟨shown, hlog, hends⟩ := ih next (log ++ [a])
          exact ⟨a :: shown, by simpa using hlog, hends.cons hvisit⟩

/-- A walk shows the list in order to every visitor, and nothing after what that is done with. -/
def WalksOver (walk : ∀ {σ : Type}, (α → σ → ForInStep σ) → σ → ForInStep σ → Prop)
    (xs : List α) : Prop :=
  ∀ {σ : Type} (visit : α → σ → ForInStep σ) (acc : σ), ∃ result log, walk visit acc result ∧
    walk (logged visit) (acc, []) log ∧ EndsFirst visit xs acc result log.value.2

theorem walksOver_visitAll (xs : List α) :
    WalksOver (fun visit acc result => visitAll visit xs acc = result) xs := by
  intro σ visit acc
  obtain ⟨shown, hlog, hends⟩ := exists_endsFirst_visitAll visit xs acc []
  exact ⟨_, _, rfl, rfl, hlog ▸ hends⟩

end Visitors

namespace Forest

/-- What a visitor is shown: a slot with its number and its depth. -/
structure Sight where
  id : Nat
  slot : Slot
  level : Nat

/-- Walks one after the other, up to one that is done. -/
def walkAll {σ : Type} (walk : Nat → σ → Except PatternError (ForInStep σ)) :
    List Nat → σ → Except PatternError (ForInStep σ)
  | [], acc => .ok (.yield acc)
  | id :: ids, acc => do
    match ← walk id acc with
    | .done last => .ok (.done last)
    | .yield next => walkAll walk ids next

/-- The walk from a slot on, with at most `depth` calls inside each other. -/
def walkAt {σ : Type} (visit : Sight → σ → ForInStep σ) :
    Nat → Forest → Nat → Nat → σ → Except PatternError (ForInStep σ)
  | 0, _, _, _, _ => .error .corruptTree
  | depth + 1, forest, level, id, acc =>
    match forest.slot? id with
    | none => .error .corruptTree
    | some slot =>
      match visit ⟨id, slot, level⟩ acc with
      | .done last => .ok (.done last)
      | .yield next => walkAll (walkAt visit depth forest (level + 1)) slot.children next

/-- What a visitor that is never done is shown. -/
def sightsAt : Nat → Forest → Nat → Nat → List Sight
  | 0, _, _, _ => []
  | depth + 1, forest, level, id =>
    match forest.slot? id with
    | none => []
    | some slot =>
      ⟨id, slot, level⟩ :: slot.children.flatMap (sightsAt depth forest (level + 1))

/-- The sight is of the node of the entry. -/
structure Shows (forest : Forest) (sight : Sight) (entry : OutlineEntry) : Prop where
  level : sight.level = entry.level
  node : ∃ print, Holds forest sight.id entry.node print

/-- All that is below the root is shown once, with its depth and before what is below it. -/
structure WalkOrder (forest : Forest) (root : Nat) (sights : List Sight) : Prop where
  slot : ∀ sight ∈ sights, forest.slot? sight.id = some sight.slot
  once : (sights.map Sight.id).Nodup
  reached : ∀ id level, (∃ sight ∈ sights, sight.id = id ∧ sight.level = level) ↔
    ∃ address, forest.follow root address = some id ∧ level = address.length
  parentFirst : ∀ sight ∈ sights, ∀ child ∈ sight.slot.links,
    [sight.id, child].Sublist (sights.map Sight.id)

variable {forest : Forest} {id root depth level : Nat} {node : Node} {nodes : List Node}
  {ids print : List Nat} {slot : Slot}

/-- A held node is one with its children, whatever its kind. -/
theorem Holds.exists_family (h : Holds forest id node print) :
    ∃ slot below, forest.slot? id = some slot ∧
      HoldsAll forest slot.children node.children below ∧ print = id :: below := by
  obtain ⟨slot, below, hslot, -, hall, hprint⟩ := h.exists_slot
  exact ⟨slot, below, hslot, h.children_eq hslot ▸ hall, hprint⟩

/-- What goes up from children to their parent holds of a held tree, with any depth that is larger
than its height. -/
theorem Holds.walk_induction {P : Nat → Nat → Nat → Node → Prop}
    (family : ∀ {depth level id : Nat} {node : Node} {slot : Slot} {print : List Nat},
      Holds forest id node print → forest.slot? id = some slot →
      List.Forall₂ (P depth (level + 1)) slot.children node.children →
      P (depth + 1) level id node)
    (h : Holds forest id node print) (hheight : node.height < depth) (level : Nat) :
    P depth level id node := by
  induction depth generalizing id node print level with
  | zero => exact absurd hheight (Nat.not_lt_zero _)
  | succ depth ih =>
      obtain ⟨slot, below, hslot, hall, rfl⟩ := h.exists_family
      refine family h hslot (hall.forall₂ fun hholds hmem => ih hholds ?_ (level + 1))
      exact (Node.height_lt_of_mem hmem).trans_le (Nat.le_of_lt_succ hheight)

theorem sightsAt_succ (hslot : forest.slot? id = some slot) (depth level : Nat) :
    sightsAt (depth + 1) forest level id =
      ⟨id, slot, level⟩ :: slot.children.flatMap (sightsAt depth forest (level + 1)) := by
  simp only [sightsAt, hslot]

/-! ## What is shown -/

theorem map_id_sightsAt_all
    (h : List.Forall₂ (fun id node => ∀ print, Holds forest id node print →
      (sightsAt depth forest level id).map Sight.id = print) ids nodes)
    (hall : HoldsAll forest ids nodes print) :
    (ids.flatMap (sightsAt depth forest level)).map Sight.id = print := by
  induction h generalizing print with
  | nil =>
      cases hall
      rfl
  | cons hfirst _ ih =>
      cases hall with
      | cons hnode hnodes => simp [hfirst _ hnode, ih hnodes]

/-- The print of a tree lists its slots in the order in which they are shown. -/
theorem Holds.map_id_sightsAt (h : Holds forest id node print) (hheight : node.height < depth)
    (level : Nat) : (sightsAt depth forest level id).map Sight.id = print := by
  refine h.walk_induction (P := fun depth level id node => ∀ print, Holds forest id node print →
    (sightsAt depth forest level id).map Sight.id = print) ?_ hheight level print h
  intro depth level id node slot _ _ hslot hchildren print hprint
  obtain ⟨found, below, hfound, hall, rfl⟩ := hprint.exists_family
  obtain rfl := Option.some.inj (hslot.symm.trans hfound)
  rw [sightsAt_succ hslot, List.map_cons, map_id_sightsAt_all hchildren hall]

/-- The walk follows the outline of the tree. -/
theorem Holds.shows_outline (h : Holds forest id node print) (hheight : node.height < depth)
    (level : Nat) :
    List.Forall₂ forest.Shows (sightsAt depth forest level id) (node.outline level) := by
  refine h.walk_induction (P := fun depth level id node =>
    List.Forall₂ forest.Shows (sightsAt depth forest level id) (node.outline level))
    ?_ hheight level
  intro depth level id node slot print hholds hslot hchildren
  rw [sightsAt_succ hslot, Node.outline_eq_cons, Node.outlineOf_eq_flatMap]
  exact .cons ⟨rfl, _, hholds⟩ (List.rel_flatMap hchildren fun _ _ hshows => hshows)

/-- What is shown are the slots at all addresses. -/
theorem Holds.mem_sightsAt_iff (h : Holds forest id node print) (hheight : node.height < depth)
    (level : Nat) (sight : Sight) : sight ∈ sightsAt depth forest level id ↔
      forest.slot? sight.id = some sight.slot ∧ ∃ address,
        forest.follow id address = some sight.id ∧ sight.level = level + address.length := by
  refine h.walk_induction (P := fun depth level id _ => sight ∈ sightsAt depth forest level id ↔
    forest.slot? sight.id = some sight.slot ∧ ∃ address,
      forest.follow id address = some sight.id ∧ sight.level = level + address.length)
    ?_ hheight level
  intro depth level id node slot print hholds hslot hchildren
  have hlinks := hholds.children_eq hslot
  have hmem := exists_mem_of_forall₂ hchildren
  rw [sightsAt_succ hslot, List.mem_cons, List.mem_flatMap]
  constructor
  · rintro (rfl | ⟨child, hchild, hsight⟩)
    · exact ⟨hslot, [], rfl, rfl⟩
    · obtain ⟨-, -, hiff⟩ := hmem child hchild
      obtain ⟨hfound, address, hfollow, hlevel⟩ := hiff.mp hsight
      obtain ⟨i, hi⟩ := List.mem_iff_getElem?.mp hchild
      refine ⟨hfound, i :: address, follow_cons.mpr ⟨slot, child, hslot, hlinks ▸ hi, hfollow⟩, ?_⟩
      rw [hlevel, List.length_cons]
      omega
  · rintro ⟨hfound, address, hfollow, hlevel⟩
    cases address with
    | nil =>
        obtain rfl := Option.some.inj hfollow
        obtain rfl := Option.some.inj (hslot.symm.trans hfound)
        exact .inl (by cases sight; simp_all)
    | cons i address =>
        obtain ⟨found, child, hother, hi, hrest⟩ := follow_cons.mp hfollow
        obtain rfl := Option.some.inj (hslot.symm.trans hother)
        have hchild : child ∈ slot.children := hlinks ▸ List.mem_of_getElem? hi
        obtain ⟨-, -, hiff⟩ := hmem child hchild
        refine .inr ⟨child, hchild, hiff.mpr ⟨hfound, address, hrest, ?_⟩⟩
        rw [hlevel, List.length_cons]
        omega

/-- A parent is shown before its children, all of which are shown. -/
theorem Holds.parentFirst (h : Holds forest id node print) (hheight : node.height < depth)
    (level : Nat) : ∀ sight ∈ sightsAt depth forest level id, ∀ child ∈ sight.slot.links,
      [sight.id, child].Sublist ((sightsAt depth forest level id).map Sight.id) := by
  refine (h.walk_induction (P := fun depth level id _ =>
    id ∈ (sightsAt depth forest level id).map Sight.id ∧
      ∀ sight ∈ sightsAt depth forest level id, ∀ child ∈ sight.slot.links,
        [sight.id, child].Sublist ((sightsAt depth forest level id).map Sight.id))
    ?_ hheight level).2
  intro depth level id node slot print hholds hslot hchildren
  have hlinks := hholds.children_eq hslot
  have hmem := exists_mem_of_forall₂ hchildren
  rw [sightsAt_succ hslot, List.map_cons]
  refine ⟨List.mem_cons_self, List.forall_mem_cons.mpr ⟨?_, ?_⟩⟩
  · intro child hlink
    have hchild : child ∈ slot.children := hlinks ▸ hlink
    obtain ⟨-, -, hself, -⟩ := hmem child hchild
    obtain ⟨sight, hsight, heq⟩ := List.mem_map.mp hself
    refine (List.singleton_sublist.mpr ?_).cons_cons id
    exact List.mem_map.mpr ⟨sight, List.mem_flatMap.mpr ⟨child, hchild, hsight⟩, heq⟩
  · intro sight hsight child hlink
    obtain ⟨other, hother, hsight⟩ := List.mem_flatMap.mp hsight
    obtain ⟨-, -, -, hfirst⟩ := hmem other hother
    have hpart : (sightsAt depth forest (level + 1) other).Sublist
        (slot.children.flatMap (sightsAt depth forest (level + 1))) :=
      List.sublist_flatten_of_mem (List.mem_map_of_mem hother)
    exact ((hfirst sight hsight child hlink).trans (hpart.map Sight.id)).cons id

/-- The sights of a held tree are in the order of a walk. -/
theorem Holds.walkOrder (h : Holds forest root node print) (hnodup : print.Nodup)
    (hheight : node.height < depth) : forest.WalkOrder root (sightsAt depth forest 0 root) where
  slot sight hsight := ((h.mem_sightsAt_iff hheight 0 sight).mp hsight).1
  once := by rwa [h.map_id_sightsAt hheight 0]
  parentFirst := h.parentFirst hheight 0
  reached id level := by
    constructor
    · rintro ⟨sight, hsight, rfl, rfl⟩
      obtain ⟨-, address, hfollow, hlevel⟩ := (h.mem_sightsAt_iff hheight 0 sight).mp hsight
      exact ⟨address, hfollow, hlevel.trans (Nat.zero_add _)⟩
    · rintro ⟨address, hfollow, rfl⟩
      obtain ⟨inner, below, hholds, -⟩ :=
        h.exists_of_follow (Q := fun _ => True) (fun _ _ _ => trivial) trivial hfollow
      obtain ⟨slot, -, hslot, -⟩ := hholds.exists_slot
      refine ⟨⟨id, slot, address.length⟩, ?_, rfl, rfl⟩
      exact (h.mem_sightsAt_iff hheight 0 _).mpr
        ⟨hslot, address, hfollow, (Nat.zero_add _).symm⟩

/-! ## The walk -/

theorem walkAll_eq {σ : Type} {visit : Sight → σ → ForInStep σ}
    {walk : Nat → σ → Except PatternError (ForInStep σ)} {sights : Nat → List Sight}
    (h : ∀ id ∈ ids, ∀ acc, walk id acc = .ok (visitAll visit (sights id) acc)) (acc : σ) :
    walkAll walk ids acc = .ok (visitAll visit (ids.flatMap sights) acc) := by
  induction ids generalizing acc with
  | nil => rfl
  | cons id ids ih =>
      obtain ⟨hfirst, hlater⟩ := List.forall_mem_cons.mp h
      simp only [walkAll, hfirst, List.flatMap_cons, visitAll_append, Except.bind, bind]
      cases visitAll visit (sights id) acc with
      | done last => rfl
      | yield next => exact ih hlater next

/-- The visitor is shown all sights until it is done, and the walk does not fail. -/
theorem Holds.walkAt_eq {σ : Type} (visit : Sight → σ → ForInStep σ)
    (h : Holds forest id node print) (hheight : node.height < depth) (level : Nat) (acc : σ) :
    walkAt visit depth forest level id acc =
      .ok (visitAll visit (sightsAt depth forest level id) acc) := by
  refine h.walk_induction (P := fun depth level id _ => ∀ acc,
    walkAt visit depth forest level id acc =
      .ok (visitAll visit (sightsAt depth forest level id) acc)) ?_ hheight level acc
  intro depth level id node slot print _ hslot hchildren acc
  have hall : ∀ child ∈ slot.children, ∀ acc, walkAt visit depth forest (level + 1) child acc =
      .ok (visitAll visit (sightsAt depth forest (level + 1) child) acc) := by
    intro child hchild
    obtain ⟨-, -, hwalk⟩ := exists_mem_of_forall₂ hchildren child hchild
    exact hwalk
  simp only [walkAt, hslot, sightsAt_succ hslot, visitAll]
  cases visit ⟨id, slot, level⟩ acc with
  | done last => rfl
  | yield next => exact walkAll_eq hall next

end Forest

end LiteralSieve
