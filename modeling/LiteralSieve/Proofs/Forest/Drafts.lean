import LiteralSieve.Proofs.Forest.Changes
import LiteralSieve.Proofs.Pattern.Placement

namespace LiteralSieve

/-!
# Drafts in forests

While a sequence is being read, its finished nodes have slots in a forest. Whatever a draft gets is
put into the forest in the same steps, and the forest holds the nodes of the draft after each. The
node of a group is there before the draft gets it, and is given to one place at most.
-/

/-- The slots of the nodes of a draft. -/
structure DraftSlots where
  forest : Forest
  ids : List Nat

theorem Draft.push_withMade (draft : Draft) (node : Node) (m n : Nat) :
    Draft.push { draft with made := draft.made + m } node n = draft.push node (m + n) := by
  obtain ⟨nodes, run, made⟩ := draft
  cases run with
  | none => simp [Draft.push, Draft.flush, Nat.add_assoc]
  | some run => simp [Draft.push, Draft.flush, Nat.add_assoc, Nat.add_left_comm m]

namespace DraftSlots

/-- The growing literal of the draft gets a slot. -/
def flush (slots : DraftSlots) (draft : Draft) : DraftSlots :=
  match draft.run with
  | none => slots
  | some (bytes, source) =>
    ⟨slots.forest.addLiteral bytes source, slots.ids ++ [slots.forest.size]⟩

def pushSlot (slots : DraftSlots) (draft : Draft) (id : Nat) : DraftSlots :=
  ⟨(slots.flush draft).forest, (slots.flush draft).ids ++ [id]⟩

def pushNode (slots : DraftSlots) (draft : Draft) (node : Node) : DraftSlots :=
  let (forest, id) := slots.forest.store node
  pushSlot ⟨forest, slots.ids⟩ draft id

section

/-! The draft gets an atom at `source`. If it is a group, its node has the slot `group`. -/

variable (expansion : Bool) (slots : DraftSlots) (draft : Draft)

def addOnce (source : Extent) (group : Nat) : Atom → DraftSlots
  | .set members =>
    match members.literal? with
    | some _ => slots
    | none => slots.pushNode draft (members.node expansion source)
  | .node _ => slots.pushSlot draft group
  | .gap => slots.pushNode draft (.gap source)
  | .char _ | .quoted _ | .nothing => slots

def addOptional (atom : Atom) (source full : Extent) (group : Nat) : DraftSlots :=
  let node := atom.toNode expansion source
  let absent := .literal [] ⟨full.stop, full.stop⟩
  match atom with
  | .node _ =>
    if node.isGap then slots.pushNode draft (.gap full)
    else
      let (forest, id) := slots.forest.store absent
      pushSlot ⟨forest.addChoice [group, id] false full, slots.ids⟩ draft forest.size
  | _ =>
    if node.isGap then pushNode ⟨(slots.forest.store node).1, slots.ids⟩ draft (.gap full)
    else slots.pushNode draft (.choice [node, absent] false full)

def addRepeated (q : Quantifier) (atom : Atom) (source : Extent) (stop group : Nat) : DraftSlots :=
  match atom with
  | .gap => slots.pushNode draft (.gap ⟨source.start, stop⟩)
  | atom =>
    if q.least = 0 then
      if q.most = some 1 then
        slots.addOptional expansion draft atom source ⟨source.start, stop⟩ group
      else slots.pushNode draft (.gap ⟨source.start, stop⟩)
    else
      match Draft.inlineCount? q atom with
      | some _ => slots
      | none =>
        let once := slots.addOnce expansion draft source group atom
        if q = ⟨1, some 1⟩ then once
        else once.pushNode (draft.addOnce expansion source atom) (.gap ⟨source.stop, stop⟩)

theorem addRepeated_of_ne {expansion : Bool} {slots : DraftSlots} {draft : Draft} {atom : Atom}
    (h : atom ≠ .gap) (q : Quantifier) (source : Extent) (stop group : Nat) :
    slots.addRepeated expansion draft q atom source stop group =
      if q.least = 0 then
        if q.most = some 1 then
          slots.addOptional expansion draft atom source ⟨source.start, stop⟩ group
        else slots.pushNode draft (.gap ⟨source.start, stop⟩)
      else
        match Draft.inlineCount? q atom with
        | some _ => slots
        | none =>
          let once := slots.addOnce expansion draft source group atom
          if q = ⟨1, some 1⟩ then once
          else once.pushNode (draft.addOnce expansion source atom) (.gap ⟨source.stop, stop⟩) := by
  cases atom with
  | gap => exact absurd rfl h
  | _ => rfl

def addPlain (q : Option Quantifier) (atom : Atom) (source : Extent) (stop group : Nat) :
    DraftSlots :=
  match q with
  | none => slots.addOnce expansion draft source group atom
  | some q => slots.addRepeated expansion draft q atom source stop group

def addQuoted (q : Option Quantifier) (text : List Char) (source : Extent) (stop : Nat) :
    DraftSlots :=
  let first := text.dropLast
  let split := source.start + 2 + width first
  let draft :=
    if first.isEmpty then draft
    else draft.pushBytes (first.flatMap String.utf8EncodeChar) ⟨source.start, split⟩
  match text.getLast? with
  | none => slots
  | some c => slots.addPlain expansion draft q (.char c) ⟨split, source.stop⟩ stop 0

def add (q : Option Quantifier) (atom : Atom) (source : Extent) (stop group : Nat) : DraftSlots :=
  match atom with
  | .quoted text => slots.addQuoted expansion draft q text source stop
  | .nothing => slots
  | atom => slots.addPlain expansion draft q atom source stop group

end

/-! ## What the forest holds -/

/-- The forest has grown from an earlier one, and holds the nodes of the draft in slots that are new
or were given to the draft. -/
structure Keeps (forest : Forest) (owned : List Nat) (slots : DraftSlots) (draft : Draft) :
    Prop where
  changes : Forest.Changes [] forest slots.forest
  size : slots.forest.size = draft.made
  holds : ∃ print, Forest.HoldsAll slots.forest slots.ids draft.nodes print ∧
    Forest.Renews forest.size owned print

open Forest

variable {forest grown : Forest} {owned given print : List Nat} {slots : DraftSlots}
  {draft : Draft} {node : Node} {id made : Nat} {pattern : String} {lo hi : Nat}

theorem Keeps.mono {owned' : List Nat} (h : Keeps forest owned slots draft)
    (hsubset : owned ⊆ owned') : Keeps forest owned' slots draft := by
  obtain ⟨print, hholds, hnew⟩ := h.holds
  exact ⟨h.changes, h.size, print, hholds, hnew.mono hsubset⟩

theorem Keeps.pushBytes (h : Keeps forest owned slots draft) (bytes : Bytes) (source : Extent) :
    Keeps forest owned slots (draft.pushBytes bytes source) := by
  obtain ⟨nodes, run, made⟩ := draft
  cases run <;> exact ⟨h.changes, h.size, h.holds⟩

/-- Slots of which nothing is kept do not matter. -/
theorem Keeps.grow (h : Keeps forest owned slots draft) (hgrow : Changes [] slots.forest grown)
    (hsize : grown.size = slots.forest.size + made) :
    Keeps forest owned ⟨grown, slots.ids⟩ { draft with made := draft.made + made } := by
  obtain ⟨print, hholds, hnew⟩ := h.holds
  exact ⟨h.changes.trans_new hgrow, hsize.trans (congrArg (· + made) h.size), print,
    hholds.grow hgrow, hnew⟩

/-- Flushing puts at most one new slot behind the others. -/
theorem holdsAll_flush (h : HoldsAll slots.forest slots.ids draft.nodes print)
    (hplaced : draft.Placed pattern lo hi) :
    Changes [] slots.forest (slots.flush draft).forest ∧
      (slots.flush draft).forest.size + draft.made = slots.forest.size + draft.flush.made ∧
      ∃ more, HoldsAll (slots.flush draft).forest (slots.flush draft).ids draft.flush.nodes
        (print ++ more) ∧ Renews slots.forest.size [] more := by
  rw [DraftSlots.flush, Draft.flush]
  cases hrun : draft.run with
  | none =>
      refine ⟨.refl _, rfl, [], ?_, .refl List.nodup_nil _⟩
      rwa [List.append_nil]
  | some run =>
      obtain ⟨bytes, source⟩ := run
      obtain ⟨hchange, hliteral⟩ :=
        holds_addLiteral slots.forest (fun _ => hplaced.spelled_run hrun) source
      refine ⟨hchange, ?_, _, (h.grow hchange).append hliteral.all, renews_singleton _⟩
      exact (congrArg (· + draft.made) (size_addLiteral _ _ _)).trans (Nat.add_right_comm _ _ _)

theorem Keeps.flush (h : Keeps forest owned slots draft) (hplaced : draft.Placed pattern lo hi) :
    Keeps forest owned (slots.flush draft) draft.flush := by
  obtain ⟨print, hholds, hnew⟩ := h.holds
  obtain ⟨hchange, hsize, more, hall, hmore⟩ := holdsAll_flush hholds hplaced
  have hdraft := h.size
  exact ⟨h.changes.trans_new hchange, by omega, _, hall,
    hnew.append_new hmore h.changes.size_le hholds.print_lt⟩

/-- The draft gets a node that the forest holds, in slots that were given to it or are new. -/
theorem Keeps.pushHeld (h : Keeps forest owned slots draft) (hplaced : draft.Placed pattern lo hi)
    (hgrow : Changes [] slots.forest grown) (hsize : grown.size = slots.forest.size + made)
    (hnode : Forest.Holds grown id node print) (hprint : Renews slots.forest.size given print)
    (hgiven : ∀ other ∈ given, other < forest.size) (hapart : owned.Disjoint given) :
    Keeps forest (owned ++ given) (pushSlot ⟨grown, slots.ids⟩ draft id) (draft.push node made) := by
  obtain ⟨old, hold, hrenews⟩ := h.holds
  have hgrown : HoldsAll (DraftSlots.mk grown slots.ids).forest slots.ids draft.nodes old :=
    hold.grow hgrow
  obtain ⟨hchange, hflush, more, hall, hmore⟩ := holdsAll_flush hgrown hplaced
  have hlt : ∀ other ∈ old ++ print, other < grown.size :=
    List.forall_mem_append.mpr ⟨hgrown.print_lt, hnode.print_lt⟩
  have hboth : Renews forest.size (owned ++ given) (old ++ print ++ more) :=
    (hrenews.append hprint h.changes.size_le hold.print_lt hgiven hapart).append_new hmore
      (h.changes.size_le.trans hgrow.size_le) hlt
  -- The flushed literal has the newest slot, but stands before the node.
  have hperm : (old ++ print ++ more).Perm (old ++ more ++ print) := by
    rw [List.append_assoc, List.append_assoc]
    exact List.perm_append_comm.append_left old
  refine ⟨(h.changes.trans_new hgrow).trans_new hchange, ?_, _,
    hall.append (hnode.grow hchange).all, hboth.perm hperm⟩
  have hdraft := h.size
  change (DraftSlots.flush ⟨grown, slots.ids⟩ draft).forest.size = draft.flush.made + made
  dsimp only at hflush
  omega

theorem Keeps.pushNode (h : Keeps forest owned slots draft) (hplaced : draft.Placed pattern lo hi)
    (hproper : node.Proper) (hnode : node.Placed pattern) :
    Keeps forest owned (slots.pushNode draft node) (draft.push node node.size) := by
  obtain ⟨hchange, print, hholds, hnew⟩ := stores_store slots.forest hproper hnode
  rw [← List.append_nil owned]
  exact h.pushHeld hplaced hchange (size_store _ _) hholds hnew (List.forall_mem_nil _)
    (List.disjoint_nil_right owned)

theorem Keeps.pushGap (h : Keeps forest owned slots draft) (hplaced : draft.Placed pattern lo hi)
    {source : Extent} (hsource : source.Placed pattern) :
    Keeps forest owned (slots.pushNode draft (.gap source)) (draft.push (.gap source) 1) := by
  have hgap : (Node.gap source).Placed pattern := hsource
  exact h.pushNode hplaced trivial hgap

/-! ## Atoms -/

/-- If the atom is a group, the forest holds its node in slots that the draft does not have. -/
def GroupHeld (forest : Forest) (owned : List Nat) (group : Nat) (given : List Nat) : Atom → Prop
  | .node n => Forest.Holds forest group n given ∧ given.Nodup ∧ owned.Disjoint given
  | _ => True

section

variable {expansion : Bool} {source : Extent} {atom : Atom} {group stop : Nat}

theorem Keeps.addOnce (h : Keeps forest owned slots draft) (hplaced : draft.Placed pattern lo hi)
    (hsource : source.Placed pattern) (hgroup : GroupHeld forest owned group given atom) :
    Keeps forest (owned ++ given) (slots.addOnce expansion draft source group atom)
      (draft.addOnce expansion source atom) := by
  have hleft : owned ⊆ owned ++ given := List.subset_append_left _ _
  cases atom with
  | set members =>
      rw [DraftSlots.addOnce, Draft.addOnce]
      cases members.literal? with
      | some b => exact (h.pushBytes _ _).mono hleft
      | none =>
          exact (h.pushNode hplaced (ByteSet.has_node Node.hereditary_proper 0 expansion members source)
            (ByteSet.placed_node hsource expansion members)).mono hleft
  | node n =>
      obtain ⟨hholds, hnodup, hapart⟩ := hgroup
      exact h.pushHeld hplaced (.refl _) rfl (hholds.grow h.changes) (.refl hnodup _)
        hholds.print_lt hapart
  | gap => exact (h.pushGap hplaced hsource).mono hleft
  | char c => exact (h.pushBytes _ _).mono hleft
  | quoted text => exact (h.pushBytes _ _).mono hleft
  | nothing => exact h.mono hleft

variable (hsource : source.Placed pattern) (hle : hi ≤ source.start) (hstop : source.stop ≤ stop)
  (hboundary : Boundary pattern stop) (hatom : atom.Fits pattern source)
  (hproper : atom.Has Node.Proper) (hgroup : GroupHeld forest owned group given atom)

include hsource hle hstop hboundary hatom hproper hgroup

omit hle hproper in
/-- The choice of a group and nothing takes the slots of the group and two new ones. -/
theorem Keeps.addOptional_node {n : Node} (hnode : atom = .node n)
    (h : Keeps forest owned slots draft) (hplaced : draft.Placed pattern lo hi) :
    Keeps forest (owned ++ given)
      (slots.addOptional expansion draft atom source ⟨source.start, stop⟩ group)
      (draft.addOptional expansion atom source ⟨source.start, stop⟩) := by
  subst hnode
  obtain ⟨hholds, hnodup, hapart⟩ := hgroup
  have hfull : Extent.Placed pattern ⟨source.start, stop⟩ :=
    Draft.placed_full hsource hstop hboundary
  rw [DraftSlots.addOptional, Draft.addOptional]
  dsimp only
  split
  · exact (h.pushGap hplaced hfull).mono (List.subset_append_left _ _)
  · obtain ⟨hgrow, habsent⟩ := holds_addLiteral slots.forest (fun _ => spelled_nil) ⟨stop, stop⟩
    have hboth := (hholds.grow (h.changes.trans_new hgrow)).all.append habsent.all
    have hbelow : ∀ other ∈ given, other < slots.forest.size :=
      fun other hother => (hholds.print_lt other hother).trans_le h.changes.size_le
    have hpair : Renews slots.forest.size given (given ++ [slots.forest.size]) :=
      (Renews.refl hnodup _).append_new (renews_singleton _) (Nat.le_refl _) hbelow
    obtain ⟨hchange, hchoice⟩ := holds_addChoice hboth (List.cons_ne_nil _ _) false
      ⟨source.start, stop⟩
    refine h.pushHeld hplaced (hgrow.trans_new hchange) ?_ hchoice
      (hpair.cons_new hboth.print_lt hgrow.size_le) hholds.print_lt hapart
    exact (size_addChoice _ _ _ _).trans (congrArg (· + 1) (size_addLiteral _ _ _))

omit hle hgroup in
theorem Keeps.addOptional_leaf (hleaf : atom.IsLeaf) (h : Keeps forest owned slots draft)
    (hplaced : draft.Placed pattern lo hi) :
    Keeps forest owned
      (slots.addOptional expansion draft atom source ⟨source.start, stop⟩ group)
      (draft.addOptional expansion atom source ⟨source.start, stop⟩) := by
  have hfull : Extent.Placed pattern ⟨source.start, stop⟩ :=
    Draft.placed_full hsource hstop hboundary
  have hnode : (atom.toNode expansion source).Placed pattern :=
    (hatom.placed_toNode hsource expansion).1
  have hnodeProper : (atom.toNode expansion source).Proper :=
    hproper.toNode Node.hereditary_proper 0 expansion source
  have hmade : atom.made expansion source = (atom.toNode expansion source).size := by
    cases atom with
    | node n => exact hleaf.elim
    | _ => rfl
  have hslots : slots.addOptional expansion draft atom source ⟨source.start, stop⟩ group =
      if (atom.toNode expansion source).isGap then
        DraftSlots.pushNode (.mk (slots.forest.store (atom.toNode expansion source)).1 slots.ids)
          draft (.gap ⟨source.start, stop⟩)
      else slots.pushNode draft (.choice [atom.toNode expansion source, .literal [] ⟨stop, stop⟩]
        false ⟨source.start, stop⟩) := by
    cases atom with
    | node n => exact hleaf.elim
    | _ => rfl
  rw [hslots, Draft.addOptional, hmade]
  dsimp only
  split
  · -- The gap that stands for the atom takes a slot, but the draft gets another one.
    have hstored := stores_store slots.forest hnodeProper hnode
    have hpushed := (h.grow hstored.changes (size_store _ _)).pushGap (hplaced.withMade _) hfull
    rwa [Draft.push_withMade] at hpushed
  · have hchoice : (Node.choice [atom.toNode expansion source, .literal [] ⟨stop, stop⟩] false
        ⟨source.start, stop⟩).Placed pattern :=
      Draft.placed_optional hsource hstop hboundary hatom
    exact h.pushNode hplaced ⟨List.cons_ne_nil _ _, hnodeProper, trivial, trivial⟩ hchoice

omit hle in
theorem Keeps.addOptional (h : Keeps forest owned slots draft)
    (hplaced : draft.Placed pattern lo hi) :
    Keeps forest (owned ++ given)
      (slots.addOptional expansion draft atom source ⟨source.start, stop⟩ group)
      (draft.addOptional expansion atom source ⟨source.start, stop⟩) := by
  cases atom with
  | node n => exact h.addOptional_node hsource hstop hboundary hatom hgroup rfl hplaced
  | _ =>
      exact (h.addOptional_leaf hsource hstop hboundary hatom hproper trivial hplaced).mono
        (List.subset_append_left _ _)

omit hproper in
/-- An atom that occurs at least once, with a quantifier. -/
theorem Keeps.addSome (h : Keeps forest owned slots draft) (hplaced : draft.Placed pattern lo hi)
    (q : Quantifier) :
    Keeps forest (owned ++ given)
      (match Draft.inlineCount? q atom with
        | some _ => slots
        | none =>
          let once := slots.addOnce expansion draft source group atom
          if q = ⟨1, some 1⟩ then once
          else once.pushNode (draft.addOnce expansion source atom) (.gap ⟨source.stop, stop⟩))
      (match Draft.inlineCount? q atom with
        | some (c, n) =>
          draft.pushBytes (List.replicate n (String.utf8EncodeChar c)).flatten ⟨source.start, stop⟩
        | none =>
          let draft := draft.addOnce expansion source atom
          if q = ⟨1, some 1⟩ then draft else draft.push (.gap ⟨source.stop, stop⟩) 1) := by
  cases Draft.inlineCount? q atom with
  | some found => exact (h.pushBytes _ _).mono (List.subset_append_left _ _)
  | none =>
      have honce : Keeps forest (owned ++ given) (slots.addOnce expansion draft source group atom)
          (draft.addOnce expansion source atom) := h.addOnce hplaced hsource hgroup
      have hdraft : (draft.addOnce expansion source atom).Placed pattern lo source.stop :=
        hplaced.addOnce hsource hle hatom
      dsimp only
      split
      · exact honce
      · exact honce.pushGap hdraft ⟨hstop, hsource.stop, hboundary⟩

theorem Keeps.addRepeated (h : Keeps forest owned slots draft)
    (hplaced : draft.Placed pattern lo hi) (q : Quantifier) :
    Keeps forest (owned ++ given) (slots.addRepeated expansion draft q atom source stop group)
      (draft.addRepeated expansion q atom source stop) := by
  have hgap : Keeps forest (owned ++ given) (slots.pushNode draft (.gap ⟨source.start, stop⟩))
      (draft.push (.gap ⟨source.start, stop⟩) 1) :=
    (h.pushGap hplaced (Draft.placed_full hsource hstop hboundary)).mono
      (List.subset_append_left _ _)
  by_cases hatomGap : atom = .gap
  · subst hatomGap
    exact hgap
  · rw [DraftSlots.addRepeated_of_ne hatomGap, Draft.addRepeated_of_ne hatomGap]
    split
    · split
      · exact h.addOptional hsource hstop hboundary hatom hproper hgroup hplaced
      · exact hgap
    · exact h.addSome hsource hle hstop hboundary hatom hgroup hplaced q

theorem Keeps.addPlain (h : Keeps forest owned slots draft)
    (hplaced : draft.Placed pattern lo hi) (q : Option Quantifier) :
    Keeps forest (owned ++ given) (slots.addPlain expansion draft q atom source stop group)
      (draft.addPlain expansion q atom source stop) := by
  cases q with
  | none => exact h.addOnce hplaced hsource hgroup
  | some q => exact h.addRepeated hsource hle hstop hboundary hatom hproper hgroup hplaced q

omit hatom hproper hgroup in
theorem Keeps.addQuoted {text : List Char} (hatom : (Atom.quoted text).Fits pattern source)
    (h : Keeps forest owned slots draft) (hplaced : draft.Placed pattern lo hi)
    (q : Option Quantifier) :
    Keeps forest owned (slots.addQuoted expansion draft q text source stop)
      (draft.addQuoted expansion q text source stop) := by
  rw [DraftSlots.addQuoted, Draft.addQuoted]
  cases hlast : text.getLast? with
  | none =>
      obtain rfl := List.getLast?_eq_none_iff.mp hlast
      exact h
  | some c =>
      obtain ⟨hfirst, hsplit⟩ := Draft.quoted_split hsource hatom hlast
      have hchar : (Atom.char c).Fits pattern
          ⟨source.start + 2 + width text.dropLast, source.stop⟩ := trivial
      have hnone : GroupHeld forest owned 0 [] (.char c) := trivial
      have hfront : Keeps forest owned slots
          (if text.dropLast.isEmpty then draft
            else draft.pushBytes (text.dropLast.flatMap String.utf8EncodeChar)
              ⟨source.start, source.start + 2 + width text.dropLast⟩) := by
        split
        · exact h
        · exact h.pushBytes _ _
      rw [← List.append_nil owned]
      exact hfront.addPlain hsplit (Nat.le_refl _) hstop hboundary hchar trivial hnone
        (hplaced.pushFront hle text.dropLast hfirst) q

theorem Keeps.add (h : Keeps forest owned slots draft) (hplaced : draft.Placed pattern lo hi)
    (q : Option Quantifier) :
    Keeps forest (owned ++ given) (slots.add expansion draft q atom source stop group)
      (draft.add expansion q atom source stop) := by
  have hleft : owned ⊆ owned ++ given := List.subset_append_left _ _
  cases atom with
  | quoted text => exact (h.addQuoted hsource hle hstop hboundary hatom hplaced q).mono hleft
  | nothing => exact h.mono hleft
  | _ => exact h.addPlain hsource hle hstop hboundary hatom hproper hgroup hplaced q

end

end DraftSlots

end LiteralSieve
