import LiteralSieve.Proofs.Forest.Drafts

namespace LiteralSieve

/-!
# Reading into a forest

The reading of a pattern puts every node into a forest as soon as it is made. Each open level knows
the slots of its finished alternatives and of the draft of the current one. After each step the
forest holds all of them apart from each other, so at the end it holds the root.
-/

/-- The slots of the nodes of a level. -/
structure LevelSlots where
  finished : List Nat
  current : List Nat

/-- A forest with the slots of all open levels. -/
structure ParserSlots where
  forest : Forest
  level : LevelSlots
  outer : List LevelSlots
  root : Option Nat

namespace ParserSlots

def initial : ParserSlots := ⟨.empty, ⟨[], []⟩, [], none⟩

def draft (slots : ParserSlots) : DraftSlots := ⟨slots.forest, slots.level.current⟩

/-- The alternatives of the innermost level, if the last one ends at the offset. -/
def endBranch (slots : ParserSlots) (level : Level) (offset : Nat) : Forest × List Nat :=
  let draft := slots.draft.flush level.draft
  (draft.forest.add (.ofSequence draft.ids false ⟨level.current, offset⟩),
    slots.level.finished ++ [draft.forest.size])

def nextBranch (slots : ParserSlots) (level : Level) (offset : Nat) : ParserSlots :=
  let (forest, finished) := slots.endBranch level offset
  { slots with forest := forest, level := ⟨finished, []⟩ }

/-- The choice of all alternatives of the innermost level. -/
def endLevel (slots : ParserSlots) (level : Level) (offset : Nat) : Forest × Nat :=
  let (forest, ids) := slots.endBranch level offset
  (forest.addChoice ids false ⟨level.start, offset⟩, forest.size)

def finish (slots : ParserSlots) (state : ParserState) (offset : Nat) : ParserSlots :=
  let (forest, id) := slots.endLevel state.level offset
  { slots with forest := forest, root := if state.outer.isEmpty then some id else none }

/-- The slots after the atom is added. If it is a group, its node has the slot `group`. -/
def addAtom (reading : Reading) (slots : ParserSlots) (state : ParserState) (start group : Nat)
    (atom : Atom) (cursor : Cursor) : ParserSlots :=
  match Quantifier.read state.flags.extended cursor with
  | .error _ => slots
  | .ok (q, n) =>
    let draft := slots.draft.add reading.expansion state.level.draft q atom
      ⟨start, cursor.offset⟩ (cursor.advance n).offset group
    { slots with forest := draft.forest, level := ⟨slots.level.finished, draft.ids⟩ }

def openGroup (slots : ParserSlots) (state : ParserState) : ParserSlots :=
  if maxDepth ≤ state.outer.length then slots
  else { slots with level := ⟨[], []⟩, outer := slots.level :: slots.outer }

def closeGroup (reading : Reading) (slots : ParserSlots) (state : ParserState) (offset : Nat)
    (cursor : Cursor) : ParserSlots :=
  let (forest, id) := slots.endLevel state.level offset
  match state.outer, slots.outer with
  | ⟨opening, assertion, flags, level⟩ :: outer, around :: others =>
    let level := { level with draft := { level.draft with made := state.level.madeAtEnd } }
    let atom := if assertion then .gap else .node (state.level.node offset)
    addAtom reading ⟨forest, around, others, slots.root⟩ ⟨flags, level, outer⟩ opening id atom cursor
  | _, _ => { slots with forest := forest }

def apply (reading : Reading) (slots : ParserSlots) (state : ParserState) (offset : Nat)
    (cursor : Cursor) : Lexeme → ParserSlots
  | .blank | .atom .nothing => slots
  | .bar => slots.nextBranch state.level offset
  | .close => slots.closeGroup reading state offset cursor
  | .body _ _ => slots.openGroup state
  | .options flags => addAtom reading slots { state with flags := flags } offset 0 .gap cursor
  | .atom atom =>
    slots.addAtom reading state offset 0 (atom.under state.flags reading.caseSensitive) cursor

/-- The slots after the step that the reading takes at the cursor. -/
def step (reading : Reading) (slots : ParserSlots) (state : ParserState) : Cursor → ParserSlots
  | ⟨offset, []⟩ => slots.finish state offset
  | ⟨offset, c :: rest⟩ =>
    match Lexeme.read state.flags offset c rest with
    | .error _ => slots
    | .ok (lexeme, n) =>
      slots.apply reading state offset (Cursor.advance ⟨offset, c :: rest⟩ (n + 1)) lexeme

def run (reading : Reading) (slots : ParserSlots) (state : ParserState) (cursor : Cursor) :
    ParserSlots :=
  match _h : state.step reading cursor with
  | .done _ => slots.step reading state cursor
  | .next next stop => run reading (slots.step reading state cursor) next stop
termination_by cursor.rest.length
decreasing_by exact ParserState.step_rest_lt _h

end ParserSlots

/-- The forest that the reading of a pattern makes. -/
def parseSlots (reading : Reading) (pattern : String) : ParserSlots :=
  ParserSlots.initial.run reading .initial (.start pattern)

/-! ## What the forest holds -/

open Forest

/-- The forest holds all nodes of the level. -/
inductive LevelHeld (forest : Forest) (slots : LevelSlots) (level : Level) : List Nat → Prop
  | intro {first last : List Nat} (hfinished : HoldsAll forest slots.finished level.finished first)
      (hcurrent : HoldsAll forest slots.current level.draft.nodes last) :
      LevelHeld forest slots level (first ++ last)

inductive OuterHeld (forest : Forest) : List LevelSlots → List Outer → List Nat → Prop
  | nil : OuterHeld forest [] [] []
  | cons {slots : LevelSlots} {others : List LevelSlots} {outer : Outer} {outers : List Outer}
      {first later : List Nat} (hlevel : LevelHeld forest slots outer.level first)
      (houter : OuterHeld forest others outers later) :
      OuterHeld forest (slots :: others) (outer :: outers) (first ++ later)

section

variable {before after : Forest} {slots : LevelSlots} {level : Level} {print : List Nat}
  {others : List LevelSlots} {outers : List Outer}

theorem LevelHeld.grow (h : LevelHeld before slots level print) (hchange : Changes [] before after) :
    LevelHeld after slots level print := by
  obtain ⟨hfinished, hcurrent⟩ := h
  exact ⟨hfinished.grow hchange, hcurrent.grow hchange⟩

theorem LevelHeld.withMade (h : LevelHeld before slots level print) (made : Nat) :
    LevelHeld before slots { level with draft := { level.draft with made := made } } print := by
  obtain ⟨hfinished, hcurrent⟩ := h
  exact ⟨hfinished, hcurrent⟩

theorem LevelHeld.print_lt (h : LevelHeld before slots level print) :
    ∀ id ∈ print, id < before.size := by
  obtain ⟨hfinished, hcurrent⟩ := h
  exact List.forall_mem_append.mpr ⟨hfinished.print_lt, hcurrent.print_lt⟩

theorem OuterHeld.grow (h : OuterHeld before others outers print)
    (hchange : Changes [] before after) : OuterHeld after others outers print := by
  induction h with
  | nil => exact .nil
  | cons hlevel houter ih => exact .cons (hlevel.grow hchange) ih

theorem OuterHeld.print_lt (h : OuterHeld before others outers print) :
    ∀ id ∈ print, id < before.size := by
  induction h with
  | nil => exact List.forall_mem_nil _
  | cons hlevel houter ih => exact List.forall_mem_append.mpr ⟨hlevel.print_lt, ih⟩

end

namespace ParserSlots

variable {reading : Reading} {slots : ParserSlots} {state : ParserState} {level : Level}
  {pattern : String} {offset : Nat} {cursor : Cursor} {print inner around given : List Nat}

/-- The forest holds everything that is being read, and has as many slots as nodes were made. -/
structure Held (slots : ParserSlots) (state : ParserState) : Prop where
  sound : slots.forest.Sound
  size : slots.forest.size = state.level.made
  holds : ∃ inner around, LevelHeld slots.forest slots.level state.level inner ∧
    OuterHeld slots.forest slots.outer state.outer around ∧ (inner ++ around).Nodup

/-- The forest of a finished reading. If the pattern could be read, it holds the root. -/
structure Ended (slots : ParserSlots) (result : ParseResult) : Prop where
  sound : slots.forest.Sound
  size : slots.forest.size = result.made
  holds : ∀ root, result.root = .ok root →
    ∃ id print, slots.root = some id ∧ Forest.Holds slots.forest id root print ∧ print.Nodup

/-- The forest fits what a step leads to. -/
def Follows (slots : ParserSlots) : ParserStep → Prop
  | .next state _ => slots.Held state
  | .done result => slots.Ended result

theorem held_initial : initial.Held .initial where
  sound := sound_empty
  size := Pool.size_empty
  holds := ⟨_, _, ⟨.nil, .nil⟩, .nil, List.nodup_nil⟩

theorem Held.fail (h : slots.Held state) (fault : Fault) : slots.Follows (state.fail fault) :=
  ⟨h.sound, h.size, by rintro _ ⟨⟩⟩

/-! ## Levels -/

/-- The alternatives of a level take its slots and new ones. -/
theorem holdsAll_endBranch (h : LevelHeld slots.forest slots.level level print)
    (hnodup : print.Nodup) (hsize : slots.forest.size = level.made)
    (hplaced : level.Placed pattern offset) :
    Changes [] slots.forest (slots.endBranch level offset).1 ∧
      (slots.endBranch level offset).1.size = level.draft.flush.made + 1 ∧
      ∃ print', HoldsAll (slots.endBranch level offset).1 (slots.endBranch level offset).2
        (level.branches offset) print' ∧ Renews slots.forest.size print print' := by
  obtain ⟨hfinished, hcurrent⟩ := h
  rename_i first last
  have hkeeps : DraftSlots.Keeps slots.forest last slots.draft level.draft :=
    ⟨.refl _, hsize, last, hcurrent, .refl (List.nodup_append.mp hnodup).2.1 _⟩
  obtain ⟨hchange, hmade, last', hall, hrenews⟩ := hkeeps.flush hplaced.draft
  obtain ⟨hadd, hsequence⟩ := holds_addSequence hall false ⟨level.current, offset⟩
  refine ⟨hchange.trans_new hadd, (size_add _ _).trans (congrArg (· + 1) hmade), _,
    ((hfinished.grow hchange).grow hadd).append hsequence.all, ?_⟩
  exact (Renews.refl (List.nodup_append.mp hnodup).1 _).append
    (hrenews.cons_new hall.print_lt hchange.size_le) (Nat.le_refl _) hfinished.print_lt
    hcurrent.print_lt (List.disjoint_of_nodup_append hnodup)

theorem holds_endLevel (h : LevelHeld slots.forest slots.level level print)
    (hnodup : print.Nodup) (hsize : slots.forest.size = level.made)
    (hplaced : level.Placed pattern offset) :
    Changes [] slots.forest (slots.endLevel level offset).1 ∧
      (slots.endLevel level offset).1.size = level.madeAtEnd ∧
      ∃ print', Forest.Holds (slots.endLevel level offset).1 (slots.endLevel level offset).2
        (level.node offset) print' ∧ Renews slots.forest.size print print' := by
  obtain ⟨hchange, hmade, print', hall, hrenews⟩ := holdsAll_endBranch h hnodup hsize hplaced
  have hne : level.branches offset ≠ [] :=
    List.append_ne_nil_of_right_ne_nil _ (List.cons_ne_nil _ _)
  obtain ⟨hadd, hchoice⟩ := holds_addChoice hall hne false ⟨level.start, offset⟩
  exact ⟨hchange.trans_new hadd, (size_addChoice _ _ _ _).trans (congrArg (· + 1) hmade), _,
    hchoice, hrenews.cons_new hall.print_lt hchange.size_le⟩

theorem Held.nextBranch (h : slots.Held state) (hplaced : state.level.Placed pattern offset) :
    (slots.nextBranch state.level offset).Held
      { state with level := state.level.nextBranch offset } := by
  obtain ⟨inner, around, hlevel, houter, hnodup⟩ := h.holds
  obtain ⟨hchange, hmade, print', hall, hrenews⟩ :=
    holdsAll_endBranch hlevel (List.nodup_append.mp hnodup).1 h.size hplaced
  refine ⟨hchange.sound h.sound, hmade, _, around, ⟨hall, .nil⟩, houter.grow hchange, ?_⟩
  rw [List.append_nil]
  exact (hrenews.append (.refl (List.nodup_append.mp hnodup).2.1 _) hchange.size_le hall.print_lt
    houter.print_lt (List.disjoint_of_nodup_append hnodup)).nodup

theorem Held.finish (h : slots.Held state) (hplaced : state.level.Placed pattern offset) :
    (slots.finish state offset).Ended (state.finish offset) := by
  obtain ⟨inner, around, hlevel, houter, hnodup⟩ := h.holds
  obtain ⟨hchange, hmade, print', hroot, hrenews⟩ :=
    holds_endLevel hlevel (List.nodup_append.mp hnodup).1 h.size hplaced
  refine ⟨hchange.sound h.sound, hmade, fun root hok => ?_⟩
  cases hstate : state.outer with
  | nil =>
      rw [ParserState.finish, hstate] at hok
      obtain rfl := Except.ok.inj hok
      refine ⟨_, print', ?_, hroot, hrenews.nodup⟩
      rw [ParserSlots.finish, hstate]
      rfl
  | cons outer outers =>
      rw [ParserState.finish, hstate] at hok
      cases hok

/-! ## Steps -/

/-- An atom with its quantifier. The slots of a group become slots of the level. -/
theorem follows_addAtom (hsound : slots.forest.Sound) (hsize : slots.forest.size = state.level.made)
    (hlevel : LevelHeld slots.forest slots.level state.level inner)
    (houter : OuterHeld slots.forest slots.outer state.outer around)
    (hnodup : (inner ++ given ++ around).Nodup) {start group : Nat} {atom : Atom}
    (hgroup : ∀ node, atom = .node node → Forest.Holds slots.forest group node given)
    (hgiven : ∀ id ∈ given, id < slots.forest.size)
    (hplaced : state.level.Placed pattern offset) (hwithin : cursor.Within pattern)
    (hstart : Boundary pattern start) (hle : offset ≤ start) (hstop : start ≤ cursor.offset)
    (hatom : atom.Fits pattern ⟨start, cursor.offset⟩) (hproper : atom.Has Node.Proper) :
    (slots.addAtom reading state start group atom cursor).Follows
      (ParserState.addAtom reading state start atom cursor) := by
  obtain ⟨hinner, haround, hapart⟩ := List.nodup_append'.mp hnodup
  rw [ParserSlots.addAtom, ParserState.addAtom]
  cases Quantifier.read state.flags.extended cursor with
  | error fault => exact ⟨hsound, hsize, by rintro _ ⟨⟩⟩
  | ok found =>
      obtain ⟨q, n⟩ := found
      obtain ⟨hfinished, hcurrent⟩ := hlevel
      rename_i first last
      rw [List.append_assoc] at hinner hapart
      obtain ⟨hfirst, hlast, hdisjoint⟩ := List.nodup_append'.mp hinner
      obtain ⟨hlastNodup, hgivenNodup, hlastGiven⟩ := List.nodup_append'.mp hlast
      have hkeeps : DraftSlots.Keeps slots.forest last slots.draft state.level.draft :=
        ⟨.refl _, hsize, last, hcurrent, .refl hlastNodup _⟩
      have hheld : DraftSlots.GroupHeld slots.forest last group given atom := by
        cases atom with
        | node node => exact ⟨hgroup node rfl, hgivenNodup, hlastGiven⟩
        | _ => trivial
      have hsource : Extent.Placed pattern ⟨start, cursor.offset⟩ :=
        ⟨hstop, hstart, hwithin.boundary⟩
      have hadd : DraftSlots.Keeps slots.forest (last ++ given)
          (slots.draft.add reading.expansion state.level.draft q atom ⟨start, cursor.offset⟩
            (cursor.advance n).offset group)
          (state.level.draft.add reading.expansion q atom ⟨start, cursor.offset⟩
            (cursor.advance n).offset) :=
        hkeeps.add hsource hle (cursor.offset_le_advance n) (hwithin.advance n).boundary hatom hproper
          hheld hplaced.draft q
      obtain ⟨hchange, hmade, last', hall, hrenews⟩ := hadd
      have hlevelNew := (Renews.refl hfirst slots.forest.size).append hrenews (Nat.le_refl _)
        hfinished.print_lt (List.forall_mem_append.mpr ⟨hcurrent.print_lt, hgiven⟩) hdisjoint
      have hlt : ∀ id ∈ first ++ last', id < _ :=
        List.forall_mem_append.mpr ⟨(hfinished.grow hchange).print_lt, hall.print_lt⟩
      exact ⟨hchange.sound hsound, hmade, first ++ last', around,
        ⟨hfinished.grow hchange, hall⟩, houter.grow hchange,
        (hlevelNew.append (.refl haround _) hchange.size_le hlt houter.print_lt hapart).nodup⟩

/-- An atom that is no group. -/
theorem Held.addLeaf (h : slots.Held state) (hplaced : state.level.Placed pattern offset)
    (hoffset : Boundary pattern offset) (hwithin : cursor.Within pattern)
    (hle : offset ≤ cursor.offset) {atom : Atom} (hleaf : atom.IsLeaf)
    (hatom : atom.Fits pattern ⟨offset, cursor.offset⟩) :
    (slots.addAtom reading state offset 0 atom cursor).Follows
      (ParserState.addAtom reading state offset atom cursor) := by
  obtain ⟨inner, around, hlevel, houter, hnodup⟩ := h.holds
  have hgroup : ∀ node, atom = .node node → Forest.Holds slots.forest 0 node [] := by
    rintro node rfl
    exact hleaf.elim
  rw [← List.append_nil inner] at hnodup
  exact follows_addAtom h.sound h.size hlevel houter hnodup hgroup (List.forall_mem_nil _) hplaced
    hwithin hoffset (Nat.le_refl _) hle hatom (hleaf.has _)

theorem Held.openGroup (h : slots.Held state) (opening : Nat) (assertion : Bool) (flags : Flags)
    (cursor : Cursor) :
    (slots.openGroup state).Follows (state.openGroup opening assertion flags cursor) := by
  rw [ParserSlots.openGroup, ParserState.openGroup]
  split
  · exact h.fail _
  · obtain ⟨inner, around, hlevel, houter, hnodup⟩ := h.holds
    exact ⟨h.sound, h.size, _, _, ⟨.nil, .nil⟩, .cons hlevel houter, hnodup⟩

/-- A group that was closed, as an atom of the level around it. Only an assertion leaves its slots
unused. -/
theorem follows_closed {node : Node} {first later : List Nat} {opening id : Nat} {assertion : Bool}
    (hsound : slots.forest.Sound) (hsize : slots.forest.size = state.level.made)
    (hlevel : LevelHeld slots.forest slots.level state.level first)
    (houter : OuterHeld slots.forest slots.outer state.outer later)
    (hgroup : Forest.Holds slots.forest id node print) (hnodup : (print ++ (first ++ later)).Nodup)
    (hplaced : state.level.Placed pattern opening) (hwithin : cursor.Within pattern)
    (hopening : Boundary pattern opening) (hend : opening ≤ cursor.offset)
    (hnode : node.Placed pattern ∧ node.source.Within ⟨opening, cursor.offset⟩)
    (hproper : node.Proper) :
    let atom : Atom := if assertion then .gap else .node node
    (slots.addAtom reading state opening id atom cursor).Follows
      (ParserState.addAtom reading state opening atom cursor) := by
  cases assertion with
  | true =>
      have hothers : (first ++ [] ++ later).Nodup := by
        rw [List.append_nil]
        exact (List.nodup_append.mp hnodup).2.1
      have hnone : ∀ other, Atom.gap = .node other → Forest.Holds slots.forest id other [] := by
        rintro _ ⟨⟩
      exact follows_addAtom hsound hsize hlevel houter hothers hnone (List.forall_mem_nil _)
        hplaced hwithin hopening (Nat.le_refl _) hend trivial trivial
  | false =>
      have hothers : (first ++ print ++ later).Nodup := by
        rw [← List.append_assoc] at hnodup
        exact (List.perm_append_comm.append_right later).nodup hnodup
      have hheld : ∀ other, Atom.node node = .node other →
          Forest.Holds slots.forest id other print := fun other heq => Atom.node.inj heq ▸ hgroup
      exact follows_addAtom hsound hsize hlevel houter hothers hheld hgroup.print_lt hplaced hwithin
        hopening (Nat.le_refl _) hend hnode hproper

theorem Held.closeGroup (h : slots.Held state) (hproper : state.Has fun _ => Node.Proper)
    (hplaced : state.Placed pattern offset) (hoffset : Boundary pattern offset)
    (hwithin : cursor.Within pattern) (hle : offset ≤ cursor.offset) :
    (slots.closeGroup reading state offset cursor).Follows
      (state.closeGroup reading offset cursor) := by
  obtain ⟨inner, around, hlevel, houter, hnodup⟩ := h.holds
  obtain ⟨hinner, haround, hapart⟩ := List.nodup_append'.mp hnodup
  obtain ⟨hchange, hmade, print, hgroup, hrenews⟩ :=
    holds_endLevel hlevel hinner h.size hplaced.level
  have hall := (hrenews.append (.refl haround _) hchange.size_le hgroup.print_lt houter.print_lt
    hapart).nodup
  rw [ParserSlots.closeGroup, ParserState.closeGroup]
  cases hstate : state.outer with
  | nil => exact ⟨hchange.sound h.sound, hmade, by rintro _ ⟨⟩⟩
  | cons outer outers =>
      rw [hstate] at houter
      cases hslots : slots.outer with
      | nil =>
          rw [hslots] at houter
          cases houter
      | cons level others =>
          rw [hslots] at houter
          obtain _ | ⟨hfirst, hlater⟩ := houter
          have hlevels := hplaced.outer
          rw [hstate] at hlevels
          obtain ⟨hopening, hboundary, hlevelPlaced, -⟩ := hlevels
          have hend : outer.opening ≤ cursor.offset :=
            hopening.trans (hplaced.level.start_le.trans (hplaced.level.draft.le.trans hle))
          exact follows_closed (hchange.sound h.sound) hmade
            ((hfirst.grow hchange).withMade state.level.madeAtEnd) (hlater.grow hchange) hgroup hall
            (hlevelPlaced.withDraft (hlevelPlaced.draft.withMade state.level.madeAtEnd)) hwithin
            hboundary hend ⟨hplaced.level.node hoffset, hopening, hle⟩
            (hproper.level.node Node.hereditary_proper offset)

theorem Held.apply {n : Nat} {c : Char} {rest : List Char} {lexeme : Lexeme}
    (h : slots.Held state) (hproper : state.Has fun _ => Node.Proper) (hplaced : state.Placed pattern offset)
    (hwithin : Cursor.Within pattern ⟨offset, c :: rest⟩)
    (hread : Lexeme.read state.flags offset c rest = .ok (lexeme, n)) :
    (slots.apply reading state offset (Cursor.advance ⟨offset, c :: rest⟩ (n + 1)) lexeme).Follows
      (state.apply reading offset (Cursor.advance ⟨offset, c :: rest⟩ (n + 1)) lexeme) := by
  have hafter := hwithin.advance (n + 1)
  have hle := Cursor.offset_le_advance ⟨offset, c :: rest⟩ (n + 1)
  have hoffset := hwithin.boundary
  cases lexeme with
  | blank => exact h
  | bar => exact h.nextBranch hplaced.level
  | close => exact h.closeGroup hproper hplaced hoffset hafter hle
  | body assertion flags => exact h.openGroup offset assertion flags _
  | options flags =>
      have hflags : slots.Held { state with flags := flags } := ⟨h.sound, h.size, h.holds⟩
      have hgap : Atom.gap.IsLeaf := trivial
      exact hflags.addLeaf hplaced.level hoffset hafter hle hgap trivial
  | atom atom =>
      have hleaf := (Lexeme.isLeaf_of_read hread).under state.flags reading.caseSensitive
      have hfits := (Lexeme.fits_of_read hread hwithin).under state.flags reading.caseSensitive
      cases atom with
      | nothing => exact h
      | _ => exact h.addLeaf hplaced.level hoffset hafter hle hleaf hfits

/-- The forest follows one step of the reading. -/
theorem Held.step (h : slots.Held state) (hproper : state.Has fun _ => Node.Proper)
    (hplaced : state.Placed pattern cursor.offset) (hwithin : cursor.Within pattern)
    (reading : Reading) :
    (slots.step reading state cursor).Follows (state.step reading cursor) := by
  obtain ⟨offset, ahead⟩ := cursor
  cases ahead with
  | nil => exact h.finish hplaced.level
  | cons c rest =>
      rw [ParserSlots.step, ParserState.step]
      cases hread : Lexeme.read state.flags offset c rest with
      | error fault => exact h.fail fault
      | ok found => exact h.apply hproper hplaced hwithin hread

/-- The forest at the end of a reading. -/
theorem Held.run (h : slots.Held state) (hproper : state.Has fun _ => Node.Proper)
    (hplaced : state.Placed pattern cursor.offset) (hwithin : cursor.Within pattern) :
    (slots.run reading state cursor).Ended (state.run reading cursor) := by
  fun_induction ParserSlots.run reading slots state cursor with
  | case1 slots state cursor result hdone =>
      have hstep := h.step hproper hplaced hwithin reading
      rw [hdone] at hstep
      rwa [ParserState.run_of_done hdone]
  | case2 slots state cursor next stop hnext ih =>
      have hstep := h.step hproper hplaced hwithin reading
      have hproperNext := hproper.step Node.hereditary_proper reading cursor
      have hplacedNext := hplaced.step hwithin reading
      rw [hnext] at hstep hproperNext hplacedNext
      obtain ⟨n, -, rfl⟩ := ParserState.step_advances hnext
      rw [ParserState.run_of_next hnext]
      exact ih hstep hproperNext hplacedNext (hwithin.advance n)

end ParserSlots

/-- Whatever the pattern, reading it makes a sound forest, which holds the root if there is one. -/
theorem ended_parseSlots (reading : Reading) (pattern : String) :
    (parseSlots reading pattern).Ended (parse reading pattern) :=
  ParserSlots.held_initial.run ParserState.has_initial (ParserState.placed_initial pattern)
    (Cursor.within_start pattern)

end LiteralSieve
