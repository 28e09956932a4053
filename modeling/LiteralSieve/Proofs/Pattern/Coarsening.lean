import LiteralSieve.Proofs.Pattern.Hereditary
import LiteralSieve.Proofs.Pattern.Induction
import Mathlib.Data.List.Forall2

namespace LiteralSieve

/-!
# Reading without the members of sets

A pattern is read in the same steps whether its sets become choices or gaps. The two readings have
the same faults, and the trees that come out have the same content, but where a set stood: a gap has
none. So a part that has no content in the fine tree has none in the coarse one either.
-/

open Node

/-- Where the fine node has no content, the coarse one has none. -/
def Node.Coarser (fine coarse : Node) : Prop := fine.isHollow = true → coarse.isHollow = true

namespace Node

variable {fine coarse node : Node} {fines coarses : List Node}

theorem Coarser.refl (node : Node) : node.Coarser node := id

theorem coarser_gap (node : Node) (source : Extent) : node.Coarser (gap source) :=
  fun _ => by rw [isHollow]

theorem coarser_sequence (h : List.Forall₂ Coarser fines coarses) (source : Extent) :
    (sequence fines false source).Coarser (sequence coarses false source) := by
  intro hhollow
  rw [isHollow_sequence_iff] at hhollow ⊢
  obtain ⟨hne, hall⟩ := hhollow
  have hlength := h.length_eq
  refine ⟨?_, ?_⟩
  · rw [← List.length_pos_iff] at hne ⊢
    rwa [← hlength]
  · clear hne hlength
    induction h with
    | nil => exact List.forall_mem_nil _
    | cons hnode _ ih =>
        obtain ⟨hfirst, hlater⟩ := List.forall_mem_cons.mp hall
        exact List.forall_mem_cons.mpr ⟨hnode hfirst, ih hlater⟩

theorem coarser_choice (h : List.Forall₂ Coarser fines coarses) (source : Extent) :
    (choice fines false source).Coarser (choice coarses false source) := by
  intro hhollow
  rw [isHollow_choice_iff] at hhollow ⊢
  induction h with
  | nil => exact hhollow
  | cons hnode _ ih =>
      simp only [List.exists_mem_cons_iff] at hhollow ⊢
      exact hhollow.imp hnode ih

end Node

/-! ## Atoms -/

/-- The same atom, or the nodes of a group. -/
inductive Atom.Coarser : Atom → Atom → Prop
  | node {fine coarse : Node} (h : fine.Coarser coarse) : Coarser (.node fine) (.node coarse)
  | same (atom : Atom) : Coarser atom atom

variable {expansion : Bool}

theorem ByteSet.coarser_node (s : ByteSet) (source : Extent) :
    (s.node expansion source).Coarser (s.node false source) :=
  coarser_gap _ source

theorem Atom.Coarser.toNode {fine coarse : Atom} (h : fine.Coarser coarse) (source : Extent) :
    (fine.toNode expansion source).Coarser (coarse.toNode false source) := by
  cases h with
  | node h => exact h
  | same =>
      cases fine with
      | set members =>
          rw [Atom.toNode, Atom.toNode]
          split
          · exact .refl _
          · exact members.coarser_node source
      | _ => exact .refl _

/-! ## Drafts -/

namespace Draft

/-- The finished nodes have their like, and the literal that grows is the same. -/
structure Coarser (fine coarse : Draft) : Prop where
  nodes : List.Forall₂ Node.Coarser fine.nodes coarse.nodes
  run : fine.run = coarse.run

variable {fine coarse : Draft} {fineAtom coarseAtom : Atom} {fineNode coarseNode : Node}

theorem coarser_start (m n : Nat) : (start m).Coarser (start n) := ⟨.nil, rfl⟩

theorem Coarser.pushBytes (h : fine.Coarser coarse) (bytes : Bytes) (source : Extent) :
    (fine.pushBytes bytes source).Coarser (coarse.pushBytes bytes source) := by
  rw [Draft.pushBytes, Draft.pushBytes, ← h.run]
  split
  · exact ⟨h.nodes, rfl⟩
  · exact ⟨h.nodes, rfl⟩

theorem Coarser.flush (h : fine.Coarser coarse) : fine.flush.Coarser coarse.flush := by
  rw [Draft.flush, Draft.flush, ← h.run]
  split
  · exact h
  · exact ⟨List.rel_append h.nodes (.cons (.refl _) .nil), rfl⟩

theorem Coarser.push (h : fine.Coarser coarse) (hnode : fineNode.Coarser coarseNode) (m n : Nat) :
    (fine.push fineNode m).Coarser (coarse.push coarseNode n) :=
  ⟨List.rel_append h.flush.nodes (.cons hnode .nil), h.flush.run⟩

theorem Coarser.sequence (h : fine.Coarser coarse) (source : Extent) :
    (fine.sequence source).Coarser (coarse.sequence source) :=
  coarser_sequence h.flush.nodes source

theorem Coarser.addOnce (h : fine.Coarser coarse) (hatom : fineAtom.Coarser coarseAtom)
    (source : Extent) :
    (fine.addOnce expansion source fineAtom).Coarser (coarse.addOnce false source coarseAtom) := by
  cases hatom with
  | node hnode => exact h.push hnode 0 0
  | same =>
      cases fineAtom with
      | set members =>
          rw [Draft.addOnce, Draft.addOnce]
          split
          · exact h.pushBytes _ source
          · exact h.push (members.coarser_node source) _ _
      | node node => exact h.push (.refl node) 0 0
      | gap => exact h.push (.refl _) 1 1
      | nothing => exact h
      | char c => exact h.pushBytes _ source
      | quoted text => exact h.pushBytes _ source

/-- What is added for an optional atom has content if the atom has. -/
theorem exists_addOptional (expansion : Bool) (draft : Draft) (atom : Atom) (source full : Extent) :
    ∃ node made, draft.addOptional expansion atom source full = draft.push node made ∧
      node.isHollow = (atom.toNode expansion source).isHollow := by
  rw [Draft.addOptional]
  dsimp only
  split
  case isTrue hgap =>
    refine ⟨_, _, rfl, ?_⟩
    cases hnode : atom.toNode expansion source with
    | gap source => rw [isHollow, isHollow]
    | _ =>
        rw [hnode] at hgap
        cases hgap
  case isFalse =>
    refine ⟨_, _, rfl, ?_⟩
    rw [isHollow, anyHollow, anyHollow, anyHollow, isHollow, Bool.or_false, Bool.or_false]

theorem Coarser.addOptional (h : fine.Coarser coarse) (hatom : fineAtom.Coarser coarseAtom)
    (source full : Extent) :
    (fine.addOptional expansion fineAtom source full).Coarser
      (coarse.addOptional false coarseAtom source full) := by
  obtain ⟨fineNode, m, hfine, hfineHollow⟩ := exists_addOptional expansion fine fineAtom source full
  obtain ⟨coarseNode, n, hcoarse, hcoarseHollow⟩ :=
    exists_addOptional false coarse coarseAtom source full
  have hnode : fineNode.Coarser coarseNode := by
    rw [Node.Coarser, hfineHollow, hcoarseHollow]
    exact hatom.toNode source
  rw [hfine, hcoarse]
  exact h.push hnode m n

theorem inlineCount?_eq (hatom : fineAtom.Coarser coarseAtom) (q : Quantifier) :
    inlineCount? q coarseAtom = inlineCount? q fineAtom := by
  cases hatom <;> rfl

theorem Coarser.addRepeated (h : fine.Coarser coarse) (q : Quantifier)
    (hatom : fineAtom.Coarser coarseAtom) (source : Extent) (stop : Nat) :
    (fine.addRepeated expansion q fineAtom source stop).Coarser
      (coarse.addRepeated false q coarseAtom source stop) := by
  have honce : (fine.addOnce expansion source fineAtom).Coarser
      (coarse.addOnce false source coarseAtom) := h.addOnce hatom source
  by_cases hgap : fineAtom = .gap
  · subst hgap
    cases hatom
    exact h.push (.refl _) 1 1
  · have hother : coarseAtom ≠ .gap := by
      rintro rfl
      cases hatom
      exact hgap rfl
    rw [addRepeated_of_ne hgap, addRepeated_of_ne hother, inlineCount?_eq hatom]
    split
    · split
      · exact h.addOptional hatom source _
      · exact h.push (.refl _) 1 1
    · split
      · exact h.pushBytes _ _
      · dsimp only
        split
        · exact honce
        · exact honce.push (.refl _) 1 1

theorem Coarser.addPlain (h : fine.Coarser coarse) (q : Option Quantifier)
    (hatom : fineAtom.Coarser coarseAtom) (source : Extent) (stop : Nat) :
    (fine.addPlain expansion q fineAtom source stop).Coarser
      (coarse.addPlain false q coarseAtom source stop) := by
  cases q with
  | none => exact h.addOnce hatom source
  | some q => exact h.addRepeated q hatom source stop

theorem Coarser.addQuoted (h : fine.Coarser coarse) (q : Option Quantifier) (text : List Char)
    (source : Extent) (stop : Nat) :
    (fine.addQuoted expansion q text source stop).Coarser
      (coarse.addQuoted false q text source stop) := by
  rw [Draft.addQuoted, Draft.addQuoted]
  have hfirst : ∀ (empty : Bool) (bytes : Bytes) (part : Extent),
      (if empty then fine else fine.pushBytes bytes part).Coarser
        (if empty then coarse else coarse.pushBytes bytes part) := by
    intro empty bytes part
    split
    · exact h
    · exact h.pushBytes bytes part
  split
  · exact hfirst _ _ _
  · exact (hfirst _ _ _).addPlain q (.same _) _ stop

theorem Coarser.add (h : fine.Coarser coarse) (q : Option Quantifier)
    (hatom : fineAtom.Coarser coarseAtom) (source : Extent) (stop : Nat) :
    (fine.add expansion q fineAtom source stop).Coarser
      (coarse.add false q coarseAtom source stop) := by
  cases hatom with
  | node hnode => exact h.addPlain q (.node hnode) source stop
  | same =>
      cases fineAtom with
      | quoted text => exact h.addQuoted q text source stop
      | nothing => exact h
      | set members => exact h.addPlain q (.same _) source stop
      | node node => exact h.addPlain q (.same _) source stop
      | gap => exact h.addPlain q (.same _) source stop
      | char c => exact h.addPlain q (.same _) source stop

end Draft

/-! ## Levels -/

namespace Level

/-- The levels start at the same places, and their nodes have their like. -/
structure Coarser (fine coarse : Level) : Prop where
  start : fine.start = coarse.start
  current : fine.current = coarse.current
  finished : List.Forall₂ Node.Coarser fine.finished coarse.finished
  draft : fine.draft.Coarser coarse.draft

variable {fine coarse : Level}

theorem coarser_fresh (offset m n : Nat) : (fresh offset m).Coarser (fresh offset n) :=
  ⟨rfl, rfl, .nil, Draft.coarser_start m n⟩

theorem Coarser.branches (h : fine.Coarser coarse) (offset : Nat) :
    List.Forall₂ Node.Coarser (fine.branches offset) (coarse.branches offset) := by
  rw [Level.branches, Level.branches, ← h.current]
  exact List.rel_append h.finished (.cons (h.draft.sequence _) .nil)

theorem Coarser.nextBranch (h : fine.Coarser coarse) (offset : Nat) :
    (fine.nextBranch offset).Coarser (coarse.nextBranch offset) :=
  ⟨h.start, rfl, h.branches offset, Draft.coarser_start _ _⟩

theorem Coarser.node (h : fine.Coarser coarse) (offset : Nat) :
    (fine.node offset).Coarser (coarse.node offset) := by
  rw [Level.node, Level.node, ← h.start]
  exact coarser_choice (h.branches offset) _

end Level

/-! ## Steps -/

/-- The same group waits, with levels of which the nodes have their like. -/
structure Outer.Coarser (fine coarse : Outer) : Prop where
  opening : fine.opening = coarse.opening
  assertion : fine.assertion = coarse.assertion
  flags : fine.flags = coarse.flags
  level : fine.level.Coarser coarse.level

/-- The same options, and levels of which the nodes have their like. -/
structure ParserState.Coarser (fine coarse : ParserState) : Prop where
  flags : fine.flags = coarse.flags
  level : fine.level.Coarser coarse.level
  outer : List.Forall₂ Outer.Coarser fine.outer coarse.outer

/-- The same fault, or a coarse root for the fine one. -/
inductive ParseResult.Coarser : ParseResult → ParseResult → Prop
  | fault (m n : Nat) (fault : Fault) : Coarser ⟨m, .error fault⟩ ⟨n, .error fault⟩
  | root (m n : Nat) {fine coarse : Node} (h : fine.Coarser coarse) :
    Coarser ⟨m, .ok fine⟩ ⟨n, .ok coarse⟩

inductive ParserStep.Coarser : ParserStep → ParserStep → Prop
  | next {fine coarse : ParserState} (h : fine.Coarser coarse) (cursor : Cursor) :
    Coarser (.next fine cursor) (.next coarse cursor)
  | done {fine coarse : ParseResult} (h : fine.Coarser coarse) : Coarser (.done fine) (.done coarse)

/-- The same reading, but of sets without their members. -/
def Reading.coarse (reading : Reading) : Reading := ⟨false, reading.caseSensitive⟩

namespace ParserState

variable {reading : Reading} {fine coarse : ParserState} {fineAtom coarseAtom : Atom}

theorem coarser_initial : initial.Coarser initial := ⟨rfl, Level.coarser_fresh 0 0 0, .nil⟩

theorem coarser_fail (fine coarse : ParserState) (fault : Fault) :
    (fine.fail fault).Coarser (coarse.fail fault) :=
  .done (.fault _ _ fault)

theorem Coarser.finish (h : fine.Coarser coarse) (offset : Nat) :
    (fine.finish offset).Coarser (coarse.finish offset) := by
  obtain ⟨flags, level, outer⟩ := fine
  obtain ⟨flags', level', outer'⟩ := coarse
  have houter : List.Forall₂ Outer.Coarser outer outer' := h.outer
  cases houter with
  | nil => exact .root _ _ (h.level.node offset)
  | @cons inner inner' _ _ hinner _ =>
      rw [ParserState.finish, ParserState.finish]
      dsimp only
      rw [← hinner.opening]
      exact .fault _ _ _

theorem Coarser.addAtom (h : fine.Coarser coarse) (start : Nat)
    (hatom : fineAtom.Coarser coarseAtom) (cursor : Cursor) :
    (addAtom reading fine start fineAtom cursor).Coarser
      (addAtom reading.coarse coarse start coarseAtom cursor) := by
  rw [ParserState.addAtom, ParserState.addAtom, ← h.flags]
  split
  · exact coarser_fail fine coarse _
  · refine .next ?_ _
    exact ⟨rfl, ⟨h.level.start, h.level.current, h.level.finished,
      h.level.draft.add _ hatom _ _⟩, h.outer⟩

theorem Coarser.openGroup (h : fine.Coarser coarse) (opening : Nat) (assertion : Bool)
    (flags : Flags) (cursor : Cursor) :
    (fine.openGroup opening assertion flags cursor).Coarser
      (coarse.openGroup opening assertion flags cursor) := by
  rw [ParserState.openGroup, ParserState.openGroup, ← h.outer.length_eq]
  split
  · exact coarser_fail fine coarse _
  · refine .next ?_ cursor
    exact ⟨rfl, Level.coarser_fresh _ _ _, .cons ⟨rfl, rfl, h.flags, h.level⟩ h.outer⟩

theorem Coarser.closeGroup (h : fine.Coarser coarse) (offset : Nat) (cursor : Cursor) :
    (fine.closeGroup reading offset cursor).Coarser
      (coarse.closeGroup reading.coarse offset cursor) := by
  obtain ⟨flags, level, outer⟩ := fine
  obtain ⟨flags', level', outer'⟩ := coarse
  have houter : List.Forall₂ Outer.Coarser outer outer' := h.outer
  cases houter with
  | nil => exact .done (.fault _ _ _)
  | @cons inner inner' _ _ hinner hothers =>
      have hatom : (if inner.assertion then Atom.gap else .node (level.node offset)).Coarser
          (if inner.assertion then Atom.gap else .node (level'.node offset)) := by
        split
        · exact .same _
        · exact .node (h.level.node offset)
      rw [ParserState.closeGroup, ParserState.closeGroup]
      dsimp only
      rw [← hinner.opening, ← hinner.assertion]
      refine Coarser.addAtom ⟨hinner.flags, ⟨hinner.level.start, hinner.level.current,
        hinner.level.finished, ⟨hinner.level.draft.nodes, hinner.level.draft.run⟩⟩, hothers⟩
        _ hatom cursor

theorem Coarser.apply (h : fine.Coarser coarse) (offset : Nat) (cursor : Cursor)
    (lexeme : Lexeme) :
    (fine.apply reading offset cursor lexeme).Coarser
      (coarse.apply reading.coarse offset cursor lexeme) := by
  unfold ParserState.apply
  split
  · exact .next h cursor
  · exact .next h cursor
  · refine .next ?_ cursor
    exact ⟨h.flags, h.level.nextBranch offset, h.outer⟩
  · exact h.closeGroup offset cursor
  · exact h.openGroup offset _ _ cursor
  case h_6 flags =>
    have hsame : ParserState.Coarser { fine with flags := flags } { coarse with flags := flags } :=
      ⟨rfl, h.level, h.outer⟩
    exact hsame.addAtom offset (.same .gap) cursor
  case h_7 atom hother =>
    rw [← h.flags]
    exact h.addAtom offset (.same _) cursor

/-- The readings stay in step. -/
theorem Coarser.step (h : fine.Coarser coarse) (reading : Reading) (cursor : Cursor) :
    (step reading fine cursor).Coarser (step reading.coarse coarse cursor) := by
  obtain ⟨offset, rest⟩ := cursor
  cases rest with
  | nil => exact .done (h.finish offset)
  | cons c rest =>
      rw [ParserState.step, ParserState.step, ← h.flags]
      split
      · exact coarser_fail fine coarse _
      · exact h.apply offset _ _

/-- And so they end alike. -/
theorem Coarser.run (h : fine.Coarser coarse) (reading : Reading) (cursor : Cursor) :
    (run reading fine cursor).Coarser (run reading.coarse coarse cursor) := by
  fun_induction ParserState.run reading fine cursor generalizing coarse with
  | case1 fine cursor result hdone =>
      have hstep := h.step reading cursor
      rw [hdone] at hstep
      generalize hcoarse : ParserState.step reading.coarse coarse cursor = after at hstep
      cases hstep with
      | done hresult =>
          rw [run_of_done hcoarse]
          exact hresult
  | case2 fine cursor next stop hnext ih =>
      have hstep := h.step reading cursor
      rw [hnext] at hstep
      generalize hcoarse : ParserState.step reading.coarse coarse cursor = after at hstep
      cases hstep with
      | next hstate =>
          rw [run_of_next hcoarse]
          exact ih hstate

end ParserState

/-- If a pattern can be read, it can be read without the members of its sets, and the tree that comes
out is without content where the other one is. -/
theorem exists_coarse_root {reading : Reading} {pattern : String} {fine : Node}
    (h : (parse reading pattern).root = .ok fine) :
    ∃ coarse, (parse reading.coarse pattern).root = .ok coarse ∧ fine.Coarser coarse := by
  have hrun := ParserState.coarser_initial.run reading (.start pattern)
  rw [← parse, ← parse] at hrun
  generalize parse reading pattern = result at h hrun
  generalize parse reading.coarse pattern = other at hrun ⊢
  cases hrun with
  | fault m n fault => cases h
  | root m n hnode =>
      obtain rfl := Except.ok.inj h
      exact ⟨_, rfl, hnode⟩

end LiteralSieve
