import LiteralSieve.Pattern.Parser
import LiteralSieve.Proofs.Pattern.Simplification

namespace LiteralSieve

/-!
# What holds of every tree that is read

Whatever the pattern is, its tree is put together in few ways: literals and gaps, sequences of what
was finished before, and choices that are never empty, all without marks. A property that is kept
in these ways holds of every level of an unfinished tree at every step, and so of the root. It may
get weaker with every node around: a group puts three of them around what it contains, a sequence,
a choice and one more choice if the group is optional, and no more than `maxDepth` groups are open.
-/

open Node

/-- Properties of nodes, each weaker than the one before, are hereditary if leaves have them all,
and every sequence without a mark and every choice of something without a mark has the next property
after one of all its children. -/
structure Node.Hereditary (Q : Nat → Node → Prop) : Prop where
  literal : ∀ n bytes source, Q n (.literal bytes source)
  gap : ∀ n source, Q n (.gap source)
  weaken : ∀ {n : Nat} {node : Node}, Q n node → Q (n + 1) node
  sequence : ∀ {n : Nat} {nodes : List Node} (source : Extent), (∀ node ∈ nodes, Q n node) →
    Q (n + 1) (.sequence nodes false source)
  choice : ∀ {n : Nat} {nodes : List Node} (source : Extent), nodes ≠ [] →
    (∀ node ∈ nodes, Q n node) → Q (n + 1) (.choice nodes false source)

theorem Node.hereditary_unmarked : Hereditary fun _ => Unmarked where
  literal _ _ _ := trivial
  gap _ _ := trivial
  weaken h := h
  sequence _ h := ⟨rfl, allUnmarked_iff.mpr h⟩
  choice _ _ h := ⟨rfl, allUnmarked_iff.mpr h⟩

theorem Node.hereditary_proper : Hereditary fun _ => Proper where
  literal _ _ _ := trivial
  gap _ _ := trivial
  weaken h := h
  sequence _ h := allProper_iff.mpr h
  choice _ hne h := ⟨hne, allProper_iff.mpr h⟩

theorem Node.exists_mem_languageOfAll {fold : UInt8 → UInt8} {nodes : List Node}
    (h : ∀ node ∈ nodes, ∃ word, word ∈ node.language fold) :
    ∃ word, word ∈ languageOfAll fold nodes := by
  induction nodes with
  | nil => exact ⟨[], by rw [languageOfAll_nil]; exact Language.nil_mem_one⟩
  | cons node nodes ih =>
      obtain ⟨hnode, hnodes⟩ := List.forall_mem_cons.mp h
      obtain ⟨first, hfirst⟩ := hnode
      obtain ⟨others, hothers⟩ := ih hnodes
      rw [languageOfAll_cons]
      exact ⟨first ++ others, Language.append_mem_mul hfirst hothers⟩

/-- No tree that is read is without words. -/
theorem Node.hereditary_exists_word (fold : UInt8 → UInt8) :
    Hereditary fun _ node => ∃ word, word ∈ node.language fold where
  literal _ bytes source := ⟨bytes, by rw [language_literal]; exact self_mem_spellings bytes⟩
  gap _ source := ⟨[], by rw [language_gap]; exact trivial⟩
  weaken h := h
  sequence source h := by
    rw [language_sequence]
    exact exists_mem_languageOfAll h
  choice source hne h := by
    obtain ⟨node, hnode⟩ := List.exists_mem_of_ne_nil _ hne
    obtain ⟨word, hword⟩ := h node hnode
    rw [language_choice]
    exact ⟨word, mem_languageOfAny.mpr ⟨node, hnode, hword⟩⟩

/-! ## Atoms -/

namespace Atom

/-- The atom is no group. -/
def IsLeaf : Atom → Prop
  | node _ => False
  | _ => True

/-- If the atom is a group, its node has the property. -/
def Has (Q : Node → Prop) : Atom → Prop
  | node n => Q n
  | _ => True

theorem IsLeaf.has {atom : Atom} (h : atom.IsLeaf) (Q : Node → Prop) : atom.Has Q := by
  cases atom with
  | node n => exact h.elim
  | _ => exact trivial

theorem Has.weaken {Q : Nat → Node → Prop} (hQ : Hereditary Q) {n : Nat} {atom : Atom}
    (h : atom.Has (Q n)) : atom.Has (Q (n + 1)) := by
  cases atom with
  | node node => exact hQ.weaken h
  | _ => exact trivial

theorem isLeaf_ofCode (code : Nat) : (ofCode code).IsLeaf := by
  rw [ofCode]
  split <;> exact trivial

theorem IsLeaf.under {atom : Atom} (h : atom.IsLeaf) (flags : Flags) (caseSensitive : Bool) :
    (atom.under flags caseSensitive).IsLeaf := by
  rw [Atom.under]
  split
  · cases atom with
    | char c =>
        rw [caseless]
        split
        · split <;> exact trivial
        · exact trivial
    | quoted text =>
        rw [caseless]
        split <;> exact trivial
    | node n => exact h.elim
    | _ => exact trivial
  · exact h

end Atom

/-! ## Lexemes -/

theorem Escaped.isLeaf_of_ofLetter? {c : Char} {rest : List Char} {atom : Atom} {n : Nat}
    (h : ofLetter? c rest = some (atom, n)) : atom.IsLeaf := by
  have hcoded : ∀ found : Option (Nat × Nat), found.map coded = some (atom, n) →
      atom.IsLeaf := by
    intro found hfound
    obtain ⟨code, -, heq⟩ := Option.map_eq_some_iff.mp hfound
    exact (Prod.mk.inj heq).1 ▸ Atom.isLeaf_ofCode code.1
  have hgap : ∀ {found : Option Nat}, found.map (fun n => (Atom.gap, n)) = some (atom, n) →
      atom.IsLeaf := by
    intro found hfound
    obtain ⟨_, -, heq⟩ := Option.map_eq_some_iff.mp hfound
    exact (Prod.mk.inj heq).1 ▸ trivial
  unfold ofLetter? at h
  split at h
  · exact hgap h
  · exact hgap h
  · -- A quotation without characters leaves no trace.
    obtain ⟨rfl, -⟩ := Prod.mk.inj (Option.some.inj h)
    split <;> exact trivial
  · obtain ⟨rfl, -⟩ := Prod.mk.inj (Option.some.inj h)
    exact trivial
  · exact hcoded _ h
  · exact hcoded (some _) h
  · exact hgap h
  · exact hgap h
  · exact hcoded _ h
  · exact hcoded _ h
  · exact hcoded (some _) h
  · split at h
    · obtain ⟨rfl, -⟩ := Prod.mk.inj (Option.some.inj h)
      exact trivial
    · split at h
      · obtain ⟨rfl, -⟩ := Prod.mk.inj (Option.some.inj h)
        exact trivial
      · obtain ⟨rfl, -⟩ := Prod.mk.inj (Option.some.inj h)
        exact trivial

theorem Escaped.isLeaf_of_atom? {c : Char} {rest : List Char} {atom : Atom} {n : Nat}
    (h : atom? c rest = some (atom, n)) : atom.IsLeaf := by
  rw [atom?] at h
  split at h
  · obtain ⟨rfl, -⟩ := Prod.mk.inj (Option.some.inj h)
    exact trivial
  · exact isLeaf_of_ofLetter? h

theorem isLeaf_of_readClass {cursor : Cursor} {atom : Atom} {n : Nat}
    (h : readClass cursor = .ok (atom, n)) : atom.IsLeaf := by
  unfold readClass at h
  dsimp only at h
  generalize ClassContent.readFrom cursor.offset true .empty _ = read at h
  cases read with
  | error fault => cases h
  | ok found =>
      obtain ⟨rfl, -⟩ := Prod.mk.inj (Except.ok.inj h)
      rw [ClassContent.atom]
      split <;> exact trivial

theorem Lexeme.isLeaf_of_ofOpener {opener : Opener} {atom : Atom}
    (h : ofOpener opener = .atom atom) : atom.IsLeaf := by
  cases opener with
  | skipped =>
      obtain rfl := Lexeme.atom.inj h
      exact trivial
  | _ => cases h

/-- Groups are no lexemes, so an atom that is read at once has no node. -/
theorem Lexeme.isLeaf_of_read {flags : Flags} {offset : Nat} {c : Char} {rest : List Char}
    {atom : Atom} {n : Nat} (h : read flags offset c rest = .ok (.atom atom, n)) :
    atom.IsLeaf := by
  have hsame : ∀ {found : Atom} {m : Nat},
      (Except.ok (Lexeme.atom found, m) : Except Fault _) = .ok (.atom atom, n) → found = atom :=
    fun heq => Lexeme.atom.inj (Prod.mk.inj (Except.ok.inj heq)).1
  unfold Lexeme.read at h
  split at h
  · cases h
  · cases h
  · split at h
    · cases h
    · split at h
      case h_1 => cases h
      case h_2 hescape => exact hsame h ▸ Escaped.isLeaf_of_atom? hescape
  · split at h
    case h_1 => cases h
    case h_2 hopener => exact isLeaf_of_ofOpener (Prod.mk.inj (Except.ok.inj h)).1
  · split at h
    case h_1 => cases h
    case h_2 hclass => exact hsame h ▸ isLeaf_of_readClass hclass
  · exact hsame h ▸ trivial
  · exact hsame h ▸ trivial
  · exact hsame h ▸ trivial
  · split at h
    · cases h
    · split at h
      · cases h
      · split at h
        · cases h
        · exact hsame h ▸ trivial

/-! ## Nodes of atoms -/

section

variable {Q : Nat → Node → Prop} (hQ : Hereditary Q) (n : Nat)

include hQ

theorem ByteSet.has_node (expansion : Bool) (s : ByteSet) (source : Extent) :
    Q (n + 1) (s.node expansion source) := by
  rw [node]
  split
  case isTrue => exact hQ.gap _ source
  case isFalse hset =>
    refine hQ.choice source ?_ ?_
    · intro hnil
      apply hset
      simp [isEmpty_eq, List.map_eq_nil_iff.mp hnil]
    · intro child hchild
      obtain ⟨b, -, rfl⟩ := List.mem_map.mp hchild
      exact hQ.literal n [b] source

theorem Atom.Has.toNode {atom : Atom} (h : atom.Has (Q (n + 1))) (expansion : Bool)
    (source : Extent) : Q (n + 1) (atom.toNode expansion source) := by
  cases atom with
  | set members =>
      rw [Atom.toNode]
      split
      · exact hQ.literal _ _ source
      · exact ByteSet.has_node hQ n expansion members source
  | node n => exact h
  | gap => exact hQ.gap _ source
  | char c => exact hQ.literal _ _ source
  | quoted text => exact hQ.literal _ _ source
  | nothing => exact hQ.literal _ _ source

end

/-! ## Drafts -/

namespace Draft

/-- How often an atom is taken, if it is no gap. -/
theorem addRepeated_of_ne {atom : Atom} (h : atom ≠ .gap) (expansion : Bool) (draft : Draft)
    (q : Quantifier) (source : Extent) (stop : Nat) :
    draft.addRepeated expansion q atom source stop =
      if q.least = 0 then
        if q.most = some 1 then draft.addOptional expansion atom source ⟨source.start, stop⟩
        else draft.push (.gap ⟨source.start, stop⟩) 1
      else
        match inlineCount? q atom with
        | some (c, n) =>
          draft.pushBytes (List.replicate n (String.utf8EncodeChar c)).flatten ⟨source.start, stop⟩
        | none =>
          let draft := draft.addOnce expansion source atom
          if q = ⟨1, some 1⟩ then draft else draft.push (.gap ⟨source.stop, stop⟩) 1 := by
  cases atom with
  | gap => exact absurd rfl h
  | _ => rfl

variable {P : Node → Prop} {Q : Nat → Node → Prop} {expansion : Bool} {draft : Draft}

/-- All finished nodes have the property. -/
def Has (P : Node → Prop) (draft : Draft) : Prop := ∀ node ∈ draft.nodes, P node

theorem has_start (made : Nat) : (start made).Has P := fun _ h => nomatch h

theorem Has.pushBytes (h : draft.Has P) (bytes : Bytes) (source : Extent) :
    (draft.pushBytes bytes source).Has P := by
  rw [Draft.pushBytes]
  split <;> exact h

theorem Has.append {nodes : List Node} (h : draft.Has P) {node : Node} (hnode : P node)
    (hnodes : nodes = draft.nodes ++ [node]) : ∀ node ∈ nodes, P node := by
  intro other hother
  rcases List.mem_append.mp (hnodes ▸ hother) with hold | hnew
  · exact h other hold
  · exact List.mem_singleton.mp hnew ▸ hnode

variable (hQ : Hereditary Q) (n : Nat)

include hQ

theorem Has.flush (h : draft.Has (Q n)) : draft.flush.Has (Q n) := by
  rw [Draft.flush]
  split
  · exact h
  · exact h.append (hQ.literal n _ _) rfl

theorem Has.push (h : draft.Has (Q n)) {node : Node} (hnode : Q n node) (made : Nat) :
    (draft.push node made).Has (Q n) :=
  (h.flush hQ n).append hnode rfl

theorem Has.sequence (h : draft.Has (Q n)) (source : Extent) :
    Q (n + 1) (draft.sequence source) :=
  hQ.sequence source (h.flush hQ n)

theorem Has.addOnce (h : draft.Has (Q (n + 1))) (source : Extent) {atom : Atom}
    (hatom : atom.Has (Q (n + 1))) : (draft.addOnce expansion source atom).Has (Q (n + 1)) := by
  cases atom with
  | set members =>
      rw [Draft.addOnce]
      split
      · exact h.pushBytes _ _
      · exact h.push hQ _ (ByteSet.has_node hQ n expansion members source) _
  | node node => exact h.push hQ _ hatom _
  | gap => exact h.push hQ _ (hQ.gap _ source) _
  | nothing => exact h
  | char c => exact h.pushBytes _ _
  | quoted text => exact h.pushBytes _ _

/-! An atom can be made optional, which puts one more node around it. -/

theorem Has.addOptional (h : draft.Has (Q (n + 2))) {atom : Atom} (hatom : atom.Has (Q (n + 1)))
    (source full : Extent) :
    (draft.addOptional expansion atom source full).Has (Q (n + 2)) := by
  rw [Draft.addOptional]
  dsimp only
  split
  · exact h.push hQ _ (hQ.gap _ full) _
  · refine h.push hQ _ (hQ.choice full (List.cons_ne_nil _ _) ?_) _
    intro child hchild
    rcases List.mem_pair.mp hchild with rfl | rfl
    · exact hatom.toNode hQ n expansion source
    · exact hQ.literal _ _ _

theorem Has.addRepeated (h : draft.Has (Q (n + 2))) (q : Quantifier) {atom : Atom}
    (hatom : atom.Has (Q (n + 1))) (source : Extent) (stop : Nat) :
    (draft.addRepeated expansion q atom source stop).Has (Q (n + 2)) := by
  have honce : (draft.addOnce expansion source atom).Has (Q (n + 2)) :=
    h.addOnce hQ (n + 1) source (hatom.weaken hQ)
  unfold Draft.addRepeated
  dsimp only
  split
  · exact h.push hQ _ (hQ.gap _ _) _
  · split
    · split
      · exact h.addOptional hQ n hatom source _
      · exact h.push hQ _ (hQ.gap _ _) _
    · split
      · exact h.pushBytes _ _
      · split
        · exact honce
        · exact honce.push hQ _ (hQ.gap _ _) _

theorem Has.addPlain (h : draft.Has (Q (n + 2))) (q : Option Quantifier) {atom : Atom}
    (hatom : atom.Has (Q (n + 1))) (source : Extent) (stop : Nat) :
    (draft.addPlain expansion q atom source stop).Has (Q (n + 2)) := by
  cases q with
  | none => exact h.addOnce hQ (n + 1) source (hatom.weaken hQ)
  | some q => exact h.addRepeated hQ n q hatom source stop

theorem Has.addQuoted (h : draft.Has (Q (n + 2))) (q : Option Quantifier) (text : List Char)
    (source : Extent) (stop : Nat) :
    (draft.addQuoted expansion q text source stop).Has (Q (n + 2)) := by
  rw [Draft.addQuoted]
  generalize hfirst : (if text.dropLast.isEmpty then draft else _) = before
  have hbefore : before.Has (Q (n + 2)) := by
    rw [← hfirst]
    split
    · exact h
    · exact h.pushBytes _ _
  split
  · exact hbefore
  case h_2 c hlast =>
    have hchar : (Atom.char c).Has (Q (n + 1)) := trivial
    exact hbefore.addPlain hQ n q hchar _ stop

theorem Has.add (h : draft.Has (Q (n + 2))) (q : Option Quantifier) {atom : Atom}
    (hatom : atom.Has (Q (n + 1))) (source : Extent) (stop : Nat) :
    (draft.add expansion q atom source stop).Has (Q (n + 2)) := by
  unfold Draft.add
  split
  · exact h.addQuoted hQ n q _ source stop
  · exact h
  · exact h.addPlain hQ n q hatom source stop

end Draft

/-! ## Levels -/

namespace Level

variable {Q : Nat → Node → Prop} {n : Nat} {level : Level}

/-- All finished nodes of the level have the property that is due to them. -/
structure Has (Q : Nat → Node → Prop) (n : Nat) (level : Level) : Prop where
  finished : ∀ node ∈ level.finished, Q (n + 3) node
  draft : level.draft.Has (Q (n + 2))

theorem has_fresh (offset made : Nat) : (fresh offset made).Has Q n where
  finished _ h := nomatch h
  draft := Draft.has_start made

theorem Has.branches (hQ : Hereditary Q) (h : level.Has Q n) (offset : Nat) :
    ∀ node ∈ level.branches offset, Q (n + 3) node := by
  intro node hnode
  rcases List.mem_append.mp hnode with hold | hnew
  · exact h.finished node hold
  · exact List.mem_singleton.mp hnew ▸ h.draft.sequence hQ _ _

theorem Has.nextBranch (hQ : Hereditary Q) (h : level.Has Q n) (offset : Nat) :
    (level.nextBranch offset).Has Q n where
  finished := h.branches hQ offset
  draft := Draft.has_start _

theorem Has.node (hQ : Hereditary Q) (h : level.Has Q n) (offset : Nat) :
    Q (n + 4) (level.node offset) :=
  hQ.choice _ (List.append_ne_nil_of_right_ne_nil _ (List.cons_ne_nil _ _)) (h.branches hQ offset)

end Level

/-! ## Steps -/

/-- The levels that groups can still add inside so many groups. -/
def levelsLeft (groups : Nat) : Nat := 3 * (maxDepth - groups)

theorem levelsLeft_succ {groups : Nat} (h : groups < maxDepth) :
    levelsLeft (groups + 1) + 3 = levelsLeft groups := by
  simp only [levelsLeft]
  omega

/-- All finished nodes of the waiting levels have the property that is due to them. -/
def OutersHave (Q : Nat → Node → Prop) : List Outer → Prop
  | [] => True
  | outer :: outers => outer.level.Has Q (levelsLeft outers.length) ∧ OutersHave Q outers

namespace ParserState

/-- All finished nodes, of whatever level, have the property that is due to them. -/
structure Has (Q : Nat → Node → Prop) (state : ParserState) : Prop where
  level : state.level.Has Q (levelsLeft state.outer.length)
  outer : OutersHave Q state.outer
  depth : state.outer.length ≤ maxDepth

theorem has_initial {Q : Nat → Node → Prop} : initial.Has Q where
  level := Level.has_fresh 0 0
  outer := trivial
  depth := Nat.zero_le _

end ParserState

/-- What is due holds after the step: of all finished nodes, or of the root if there is one. -/
def ParserStep.Has (Q : Nat → Node → Prop) : ParserStep → Prop
  | next state _ => state.Has Q
  | done result => ∀ root, result.root = .ok root → Q (levelsLeft 0 + 4) root

namespace ParserState

variable {Q : Nat → Node → Prop} {reading : Reading} {state : ParserState} {cursor : Cursor}

theorem has_fail (state : ParserState) (fault : Fault) : (state.fail fault).Has Q :=
  fun _ h => nomatch h

variable (hQ : Hereditary Q)

include hQ

theorem Has.finish (h : state.Has Q) (offset : Nat) :
    (ParserStep.done (state.finish offset)).Has Q := by
  intro root hroot
  have hlevel := h.level
  cases houter : state.outer with
  | nil =>
      rw [houter] at hlevel
      rw [ParserState.finish, houter] at hroot
      exact Except.ok.inj hroot ▸ hlevel.node hQ offset
  | cons outer others =>
      rw [ParserState.finish, houter] at hroot
      cases hroot

theorem Has.addAtom (h : state.Has Q) (start : Nat) {atom : Atom}
    (hatom : atom.Has (Q (levelsLeft state.outer.length + 1))) (cursor : Cursor) :
    (addAtom reading state start atom cursor).Has Q := by
  rw [ParserState.addAtom]
  split
  · exact has_fail state _
  · exact ⟨⟨h.level.finished, h.level.draft.add hQ _ _ hatom _ _⟩, h.outer, h.depth⟩

theorem Has.closeGroup (h : state.Has Q) (offset : Nat) (cursor : Cursor) :
    (state.closeGroup reading offset cursor).Has Q := by
  obtain ⟨hlevel, houter, hdepth⟩ := h
  rw [ParserState.closeGroup]
  split
  · exact fun _ hroot => nomatch hroot
  case h_2 opening assertion flags level outer heq =>
    rw [heq] at hlevel houter hdepth
    obtain ⟨hfirst, hlater⟩ := houter
    refine Has.addAtom hQ ⟨⟨hfirst.finished, hfirst.draft⟩, hlater, Nat.le_of_succ_le hdepth⟩
      opening ?_ cursor
    split
    · exact trivial
    · -- The group is one of the nodes that its level has left for the level around it.
      have hnode : Q (levelsLeft (outer.length + 1) + 3 + 1) (state.level.node offset) :=
        hlevel.node hQ offset
      rwa [levelsLeft_succ hdepth] at hnode

omit hQ in
theorem Has.openGroup (h : state.Has Q) (opening : Nat) (assertion : Bool) (flags : Flags)
    (cursor : Cursor) : (state.openGroup opening assertion flags cursor).Has Q := by
  rw [ParserState.openGroup]
  split
  · exact has_fail state _
  case isFalse hroom =>
    exact ⟨Level.has_fresh _ _, ⟨h.level, h.outer⟩, Nat.lt_of_not_le hroom⟩

theorem Has.apply (h : state.Has Q) (offset : Nat) (cursor : Cursor) {lexeme : Lexeme}
    (hleaf : ∀ atom, lexeme = .atom atom → atom.IsLeaf) :
    (state.apply reading offset cursor lexeme).Has Q := by
  unfold ParserState.apply
  split
  · exact h
  · exact h
  · exact ⟨h.level.nextBranch hQ offset, h.outer, h.depth⟩
  · exact h.closeGroup hQ offset cursor
  · exact h.openGroup offset _ _ cursor
  case h_6 flags =>
    have hgap : Atom.gap.IsLeaf := trivial
    have hsame : ParserState.Has Q { state with flags := flags } := ⟨h.level, h.outer, h.depth⟩
    exact hsame.addAtom hQ offset (hgap.has _) cursor
  · exact h.addAtom hQ offset (((hleaf _ rfl).under _ _).has _) cursor

/-- One step keeps the property. -/
theorem Has.step (h : state.Has Q) (reading : Reading) (cursor : Cursor) :
    (step reading state cursor).Has Q := by
  unfold ParserState.step
  split
  · exact h.finish hQ _
  · split
    · exact has_fail state _
    case h_2 hread =>
      refine h.apply hQ _ _ ?_
      rintro atom rfl
      exact Lexeme.isLeaf_of_read hread

/-- The root that a run ends with has the property. -/
theorem Has.run (h : state.Has Q) (cursor : Cursor) {root : Node}
    (hroot : (run reading state cursor).root = .ok root) : Q (levelsLeft 0 + 4) root := by
  fun_induction ParserState.run reading state cursor with
  | case1 state cursor result hdone =>
      have hstep := h.step hQ reading cursor
      rw [hdone] at hstep
      exact hstep root hroot
  | case2 state cursor next stop hnext ih =>
      have hstep := h.step hQ reading cursor
      rw [hnext] at hstep
      exact ih hstep hroot

end ParserState

/-- Every tree that is read has each hereditary property, as many levels down as groups can
reach. -/
theorem Node.Hereditary.parse {Q : Nat → Node → Prop} (hQ : Hereditary Q) {reading : Reading}
    {pattern : String} {root : Node} (h : (parse reading pattern).root = .ok root) :
    Q (3 * maxDepth + 4) root :=
  ParserState.has_initial.run hQ (.start pattern) h

end LiteralSieve
