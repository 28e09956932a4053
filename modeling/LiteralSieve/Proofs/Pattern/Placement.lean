import LiteralSieve.Proofs.Pattern.Extents
import LiteralSieve.Proofs.Pattern.Values

namespace LiteralSieve

/-!
# Placement of what is read

While a pattern is read, all finished nodes have their places in it: those of a draft stand in a
row, the alternatives of a level stop before its current one, and the levels around stop before the
group that is open. One step keeps this, so the root of a tree is placed, and faults are shown
between two characters.
-/

open Node

variable {pattern : String}

/-! ## Spelled bytes -/

theorem spelled_char (c : Char) : Spelled (String.utf8EncodeChar c) :=
  ⟨[c], (List.flatMap_singleton _ _).symm⟩

theorem spelled_flatMap (text : List Char) : Spelled (text.flatMap String.utf8EncodeChar) :=
  ⟨text, rfl⟩

theorem spelled_singleton {b : UInt8} (h : Byte.isAscii b = true) : Spelled [b] := by
  have hall : ∀ n < 128, String.utf8EncodeChar (Char.ofNat n) = [UInt8.ofNat n] := by
    decide +kernel
  have hlt : b.toNat < 128 := UInt8.lt_iff_toNat_lt.mp (decide_eq_true_eq.mp h)
  refine ⟨[Char.ofNat b.toNat], ?_⟩
  rw [List.flatMap_singleton, hall _ hlt, UInt8.ofNat_toNat]

theorem spelled_replicate (n : Nat) {bytes : Bytes} (h : Spelled bytes) :
    Spelled (List.replicate n bytes).flatten := by
  induction n with
  | zero => exact spelled_nil
  | succ n ih =>
      rw [List.replicate_succ, List.flatten_cons]
      exact h.append ih

/-! ## Atoms -/

/-- A group or a quotation has its place in the extent of the atom. The characters of a quotation
stand after the two that open it. -/
def Atom.Fits (pattern : String) (source : Extent) : Atom → Prop
  | node n => n.Placed pattern ∧ n.source.Within source
  | quoted text => ∃ before after, before ++ text ++ after = pattern.toList ∧
      width before = source.start + 2 ∧ source.start + 2 + width text ≤ source.stop
  | _ => True

theorem Atom.Fits.under {atom : Atom} {source : Extent} (h : atom.Fits pattern source)
    (flags : Flags) (caseSensitive : Bool) : (atom.under flags caseSensitive).Fits pattern source := by
  rw [Atom.under]
  split
  · cases atom with
    | char c =>
        rw [caseless]
        split
        · split <;> exact trivial
        · exact trivial
    | quoted text =>
        rw [caseless]
        split
        · exact trivial
        · exact h
    | _ => exact h
  · exact h

theorem ByteSet.spelled_of_literal? {members : ByteSet} {b : UInt8}
    (h : members.literal? = some b) : Spelled [b] :=
  spelled_singleton (ByteSet.literal?_eq_some_iff.mp h).2

theorem ByteSet.within_node (expansion : Bool) (members : ByteSet) (source : Extent) :
    (members.node expansion source).source.Within source := by
  rw [ByteSet.node]
  split <;> exact .refl source

theorem ByteSet.placed_node {source : Extent} (hsource : source.Placed pattern) (expansion : Bool)
    (members : ByteSet) : (members.node expansion source).Placed pattern := by
  rw [ByteSet.node]
  split
  case isTrue => exact hsource
  case isFalse hset =>
    simp only [Bool.or_eq_true, not_or, Bool.not_eq_true, Bool.not_eq_false'] at hset
    have hascii : ∀ b ∈ members.toList, Byte.isAscii b = true := by
      rw [← List.all_eq_true, ← ByteSet.isAscii_eq]
      exact hset.2
    refine ⟨hsource, ?_, allPlaced_iff.mpr ?_⟩
    · intro child hchild
      obtain ⟨b, -, rfl⟩ := List.mem_map.mp hchild
      exact .refl _
    · intro child hchild
      obtain ⟨b, hb, rfl⟩ := List.mem_map.mp hchild
      exact ⟨hsource, spelled_singleton (hascii b hb)⟩

theorem Atom.Fits.placed_toNode {atom : Atom} {source : Extent} (h : atom.Fits pattern source)
    (hsource : source.Placed pattern) (expansion : Bool) :
    (atom.toNode expansion source).Placed pattern ∧
      (atom.toNode expansion source).source.Within source := by
  cases atom with
  | set members =>
      rw [Atom.toNode]
      split
      case h_1 b hliteral =>
        exact ⟨⟨hsource, ByteSet.spelled_of_literal? hliteral⟩, .refl _⟩
      case h_2 =>
        exact ⟨ByteSet.placed_node hsource expansion members,
          ByteSet.within_node expansion members source⟩
  | node n => exact h
  | gap => exact ⟨hsource, .refl _⟩
  | char c => exact ⟨⟨hsource, spelled_char c⟩, .refl _⟩
  | quoted text => exact ⟨⟨hsource, spelled_flatMap text⟩, .refl _⟩
  | nothing => exact ⟨⟨hsource, spelled_nil⟩, .refl _⟩

/-! ## Drafts -/

theorem Node.Row.exists_of_append {lo hi : Nat} {xs ys : List Node} (h : Row lo hi (xs ++ ys)) :
    ∃ mid, Row lo mid xs ∧ Row mid hi ys := by
  induction xs generalizing lo with
  | nil => exact ⟨lo, Nat.le_refl _, h⟩
  | cons node nodes ih =>
      obtain ⟨mid, hfirst, hlast⟩ := ih h.2
      exact ⟨mid, ⟨h.1, hfirst⟩, hlast⟩

namespace Draft

variable {draft : Draft} {lo hi stop : Nat} {source : Extent} {expansion : Bool}

/-- The nodes and the growing literal stand in a row. -/
structure Placed (pattern : String) (lo hi : Nat) (draft : Draft) : Prop where
  row : Row lo hi draft.flush.nodes
  nodes : AllPlaced pattern draft.flush.nodes

theorem placed_start (offset made : Nat) : (start made).Placed pattern offset offset where
  row := Nat.le_refl _
  nodes := trivial

theorem Placed.mono (h : draft.Placed pattern lo hi) (hle : hi ≤ stop) :
    draft.Placed pattern lo stop where
  row := h.row.mono (Nat.le_refl _) hle
  nodes := h.nodes

theorem Placed.withMade (h : draft.Placed pattern lo hi) (made : Nat) :
    Placed pattern lo hi { draft with made := made } := by
  obtain ⟨nodes, run, made⟩ := draft
  cases run with
  | none => exact ⟨h.row, h.nodes⟩
  | some run => exact ⟨h.row, h.nodes⟩

theorem Placed.le (h : draft.Placed pattern lo hi) : lo ≤ hi := h.row.le h.nodes

theorem Placed.spelled_run (h : draft.Placed pattern lo hi) {bytes : Bytes}
    (hrun : draft.run = some (bytes, source)) : Spelled bytes := by
  obtain ⟨nodes, run, made⟩ := draft
  obtain rfl : run = some (bytes, source) := hrun
  exact (allPlaced_append.mp h.nodes).2.1.2

theorem Placed.pushBytes (h : draft.Placed pattern lo hi) (hsource : source.Placed pattern)
    (hle : hi ≤ source.start) {bytes : Bytes} (hbytes : Spelled bytes) :
    (draft.pushBytes bytes source).Placed pattern lo source.stop := by
  obtain ⟨nodes, run, made⟩ := draft
  cases run with
  | none =>
      exact ⟨h.row.append ⟨hle, Nat.le_refl _⟩,
        allPlaced_append.mpr ⟨h.nodes, ⟨hsource, hbytes⟩, trivial⟩⟩
  | some run =>
      obtain ⟨before, whole⟩ := run
      obtain ⟨mid, hfront, hlast⟩ := h.row.exists_of_append
      obtain ⟨hnodes, hwhole, -⟩ := allPlaced_append.mp h.nodes
      have hgrown : (whole.through source).Placed pattern :=
        ⟨hwhole.1.le.trans (hlast.2.trans (hle.trans hsource.le)), hwhole.1.start, hsource.stop⟩
      exact ⟨hfront.append ⟨hlast.1, Nat.le_refl _⟩,
        allPlaced_append.mpr ⟨hnodes, ⟨hgrown, hwhole.2.append hbytes⟩, trivial⟩⟩

theorem Placed.push (h : draft.Placed pattern lo hi) {node : Node} (hnode : node.Placed pattern)
    (hle : hi ≤ node.source.start) (made : Nat) :
    (draft.push node made).Placed pattern lo node.source.stop := by
  constructor
  · rw [flush_push]
    exact h.row.append ⟨hle, Nat.le_refl _⟩
  · rw [flush_push]
    exact allPlaced_append.mpr ⟨h.nodes, hnode, trivial⟩

/-- A node in an extent takes the draft to the end of the extent. -/
theorem Placed.pushWithin (h : draft.Placed pattern lo hi) {node : Node}
    (hnode : node.Placed pattern) (hwithin : node.source.Within source) (hle : hi ≤ source.start)
    (made : Nat) : (draft.push node made).Placed pattern lo source.stop :=
  (h.push hnode (hle.trans hwithin.start) made).mono hwithin.stop

theorem Placed.sequence (h : draft.Placed pattern lo hi) (hlo : Boundary pattern lo)
    (hhi : Boundary pattern hi) : (draft.sequence ⟨lo, hi⟩).Placed pattern :=
  ⟨⟨h.le, hlo, hhi⟩, h.row, h.nodes⟩

theorem Placed.addOnce (h : draft.Placed pattern lo hi) (hsource : source.Placed pattern)
    (hle : hi ≤ source.start) {atom : Atom} (hatom : atom.Fits pattern source) :
    (draft.addOnce expansion source atom).Placed pattern lo source.stop := by
  cases atom with
  | set members =>
      rw [Draft.addOnce]
      split
      case h_1 b hliteral => exact h.pushBytes hsource hle (ByteSet.spelled_of_literal? hliteral)
      case h_2 =>
        exact h.pushWithin (ByteSet.placed_node hsource expansion members)
          (ByteSet.within_node expansion members source) hle _
  | node n => exact h.pushWithin hatom.1 hatom.2 hle _
  | gap =>
      have hgap : (Node.gap source).Placed pattern := hsource
      exact h.push hgap hle _
  | nothing => exact h.mono (hle.trans hsource.le)
  | char c => exact h.pushBytes hsource hle (spelled_char c)
  | quoted text => exact h.pushBytes hsource hle (spelled_flatMap text)

section

/-! An atom at `source`, of which the quantifier ends at `stop`. -/

variable (hsource : source.Placed pattern) (hle : hi ≤ source.start) (hstop : source.stop ≤ stop)
  (hboundary : Boundary pattern stop)

include hsource hle hstop hboundary

omit hle in
theorem placed_full : Extent.Placed pattern ⟨source.start, stop⟩ :=
  ⟨hsource.le.trans hstop, hsource.start, hboundary⟩

theorem Placed.pushGap (h : draft.Placed pattern lo hi) (made : Nat) :
    (draft.push (.gap ⟨source.start, stop⟩) made).Placed pattern lo stop := by
  have hgap : (Node.gap ⟨source.start, stop⟩).Placed pattern := placed_full hsource hstop hboundary
  exact h.push hgap hle made

omit hle in
theorem placed_optional {atom : Atom} (hatom : atom.Fits pattern source) :
    (Node.choice [atom.toNode expansion source, .literal [] ⟨stop, stop⟩] false
      ⟨source.start, stop⟩).Placed pattern := by
  obtain ⟨hnode, hwithin⟩ := hatom.placed_toNode hsource expansion
  have hfull := placed_full hsource hstop hboundary
  refine ⟨hfull, ?_, hnode, ⟨⟨Nat.le_refl _, hboundary, hboundary⟩, spelled_nil⟩, trivial⟩
  intro child hchild
  rcases List.mem_pair.mp hchild with rfl | rfl
  · exact ⟨hwithin.start, hwithin.stop.trans hstop⟩
  · exact ⟨hfull.le, Nat.le_refl _⟩

theorem Placed.addOptional (h : draft.Placed pattern lo hi) {atom : Atom}
    (hatom : atom.Fits pattern source) :
    (draft.addOptional expansion atom source ⟨source.start, stop⟩).Placed pattern lo stop := by
  rw [Draft.addOptional]
  dsimp only
  split
  · exact h.pushGap hsource hle hstop hboundary _
  · exact h.push (placed_optional hsource hstop hboundary hatom) hle _

theorem Placed.addRepeated (h : draft.Placed pattern lo hi) (q : Quantifier) {atom : Atom}
    (hatom : atom.Fits pattern source) :
    (draft.addRepeated expansion q atom source stop).Placed pattern lo stop := by
  have hfull := placed_full hsource hstop hboundary
  have honce : (draft.addOnce expansion source atom).Placed pattern lo source.stop :=
    h.addOnce hsource hle hatom
  unfold Draft.addRepeated
  dsimp only
  split
  · exact h.pushGap hsource hle hstop hboundary _
  · split
    · split
      · exact h.addOptional hsource hle hstop hboundary hatom
      · exact h.pushGap hsource hle hstop hboundary _
    · split
      · exact h.pushBytes hfull hle (spelled_replicate _ (spelled_char _))
      · split
        · exact honce.mono hstop
        · have hrest : (Node.gap ⟨source.stop, stop⟩).Placed pattern :=
            ⟨hstop, hsource.stop, hboundary⟩
          exact honce.push hrest (Nat.le_refl _) _

theorem Placed.addPlain (h : draft.Placed pattern lo hi) (q : Option Quantifier) {atom : Atom}
    (hatom : atom.Fits pattern source) :
    (draft.addPlain expansion q atom source stop).Placed pattern lo stop := by
  cases q with
  | none => exact (h.addOnce hsource hle hatom).mono hstop
  | some q => exact h.addRepeated hsource hle hstop hboundary q hatom

omit hle hstop hboundary in
/-- The last character of a quotation starts behind the others, inside the quotation. -/
theorem quoted_split {text : List Char} {c : Char}
    (hatom : (Atom.quoted text).Fits pattern source) (hlast : text.getLast? = some c) :
    Extent.Placed pattern ⟨source.start, source.start + 2 + width text.dropLast⟩ ∧
      Extent.Placed pattern ⟨source.start + 2 + width text.dropLast, source.stop⟩ := by
  obtain ⟨before, after, happend, hbefore, hend⟩ := hatom
  have htext : text.dropLast ++ [c] = text :=
    List.dropLast_append_getLast? c (Option.mem_def.mpr hlast)
  have hwidth : width text.dropLast ≤ width text := by
    conv_rhs => rw [← htext, width_append]
    exact Nat.le_add_right _ _
  have hsplit : Boundary pattern (source.start + 2 + width text.dropLast) := by
    refine boundary_iff.mpr ⟨before ++ text.dropLast, [c] ++ after, ?_, ?_⟩
    · rw [← happend, List.append_assoc, ← List.append_assoc _ [c], htext, List.append_assoc]
    · rw [width_append, hbefore]
  have hstart : source.start ≤ source.start + 2 + width text.dropLast :=
    (Nat.le_add_right _ _).trans (Nat.le_add_right _ _)
  have hrest : source.start + 2 + width text.dropLast ≤ source.stop :=
    (Nat.add_le_add_left hwidth _).trans hend
  exact ⟨⟨hstart, hsource.start, hsplit⟩, ⟨hrest, hsplit, hsource.stop⟩⟩

omit hsource hle hstop hboundary in
/-- The characters of a quotation before the last one take the draft up to there. -/
theorem Placed.pushFront (h : draft.Placed pattern lo hi) (hle : hi ≤ source.start)
    (first : List Char) {split : Nat} (hfirst : Extent.Placed pattern ⟨source.start, split⟩) :
    (if first.isEmpty then draft
      else draft.pushBytes (first.flatMap String.utf8EncodeChar) ⟨source.start, split⟩).Placed
      pattern lo split := by
  split
  · exact h.mono (hle.trans hfirst.le)
  · exact h.pushBytes hfirst hle (spelled_flatMap _)

/-- The last character of a quotation has an extent of its own, and the others the one before. -/
theorem Placed.addQuoted (h : draft.Placed pattern lo hi) (q : Option Quantifier)
    {text : List Char} (hatom : (Atom.quoted text).Fits pattern source) :
    (draft.addQuoted expansion q text source stop).Placed pattern lo stop := by
  unfold Draft.addQuoted
  cases hlast : text.getLast? with
  | none =>
      obtain rfl := List.getLast?_eq_none_iff.mp hlast
      exact h.mono (hle.trans (hsource.le.trans hstop))
  | some c =>
      obtain ⟨hfirst, hsplit⟩ := quoted_split hsource hatom hlast
      have hchar : (Atom.char c).Fits pattern
          ⟨source.start + 2 + width text.dropLast, source.stop⟩ := trivial
      exact (h.pushFront hle text.dropLast hfirst).addPlain hsplit (Nat.le_refl _) hstop hboundary q
        hchar

theorem Placed.add (h : draft.Placed pattern lo hi) (q : Option Quantifier) {atom : Atom}
    (hatom : atom.Fits pattern source) :
    (draft.add expansion q atom source stop).Placed pattern lo stop := by
  unfold Draft.add
  split
  · exact h.addQuoted hsource hle hstop hboundary q hatom
  · exact h.mono (hle.trans (hsource.le.trans hstop))
  · exact h.addPlain hsource hle hstop hboundary q hatom

end

end Draft

/-! ## Levels -/

namespace Level

variable {level : Level} {offset : Nat}

/-- The alternatives of a level up to an offset: the finished ones, then the current one. -/
structure Placed (pattern : String) (offset : Nat) (level : Level) : Prop where
  start : Boundary pattern level.start
  current : Boundary pattern level.current
  start_le : level.start ≤ level.current
  finished : AllPlaced pattern level.finished
  within : ∀ node ∈ level.finished, node.source.Within ⟨level.start, level.current⟩
  draft : level.draft.Placed pattern level.current offset

theorem placed_fresh (h : Boundary pattern offset) (made : Nat) :
    (fresh offset made).Placed pattern offset where
  start := h
  current := h
  start_le := Nat.le_refl _
  finished := trivial
  within _ hnode := nomatch hnode
  draft := Draft.placed_start offset made

theorem Placed.withDraft (h : level.Placed pattern offset) {draft : Draft} {stop : Nat}
    (hdraft : draft.Placed pattern level.current stop) :
    Placed pattern stop { level with draft := draft } :=
  ⟨h.start, h.current, h.start_le, h.finished, h.within, hdraft⟩

theorem Placed.branches (h : level.Placed pattern offset) (hoffset : Boundary pattern offset) :
    AllPlaced pattern (level.branches offset) ∧
      ∀ node ∈ level.branches offset, node.source.Within ⟨level.start, offset⟩ := by
  refine ⟨allPlaced_append.mpr ⟨h.finished, h.draft.sequence h.current hoffset, trivial⟩, ?_⟩
  intro node hnode
  rcases List.mem_append.mp hnode with hold | hnew
  · exact (h.within node hold).trans ⟨Nat.le_refl _, h.draft.le⟩
  · exact List.mem_singleton.mp hnew ▸ ⟨h.start_le, Nat.le_refl _⟩

theorem Placed.nextBranch (h : level.Placed pattern offset) (hoffset : Boundary pattern offset)
    (hnext : Boundary pattern (offset + 1)) :
    (level.nextBranch offset).Placed pattern (offset + 1) where
  start := h.start
  current := hnext
  start_le := h.start_le.trans (h.draft.le.trans (Nat.le_succ _))
  finished := (h.branches hoffset).1
  within node hnode := ((h.branches hoffset).2 node hnode).trans ⟨Nat.le_refl _, Nat.le_succ _⟩
  draft := Draft.placed_start _ _

theorem Placed.node (h : level.Placed pattern offset) (hoffset : Boundary pattern offset) :
    (level.node offset).Placed pattern :=
  ⟨⟨h.start_le.trans h.draft.le, h.start, hoffset⟩, (h.branches hoffset).2,
    (h.branches hoffset).1⟩

end Level

/-! ## Steps -/

/-- The levels around a place, of which each stops where a group opens that is still open. -/
def OuterPlaced (pattern : String) (limit : Nat) : List Outer → Prop
  | [] => True
  | outer :: others =>
    outer.opening ≤ limit ∧ Boundary pattern outer.opening ∧
      outer.level.Placed pattern outer.opening ∧ OuterPlaced pattern outer.level.start others

/-- The root is placed, or the fault stands between two characters. -/
def ParseResult.Placed (pattern : String) (result : ParseResult) : Prop :=
  match result.root with
  | .ok root => root.Placed pattern
  | .error fault => Boundary pattern fault.offset

namespace ParserState

variable {reading : Reading} {state : ParserState} {cursor : Cursor} {offset : Nat}

/-- All that was read up to the offset has its place. -/
structure Placed (pattern : String) (offset : Nat) (state : ParserState) : Prop where
  level : state.level.Placed pattern offset
  outer : OuterPlaced pattern state.level.start state.outer

end ParserState

def ParserStep.Placed (pattern : String) : ParserStep → Prop
  | next state cursor => state.Placed pattern cursor.offset
  | done result => result.Placed pattern

namespace ParserState

variable {reading : Reading} {state : ParserState} {cursor : Cursor} {offset : Nat}

theorem placed_initial (pattern : String) : initial.Placed pattern 0 where
  level := Level.placed_fresh (Cursor.within_start pattern).boundary 0
  outer := trivial

theorem Placed.finish (h : state.Placed pattern offset) (hoffset : Boundary pattern offset) :
    (state.finish offset).Placed pattern := by
  cases houter : state.outer with
  | nil =>
      rw [ParserState.finish, houter]
      exact h.level.node hoffset
  | cons outer others =>
      have hopening := h.outer
      rw [houter] at hopening
      rw [ParserState.finish, houter]
      exact hopening.2.1

theorem Placed.addAtom (h : state.Placed pattern offset) (hwithin : cursor.Within pattern)
    {start : Nat} (hstart : Boundary pattern start) (hle : offset ≤ start)
    (hstop : start ≤ cursor.offset) {atom : Atom} (hatom : atom.Fits pattern ⟨start, cursor.offset⟩) :
    (addAtom reading state start atom cursor).Placed pattern := by
  rw [ParserState.addAtom]
  split
  case h_1 fault hread => exact (Quantifier.from_of_read hread).boundary hwithin
  case h_2 q n hread =>
    have hsource : Extent.Placed pattern ⟨start, cursor.offset⟩ :=
      ⟨hstop, hstart, hwithin.boundary⟩
    exact ⟨h.level.withDraft (h.level.draft.add hsource hle (cursor.offset_le_advance n)
      (hwithin.advance n).boundary q hatom), h.outer⟩

theorem Placed.openGroup (h : state.Placed pattern offset) (hoffset : Boundary pattern offset)
    (hwithin : cursor.Within pattern) (hle : offset ≤ cursor.offset) (assertion : Bool)
    (flags : Flags) : (state.openGroup offset assertion flags cursor).Placed pattern := by
  rw [ParserState.openGroup]
  split
  · exact hoffset
  · exact ⟨Level.placed_fresh hwithin.boundary _, hle, hoffset, h.level, h.outer⟩

theorem Placed.closeGroup (h : state.Placed pattern offset) (hoffset : Boundary pattern offset)
    (hwithin : cursor.Within pattern) (hle : offset ≤ cursor.offset) :
    (state.closeGroup reading offset cursor).Placed pattern := by
  rw [ParserState.closeGroup]
  split
  · exact hoffset
  case h_2 opening assertion flags level outer houter =>
    have hlevels := h.outer
    rw [houter] at hlevels
    obtain ⟨hopening, hboundary, hlevel, hothers⟩ := hlevels
    have hend : opening ≤ cursor.offset :=
      hopening.trans (h.level.start_le.trans (h.level.draft.le.trans hle))
    have haround : ParserState.Placed pattern opening ⟨flags,
        { level with draft := { level.draft with made := state.level.madeAtEnd } }, outer⟩ :=
      ⟨hlevel.withDraft (hlevel.draft.withMade _), hothers⟩
    refine haround.addAtom hwithin hboundary (Nat.le_refl _) hend ?_
    split
    · exact trivial
    · exact ⟨h.level.node hoffset, hopening, hle⟩

end ParserState

/-! ## Lexemes -/

theorem Escaped.quoted_of_atom? {c : Char} {rest text : List Char} {n : Nat}
    (h : atom? c rest = some (.quoted text, n)) :
    c = 'Q' ∧ text <+: rest ∧ text.length ≤ n := by
  have hcode : ∀ {code : Nat × Nat}, coded code ≠ (.quoted text, n) := by
    intro code heq
    have hatom : Atom.ofCode code.1 = .quoted text := (Prod.mk.inj heq).1
    rw [Atom.ofCode] at hatom
    split at hatom <;> cases hatom
  have hcoded : ∀ {found : Option (Nat × Nat)}, found.map coded ≠ some (.quoted text, n) := by
    intro found heq
    obtain ⟨code, -, heq⟩ := Option.map_eq_some_iff.mp heq
    exact hcode heq
  have hgap : ∀ {found : Option Nat},
      found.map (fun n => (Atom.gap, n)) ≠ some (.quoted text, n) := by
    intro found heq
    obtain ⟨m, -, heq⟩ := Option.map_eq_some_iff.mp heq
    cases (Prod.mk.inj heq).1
  rw [atom?] at h
  split at h
  · cases (Prod.mk.inj (Option.some.inj h)).1
  · unfold ofLetter? at h
    split at h
    · exact absurd h hgap
    · exact absurd h hgap
    · obtain ⟨hatom, rfl⟩ := Prod.mk.inj (Option.some.inj h)
      split at hatom
      · cases hatom
      · obtain rfl := Atom.quoted.inj hatom
        exact ⟨rfl, (quotation_eq rest).1, (quotation_eq rest).2.1⟩
    · cases (Prod.mk.inj (Option.some.inj h)).1
    · exact absurd h hcoded
    · exact absurd (Option.some.inj h) hcode
    · exact absurd h hgap
    · exact absurd h hgap
    · exact absurd h hcoded
    · exact absurd h hcoded
    · exact absurd (Option.some.inj h) hcode
    · split at h
      · cases (Prod.mk.inj (Option.some.inj h)).1
      · split at h
        · cases (Prod.mk.inj (Option.some.inj h)).1
        · cases (Prod.mk.inj (Option.some.inj h)).1

namespace Lexeme

variable {flags : Flags} {offset n : Nat} {c : Char} {rest : List Char}

theorem quoted_of_read {text : List Char}
    (h : read flags offset c rest = .ok (.atom (.quoted text), n)) :
    c = '\\' ∧ ∃ tail, rest = 'Q' :: tail ∧ text <+: tail ∧ text.length + 1 ≤ n := by
  have hother : ∀ {atom : Atom} {m : Nat}, (∀ text, atom ≠ .quoted text) →
      (Except.ok (Lexeme.atom atom, m) : Except Fault _) ≠ .ok (.atom (.quoted text), n) :=
    fun hatom heq => hatom text (Lexeme.atom.inj (Prod.mk.inj (Except.ok.inj heq)).1)
  unfold Lexeme.read at h
  split at h
  · cases h
  · cases h
  · split at h
    · cases h
    · split at h
      case h_1 => cases h
      case h_2 hescape =>
        obtain ⟨hatom, rfl⟩ := Prod.mk.inj (Except.ok.inj h)
        obtain rfl := Lexeme.atom.inj hatom
        obtain ⟨rfl, htext, hlength⟩ := Escaped.quoted_of_atom? hescape
        exact ⟨rfl, _, rfl, htext, Nat.add_le_add_right hlength 1⟩
  · split at h
    case h_1 => cases h
    case h_2 opener m hopener =>
      cases opener with
      | skipped => exact absurd h (hother (by rintro _ ⟨⟩))
      | _ => cases (Prod.mk.inj (Except.ok.inj h)).1
  · split at h
    case h_1 => cases h
    case h_2 found m hclass =>
      refine absurd h (hother fun other hatom => ?_)
      unfold readClass at hclass
      dsimp only at hclass
      generalize ClassContent.readFrom offset true .empty _ = read at hclass
      cases read with
      | error fault => cases hclass
      | ok content =>
          have hset := (Prod.mk.inj (Except.ok.inj hclass)).1
          rw [hatom, ClassContent.atom] at hset
          split at hset <;> cases hset
  · exact absurd h (hother (by rintro _ ⟨⟩))
  · exact absurd h (hother (by rintro _ ⟨⟩))
  · exact absurd h (hother (by rintro _ ⟨⟩))
  · split at h
    · cases h
    · split at h
      · cases (Prod.mk.inj (Except.ok.inj h)).1
      · split at h
        · cases (Prod.mk.inj (Except.ok.inj h)).1
        · exact absurd h (hother (by rintro _ ⟨⟩))

theorem bar_of_read (h : read flags offset c rest = .ok (.bar, n)) : c = '|' ∧ n = 0 := by
  unfold Lexeme.read at h
  split at h
  · exact ⟨rfl, ((Prod.mk.inj (Except.ok.inj h)).2).symm⟩
  · cases h
  · split at h
    · cases h
    · split at h <;> cases h
  · split at h
    case h_1 => cases h
    case h_2 opener m hopener => cases opener <;> cases (Prod.mk.inj (Except.ok.inj h)).1
  · split at h <;> cases h
  · cases h
  · cases h
  · cases h
  · split at h
    · cases h
    · split at h
      · cases h
      · split at h <;> cases h

/-- What an atom says about the pattern holds where it was read. -/
theorem fits_of_read {atom : Atom} (h : read flags offset c rest = .ok (.atom atom, n))
    (hwithin : Cursor.Within pattern ⟨offset, c :: rest⟩) :
    atom.Fits pattern ⟨offset, (Cursor.advance ⟨offset, c :: rest⟩ (n + 1)).offset⟩ := by
  have hleaf := isLeaf_of_read h
  cases atom with
  | node group => exact hleaf.elim
  | quoted text =>
      obtain ⟨rfl, tail, rfl, ⟨after, rfl⟩, hlength⟩ := quoted_of_read h
      obtain ⟨before, happend, hwidth⟩ := hwithin
      have htaken := Cursor.width_take_le_advance ⟨offset, '\\' :: 'Q' :: (text ++ after)⟩
        (Nat.add_le_add_right hlength 1)
      refine ⟨before ++ ['\\', 'Q'], after, ?_, ?_, ?_⟩
      · rw [← happend]
        simp
      · rw [width_append, hwidth]
        rfl
      · have hwidth : width (List.take (text.length + 1 + 1) ('\\' :: 'Q' :: (text ++ after))) =
            2 + width text := by
          rw [List.take_succ_cons, List.take_succ_cons, List.take_left, width_cons, width_cons,
            ← Nat.add_assoc]
          rfl
        rwa [hwidth, ← Nat.add_assoc] at htaken
  | _ => exact trivial

end Lexeme

/-! ## Runs -/

namespace ParserState

variable {reading : Reading} {state : ParserState} {cursor : Cursor}

theorem Placed.apply {offset n : Nat} {c : Char} {rest : List Char} {lexeme : Lexeme}
    (h : state.Placed pattern offset) (hwithin : Cursor.Within pattern ⟨offset, c :: rest⟩)
    (hread : Lexeme.read state.flags offset c rest = .ok (lexeme, n)) :
    (state.apply reading offset (Cursor.advance ⟨offset, c :: rest⟩ (n + 1)) lexeme).Placed
      pattern := by
  have hafter := hwithin.advance (n + 1)
  have hle := Cursor.offset_le_advance ⟨offset, c :: rest⟩ (n + 1)
  have hsame : state.Placed pattern (Cursor.advance ⟨offset, c :: rest⟩ (n + 1)).offset :=
    ⟨h.level.withDraft (h.level.draft.mono hle), h.outer⟩
  unfold ParserState.apply
  split
  · exact hsame
  · exact hsame
  · obtain ⟨rfl, rfl⟩ := Lexeme.bar_of_read hread
    exact ⟨h.level.nextBranch hwithin.boundary hafter.boundary, h.outer⟩
  · exact h.closeGroup hwithin.boundary hafter hle
  · exact h.openGroup hwithin.boundary hafter hle _ _
  case h_6 flags =>
    have hgap : Atom.gap.Fits pattern ⟨offset, (Cursor.advance ⟨offset, c :: rest⟩ (n + 1)).offset⟩ :=
      trivial
    have hflags : ParserState.Placed pattern offset { state with flags := flags } :=
      ⟨h.level, h.outer⟩
    exact hflags.addAtom hafter hwithin.boundary (Nat.le_refl _) hle hgap
  · exact h.addAtom hafter hwithin.boundary (Nat.le_refl _) hle
      ((Lexeme.fits_of_read hread hwithin).under _ _)

/-- One step keeps everything in its place. -/
theorem Placed.step (h : state.Placed pattern cursor.offset) (hwithin : cursor.Within pattern)
    (reading : Reading) : (state.step reading cursor).Placed pattern := by
  unfold ParserState.step
  split
  · exact h.finish hwithin.boundary
  · split
    case h_1 hread => exact (Lexeme.from_of_read hread).boundary hwithin
    case h_2 hread => exact h.apply hwithin hread

theorem Reached.placed (h : Reached reading pattern state cursor) :
    state.Placed pattern cursor.offset := by
  induction h with
  | start => exact placed_initial pattern
  | step hreached hstep ih =>
      have hnext := ih.step hreached.within reading
      rwa [hstep] at hnext

theorem Placed.run (h : state.Placed pattern cursor.offset) (hwithin : cursor.Within pattern) :
    (state.run reading cursor).Placed pattern := by
  fun_induction ParserState.run reading state cursor with
  | case1 state cursor result hdone =>
      have hstep := h.step hwithin reading
      rwa [hdone] at hstep
  | case2 state cursor next stop hnext ih =>
      have hstep := h.step hwithin reading
      rw [hnext] at hstep
      obtain ⟨n, -, rfl⟩ := step_advances hnext
      exact ih hstep (hwithin.advance n)

end ParserState

/-- Whatever the pattern, reading it ends with a placed root or with a fault at a place in it. -/
theorem placed_parse (reading : Reading) (pattern : String) :
    (parse reading pattern).Placed pattern :=
  (ParserState.placed_initial pattern).run (Cursor.within_start pattern)

end LiteralSieve
