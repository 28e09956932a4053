import LiteralSieve.Proofs.Content
import LiteralSieve.Proofs.Decompositions
import LiteralSieve.Proofs.Pattern.Characters
import LiteralSieve.Proofs.Pattern.FaultSigns
import LiteralSieve.Proofs.Pattern.Reading

namespace LiteralSieve

/-!
# Patterns that spell a literal

A literal may be written in pieces: characters, each in one of its spellings, and quotations. Every
piece adds what it denotes to the literal that is growing, and nothing ends that literal before the
pattern ends.
-/

namespace Grammar

/-- A part of a pattern that stands for a string. -/
inductive TextPiece where
  | char (c : Char) (text : List Char) (spells : SpellsChar false c text)
  | quotation (content : List Char) (ne_nil : content ≠ []) (unclosed : ¬ ['\\', 'E'] <:+: content)

namespace TextPiece

def text : TextPiece → List Char
  | char _ text _ => text
  | quotation content _ _ => '\\' :: 'Q' :: (content ++ ['\\', 'E'])

/-- The string that a piece stands for. -/
def denotes : TextPiece → List Char
  | char c _ _ => [c]
  | quotation content _ _ => content

def atom : TextPiece → Atom
  | char c _ _ => .char c
  | quotation content _ _ => .quoted content

theorem denotes_ne_nil (piece : TextPiece) : piece.denotes ≠ [] := by
  cases piece with
  | char c text spells => exact List.cons_ne_nil _ _
  | quotation content ne_nil unclosed => exact ne_nil

end TextPiece

/-- The pattern that consists of these pieces. -/
def piecesPattern (pieces : List TextPiece) : String :=
  String.ofList (pieces.flatMap TextPiece.text)

/-- The string that these pieces stand for. -/
def piecesDenote (pieces : List TextPiece) : String :=
  String.ofList (pieces.flatMap TextPiece.denotes)

end Grammar

open Grammar

/-! ## Reading a piece -/

section

variable {c : Char} {rest : List Char}

/-- A quotation ends with the first sign that closes it, of which a backslash before the sign is no
part. -/
theorem quotation_append {content : List Char} (h : ¬ ['\\', 'E'] <:+: content)
    (rest : List Char) :
    Escaped.quotation (content ++ '\\' :: 'E' :: rest) = (content, content.length + 2) := by
  induction content with
  | nil => rfl
  | cons c content ih =>
      have hopen : ¬ ['\\', 'E'] <:+: content :=
        fun hinside => h (hinside.trans (List.infix_cons List.infix_rfl))
      have hread := ih hopen
      rw [List.cons_append]
      unfold Escaped.quotation
      split
      case h_1 heq => cases heq
      case h_2 more heq =>
        exfalso
        obtain ⟨rfl, hmore⟩ := List.cons.inj heq
        cases content with
        | nil =>
            obtain ⟨hletter, -⟩ := List.cons.inj hmore
            cases hletter
        | cons d content =>
            obtain ⟨rfl, -⟩ := List.cons.inj hmore
            exact h ⟨[], content, rfl⟩
      case h_3 heq =>
        obtain ⟨rfl, rfl⟩ := List.cons.inj heq
        rw [hread]
        rfl

namespace Grammar.TextPiece

theorem readsAs (piece : TextPiece) (rest : List Char) :
    ReadsAs .none piece.text (.atom piece.atom) rest := by
  cases piece with
  | char c text spells => exact spells.readsAs rest
  | quotation content ne_nil unclosed =>
      apply readsAs_backslash
      have hquotation : Escaped.quotation (content ++ ['\\', 'E'] ++ rest) =
          (content, content.length + 2) := by
        rw [List.append_assoc]
        exact quotation_append unclosed rest
      have hread : Escaped.atom? 'Q' (content ++ ['\\', 'E'] ++ rest) =
          some (if content.isEmpty then .nothing else .quoted content, content.length + 2) := by
        change some (if (Escaped.quotation _).1.isEmpty then _ else _, _) = _
        rw [hquotation]
      rw [hread, if_neg (mt List.isEmpty_iff.mp ne_nil), List.length_append]
      rfl

theorem unquantified_text (piece : TextPiece) (rest : List Char) :
    Unquantified (piece.text ++ rest) := by
  cases piece with
  | quotation content ne_nil unclosed => exact unquantified_cons (by decide)
  | char c text spells =>
      obtain ⟨first, tail, rfl, hfirst, -⟩ := spells.text_eq_cons
      exact unquantified_cons hfirst

end Grammar.TextPiece

theorem unquantified_pieces (pieces : List TextPiece) :
    Unquantified (pieces.flatMap TextPiece.text) := by
  cases pieces with
  | nil => exact unquantified_nil
  | cons piece pieces => exact piece.unquantified_text _

end

/-! ## The growing literal -/

/-- Nothing is read so far but these bytes of a literal. -/
structure Draft.Spells (bytes : Bytes) (draft : Draft) : Prop where
  nodes : draft.nodes = []
  run : (draft.run.map Prod.fst).getD [] = bytes

namespace Draft

variable {draft : Draft} {bytes : Bytes}

theorem spells_start (made : Nat) : (start made).Spells [] := ⟨rfl, rfl⟩

theorem Spells.pushBytes (h : draft.Spells bytes) (more : Bytes) (source : Extent) :
    (draft.pushBytes more source).Spells (bytes ++ more) := by
  obtain ⟨nodes, run, made⟩ := draft
  obtain ⟨rfl, rfl⟩ := h
  cases run <;> exact ⟨rfl, rfl⟩

theorem Spells.addQuoted (h : draft.Spells bytes) {content : List Char} (hne : content ≠ [])
    (expansion : Bool) (source : Extent) (stop : Nat) :
    (draft.addQuoted expansion none content source stop).Spells
      (bytes ++ content.flatMap String.utf8EncodeChar) := by
  have hlast : content.getLast? = some (content.getLast hne) := List.getLast?_eq_some_getLast hne
  have hcontent : content.flatMap String.utf8EncodeChar =
      content.dropLast.flatMap String.utf8EncodeChar ++
        String.utf8EncodeChar (content.getLast hne) := by
    rw [← List.flatMap_singleton String.utf8EncodeChar, ← List.flatMap_append,
      List.dropLast_append_getLast]
  rw [Draft.addQuoted, hlast, hcontent, ← List.append_assoc]
  dsimp only
  split
  case isTrue hempty =>
    rw [List.isEmpty_iff.mp hempty, List.flatMap_nil, List.append_nil]
    exact h.pushBytes _ _
  case isFalse => exact (h.pushBytes _ _).pushBytes _ _

/-- A piece adds what it denotes, and nothing else. -/
theorem Spells.addPiece (h : draft.Spells bytes) (piece : TextPiece) (expansion : Bool)
    (source : Extent) (stop : Nat) :
    (draft.add expansion none piece.atom source stop).Spells
      (bytes ++ piece.denotes.flatMap String.utf8EncodeChar) := by
  cases piece with
  | char c text spells =>
      rw [TextPiece.denotes, List.flatMap_singleton]
      exact h.pushBytes _ _
  | quotation content ne_nil unclosed => exact h.addQuoted ne_nil expansion source stop

/-- At the end the literal is all that there is. -/
theorem Spells.flush (h : draft.Spells bytes) (hne : bytes ≠ []) :
    ∃ source, draft.flush.nodes = [.literal bytes source] := by
  obtain ⟨nodes, run, made⟩ := draft
  obtain ⟨rfl, rfl⟩ := h
  cases run with
  | none => exact absurd rfl hne
  | some run => exact ⟨run.2, rfl⟩

end Draft

namespace ParserState

variable {reading : Reading} {state : ParserState} {offset : Nat} {rest : List Char}
  {bytes : Bytes}

/-- One piece is read, and the literal grows by it. -/
theorem run_piece (piece : TextPiece) (hrest : Unquantified rest) (hflags : state.flags = .none)
    (hdraft : state.level.draft.Spells bytes) :
    ∃ draft stop, run reading state ⟨offset, piece.text ++ rest⟩ =
        run reading (state.withDraft draft) ⟨stop, rest⟩ ∧
      draft.Spells (bytes ++ piece.denotes.flatMap String.utf8EncodeChar) := by
  have hplain : state.flags.extended = false := by
    rw [hflags]
    rfl
  have hunder : piece.atom.under state.flags reading.caseSensitive = piece.atom := by
    rw [hflags]
    rfl
  have happly : ∀ cursor, state.apply reading offset cursor (.atom piece.atom) =
      state.addAtom reading offset piece.atom cursor := by
    intro cursor
    calc state.apply reading offset cursor (.atom piece.atom)
        = state.addAtom reading offset (piece.atom.under state.flags reading.caseSensitive)
            cursor := by cases piece <;> rfl
      _ = state.addAtom reading offset piece.atom cursor := by rw [hunder]
  have hreads : ReadsAs state.flags piece.text (.atom piece.atom) rest :=
    hflags ▸ piece.readsAs rest
  have hstep : step reading state ⟨offset, piece.text ++ rest⟩ =
      state.addAtom reading offset piece.atom ⟨offset + width piece.text, rest⟩ :=
    (step_of_readsAs hreads).trans (happly _)
  rw [addAtom_bare hplain (Quantifier.starts_of_unquantified hrest)] at hstep
  exact ⟨_, _, run_of_next hstep, hdraft.addPiece piece _ _ _⟩

theorem run_pieces (pieces : List TextPiece) (reading : Reading) (offset : Nat)
    (hflags : state.flags = .none) (hdraft : state.level.draft.Spells bytes) :
    ∃ draft stop, run reading state ⟨offset, pieces.flatMap TextPiece.text⟩ =
        run reading (state.withDraft draft) ⟨stop, []⟩ ∧
      draft.Spells (bytes ++ (pieces.flatMap TextPiece.denotes).flatMap String.utf8EncodeChar) := by
  induction pieces generalizing state offset bytes with
  | nil =>
      rw [List.flatMap_nil, List.flatMap_nil, List.flatMap_nil, List.append_nil]
      exact ⟨state.level.draft, offset, rfl, hdraft⟩
  | cons piece pieces ih =>
      obtain ⟨draft, middle, hfirst, hgrown⟩ :=
        run_piece piece (unquantified_pieces pieces) hflags hdraft
      obtain ⟨last, stop, hothers, hspells⟩ :=
        ih middle (show (state.withDraft draft).flags = .none from hflags) hgrown
      refine ⟨last, stop, ?_, ?_⟩
      · rw [List.flatMap_cons, hfirst]
        exact hothers
      · rw [List.flatMap_cons, List.flatMap_append, ← List.append_assoc]
        exact hspells

end ParserState

theorem utf8_piecesDenote (pieces : List TextPiece) :
    utf8 (piecesDenote pieces) =
      (pieces.flatMap TextPiece.denotes).flatMap String.utf8EncodeChar := by
  rw [utf8_eq, piecesDenote, String.toList_ofList]

theorem utf8_piecesDenote_ne_nil {pieces : List TextPiece} (h : pieces ≠ []) :
    utf8 (piecesDenote pieces) ≠ [] := by
  obtain ⟨piece, pieces, rfl⟩ := List.exists_cons_of_ne_nil h
  obtain ⟨c, more, hdenotes⟩ := List.exists_cons_of_ne_nil piece.denotes_ne_nil
  have hfirst : String.utf8EncodeChar c ≠ [] := by
    intro hnil
    have hlength := String.length_utf8EncodeChar c
    rw [hnil] at hlength
    exact absurd hlength.symm (Nat.ne_of_gt (Char.utf8Size_pos c))
  rw [utf8_piecesDenote, List.flatMap_cons, hdenotes, List.cons_append, List.flatMap_cons]
  exact List.append_ne_nil_of_left_ne_nil hfirst _

/-- Pieces are read as one literal, whatever is fixed for the reading. -/
theorem parse_pieces (reading : Reading) {pieces : List TextPiece} (h : pieces ≠ []) :
    ∃ root source, (parse reading (piecesPattern pieces)).root = .ok root ∧
      root.adjust = .literal (utf8 (piecesDenote pieces)) source := by
  obtain ⟨draft, stop, hrun, hspells⟩ := ParserState.run_pieces pieces reading 0
    (show ParserState.initial.flags = .none from rfl) (Draft.spells_start 0)
  rw [List.nil_append, ← utf8_piecesDenote] at hspells
  obtain ⟨source, hnodes⟩ := hspells.flush (utf8_piecesDenote_ne_nil h)
  refine ⟨Level.node (ParserState.initial.withDraft draft).level stop, source, ?_, ?_⟩
  · rw [piecesPattern, parse_ofList, hrun]
    exact ParserState.root_run_end reading _ stop
  · have hbranches : Level.branches (ParserState.initial.withDraft draft).level stop =
        [.sequence [.literal (utf8 (piecesDenote pieces)) source] false ⟨0, stop⟩] := by
      rw [← hnodes]
      rfl
    rw [Level.node, hbranches]
    rfl

/-! ## Decomposing a literal -/

variable {options : DecomposeOptions} {pattern : String} {root : Node} {bytes : Bytes}
  {source : Extent}

theorem collect_literal (h : options.minLength ≤ bytes.length) :
    collect options [[.literal bytes source]] = some [[bytes]] := by
  have hkeywords : Branch.keywords options.minLength [.literal bytes source] = [bytes] := by
    rw [Branch.keywords, keywordsFrom, List.nil_append, keywordsFrom, finishedRun, if_pos h]
  rw [collect, List.map_singleton, hkeywords]
  simp [withoutRepeats]

/-- A literal that is long enough is the only branch, and is found as it stands. -/
theorem decompose_of_literal (decomposer : Decomposer)
    (hparse : (parse ⟨decomposer.options.expansion, !decomposer.options.caseInsensitive⟩
      pattern).root = .ok root)
    (hroot : root.adjust = .literal bytes source)
    (hlength : decomposer.options.minLength ≤ bytes.length) :
    (decomposer.decompose pattern).2 = .ok ⟨.exact, [[bytes]]⟩ := by
  obtain ⟨simplified, hsimplified, hliteral⟩ := simplifiedTree_of_parse decomposer.tree hparse
  rw [hroot, Node.mark, Node.mergeLiterals] at hliteral
  have hcount : simplified.branchCount = 1 := by
    rw [PatternTree.branchCount, hliteral]
    rfl
  have hbranches : simplified.branches = [[.literal bytes source]] := by
    rw [PatternTree.branches, hliteral]
    rfl
  have hcap := DecomposeOptions.one_le_cap decomposer.options
  have hchosen : chosenTree decomposer.options pattern decomposer.tree = (simplified, .ok ()) := by
    rw [chosenTree, hsimplified]
    dsimp only
    rw [hcount, if_neg]
    exact fun h => absurd h.1 (Nat.not_lt.mpr hcap)
  rw [Decomposer.decompose, hchosen]
  dsimp only
  rw [treeDecomposition, hcount, if_pos hcap, hbranches, collect_literal hlength]

namespace PatternTree

end PatternTree

end LiteralSieve
