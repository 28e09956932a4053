import LiteralSieve.Pattern.Class
import LiteralSieve.Pattern.Group
import LiteralSieve.Pattern.Quantifier

namespace LiteralSieve

/-!
# Lexemes

The parts of a pattern between which nothing is pending: atoms, the signs that structure a pattern,
and what leaves no trace. Quantifiers are no lexemes; they are read with the atom before them.
-/

inductive Lexeme where
  | bar
  | close
  | body (assertion : Bool) (flags : Flags)
  | options (flags : Flags)
  | atom (atom : Atom)
  | blank
deriving Inhabited

namespace Lexeme

def ofOpener : Opener → Lexeme
  | .body assertion flags => body assertion flags
  | .options flags => options flags
  | .skipped => atom .gap
  | .comment => blank

/-- The lexeme that starts with `c` at the offset, before `rest`. The count leaves out `c`. -/
def read (flags : Flags) (offset : Nat) (c : Char) (rest : List Char) :
    Except Fault (Lexeme × Nat) :=
  match c with
  | '|' => .ok (bar, 0)
  | ')' => .ok (close, 0)
  | '\\' =>
    match rest with
    | [] => .error ⟨.trailingBackslash, offset⟩
    | c :: rest =>
      match Escaped.atom? c rest with
      | none => .error ⟨.invalidEscape, offset⟩
      | some (a, n) => .ok (atom a, n + 1)
  | '(' =>
    match Opener.read flags rest with
    | .error kind => .error ⟨kind, offset⟩
    | .ok (opener, n) => .ok (ofOpener opener, n)
  | '[' =>
    match readClass ⟨offset, '[' :: rest⟩ with
    | .error fault => .error fault
    | .ok (a, n) => .ok (atom a, n)
  | '^' | '$' | '.' => .ok (atom .gap, 0)
  | _ =>
    if Quantifier.starts (c :: rest) then .error ⟨.nothingToRepeat, offset⟩
    else if flags.extended ∧ isLayout c then .ok (blank, 0)
    else if flags.extended ∧ c = '#' then .ok (blank, commentLength rest)
    else .ok (atom (.char c), 0)

end Lexeme

end LiteralSieve
