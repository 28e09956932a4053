namespace LiteralSieve

/-!
# Cursors

A cursor stands between two characters of a pattern: it knows how many bytes are behind it and which
characters are ahead. It moves by whole characters, so its offset is never inside one.
-/

/-- The number of bytes of the characters in UTF-8. -/
def width : List Char → Nat
  | [] => 0
  | c :: rest => c.utf8Size + width rest

@[simp] theorem width_nil : width [] = 0 := rfl

@[simp] theorem width_cons (c : Char) (rest : List Char) :
    width (c :: rest) = c.utf8Size + width rest := rfl

@[simp] theorem width_append (xs ys : List Char) : width (xs ++ ys) = width xs + width ys := by
  induction xs with
  | nil => simp
  | cons c xs ih => simp [ih, Nat.add_assoc]

structure Cursor where
  offset : Nat
  rest : List Char
deriving DecidableEq, Inhabited

namespace Cursor

def start (pattern : String) : Cursor := ⟨0, pattern.toList⟩

/-- `n` characters further, or at the end. -/
def advance (cursor : Cursor) (n : Nat) : Cursor :=
  ⟨cursor.offset + width (cursor.rest.take n), cursor.rest.drop n⟩

@[simp] theorem rest_advance (cursor : Cursor) (n : Nat) :
    (cursor.advance n).rest = cursor.rest.drop n := rfl

@[simp] theorem advance_zero (cursor : Cursor) : cursor.advance 0 = cursor := by
  simp [advance]

theorem advance_append (offset : Nat) (xs ys : List Char) :
    advance ⟨offset, xs ++ ys⟩ xs.length = ⟨offset + width xs, ys⟩ := by
  simp [advance]

theorem advance_advance (cursor : Cursor) (m n : Nat) :
    (cursor.advance m).advance n = cursor.advance (m + n) := by
  simp [advance, List.take_add, Nat.add_assoc]

end Cursor

end LiteralSieve
