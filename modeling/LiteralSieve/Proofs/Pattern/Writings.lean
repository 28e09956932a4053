import LiteralSieve.Proofs.Pattern.Layout

namespace LiteralSieve

/-!
# Writings of expressions

An expression has many texts: its characters may be spelled in several ways, and fillers may stand
where nothing is pending. The plain text is one of them.
-/

namespace Grammar

mutual

/-- How an expression is written, where layout may be ignored and comments in groups may stand. -/
inductive Expression.Written (blanks comments : Bool) : Expression → List Char → Prop
  | single {row : Row} {text : List Char} (h : Row.Written blanks comments row text) :
      Expression.Written blanks comments (.single row) text
  | alternative {first : Row} {others : Expression} {text texts : List Char}
      (hfirst : Row.Written blanks comments first text)
      (hothers : Expression.Written blanks comments others texts) :
      Expression.Written blanks comments (.alternative first others) (text ++ '|' :: texts)

/-- A filler may stand before every term and at the end. -/
inductive Row.Written (blanks comments : Bool) : Row → List Char → Prop
  | empty {gap : List Char} (h : Filler blanks comments gap) :
      Row.Written blanks comments .empty gap
  | cons {term : Term} {quantity : Option Quantity} {others : Row}
      {gap text count texts : List Char} (hgap : Filler blanks comments gap)
      (hterm : Term.Written blanks comments term text) (hcount : CountText blanks quantity count)
      (hothers : Row.Written blanks comments others texts) :
      Row.Written blanks comments (.cons term quantity others) (gap ++ text ++ count ++ texts)

inductive Term.Written (blanks comments : Bool) : Term → List Char → Prop
  | char {c : PlainChar} {text : List Char} (h : SpellsChar blanks c.char text) :
      Term.Written blanks comments (.char c) text
  | any : Term.Written blanks comments .any ['.']
  | anchor (anchor : Anchor) : Term.Written blanks comments (.anchor anchor) anchor.text
  | escaped (negated : Bool) (set : EscapedSet) :
      Term.Written blanks comments (.escaped negated set) (set.text negated)
  | bracket (set : BracketSet) : Term.Written blanks comments (.bracket set) set.text
  | group {opening : Opening} {body : Expression} {text : List Char}
      (h : Expression.Written blanks comments body text) :
      Term.Written blanks comments (.group opening body) (opening.text ++ text ++ [')'])

end

variable {blanks comments : Bool} {text rest : List Char}

/-! ## Beginnings -/

theorem Term.Written.text_eq_cons {term : Term} (h : term.Written blanks comments text) :
    ∃ first tail, text = first :: tail ∧ first ∉ quantifierSigns ∧
      (blanks = true → first ∉ '#' :: layoutSigns) := by
  cases h with
  | char h => exact h.text_eq_cons
  | anchor anchor => cases anchor <;> exact ⟨_, _, rfl, by decide, fun _ => by decide⟩
  | @group opening _ _ h =>
      cases opening <;> exact ⟨'(', _, rfl, by decide, fun _ => by decide⟩
  | _ => exact ⟨_, _, rfl, by decide, fun _ => by decide⟩

theorem Row.Written.calm {row : Row} (h : row.Written blanks comments text)
    (hrest : Calm blanks rest) : Calm blanks (text ++ rest) := by
  cases h with
  | empty h => exact h.calm_append hrest
  | cons hgap hterm hcount hothers =>
      obtain ⟨first, tail, rfl, hfirst, hlayout⟩ := hterm.text_eq_cons
      rw [List.append_assoc, List.append_assoc, List.append_assoc]
      exact hgap.calm_append (calm_cons hfirst hlayout)

theorem Expression.Written.calm {expression : Expression}
    (h : expression.Written blanks comments text) (hrest : Calm blanks rest) :
    Calm blanks (text ++ rest) := by
  cases h with
  | single h => exact h.calm hrest
  | alternative hfirst hothers =>
      rw [List.append_assoc]
      exact hfirst.calm calm_bar

/-! ## Plain texts -/

theorem PlainChar.spells_text (c : PlainChar) : SpellsChar false c.char c.text := by
  rw [PlainChar.text]
  split
  case isTrue hescaped => exact .escaped (isAlphanum_of_isPunctuation (c.punctuation hescaped))
  case isFalse hplain =>
    exact .raw (c.plain (Bool.eq_false_iff.mpr hplain)) fun hblanks => Bool.noConfusion hblanks

theorem countText_quantityText (quantity : Option Quantity) :
    CountText false quantity (quantityText quantity) := by
  cases quantity with
  | none => exact .none
  | some quantity => exact .some .nil

mutual

/-- The plain text needs no layout and no comments. -/
theorem Expression.written_text (expression : Expression) :
    expression.Written false comments expression.text := by
  cases expression with
  | single row => exact .single row.written_text
  | alternative first others => exact .alternative first.written_text others.written_text

theorem Row.written_text (row : Row) : row.Written false comments row.text := by
  cases row with
  | empty => exact .empty .nil
  | cons term quantity others =>
      exact .cons .nil term.written_text (countText_quantityText quantity) others.written_text

theorem Term.written_text (term : Term) : term.Written false comments term.text := by
  cases term with
  | char c => exact .char c.spells_text
  | any => exact .any
  | anchor anchor => exact .anchor anchor
  | escaped negated set => exact .escaped negated set
  | bracket set => exact .bracket set
  | group opening body => exact .group body.written_text

end

end Grammar

end LiteralSieve
