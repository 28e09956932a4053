import LiteralSieve.Proofs.Pattern.Drafts
import LiteralSieve.Proofs.Pattern.Values

namespace LiteralSieve

/-!
# Paths of drafts

A draft has the paths of the sequence that it holds. Adding an atom with a quantifier multiplies
them by the paths of the value of the atom, and by nothing else.
-/

open Node Grammar

/-! ## Drafts -/

namespace Draft

def paths (draft : Draft) : List Path := pathsOfAll draft.flush.nodes

def Proper (draft : Draft) : Prop := AllProper draft.nodes

@[simp] theorem paths_start (made : Nat) : (start made).paths = [[]] := rfl

theorem proper_start (made : Nat) : (start made).Proper := trivial

theorem proper_flush {draft : Draft} (h : draft.Proper) : draft.flush.Proper :=
  allProper_iff.mpr (Has.flush hereditary_proper 0 (allProper_iff.mp h))

end Draft

/-- The second draft has the paths of the first, each followed by one of these. -/
structure Gains (paths : List Path) (draft next : Draft) : Prop where
  paths_eq : next.paths = Path.product draft.paths paths
  proper : draft.Proper → next.Proper

namespace Gains

theorem refl (draft : Draft) : Gains [[]] draft draft :=
  ⟨Path.product_one_right.symm, id⟩

theorem trans {first second : List Path} {draft middle next : Draft}
    (h : Gains first draft middle) (h' : Gains second middle next) :
    Gains (Path.product first second) draft next where
  paths_eq := by rw [h'.paths_eq, h.paths_eq, Path.product_assoc]
  proper hproper := h'.proper (h.proper hproper)

variable {draft : Draft}

theorem pushBytes (draft : Draft) (bytes : Bytes) (source : Extent) :
    Gains [Path.literal bytes] draft (draft.pushBytes bytes source) where
  paths_eq := by
    rw [Draft.paths, Draft.paths, Draft.pushBytes, Draft.flush, Draft.flush]
    cases draft.run with
    | none => simp [pathsOfAll_append]
    | some run => simp [pathsOfAll_append, Path.product_assoc, Path.product_literals]
  proper hproper := by
    rw [Draft.Proper, Draft.pushBytes]
    split <;> exact hproper

theorem push (draft : Draft) {node : Node} (hnode : node.Proper) (made : Nat) :
    Gains node.paths draft (draft.push node made) where
  paths_eq := by
    rw [Draft.paths, Draft.paths, Draft.flush_push, Draft.push]
    simp [pathsOfAll_append]
  proper hproper := allProper_append.mpr ⟨Draft.proper_flush hproper, hnode, trivial⟩

theorem pushGap (draft : Draft) (source : Extent) (made : Nat) :
    Gains [[.gap]] draft (draft.push (.gap source) made) := by
  have hgap : (Node.gap source).Proper := trivial
  exact paths_gap source ▸ push draft hgap made

variable {atom : Atom} {value : Value}

theorem addOnce (h : atom.HasValue value) (expansion : Bool) (draft : Draft) (source : Extent) :
    Gains (value.once expansion) draft (draft.addOnce expansion source atom) := by
  cases h with
  | char c => exact pushBytes draft _ source
  | gap => exact pushGap draft source 1
  | node proper isGap => exact push draft proper 0
  | set members =>
      have hnode := (Atom.HasValue.set members).paths_toNode expansion source
      rw [Draft.addOnce, ← hnode, Atom.toNode]
      split
      case h_1 b hliteral => exact paths_literal [b] source ▸ pushBytes draft [b] source
      case h_2 => exact push draft (members.proper_node expansion source) _

theorem addOptional (h : atom.HasValue value) (expansion : Bool) (draft : Draft)
    (source full : Extent) :
    Gains (if value.isLoneGap expansion then [[.gap]] else value.once expansion ++ [[]]) draft
      (draft.addOptional expansion atom source full) := by
  rw [Draft.addOptional, ← h.isGap_toNode expansion source]
  dsimp only
  split
  case isTrue => exact pushGap draft full _
  case isFalse =>
    have hchoice : (Node.choice [atom.toNode expansion source, .literal [] ⟨full.stop, full.stop⟩]
        false full).Proper :=
      ⟨List.cons_ne_nil _ _, h.proper_toNode expansion source, trivial, trivial⟩
    have hpaths : (Node.choice [atom.toNode expansion source, .literal [] ⟨full.stop, full.stop⟩]
        false full).paths = value.once expansion ++ [[]] := by
      simp [h.paths_toNode expansion source]
    exact hpaths ▸ push draft hchoice _

theorem addRepeated (h : atom.HasValue value) (expansion : Bool) (draft : Draft) (q : Quantifier)
    (source : Extent) (stop : Nat) :
    Gains (value.times expansion q) draft
      (draft.addRepeated expansion q atom source stop) := by
  have honce : Gains (value.once expansion) draft (draft.addOnce expansion source atom) :=
    addOnce h expansion draft source
  unfold Draft.addRepeated
  dsimp only
  split
  case h_1 =>
    cases h
    exact pushGap draft _ 1
  case h_2 hgap =>
    have htimes : value.times expansion q = value.repeated expansion q := by
      cases h with
      | gap => exact (hgap rfl).elim
      | _ => rfl
    rw [htimes, Value.repeated]
    by_cases hleast : q.least = 0
    · rw [if_pos hleast, if_pos hleast]
      by_cases hmost : q.most = some 1
      · have hoptional := addOptional h expansion draft source ⟨source.start, stop⟩
        cases hlone : value.isLoneGap expansion <;> simpa [hmost, hlone] using hoptional
      · rw [if_neg hmost, if_neg fun hboth => hmost hboth.1]
        exact pushGap draft _ 1
    · rw [if_neg hleast, if_neg hleast, h.writtenOut? q]
      cases Draft.inlineCount? q atom with
      | some found => exact pushBytes draft _ _
      | none =>
          dsimp only [Option.map_none]
          split
          case isTrue => exact honce
          case isFalse => exact honce.trans (pushGap _ _ 1)

theorem addPlain (h : atom.HasValue value) (expansion : Bool) (draft : Draft)
    (quantity : Option Quantity) (source : Extent) (stop : Nat) :
    Gains (value.occurring expansion quantity) draft
      (draft.addPlain expansion (quantity.map (·.repetition.quantifier)) atom source stop) := by
  cases quantity with
  | none => exact addOnce h expansion draft source
  | some quantity => exact addRepeated h expansion draft quantity.repetition.quantifier source stop

/-- An atom that is added multiplies the paths by those of its value. -/
theorem add (h : atom.HasValue value) (expansion : Bool) (draft : Draft)
    (quantity : Option Quantity) (source : Extent) (stop : Nat) :
    Gains (value.occurring expansion quantity) draft
      (draft.add expansion (quantity.map (·.repetition.quantifier)) atom source stop) := by
  have hplain : Gains (value.occurring expansion quantity) draft
      (draft.addPlain expansion (quantity.map (·.repetition.quantifier)) atom source stop) :=
    addPlain h expansion draft quantity source stop
  cases h <;> exact hplain

end Gains

end LiteralSieve
