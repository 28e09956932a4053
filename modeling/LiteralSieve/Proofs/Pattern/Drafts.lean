import LiteralSieve.Proofs.Pattern.Hereditary

namespace LiteralSieve

/-!
# Languages of drafts

An atom stands for words, and a draft for those of the sequence that it holds. Adding an atom with a
quantifier appends all words in which the atom occurs as often as the quantifier allows.
-/

open Node

variable {fold : UInt8 → UInt8}

/-! ## Sets -/

/-- The words of one byte that equals a member of the set, if both are folded. -/
def setLanguage (fold : UInt8 → UInt8) (s : ByteSet) : Language UInt8 :=
  {word | ∃ b, s.contains b = true ∧ word ∈ spellings fold [b]}

theorem ByteSet.literal?_eq_some_iff {s : ByteSet} {b : UInt8} :
    s.literal? = some b ↔ s.toList = [b] ∧ Byte.isAscii b = true := by
  rw [literal?, Option.filter_eq_some_iff, single?]
  apply and_congr_left
  intro _
  constructor
  · intro h
    split at h
    case h_1 a hlist => exact hlist.trans (congrArg (fun c => [c]) (Option.some.inj h))
    case h_2 => cases h
  · intro h
    simp [h]

theorem eq_of_literal? {s : ByteSet} {a b : UInt8} (h : s.literal? = some b)
    (ha : s.contains a = true) : a = b := by
  have hlist : s.toList = [b] := (ByteSet.literal?_eq_some_iff.mp h).1
  have hmem : a ∈ s.toList := ByteSet.mem_toList.mpr ha
  rw [hlist] at hmem
  exact List.mem_singleton.mp hmem

theorem setLanguage_le_of_literal? {s : ByteSet} {b : UInt8} (h : s.literal? = some b) :
    setLanguage fold s ≤ spellings fold [b] := by
  rintro word ⟨a, ha, hword⟩
  exact eq_of_literal? h ha ▸ hword

theorem setLanguage_le_node (expansion : Bool) (s : ByteSet) (source : Extent) :
    setLanguage fold s ≤ (s.node expansion source).language fold := by
  rw [ByteSet.node]
  split
  · rw [language_gap]
    exact le_top
  · rintro word ⟨b, hb, hword⟩
    rw [language_choice]
    refine mem_languageOfAny.mpr ⟨.literal [b] source, ?_, ?_⟩
    · exact List.mem_map.mpr ⟨b, ByteSet.mem_toList.mpr hb, rfl⟩
    · rw [language_literal]
      exact hword

/-! ## Atoms -/

namespace Atom

def language (fold : UInt8 → UInt8) : Atom → Language UInt8
  | char c => spellings fold (String.utf8EncodeChar c)
  | set members => setLanguage fold members
  | quoted text => spellings fold (text.flatMap String.utf8EncodeChar)
  | node n => n.language fold
  | gap => ⊤
  | nothing => 1

def Unmarked : Atom → Prop
  | node n => n.Unmarked
  | _ => True

theorem language_le_toNode (expansion : Bool) (source : Extent) (atom : Atom) :
    atom.language fold ≤ (atom.toNode expansion source).language fold := by
  cases atom with
  | char c => rw [toNode, language_literal, language]
  | set members =>
      rw [toNode]
      split
      case h_1 b hliteral =>
        rw [language_literal]
        exact setLanguage_le_of_literal? hliteral
      case h_2 => exact setLanguage_le_node expansion members source
  | quoted text => rw [toNode, language_literal, language]
  | node n => rw [toNode, language]
  | gap => rw [toNode, language_gap, language]
  | nothing => rw [toNode, language_literal, language, spellings_nil]

theorem Unmarked.has {atom : Atom} (h : atom.Unmarked) : atom.Has Node.Unmarked := by
  cases atom <;> exact h

end Atom

/-! ## Drafts -/

namespace Draft

variable {expansion : Bool} {draft : Draft}

def language (fold : UInt8 → UInt8) (draft : Draft) : Language UInt8 :=
  languageOfAll fold draft.flush.nodes

def Unmarked (draft : Draft) : Prop := AllUnmarked draft.nodes

@[simp] theorem language_start (made : Nat) : (start made).language fold = 1 := by
  rw [language, start, flush, languageOfAll_nil]

theorem unmarked_iff : draft.Unmarked ↔ draft.Has Node.Unmarked := allUnmarked_iff

theorem unmarked_start (made : Nat) : (start made).Unmarked := trivial

theorem language_pushBytes (draft : Draft) (bytes : Bytes) (source : Extent) :
    (draft.pushBytes bytes source).language fold =
      draft.language fold * spellings fold bytes := by
  rw [language, language, pushBytes, flush, flush]
  cases draft.run with
  | none => simp [languageOfAll_append]
  | some run => simp [languageOfAll_append, spellings_append, mul_assoc]

theorem unmarked_flush (h : draft.Unmarked) : draft.flush.Unmarked :=
  unmarked_iff.mpr ((unmarked_iff.mp h).flush hereditary_unmarked 0)

theorem flush_push (draft : Draft) (node : Node) (made : Nat) :
    (draft.push node made).flush = draft.push node made := by
  have hrun : draft.flush.run = none := by
    rw [flush]
    split
    case h_1 hnone => exact hnone
    case h_2 => rfl
  rw [flush, push, hrun]

theorem language_push (draft : Draft) (node : Node) (made : Nat) :
    (draft.push node made).language fold = draft.language fold * node.language fold := by
  rw [language, language, flush_push, push]
  simp [languageOfAll_append]

theorem language_push_gap (draft : Draft) (source : Extent) (made : Nat) :
    (draft.push (.gap source) made).language fold = draft.language fold * ⊤ := by
  rw [language_push, language_gap]

/-! ## Adding atoms -/

theorem language_le_addOnce (draft : Draft) (source : Extent) (atom : Atom) :
    draft.language fold * atom.language fold ≤
      (draft.addOnce expansion source atom).language fold := by
  cases atom with
  | char c => rw [addOnce, language_pushBytes, Atom.language]
  | set members =>
      rw [addOnce]
      split
      case h_1 b hliteral =>
        rw [language_pushBytes]
        exact mul_le_mul' le_rfl (setLanguage_le_of_literal? hliteral)
      case h_2 =>
        rw [language_push]
        exact mul_le_mul' le_rfl (setLanguage_le_node expansion members source)
  | quoted text => rw [addOnce, language_pushBytes, Atom.language]
  | node n => rw [addOnce, language_push, Atom.language]
  | gap => rw [addOnce, language_push_gap, Atom.language]
  | nothing => rw [addOnce, Atom.language, mul_one]

theorem unmarked_addOnce (h : draft.Unmarked) (source : Extent) {atom : Atom}
    (hatom : atom.Unmarked) : (draft.addOnce expansion source atom).Unmarked :=
  unmarked_iff.mpr ((unmarked_iff.mp h).addOnce hereditary_unmarked 0 source hatom.has)

theorem language_le_addOptional (draft : Draft) (atom : Atom) (source full : Extent) :
    draft.language fold * (atom.language fold + 1) ≤
      (draft.addOptional expansion atom source full).language fold := by
  rw [addOptional]
  dsimp only
  split
  · rw [language_push_gap]
    exact mul_le_mul' le_rfl le_top
  · rw [language_push, language_choice]
    simp only [languageOfAny_cons, languageOfAny_nil, language_literal, spellings_nil, add_zero]
    exact mul_le_mul' le_rfl (add_le_add (atom.language_le_toNode expansion source) le_rfl)

end Draft

/-! ## Quantifiers -/

namespace Quantifier

/-- What is quantified may occur this many times. -/
def Allows (q : Quantifier) (k : Nat) : Prop := q.least ≤ k ∧ ∀ most ∈ q.most, k ≤ most

/-- The words of a language in a row, as often as the quantifier allows. -/
def words (q : Quantifier) (l : Language UInt8) : Language UInt8 :=
  {word | ∃ k, q.Allows k ∧ word ∈ l ^ k}

variable {q : Quantifier} {l m : Language UInt8}

theorem words_le (h : ∀ k, q.Allows k → l ^ k ≤ m) : q.words l ≤ m :=
  fun _ ⟨k, hk, hword⟩ => h k hk hword

theorem words_le_add_one (h : q.most = some 1) : q.words l ≤ l + 1 := by
  refine words_le fun k hk => ?_
  rcases Nat.le_one_iff_eq_zero_or_eq_one.mp (hk.2 1 h) with rfl | rfl
  · rw [pow_zero]
    exact le_add_of_nonneg_left bot_le
  · rw [pow_one]
    exact le_add_of_nonneg_right bot_le

theorem words_le_pow {n : Nat} (hleast : q.least = n) (hmost : q.most = some n) :
    q.words l ≤ l ^ n := by
  refine words_le fun k hk => ?_
  obtain rfl : k = n := le_antisymm (hk.2 n hmost) (hleast ▸ hk.1)
  exact le_rfl

/-- Where at least one occurrence is required, a gap after the first stands for all others. -/
theorem words_le_mul_top (h : q.least ≠ 0) : q.words l ≤ l * ⊤ := by
  refine words_le fun k hk => ?_
  have hpos : q.least ≤ k := hk.1
  obtain ⟨n, rfl⟩ := Nat.exists_eq_succ_of_ne_zero (show k ≠ 0 by omega)
  rw [pow_succ']
  exact mul_le_mul' le_rfl le_top

end Quantifier

theorem spellings_pow (bytes : Bytes) (n : Nat) :
    spellings fold bytes ^ n = spellings fold (List.replicate n bytes).flatten := by
  induction n with
  | zero => simp
  | succ n ih => rw [pow_succ', ih, List.replicate_succ, List.flatten_cons, spellings_append]

namespace Draft

variable {expansion : Bool} {draft : Draft} {q : Quantifier}

theorem inlineCount?_eq_some {atom : Atom} {c : Char} {n : Nat}
    (h : inlineCount? q atom = some (c, n)) :
    atom = .char c ∧ q.least = n ∧ q.most = some n := by
  cases atom with
  | char d =>
      rw [inlineCount?] at h
      split at h
      case isTrue hexact =>
        obtain ⟨rfl, rfl⟩ := Prod.mk.inj (Option.some.inj h)
        exact ⟨rfl, rfl, hexact.1⟩
      case isFalse => cases h
  | _ => cases h

theorem language_le_addRepeated (draft : Draft) (q : Quantifier) (atom : Atom) (source : Extent)
    (stop : Nat) : draft.language fold * q.words (atom.language fold) ≤
      (draft.addRepeated expansion q atom source stop).language fold := by
  have honce : draft.language fold * atom.language fold ≤
      (draft.addOnce expansion source atom).language fold :=
    language_le_addOnce draft source atom
  unfold addRepeated
  dsimp only
  -- Whatever becomes a gap has every word, so only the atoms that are kept need an argument.
  split
  · rw [language_push_gap]
    exact mul_le_mul' le_rfl le_top
  · split
    case isTrue hleast =>
      split
      case isTrue hmost =>
        exact (mul_le_mul' le_rfl (Quantifier.words_le_add_one hmost)).trans
          (language_le_addOptional draft atom source _)
      case isFalse =>
        rw [language_push_gap]
        exact mul_le_mul' le_rfl le_top
    case isFalse hleast =>
      split
      case h_1 c n hinline =>
        obtain ⟨rfl, hleast, hmost⟩ := inlineCount?_eq_some hinline
        rw [language_pushBytes, ← spellings_pow]
        exact mul_le_mul' le_rfl (Quantifier.words_le_pow hleast hmost)
      case h_2 =>
        split
        case isTrue hq =>
          have hwords := Quantifier.words_le_pow (l := atom.language fold)
            (congrArg Quantifier.least hq) (congrArg Quantifier.most hq)
          rw [pow_one] at hwords
          exact (mul_le_mul' le_rfl hwords).trans honce
        case isFalse =>
          rw [language_push_gap]
          refine le_trans ?_ (mul_le_mul' honce le_rfl)
          rw [mul_assoc]
          exact mul_le_mul' le_rfl (Quantifier.words_le_mul_top hleast)

theorem unmarked_addRepeated (h : draft.Unmarked) (q : Quantifier) {atom : Atom}
    (hatom : atom.Unmarked) (source : Extent) (stop : Nat) :
    (draft.addRepeated expansion q atom source stop).Unmarked :=
  unmarked_iff.mpr ((unmarked_iff.mp h).addRepeated hereditary_unmarked 0 q hatom.has source stop)

end Draft

end LiteralSieve
