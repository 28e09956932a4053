import LiteralSieve.Pattern.Simplify
import Mathlib.Computability.Language
import Mathlib.Order.CompletePartialOrder

namespace LiteralSieve

/-!
# Languages of nodes

A node stands for the words that it lets through: the spellings of a literal, any word at all for a
gap. Letters are compared by their folds. Simplifying a tree loses no word.
-/

variable {fold : UInt8 → UInt8}

/-- The words that equal the bytes if both are folded. -/
def spellings (fold : UInt8 → UInt8) (bytes : Bytes) : Language UInt8 :=
  {word | word.map fold = bytes.map fold}

theorem mem_spellings {word bytes : Bytes} :
    word ∈ spellings fold bytes ↔ word.map fold = bytes.map fold := Iff.rfl

theorem self_mem_spellings (bytes : Bytes) : bytes ∈ spellings fold bytes := rfl

@[simp] theorem spellings_nil : spellings fold [] = 1 := by
  ext word
  simp [mem_spellings]

theorem spellings_append (xs ys : Bytes) :
    spellings fold (xs ++ ys) = spellings fold xs * spellings fold ys := by
  ext word
  rw [Language.mem_mul, mem_spellings, List.map_append]
  constructor
  · intro h
    obtain ⟨first, last, rfl, hfirst, hlast⟩ := List.map_eq_append_iff.mp h
    exact ⟨first, hfirst, last, hlast, rfl⟩
  · rintro ⟨first, hfirst, last, hlast, rfl⟩
    rw [List.map_append, mem_spellings.mp hfirst, mem_spellings.mp hlast]

/-- Letters are compared without case, if it does not count. -/
def IgnoresCase (caseInsensitive : Bool) (fold : UInt8 → UInt8) : Prop :=
  caseInsensitive = true → ∀ b, fold (Byte.toLower b) = fold b

namespace Node

mutual

/-- The words that a node lets through. -/
def language (fold : UInt8 → UInt8) : Node → Language UInt8
  | literal bytes _ => spellings fold bytes
  | gap _ => ⊤
  | sequence children _ _ => languageOfAll fold children
  | choice children _ _ => languageOfAny fold children

/-- The words of the nodes one after another. -/
def languageOfAll (fold : UInt8 → UInt8) : List Node → Language UInt8
  | [] => 1
  | node :: nodes => node.language fold * languageOfAll fold nodes

/-- The words of any of the nodes. -/
def languageOfAny (fold : UInt8 → UInt8) : List Node → Language UInt8
  | [] => 0
  | node :: nodes => node.language fold + languageOfAny fold nodes

end

@[simp] theorem language_literal (bytes : Bytes) (source : Extent) :
    (literal bytes source).language fold = spellings fold bytes := by rw [language]

@[simp] theorem language_gap (source : Extent) : (gap source).language fold = ⊤ := by rw [language]

@[simp] theorem language_sequence (children : List Node) (hollow : Bool) (source : Extent) :
    (sequence children hollow source).language fold = languageOfAll fold children := by
  rw [language]

@[simp] theorem language_choice (children : List Node) (disabled : Bool) (source : Extent) :
    (choice children disabled source).language fold = languageOfAny fold children := by
  rw [language]

@[simp] theorem languageOfAll_nil : languageOfAll fold [] = 1 := by rw [languageOfAll]

@[simp] theorem languageOfAll_cons (node : Node) (nodes : List Node) :
    languageOfAll fold (node :: nodes) = node.language fold * languageOfAll fold nodes := by
  rw [languageOfAll]

@[simp] theorem languageOfAny_nil : languageOfAny fold [] = 0 := by rw [languageOfAny]

@[simp] theorem languageOfAny_cons (node : Node) (nodes : List Node) :
    languageOfAny fold (node :: nodes) = node.language fold + languageOfAny fold nodes := by
  rw [languageOfAny]

theorem languageOfAll_append (xs ys : List Node) :
    languageOfAll fold (xs ++ ys) = languageOfAll fold xs * languageOfAll fold ys := by
  induction xs with
  | nil => simp
  | cons node nodes ih => simp [ih, mul_assoc]

theorem languageOfAny_append (xs ys : List Node) :
    languageOfAny fold (xs ++ ys) = languageOfAny fold xs + languageOfAny fold ys := by
  induction xs with
  | nil => simp
  | cons node nodes ih => simp [ih, add_assoc]

theorem mem_languageOfAny {word : Bytes} {nodes : List Node} :
    word ∈ languageOfAny fold nodes ↔ ∃ node ∈ nodes, word ∈ node.language fold := by
  induction nodes with
  | nil => simp
  | cons node nodes ih => simp [Language.mem_add, ih]

/-! ## Flattening -/

theorem languageOfAll_sequenceItems (node : Node) :
    languageOfAll fold node.sequenceItems = node.language fold := by
  cases node <;> simp [sequenceItems]

theorem languageOfAny_choiceItems (node : Node) :
    languageOfAny fold node.choiceItems = node.language fold := by
  cases node with
  | choice children disabled source => cases disabled <;> simp [choiceItems]
  | _ => simp [choiceItems]

theorem language_ofSequence (hollow : Bool) (source : Extent) (nodes : List Node) :
    (ofSequence hollow source nodes).language fold = languageOfAll fold nodes := by
  match nodes with
  | [] => simp [ofSequence]
  | [node] => simp [ofSequence]
  | first :: second :: nodes => simp [ofSequence]

/-- Only the choice of nothing gains a word. -/
theorem languageOfAny_le_ofChoice (disabled : Bool) (source : Extent) (nodes : List Node) :
    languageOfAny fold nodes ≤ (ofChoice disabled source nodes).language fold := by
  match nodes with
  | [] => simp [ofChoice]
  | [node] => simp [ofChoice]
  | first :: second :: nodes => simp [ofChoice]

mutual

theorem language_le_adjust (node : Node) : node.language fold ≤ node.adjust.language fold := by
  cases node with
  | literal bytes source => rw [adjust]
  | gap source => rw [adjust]
  | sequence children hollow source =>
      rw [adjust, language_ofSequence, language_sequence]
      exact languageOfAll_le_adjust children
  | choice children disabled source =>
      rw [adjust, language_choice]
      exact (languageOfAny_le_adjust children).trans (languageOfAny_le_ofChoice _ _ _)

theorem languageOfAll_le_adjust (nodes : List Node) :
    languageOfAll fold nodes ≤ languageOfAll fold (adjustSequence nodes) := by
  cases nodes with
  | nil => rw [adjustSequence]
  | cons node nodes =>
      rw [adjustSequence, languageOfAll_append, languageOfAll_sequenceItems, languageOfAll_cons]
      exact mul_le_mul' (language_le_adjust node) (languageOfAll_le_adjust nodes)

theorem languageOfAny_le_adjust (nodes : List Node) :
    languageOfAny fold nodes ≤ languageOfAny fold (adjustChoice nodes) := by
  cases nodes with
  | nil => rw [adjustChoice]
  | cons node nodes =>
      rw [adjustChoice, languageOfAny_append, languageOfAny_choiceItems, languageOfAny_cons]
      exact add_le_add (language_le_adjust node) (languageOfAny_le_adjust nodes)

end

/-! ## Marking -/

mutual

theorem language_mark (node : Node) : node.mark.language fold = node.language fold := by
  cases node with
  | literal bytes source => rw [mark]
  | gap source => rw [mark]
  | sequence children hollow source =>
      rw [mark, language_sequence, language_sequence, languageOfAll_markAll]
  | choice children disabled source =>
      rw [mark, language_choice, language_choice, languageOfAny_markAll]

theorem languageOfAll_markAll (nodes : List Node) :
    languageOfAll fold (markAll nodes) = languageOfAll fold nodes := by
  cases nodes with
  | nil => rw [markAll]
  | cons node nodes =>
      rw [markAll, languageOfAll_cons, languageOfAll_cons, language_mark, languageOfAll_markAll]

theorem languageOfAny_markAll (nodes : List Node) :
    languageOfAny fold (markAll nodes) = languageOfAny fold nodes := by
  cases nodes with
  | nil => rw [markAll]
  | cons node nodes =>
      rw [markAll, languageOfAny_cons, languageOfAny_cons, language_mark, languageOfAny_markAll]

end

/-! ## Joining literals -/

/-- The spellings of a run that is growing, if there is one. -/
def runLanguage (fold : UInt8 → UInt8) : Option Run → Language UInt8
  | none => 1
  | some run => spellings fold run.bytes

theorem languageOfAll_joinLiterals (run : Option Run) (nodes : List Node) :
    languageOfAll fold (joinLiterals run nodes) =
      runLanguage fold run * languageOfAll fold nodes := by
  fun_induction joinLiterals run nodes with
  | case1 => simp [runLanguage]
  | case2 run => simp [runLanguage]
  | case3 bytes source nodes ih => simp [ih, runLanguage]
  | case4 run bytes source nodes ih =>
      simp [ih, runLanguage, spellings_append, mul_assoc]
  | case5 node nodes hnode ih => simp [ih, runLanguage]
  | case6 run node nodes hnode ih => simp [ih, runLanguage]

theorem language_ofMerged (hollow : Bool) (source : Extent) (nodes : List Node) :
    (ofMerged hollow source nodes).language fold = languageOfAll fold nodes := by
  match nodes with
  | [] => simp [ofMerged]
  | [node] => simp [ofMerged]
  | first :: second :: nodes => simp [ofMerged]

mutual

theorem language_mergeLiterals (node : Node) :
    node.mergeLiterals.language fold = node.language fold := by
  cases node with
  | literal bytes source => rw [mergeLiterals]
  | gap source => rw [mergeLiterals]
  | sequence children hollow source =>
      rw [mergeLiterals, language_ofMerged, languageOfAll_joinLiterals, language_sequence,
        languageOfAll_mergeAll, runLanguage, one_mul]
  | choice children disabled source =>
      rw [mergeLiterals, language_choice, language_choice, languageOfAny_mergeAll]

theorem languageOfAll_mergeAll (nodes : List Node) :
    languageOfAll fold (mergeAll nodes) = languageOfAll fold nodes := by
  cases nodes with
  | nil => rw [mergeAll]
  | cons node nodes =>
      rw [mergeAll, languageOfAll_cons, languageOfAll_cons, language_mergeLiterals,
        languageOfAll_mergeAll]

theorem languageOfAny_mergeAll (nodes : List Node) :
    languageOfAny fold (mergeAll nodes) = languageOfAny fold nodes := by
  cases nodes with
  | nil => rw [mergeAll]
  | cons node nodes =>
      rw [mergeAll, languageOfAny_cons, languageOfAny_cons, language_mergeLiterals,
        languageOfAny_mergeAll]

end

/-- Simplifying a tree loses no word. -/
theorem language_le_simplified (node : Node) :
    node.language fold ≤ node.adjust.mark.mergeLiterals.language fold := by
  rw [language_mergeLiterals, language_mark]
  exact language_le_adjust node

end Node

end LiteralSieve
