import LiteralSieve.Proofs.Pattern.Branches
import LiteralSieve.Proofs.Pattern.Marks
import LiteralSieve.Proofs.Pattern.Paths

namespace LiteralSieve

/-!
# Scattered keywords

The keywords of a branch stand in each of its words one after another, with anything around them.
So does a marked literal in the words of a node of which every branch meets one.
-/

open Node

variable {fold : UInt8 → UInt8}

/-- The words that hold the keywords in this order, none overlapping another. -/
def scattered (fold : UInt8 → UInt8) : List Bytes → Language UInt8
  | [] => ⊤
  | keyword :: keywords => ⊤ * (spellings fold keyword * scattered fold keywords)

theorem mem_top (word : Bytes) : word ∈ (⊤ : Language UInt8) := trivial

theorem mem_scattered_cons {word keyword : Bytes} {keywords : List Bytes} :
    word ∈ scattered fold (keyword :: keywords) ↔
      ∃ before spelling after, before ++ (spelling ++ after) = word ∧
        spelling.map fold = keyword.map fold ∧ after ∈ scattered fold keywords := by
  rw [scattered, Language.mem_mul]
  constructor
  · rintro ⟨before, -, rest, hrest, rfl⟩
    obtain ⟨spelling, hspelling, after, hafter, rfl⟩ := Language.mem_mul.mp hrest
    exact ⟨before, spelling, after, rfl, hspelling, hafter⟩
  · rintro ⟨before, spelling, after, rfl, hspelling, hafter⟩
    exact ⟨before, mem_top _, _, Language.append_mem_mul hspelling hafter, rfl⟩

theorem le_top_mul (l : Language UInt8) : l ≤ ⊤ * l :=
  (one_mul l).symm.trans_le (mul_le_mul' le_top le_rfl)

theorem top_mul_scattered_le (keywords : List Bytes) :
    ⊤ * scattered fold keywords ≤ scattered fold keywords := by
  cases keywords with
  | nil => exact le_top
  | cons keyword keywords =>
      rw [scattered, ← mul_assoc]
      exact mul_le_mul' le_top le_rfl

theorem scattered_mul_top_le (keywords : List Bytes) :
    scattered fold keywords * ⊤ ≤ scattered fold keywords := by
  induction keywords with
  | nil => exact le_top
  | cons keyword keywords ih =>
      rw [scattered, mul_assoc, mul_assoc]
      exact mul_le_mul' le_rfl (mul_le_mul' le_rfl ih)

/-- What surrounds a word does not matter. -/
theorem mem_scattered_around {word text : Bytes} {keywords : List Bytes}
    (h : word ∈ scattered fold keywords) (hwithin : word <:+: text) :
    text ∈ scattered fold keywords := by
  obtain ⟨before, after, rfl⟩ := hwithin
  rw [List.append_assoc]
  exact top_mul_scattered_le keywords (Language.append_mem_mul (mem_top before)
    (scattered_mul_top_le keywords (Language.append_mem_mul h (mem_top after))))

/-! ## Branches -/

theorem spellings_mul_scattered_le (minLength : Nat) (run : Bytes) (keywords : List Bytes) :
    spellings fold run * scattered fold keywords ≤
      scattered fold (finishedRun minLength run ++ keywords) := by
  rw [finishedRun]
  split
  · exact le_top_mul _
  · exact (mul_le_mul' le_top le_rfl).trans (top_mul_scattered_le keywords)

theorem spellings_mul_languageOfAll_le (minLength : Nat) (run : Bytes) (branch : Branch) :
    spellings fold run * languageOfAll fold branch ≤
      scattered fold (keywordsFrom minLength run branch) := by
  fun_induction keywordsFrom minLength run branch with
  | case1 run =>
      calc spellings fold run * languageOfAll fold []
          ≤ spellings fold run * scattered fold [] := mul_le_mul' le_rfl le_top
        _ ≤ scattered fold (finishedRun minLength run ++ []) :=
            spellings_mul_scattered_le minLength run []
        _ = scattered fold (finishedRun minLength run) := by rw [List.append_nil]
  | case2 run bytes source nodes ih =>
      rw [languageOfAll_cons, language_literal, ← mul_assoc, ← spellings_append]
      exact ih
  | case3 run node nodes hnode ih =>
      rw [spellings_nil, one_mul] at ih
      have htail : languageOfAll fold (node :: nodes) ≤
          scattered fold (keywordsFrom minLength [] nodes) := by
        rw [languageOfAll_cons]
        exact (mul_le_mul' le_top ih).trans (top_mul_scattered_le _)
      exact (mul_le_mul' le_rfl htail).trans (spellings_mul_scattered_le minLength run _)

/-- A word of a branch holds its keywords. -/
theorem languageOfAll_le_keywords (minLength : Nat) (branch : Branch) :
    languageOfAll fold branch ≤ scattered fold (branch.keywords minLength) := by
  calc languageOfAll fold branch
      = spellings fold [] * languageOfAll fold branch := by rw [spellings_nil, one_mul]
    _ ≤ scattered fold (branch.keywords minLength) := spellings_mul_languageOfAll_le minLength [] branch

theorem le_length_of_mem_keywords {minLength : Nat} {keyword : Bytes} {branch : Branch}
    (h : keyword ∈ branch.keywords minLength) : minLength ≤ keyword.length := by
  rw [Branch.keywords_eq] at h
  exact of_decide_eq_true (List.mem_filter.mp h).2

/-! ## Covered nodes -/

/-- The words that hold one of these keywords that is long enough. -/
def holdsOneOf (fold : UInt8 → UInt8) (minLength : Nat) (keywords : List Bytes) :
    Language UInt8 :=
  {word | ∃ keyword ∈ keywords, minLength ≤ keyword.length ∧ word ∈ scattered fold [keyword]}

section HoldsOneOf

variable {minLength : Nat} {keywords more : List Bytes}

theorem holdsOneOf_mono (h : ∀ keyword ∈ keywords, keyword ∈ more) :
    holdsOneOf fold minLength keywords ≤ holdsOneOf fold minLength more :=
  fun _ ⟨keyword, hmem, hlength, hword⟩ => ⟨keyword, h keyword hmem, hlength, hword⟩

theorem top_mul_holdsOneOf_le :
    ⊤ * holdsOneOf fold minLength keywords ≤ holdsOneOf fold minLength keywords := by
  rintro word hword
  obtain ⟨before, hbefore, rest, ⟨keyword, hmem, hlength, hrest⟩, rfl⟩ := Language.mem_mul.mp hword
  exact ⟨keyword, hmem, hlength,
    top_mul_scattered_le _ (Language.append_mem_mul hbefore hrest)⟩

theorem holdsOneOf_mul_top_le :
    holdsOneOf fold minLength keywords * ⊤ ≤ holdsOneOf fold minLength keywords := by
  rintro word hword
  obtain ⟨rest, ⟨keyword, hmem, hlength, hrest⟩, after, hafter, rfl⟩ := Language.mem_mul.mp hword
  exact ⟨keyword, hmem, hlength,
    scattered_mul_top_le _ (Language.append_mem_mul hrest hafter)⟩

end HoldsOneOf

namespace Node

variable {minLength : Nat}

mutual

/-- Where every branch meets a long literal, every word holds one that is under no mark. -/
theorem language_le_holdsOneOf (hpos : 0 < minLength) {node : Node} (hmarks : node.MarkedRight)
    (h : node.covers minLength = true) :
    node.language fold ≤ holdsOneOf fold minLength node.markedLiterals := by
  have hhollow := isHollow_of_covers h
  cases node with
  | literal bytes source =>
      rw [covers, decide_eq_true_eq] at h
      have hne : bytes.isEmpty = false := by
        cases bytes with
        | nil => exact absurd (hpos.trans_le h) (lt_irrefl 0)
        | cons b bytes => rfl
      rw [markedLiterals, hne, language_literal]
      intro word hword
      refine ⟨bytes, List.mem_singleton_self _, h, ?_⟩
      exact mem_scattered_cons.mpr ⟨[], word, [], by simp, hword, mem_top []⟩
  | gap source => rw [covers] at h; cases h
  | sequence children hollow source =>
      have hmark : hollow = false := by
        cases hollow with
        | false => rfl
        | true => rw [hmarks.1 rfl] at hhollow; cases hhollow
      rw [covers] at h
      rw [markedLiterals, hmark, language_sequence]
      exact languageOfAll_le_holdsOneOf hpos hmarks.2 h
  | choice children disabled source =>
      have hmark : disabled = false := by
        cases disabled with
        | false => rfl
        | true => rw [hmarks.1 rfl] at hhollow; cases hhollow
      rw [covers] at h
      rw [markedLiterals, hmark, language_choice]
      exact languageOfAny_le_holdsOneOf hpos hmarks.2 h

theorem languageOfAll_le_holdsOneOf (hpos : 0 < minLength) {nodes : List Node}
    (hmarks : AllMarkedRight nodes) (h : anyCovers minLength nodes = true) :
    languageOfAll fold nodes ≤ holdsOneOf fold minLength (markedLiteralsOf nodes) := by
  cases nodes with
  | nil => rw [anyCovers] at h; cases h
  | cons node nodes =>
      rw [anyCovers] at h
      rw [languageOfAll_cons, markedLiteralsOf]
      rcases Bool.or_eq_true_iff.mp h with hnode | hnodes
      · calc node.language fold * languageOfAll fold nodes
            ≤ holdsOneOf fold minLength node.markedLiterals * ⊤ :=
              mul_le_mul' (language_le_holdsOneOf hpos hmarks.1 hnode) le_top
          _ ≤ holdsOneOf fold minLength node.markedLiterals := holdsOneOf_mul_top_le
          _ ≤ _ := holdsOneOf_mono fun _ hmem => List.mem_append_left _ hmem
      · calc node.language fold * languageOfAll fold nodes
            ≤ ⊤ * holdsOneOf fold minLength (markedLiteralsOf nodes) :=
              mul_le_mul' le_top (languageOfAll_le_holdsOneOf hpos hmarks.2 hnodes)
          _ ≤ holdsOneOf fold minLength (markedLiteralsOf nodes) := top_mul_holdsOneOf_le
          _ ≤ _ := holdsOneOf_mono fun _ hmem => List.mem_append_right _ hmem

theorem languageOfAny_le_holdsOneOf (hpos : 0 < minLength) {nodes : List Node}
    (hmarks : AllMarkedRight nodes) (h : allCover minLength nodes = true) :
    languageOfAny fold nodes ≤ holdsOneOf fold minLength (markedLiteralsOf nodes) := by
  cases nodes with
  | nil => rw [languageOfAny_nil]; exact bot_le
  | cons node nodes =>
      rw [allCover] at h
      obtain ⟨hnode, hnodes⟩ := Bool.and_eq_true_iff.mp h
      rw [languageOfAny_cons, markedLiteralsOf]
      rintro word (hword | hword)
      · exact holdsOneOf_mono (fun _ hmem => List.mem_append_left _ hmem)
          (language_le_holdsOneOf hpos hmarks.1 hnode hword)
      · exact holdsOneOf_mono (fun _ hmem => List.mem_append_right _ hmem)
          (languageOfAny_le_holdsOneOf hpos hmarks.2 hnodes hword)

end

end Node

end LiteralSieve
