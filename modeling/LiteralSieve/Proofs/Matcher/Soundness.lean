import LiteralSieve.Proofs.Coverage
import LiteralSieve.Proofs.Matcher.Sessions
import LiteralSieve.Proofs.Pattern.Reading

namespace LiteralSieve

/-!
# No match is missed

A text in which an expression matches holds the keywords of one of its branches, one after another.
So a scan shows them in that order, and the pattern of the expression is found.
-/

open Grammar

/-- Keywords that a word holds end one after another in every text around it. -/
theorem exists_chain_of_scattered {config : AutomatonConfig} (before : Bytes) {after : Bytes}
    {keywords : List Bytes} (hne : ∀ keyword ∈ keywords, keyword ≠ [])
    (h : after ∈ scattered config.fold keywords) :
    ∃ ends, Chain config (before ++ after) keywords ends ∧ ∀ e ∈ ends, before.length < e := by
  -- All ends come after `before`, so that the next keyword ends later than the one before it.
  induction keywords generalizing before after with
  | nil => exact ⟨[], ⟨.nil, .nil⟩, by simp⟩
  | cons keyword keywords ih =>
      obtain ⟨gap, spelling, rest, rfl, hspelling, hrest⟩ := mem_scattered_cons.mp h
      obtain ⟨hkeyword, hkeywords⟩ := List.forall_mem_cons.mp hne
      have htext : before ++ (gap ++ (spelling ++ rest)) = (before ++ gap ++ spelling) ++ rest := by
        simp
      obtain ⟨ends, hchain, hends⟩ := ih (before ++ gap ++ spelling) hkeywords hrest
      rw [htext]
      have hpos : 0 < spelling.length := by
        have hlength := congrArg List.length hspelling
        simp only [List.length_map] at hlength
        exact hlength ▸ List.length_pos_iff.mpr hkeyword
      have hoccurs : OccursAt config ((before ++ gap ++ spelling) ++ rest) keyword
          (before ++ gap ++ spelling).length := by
        refine ⟨by simp, ?_⟩
        rw [List.take_left, List.map_append, ← hspelling]
        exact List.suffix_append _ _
      refine ⟨(before ++ gap ++ spelling).length :: ends, ⟨.cons hoccurs hchain.occurs, ?_⟩, ?_⟩
      · rw [List.zip_cons_cons, List.isChain_cons]
        refine ⟨fun next hnext => Or.inl ?_, hchain.follows⟩
        exact hends next.2 (List.of_mem_zip (List.mem_of_mem_head? hnext)).2
      · intro e he
        rcases List.mem_cons.mp he with rfl | he
        · simp only [List.length_append]
          omega
        · have hlt := hends e he
          simp only [List.length_append] at hlt
          omega

theorem ignoresCase_fold (config : AutomatonConfig) :
    IgnoresCase config.caseInsensitive config.fold := by
  intro hcase b
  rw [AutomatonConfig.fold, AutomatonConfig.fold, hcase, if_pos rfl, if_pos rfl,
    Byte.toUpper_toLower]

namespace Matcher

variable {P : Type}

theorem chained_of_match (config : MatcherConfig) (regex : Regex) {found : Decomposition}
    (hfound : decomposition config.decomposeOptions regex.pattern = .ok found)
    {word letters : Bytes} (hword : word ∈ regex.language config.caseInsensitive false)
    (hwithin : word <:+: letters) :
    ∃ branch ∈ found.branches, Chained config.automatonConfig letters branch := by
  have hfold : IgnoresCase config.caseInsensitive config.automatonConfig.fold :=
    ignoresCase_fold config.automatonConfig
  have hholds : Holds config.automatonConfig.fold found.branches word :=
    holds_of_decomposition hfold hfound fun expansion root hparse => by
      obtain ⟨hunmarked, hle⟩ := parse_pattern hfold rfl regex hparse
      exact ⟨hunmarked, hle hword⟩
  obtain ⟨branch, hbranch, hne, hin⟩ := hholds
  obtain ⟨ends, hchain, -⟩ :=
    exists_chain_of_scattered [] hne (mem_scattered_around hin hwithin)
  exact ⟨branch, hbranch, ends, hchain⟩

/-- The expression `ab(?i:c|d)?`. -/
def optionalTail : Regex :=
  .single (.cons (.char 'a') none (.cons (.char 'b') none (.cons
    (.group .caseless (.alternative (.cons (.char 'c') none .empty)
      (.single (.cons (.char 'd') none .empty)))) (some .optional) .empty)))

end Matcher

end LiteralSieve
