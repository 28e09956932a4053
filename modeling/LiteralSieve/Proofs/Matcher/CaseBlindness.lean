import LiteralSieve.Proofs.Automaton.CaseBlindness
import LiteralSieve.Proofs.Matcher.Operations

namespace LiteralSieve

/-!
# Patterns in texts that differ in case

The automata of a matcher fold letters as the matcher was told to when it was new, whatever was done
with it since. So a matcher for which case does not count has the same reports in texts that differ
in case, and lists the same patterns.
-/

namespace Matcher

variable {P : Type} {matcher : Matcher P} {text other : Bytes}

/-- Nothing that is done with a matcher changes whether case counts. -/
theorem caseInsensitive_performed [Verifier P] (config : MatcherConfig)
    (operations : List (Operation P)) :
    (performed config operations).config.caseInsensitive = config.caseInsensitive := by
  induction operations using List.reverseRecOn with
  | nil => rfl
  | append_singleton operations operation ih =>
      have hindexed := indexed_performed config operations
      rw [performed, List.foldl_concat, ← ih]
      cases operation with
      | call call => exact congrArg _ (hindexed.after call).config_eq
      | compileAll => exact congrArg _ hindexed.compileAll.config_eq
      | searchVerified g text mode =>
          exact congrArg _ (hindexed.after (.scan (.findAll g text mode))).config_eq
      | resize groups => rfl
      | clear => rfl
      | shrink => rfl

theorem caseInsensitive_of_group [Verifier P] {config : MatcherConfig}
    (hcase : config.caseInsensitive = true) {operations : List (Operation P)} {g : Nat}
    {automaton : GroupAutomaton} (hgroup : (performed config operations).group g = .ok automaton) :
    automaton.config.caseInsensitive = true := by
  have hbuilt := (indexed_performed config operations).built (getElem?_groups_of_group hgroup)
  rw [hbuilt.stores.config_eq, ← hcase]
  exact caseInsensitive_performed config operations

theorem searchWith_of_sameButCase
    (hcase : ∀ {g automaton}, matcher.group g = .ok automaton →
      automaton.config.caseInsensitive = true)
    (h : SameButCase text other) {σ : Type} (state : ScanState) (g : Nat) (mode : EscapeMode)
    (version : UInt64) (report : PatternMatch P → σ → ForInStep σ) (acc : σ) :
    matcher.searchWith state g text mode version report acc =
      matcher.searchWith state g other mode version report acc := by
  rw [searchWith, searchWith]
  cases hgroup : matcher.group g with
  | error cause => rfl
  | ok automaton =>
      have hevents : events automaton text mode = events automaton other mode := by
        rw [events, events, Automaton.findAll_of_sameButCase (hcase hgroup) h]
      simp only [hevents]

/-- Where case does not count, texts that differ in case have the same hits in every escape mode, a
matcher makes the same reports of them, and lists the same patterns. -/
theorem caseBlind (h : SameButCase text other) (mode : EscapeMode) :
    (∀ {V : Type} (automaton : Automaton V), automaton.config.caseInsensitive = true →
      automaton.findAll text mode = automaton.findAll other mode ∧
      ∀ {σ : Type} (visit : Hit V → σ → ForInStep σ) (acc : σ),
        automaton.search text mode visit acc = automaton.search other mode visit acc) ∧
    ∀ {P : Type} [Verifier P] (config : MatcherConfig) (operations : List (Operation P)) (g : Nat),
      config.caseInsensitive = true →
      let matcher := performed config operations
      (∀ {σ : Type} (version : UInt64) (report : PatternMatch P → σ → ForInStep σ) (acc : σ),
        matcher.search g text mode version report acc =
          matcher.search g other mode version report acc ∧
        ∀ state : ScanState, matcher.searchWith state g text mode version report acc =
          matcher.searchWith state g other mode version report acc) ∧
      matcher.findAll g text mode = matcher.findAll g other mode ∧
      ∀ state : ScanState,
        matcher.findAllWith state g text mode = matcher.findAllWith state g other mode := by
  constructor
  · intro V automaton hcase
    have hfind := Automaton.findAll_of_sameButCase hcase h mode
    exact ⟨hfind, fun visit acc => by rw [Automaton.search, Automaton.search, hfind]⟩
  · intro P _ config operations g hcase matcher
    have hsearch : ∀ {σ : Type} (state : ScanState) (version : UInt64)
        (report : PatternMatch P → σ → ForInStep σ) (acc : σ),
        matcher.searchWith state g text mode version report acc =
          matcher.searchWith state g other mode version report acc :=
      fun state version report acc => searchWith_of_sameButCase (caseInsensitive_of_group hcase) h
        state g mode version report acc
    have hlist : ∀ state : ScanState,
        matcher.findAllWith state g text mode = matcher.findAllWith state g other mode := by
      intro state
      rw [findAllWith, findAllWith]
      simp only [hsearch]
    refine ⟨fun version report acc => ⟨?_, fun state => hsearch state version report acc⟩, ?_, hlist⟩
    · rw [search, search, hsearch]
    · rw [findAll, findAll, hlist]

/-- Both texts have the key in escapes whose digits and sign are in either case, first in front of a
letter, where it is no whole word, and then at the end. -/
theorem caseBlind_key :
    let text := utf8 "a %6bEY%u0041 &kEy"
    let other := utf8 "A %6BeY%U0041 &KeY"
    let automaton : Automaton PatternId :=
      match (Automaton.new .standard).add (utf8 "Key") 7 true with
      | .ok (automaton, _) => automaton.compile.1
      | .error _ => .new .standard
    let config : MatcherConfig := { MatcherConfig.standard with wholeWord := true }
    let matcher : Matcher Needle := performed config
      [.call (.build (.addKeyword 0 (utf8 "Key") ⟨utf8 "Key"⟩)), .compileAll]
    let places (text : Bytes) := (automaton.findAll text .url).map fun hit => (hit.offset, hit.stop)
    SameButCase text other ∧ automaton.config.caseInsensitive = true ∧
      config.caseInsensitive = true ∧ places text = [(15, 18)] ∧ places other = [(15, 18)] ∧
      (matcher.findAll 0 text .url).2 = .ok [0] ∧ (matcher.findAll 0 other .url).2 = .ok [0] := by
  intro text other automaton config matcher places
  have hsame : SameButCase text other := by decide +kernel
  have hcase : automaton.config.caseInsensitive = true := by decide +kernel
  obtain ⟨hautomaton, hmatcher⟩ := caseBlind hsame .url
  obtain ⟨-, hlist, -⟩ := hmatcher (P := Needle) config
    [.call (.build (.addKeyword 0 (utf8 "Key") ⟨utf8 "Key"⟩)), .compileAll] 0 rfl
  have hplaces : places text = [(15, 18)] := by decide +kernel
  have hids : (matcher.findAll 0 text .url).2 = .ok [0] := by decide +kernel
  refine ⟨hsame, hcase, rfl, hplaces, ?_, hids, ?_⟩
  · rw [← hplaces]
    exact congrArg (List.map fun hit : Hit PatternId => (hit.offset, hit.stop))
      (hautomaton automaton hcase).1.symm
  · rw [← hids]
    exact congrArg Prod.snd hlist.symm

end Matcher

end LiteralSieve
