import LiteralSieve.Proofs.Decompositions
import LiteralSieve.Proofs.Matcher.Operations

namespace LiteralSieve.Matcher

/-!
# Refused additions

The entry, the pieces and the frames of a pattern are stored before its literals become keys, but
every literal was looked at before that, with the bounds and the folds of the automaton that it goes
to. So no key is refused any more once something is stored, and an addition that is refused leaves
the whole matcher as it was. A matcher is then what its other operations alone make of it.
-/

variable {P : Type} {matcher : Matcher P} {config : MatcherConfig} {entries : List Accepted}

theorem Indexed.addPattern_of_error (h : matcher.Indexed config entries) {g : Nat}
    {pattern : String} {payload : P} {cause : MatchError}
    (hrefused : (matcher.addPattern g pattern payload).2 = .error cause) :
    (matcher.addPattern g pattern payload).1 = matcher := by
  rcases h.addPattern g pattern payload with ⟨found, -, hid, -⟩ | ⟨other, heq⟩
  · rw [hid] at hrefused
    cases hrefused
  · rw [heq]

theorem Indexed.addKeyword_of_error (h : matcher.Indexed config entries) {g : Nat}
    {keyword : Bytes} {payload : P} {cause : MatchError}
    (hrefused : (matcher.addKeyword g keyword payload).2 = .error cause) :
    (matcher.addKeyword g keyword payload).1 = matcher := by
  rcases h.addKeyword g keyword payload with ⟨hid, -⟩ | ⟨other, heq⟩
  · rw [hid] at hrefused
    cases hrefused
  · rw [heq]

/-! ## Runs without refused additions -/

/-- The operation is an addition, and the matcher answers with an error. -/
def refuses (matcher : Matcher P) : Operation P → Bool
  | .call (.build (.addPattern g pattern payload)) =>
    !(matcher.addPattern g pattern payload).2.isOk
  | .call (.build (.addKeyword g keyword payload)) =>
    !(matcher.addKeyword g keyword payload).2.isOk
  | _ => false

/-- The operations but for the additions that are refused when it is their turn. -/
def withoutRefused [Verifier P] (matcher : Matcher P) : List (Operation P) → List (Operation P)
  | [] => []
  | operation :: operations =>
    let rest := withoutRefused (matcher.perform operation) operations
    if matcher.refuses operation then rest else operation :: rest

theorem exists_error_of_isOk_eq_false {ε α : Type} {result : Except ε α}
    (h : (!result.isOk) = true) : ∃ cause, result = .error cause := by
  cases result with
  | ok a => cases h
  | error cause => exact ⟨cause, rfl⟩

/-- An operation that is refused is as if it had not been called. -/
theorem Indexed.perform_of_refuses [Verifier P] (h : matcher.Indexed config entries)
    {operation : Operation P} (hrefused : matcher.refuses operation = true) :
    matcher.perform operation = matcher := by
  match operation with
  | .call (.build (.addPattern g pattern payload)) =>
      obtain ⟨cause, herror⟩ := exists_error_of_isOk_eq_false hrefused
      exact h.addPattern_of_error herror
  | .call (.build (.addKeyword g keyword payload)) =>
      obtain ⟨cause, herror⟩ := exists_error_of_isOk_eq_false hrefused
      exact h.addKeyword_of_error herror
  | .call (.build (.compile _)) => cases hrefused
  | .call (.scan _) => cases hrefused
  | .compileAll => cases hrefused
  | .searchVerified .. => cases hrefused
  | .resize _ => cases hrefused
  | .clear => cases hrefused
  | .shrink => cases hrefused

theorem Indexed.foldl_withoutRefused [Verifier P] (h : matcher.Indexed matcher.config entries)
    (operations : List (Operation P)) :
    (matcher.withoutRefused operations).foldl Matcher.perform matcher =
      operations.foldl Matcher.perform matcher := by
  induction operations generalizing matcher entries with
  | nil => rfl
  | cons operation operations ih =>
      have hrest := ih (h.perform operation)
      rw [withoutRefused, List.foldl_cons, ← hrest]
      cases hrefused : matcher.refuses operation with
      | true => rw [if_pos rfl, h.perform_of_refuses hrefused]
      | false => rw [if_neg Bool.false_ne_true, List.foldl_cons]

/-- Whatever was done with a matcher, a pattern or a keyword that is refused leaves it as it was,
and leaving out all refused additions makes the same matcher. The decomposer that read a refused
pattern answers for later patterns as before. -/
theorem refused_additions [Verifier P] (config : MatcherConfig) (operations : List (Operation P)) :
    (∀ (g : Nat) (pattern : String) (payload : P) (cause : MatchError),
      ((performed config operations).addPattern g pattern payload).2 = .error cause →
        ((performed config operations).addPattern g pattern payload).1 =
          performed config operations) ∧
    (∀ (g : Nat) (keyword : Bytes) (payload : P) (cause : MatchError),
      ((performed config operations).addKeyword g keyword payload).2 = .error cause →
        ((performed config operations).addKeyword g keyword payload).1 =
          performed config operations) ∧
    performed config ((new config).withoutRefused operations) = performed config operations ∧
    ∀ (decomposer : Decomposer) (refused later : String),
      ((decomposer.decompose refused).1.decompose later).2 = (decomposer.decompose later).2 := by
  have hindexed := indexed_performed config operations
  refine ⟨fun _ _ _ _ h => hindexed.addPattern_of_error h,
    fun _ _ _ _ h => hindexed.addKeyword_of_error h,
    (indexed_new config).foldl_withoutRefused operations, fun decomposer refused later => ?_⟩
  rw [Decomposer.decompose_eq_decomposition, Decomposer.decompose_eq_decomposition,
    Decomposer.options_decompose]

/-- The second literal of the pattern holds a control character, which the alphabet leaves out. -/
theorem refused_additions_alphabet :
    let config : MatcherConfig := ⟨1, true, false, 100000, true, 2, 0x20, 0x7E⟩
    let add (pattern : String) : Operation Needle :=
      .call (.build (.addPattern 0 pattern ⟨utf8 pattern⟩))
    let operations := [add "abc", add "abc(d|\\x01e)", .compileAll]
    let matcher := performed config operations
    (matcher.addPattern 0 "abc(d|\\x01e)" ⟨[]⟩).2 = .error (.key (.alphabet 1 3)) ∧
    (matcher.addPattern 0 "abc(d|\\x01e)" ⟨[]⟩).1 = matcher ∧
    (matcher.addKeyword 0 [] ⟨[]⟩).2 = .error (.key .emptyKey) ∧
    (matcher.addKeyword 0 [] ⟨[]⟩).1 = matcher ∧
    ((new config).withoutRefused operations).length = 2 ∧
    performed config ((new config).withoutRefused operations) = matcher := by
  intro config add operations matcher
  obtain ⟨hpattern, hkeyword, hrun, -⟩ := refused_additions config operations
  have hfirst : (matcher.addPattern 0 "abc(d|\\x01e)" ⟨[]⟩).2 = .error (.key (.alphabet 1 3)) := by
    decide +kernel
  have hsecond : (matcher.addKeyword 0 [] ⟨[]⟩).2 = .error (.key .emptyKey) := by decide +kernel
  exact ⟨hfirst, hpattern _ _ _ _ hfirst, hsecond, hkeyword _ _ _ _ hsecond, by decide +kernel,
    hrun⟩

end LiteralSieve.Matcher
