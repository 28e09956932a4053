import LiteralSieve.Proofs.Matcher.History

namespace LiteralSieve

/-!
# A matcher in use

Calls that build and calls that scan may follow each other in any order. Scans change nothing that is
stored, and building changes no state. One-shot scans of the matcher count their versions up, so the
next version is one that nothing was seen under, until the count comes round.
-/

namespace Matcher

variable {P : Type} {matcher : Matcher P} {config : MatcherConfig} {entries : List Accepted}

/-- A call of a matcher, which scans with its own states. -/
inductive MatcherCall (P : Type) : Type 1 where
  | build (call : BuildCall P)
  | scan (call : ScanCall P)

def after (matcher : Matcher P) : MatcherCall P → Matcher P
  | .build call => matcher.build call
  | .scan (.search g text mode version report acc) =>
    (matcher.search g text mode version report acc).1
  | .scan (.findAll g text mode) => (matcher.findAll g text mode).1
  | .scan (.isMatch g text mode) => (matcher.isMatch g text mode).1
  | .scan (.reset version) => matcher.reset version

/-- A new matcher after some calls. -/
def session (config : MatcherConfig) (calls : List (MatcherCall P)) : Matcher P :=
  calls.foldl Matcher.after (new config)

def storedBy (matcher : Matcher P) : MatcherCall P → List Accepted
  | .build call => matcher.accepted call
  | .scan _ => []

def storedByAll (matcher : Matcher P) : List (MatcherCall P) → List Accepted
  | [] => []
  | call :: calls => matcher.storedBy call ++ storedByAll (matcher.after call) calls

/-- The number of one-shot scans in a call. -/
def oneShots : MatcherCall P → Nat
  | .scan (.findAll _ _ _) => 1
  | .scan (.isMatch _ _ _) => 1
  | _ => 0

/-! ## What is stored -/

theorem Indexed.after (h : matcher.Indexed config entries) (call : MatcherCall P) :
    (matcher.after call).Indexed config (entries ++ matcher.storedBy call) := by
  cases call with
  | build call => exact h.build call
  | scan call =>
      rw [storedBy, List.append_nil]
      cases call <;>
        exact ⟨h.config_eq, h.patterns_size, h.pieces_eq, h.frames_eq, h.built, h.literals_ne_nil⟩

theorem Indexed.afterAll (h : matcher.Indexed config entries) (calls : List (MatcherCall P)) :
    (calls.foldl Matcher.after matcher).Indexed config (entries ++ matcher.storedByAll calls) := by
  induction calls generalizing matcher entries with
  | nil => simpa [storedByAll] using h
  | cons call calls ih =>
      rw [List.foldl_cons, storedByAll, ← List.append_assoc]
      exact ih (h.after call)

/-! ## Versions -/

/-- The version is at most `n`, and later ones are unused. -/
structure CountsTo (state : ScanState) (n : Nat) : Prop where
  version_le : state.version.toNat ≤ n
  unused : ∀ version, state.version < version → state.Unused version

theorem countsTo_new (n : Nat) : CountsTo .new n where
  version_le := Nat.zero_le n
  unused version _ := ScanState.unused_new version

theorem CountsTo.nextVersion_eq {state : ScanState} {n : Nat} (h : CountsTo state n)
    (hn : n < 2 ^ 64 - 1) : state.nextVersion.toNat = state.version.toNat + 1 := by
  have hle := h.version_le
  have hlt : state.version.toNat + 1 < 2 ^ 64 := by omega
  rw [ScanState.nextVersion, UInt64.toNat_add]
  exact Nat.mod_eq_of_lt hlt

theorem CountsTo.unused_nextVersion {state : ScanState} {n : Nat} (h : CountsTo state n)
    (hn : n < 2 ^ 64 - 1) : state.Unused state.nextVersion ∧ state.nextVersion ≠ 0 := by
  have hnext := h.nextVersion_eq hn
  refine ⟨h.unused _ ?_, ?_⟩
  · rw [UInt64.lt_iff_toNat_lt]
    omega
  · intro hzero
    rw [hzero] at hnext
    cases hnext

/-- A scan under the next version counts one further. -/
theorem CountsTo.oneShot {state next : ScanState} {n : Nat} (h : CountsTo state n)
    (hn : n < 2 ^ 64 - 1) (hversion : next.version = state.nextVersion ∨ next = state)
    (hunused : ∀ version, version ≠ 0 → version ≠ state.nextVersion → state.Unused version →
      next.Unused version) : CountsTo next (n + 1) := by
  rcases hversion with hversion | rfl
  · have hnext := h.nextVersion_eq hn
    have hle := h.version_le
    refine ⟨by rw [hversion]; omega, fun version hlt => ?_⟩
    rw [hversion, UInt64.lt_iff_toNat_lt] at hlt
    apply hunused version
    · rintro rfl
      exact Nat.not_lt_zero _ hlt
    · rintro rfl
      exact lt_irrefl _ hlt
    · apply h.unused
      rw [UInt64.lt_iff_toNat_lt]
      omega
  · exact ⟨h.version_le.trans (Nat.le_succ n), h.unused⟩

theorem version_searchWith {σ : Type} (matcher : Matcher P) (state : ScanState) (g : Nat)
    (text : Bytes) (mode : EscapeMode) (version : UInt64)
    (report : PatternMatch P → σ → ForInStep σ) (acc : σ) :
    (matcher.searchWith state g text mode version report acc).1.version = version ∨
      (matcher.searchWith state g text mode version report acc).1 = state := by
  rw [searchWith]
  split
  · exact Or.inr rfl
  · split_ifs
    · exact Or.inl rfl
    · exact Or.inr rfl

theorem version_findAllWith (matcher : Matcher P) (state : ScanState) (g : Nat) (text : Bytes)
    (mode : EscapeMode) :
    (matcher.findAllWith state g text mode).1.version = state.nextVersion ∨
      (matcher.findAllWith state g text mode).1 = state := by
  by_cases hready : ∃ automaton, matcher.group g = .ok automaton ∧ automaton.compiled = true
  · obtain ⟨automaton, hgroup, hcompiled⟩ := hready
    left
    simp only [findAllWith, searchWith, hgroup, hcompiled, if_true]
    rfl
  · obtain ⟨cause, hrefused⟩ := searchWith_refused hready
    right
    simp only [findAllWith, hrefused]

theorem CountsTo.after {n : Nat} (h : CountsTo matcher.scratch n) (call : MatcherCall P)
    (hn : n + oneShots call ≤ 2 ^ 64 - 1) :
    CountsTo (matcher.after call).scratch (n + oneShots call) := by
  cases call with
  | build call =>
      rw [Matcher.after, scratch_build]
      exact h
  | scan call =>
      cases call with
      | search g text mode version report acc => exact h
      | reset version => exact h
      | findAll g text mode =>
          exact h.oneShot hn (matcher.version_findAllWith _ g text mode)
            fun version hzero hother hunused => unused_findAllWith hunused hzero hother g text mode
      | isMatch g text mode =>
          exact h.oneShot hn (matcher.version_searchWith _ g text mode _ _ _)
            fun version _ hother hunused => unused_searchWith hunused hother g text mode _ _

theorem CountsTo.afterAll {n : Nat} (h : CountsTo matcher.scratch n) (calls : List (MatcherCall P))
    (hn : n + (calls.map oneShots).sum ≤ 2 ^ 64 - 1) :
    CountsTo (calls.foldl Matcher.after matcher).scratch (n + (calls.map oneShots).sum) := by
  induction calls generalizing matcher n with
  | nil => exact h
  | cons call calls ih =>
      rw [List.map_cons, List.sum_cons, ← Nat.add_assoc] at hn ⊢
      rw [List.foldl_cons]
      exact ih (h.after call (Nat.le_of_add_right_le hn)) hn

end Matcher

end LiteralSieve
