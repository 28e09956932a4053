import LiteralSieve.Proofs.Matcher.History

namespace LiteralSieve

/-!
# Versions that are new to a state

Old cursors are never cleared: a scan renews them one by one, as first literals are seen. This is as
good as a new state under every version that no scan of the state ran under, and after a reset under
the version of the reset. The calls before may be those of any matchers, in particular of the same
matcher when it had fewer pieces.
-/

namespace Matcher

variable {P : Type} {matcher : Matcher P} {state : ScanState} {version : UInt64}

/-- The group is there and its automaton is compiled, so that a scan of it runs. -/
def isReady (matcher : Matcher P) (g : Nat) : Bool :=
  match matcher.group g with
  | .ok automaton => automaton.compiled
  | .error _ => false

/-- The versions that a call scans under; a call that is refused scans under none. -/
def ranUnder (matcher : Matcher P) (state : ScanState) : ScanCall P → List UInt64
  | .search g _ _ version _ _ => if matcher.isReady g then [version] else []
  | .findAll g _ _ | .isMatch g _ _ => if matcher.isReady g then [state.nextVersion] else []
  | .reset _ => []

theorem exists_ready {g : Nat} (h : matcher.isReady g = true) :
    ∃ automaton, matcher.group g = .ok automaton ∧ automaton.compiled = true := by
  rw [isReady] at h
  split at h
  · exact ⟨_, ‹_›, h⟩
  · cases h

theorem isReady_of_group {g : Nat} {automaton : GroupAutomaton}
    (h : matcher.group g = .ok automaton) : matcher.isReady g = automaton.compiled := by
  rw [isReady, h]

theorem searchWith_of_not_ready {g : Nat} (h : matcher.isReady g = false) :
    ∃ cause, ∀ {σ : Type} (state : ScanState) (text : Bytes) (mode : EscapeMode)
      (version : UInt64) (report : PatternMatch P → σ → ForInStep σ) (acc : σ),
      matcher.searchWith state g text mode version report acc = (state, .error cause) := by
  apply searchWith_refused
  rintro ⟨automaton, hgroup, hcompiled⟩
  rw [isReady_of_group hgroup, hcompiled] at h
  cases h

theorem unseen_searchWith_of_ran {σ : Type} (h : state.Unseen version) {g : Nat} {other : UInt64}
    (hran : version ∉ if matcher.isReady g then [other] else []) (text : Bytes) (mode : EscapeMode)
    (report : PatternMatch P → σ → ForInStep σ) (acc : σ) :
    (matcher.searchWith state g text mode other report acc).1.Unseen version := by
  cases hready : matcher.isReady g with
  | true =>
      apply unseen_searchWith h
      simpa [hready] using hran
  | false =>
      obtain ⟨cause, hrefused⟩ := searchWith_of_not_ready hready
      rw [hrefused]
      exact h

theorem cursors_findAllWith (matcher : Matcher P) (state : ScanState) (g : Nat) (text : Bytes)
    (mode : EscapeMode) : (matcher.findAllWith state g text mode).1.cursors =
      (matcher.searchWith state g text mode state.nextVersion
        (fun report listing => .yield (list state.nextVersion report listing))
        ⟨extendArray state.listed matcher.patterns.size 0, #[]⟩).1.cursors := by
  simp only [findAllWith]
  split <;> rfl

theorem unseen_reset (state : ScanState) (version other : UInt64) :
    (state.reset other).Unseen version := by
  intro cursor hcursor
  obtain ⟨_, -, rfl⟩ := Array.mem_map.mp hcursor
  exact PieceCursor.progress_fresh version other

theorem unseen_afterCall (h : state.Unseen version) {call : ScanCall P}
    (hcall : version ∉ matcher.ranUnder state call) :
    (matcher.afterCall state call).Unseen version := by
  cases call with
  | search g text mode other report acc => exact unseen_searchWith_of_ran h hcall text mode report acc
  | isMatch g text mode => exact unseen_searchWith_of_ran h hcall text mode _ _
  | reset other => exact unseen_reset state version other
  | findAll g text mode =>
      intro cursor hcursor
      apply unseen_searchWith_of_ran h hcall text mode _ _ cursor
      rwa [← cursors_findAllWith]

end Matcher

/-- A call of some matcher with a state. -/
structure StateCall : Type 1 where
  {P : Type}
  matcher : Matcher P
  call : Matcher.ScanCall P

namespace ScanState

def after (state : ScanState) (c : StateCall) : ScanState := c.matcher.afterCall state c.call

def afterAll (state : ScanState) (calls : List StateCall) : ScanState := calls.foldl after state

/-- The versions that these calls scan under. -/
def versionsRun : ScanState → List StateCall → List UInt64
  | _, [] => []
  | state, c :: calls => c.matcher.ranUnder state c.call ++ versionsRun (state.after c) calls

variable {state : ScanState} {version : UInt64}

theorem afterAll_concat (state : ScanState) (calls : List StateCall) (c : StateCall) :
    state.afterAll (calls ++ [c]) = (state.afterAll calls).after c := by
  rw [afterAll, List.foldl_concat]
  rfl

theorem Unseen.afterAll (h : state.Unseen version) {calls : List StateCall}
    (hcalls : version ∉ state.versionsRun calls) : (state.afterAll calls).Unseen version := by
  induction calls generalizing state with
  | nil => exact h
  | cons c calls ih =>
      obtain ⟨hfirst, hrest⟩ := not_or.mp (mt List.mem_append.mpr hcalls)
      exact ih (Matcher.unseen_afterCall h hfirst) hrest

/-- No scan ran under the version in these calls, or a reset to it was the last of them. -/
def IsNew (calls : List StateCall) (version : UInt64) : Prop :=
  version ∉ new.versionsRun calls ∨
    ∃ (earlier : List StateCall) (P : Type) (matcher : Matcher P),
      calls = earlier ++ [⟨matcher, .reset version⟩]

theorem unseen_of_isNew {calls : List StateCall} (h : IsNew calls version) :
    (new.afterAll calls).Unseen version := by
  rcases h with hran | ⟨earlier, P, matcher, rfl⟩
  · exact (unused_new version).unseen.afterAll hran
  · rw [afterAll_concat]
    exact Matcher.unseen_reset _ version version

end ScanState

namespace Matcher

variable {P σ : Type}

theorem searchWith_eq_new (matcher : Matcher P) {state : ScanState} {version : UInt64}
    (h : state.Unseen version) (g : Nat) (text : Bytes) (mode : EscapeMode)
    (report : PatternMatch P → σ → ForInStep σ) (acc : σ) :
    (matcher.searchWith state g text mode version report acc).2 =
      (matcher.searchWith .new g text mode version report acc).2 := by
  cases hready : matcher.isReady g with
  | true =>
      obtain ⟨automaton, hgroup, hcompiled⟩ := exists_ready hready
      rw [searchWith_eq h hgroup hcompiled,
        searchWith_eq (ScanState.unused_new version).unseen hgroup hcompiled]
  | false =>
      obtain ⟨cause, hrefused⟩ := searchWith_of_not_ready hready
      rw [hrefused, hrefused]

/-- Under a version that is new to a state, a scan shows the same reports to every visitor, with the
same result, as a scan with a state that was never used. -/
theorem searchWith_of_isNew (matcher : Matcher P) (calls : List StateCall) (version : UInt64)
    (hnew : ScanState.IsNew calls version) (g : Nat) (text : Bytes) (mode : EscapeMode)
    (report : PatternMatch P → σ → ForInStep σ) (acc : σ) :
    (matcher.searchWith (ScanState.new.afterAll calls) g text mode version report acc).2 =
      (matcher.searchWith .new g text mode version report acc).2 :=
  matcher.searchWith_eq_new (ScanState.unseen_of_isNew hnew) g text mode report acc

/-- The state was used under other versions, and by the matcher before its second keyword. -/
theorem searchWith_of_isNew_grown :
    let first : List (BuildCall Unit) := [.addKeyword 0 [0x61, 0x62] (), .compile 0]
    let second : List (BuildCall Unit) := [.addKeyword 0 [0x62, 0x63] (), .compile 0]
    let small : Matcher Unit := first.foldl build (new .standard)
    let large : Matcher Unit := second.foldl build small
    let calls : List StateCall := [
      ⟨small, .search 0 [0x61, 0x62] .plain 1 (fun _ n => .yield (n + 1)) 0⟩,
      ⟨small, .findAll 0 [0x61, 0x62] .plain⟩]
    (large.searchWith (ScanState.new.afterAll calls) 0 [0x61, 0x62, 0x63] .plain 0
      (fun report found => .yield (found ++ [report.pattern])) []).2.map outcome = .ok [0, 1] := by
  intro first second small large calls
  have hnew : ScanState.IsNew calls 0 := Or.inl (by decide +kernel)
  rw [searchWith_of_isNew large calls 0 hnew]
  decide +kernel

end Matcher

end LiteralSieve
