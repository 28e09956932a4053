import LiteralSieve.Proofs.Matcher.Candidates

namespace LiteralSieve

/-!
# One-shot scans and the history of a state

A one-shot scan runs under the version after that of its state. Where versions only grow, nothing
was seen or listed under it before. But a caller may move the version of a state back, by a reset or
by a scan under an older version, and then a one-shot scan may run under a version that was in use.
What was seen and listed then counts for it.
-/

namespace Matcher

variable {P : Type} {matcher : Matcher P} {state : ScanState} {version : UInt64}

/-! ## Calls with a state -/

/-- A call that uses a state. A copy of a state is the same state. -/
inductive ScanCall (P : Type) : Type 1 where
  | search {σ : Type} (g : Nat) (text : Bytes) (mode : EscapeMode) (version : UInt64)
    (report : PatternMatch P → σ → ForInStep σ) (acc : σ)
  | findAll (g : Nat) (text : Bytes) (mode : EscapeMode)
  | isMatch (g : Nat) (text : Bytes) (mode : EscapeMode)
  | reset (version : UInt64)

def afterCall (matcher : Matcher P) (state : ScanState) : ScanCall P → ScanState
  | .search g text mode version report acc =>
    (matcher.searchWith state g text mode version report acc).1
  | .findAll g text mode => (matcher.findAllWith state g text mode).1
  | .isMatch g text mode => (matcher.isMatchWith state g text mode).1
  | .reset version => state.reset version

def scannedUnder (state : ScanState) : ScanCall P → List UInt64
  | .search _ _ _ version _ _ => [version]
  | .findAll _ _ _ => [state.nextVersion]
  | .isMatch _ _ _ => [state.nextVersion]
  | .reset _ => []

def versionsOf (matcher : Matcher P) : ScanState → List (ScanCall P) → List UInt64
  | _, [] => []
  | state, call :: calls =>
    scannedUnder state call ++ versionsOf matcher (matcher.afterCall state call) calls

/-- One-shot scans with the state find what they find with a new one. -/
def OneShotLikeNew (matcher : Matcher P) (state : ScanState) : Prop :=
  ∀ (g : Nat) (text : Bytes) (mode : EscapeMode),
    (matcher.findAllWith state g text mode).2 = (matcher.findAllWith .new g text mode).2 ∧
      (matcher.isMatchWith state g text mode).2 = (matcher.isMatchWith .new g text mode).2

/-! ## Unused versions -/

theorem version_of_advance? {cursors : Array PieceCursor} {hit : Hit (List FrameId)} {id : Nat}
    {p : Nat} {next : PieceCursor} {found : Option (PatternMatch P)}
    (h : matcher.advance? cursors version hit id = some (p, next, found)) :
    next.version = version := by
  simp only [advance?, Option.bind_eq_bind, Option.bind_eq_some_iff] at h
  obtain ⟨frame, -, piece, -, cursor, -, renewed, hrenew, moved, haccept, h⟩ := h
  have hrenewed : renewed.version = version := by
    rw [PieceCursor.renew?] at hrenew
    split_ifs at hrenew with hversion
    · obtain rfl := Option.some.inj hrenew
      exact hversion
    · obtain rfl := Option.some.inj hrenew
      rfl
  have hmoved : moved.version = version := by
    rw [PieceCursor.accept?] at haccept
    by_cases hstuck : renewed.finished ∨ renewed.seen ≠ frame.position
    · rw [if_pos hstuck] at haccept
      cases haccept
    · rw [if_neg hstuck] at haccept
      obtain rfl := Option.some.inj haccept
      exact hrenewed
  split_ifs at h
  · obtain ⟨entry, -, h⟩ := Option.bind_eq_some_iff.mp h
    cases h
    exact hmoved
  · cases h
    exact hmoved

/-- A scan only leaves cursors of its own version. -/
theorem version_of_mem_scan {σ : Type} {report : PatternMatch P → σ → ForInStep σ}
    {cursors : Array PieceCursor} {acc : σ} {shown : List Event} {cursor : PieceCursor}
    (h : cursor ∈ (matcher.scan version report cursors acc shown).1) :
    cursor ∈ cursors ∨ cursor.version = version := by
  induction shown generalizing cursors acc with
  | nil => exact Or.inl h
  | cons event shown ih =>
      obtain ⟨hit, id⟩ := event
      rw [scan] at h
      cases hadvance : matcher.advance? cursors version hit id with
      | none =>
          rw [hadvance] at h
          exact ih h
      | some moved =>
          obtain ⟨p, next, found⟩ := moved
          rw [hadvance] at h
          have hset : cursor ∈ cursors.setIfInBounds p next →
              cursor ∈ cursors ∨ cursor.version = version := by
            intro hmem
            rcases Array.mem_or_eq_of_mem_setIfInBounds hmem with hmem | rfl
            · exact Or.inl hmem
            · exact Or.inr (version_of_advance? hadvance)
          cases found with
          | none =>
              rcases ih h with h | h
              · exact hset h
              · exact Or.inr h
          | some found =>
              cases hreport : report found acc with
              | done acc =>
                  simp only [hreport] at h
                  exact hset h
              | yield acc =>
                  simp only [hreport] at h
                  rcases ih h with h | h
                  · exact hset h
                  · exact Or.inr h

/-- A scan under another version leaves nothing seen under a version. -/
theorem unseen_searchWith {σ : Type} (h : state.Unseen version) {other : UInt64}
    (hother : version ≠ other) (g : Nat) (text : Bytes) (mode : EscapeMode)
    (report : PatternMatch P → σ → ForInStep σ) (acc : σ) :
    (matcher.searchWith state g text mode other report acc).1.Unseen version := by
  rw [searchWith]
  split
  · exact h
  · split_ifs
    · intro cursor hcursor
      rcases version_of_mem_scan hcursor with hold | hnew
      · rcases mem_extendArray hold with hold | rfl
        · exact h cursor hold
        · exact PieceCursor.progress_fresh version 0
      · exact PieceCursor.progress_of_version_ne (hnew ▸ hother.symm)
    · exact h

theorem listed_searchWith {σ : Type} (g : Nat) (text : Bytes) (mode : EscapeMode)
    (report : PatternMatch P → σ → ForInStep σ) (acc : σ) :
    (matcher.searchWith state g text mode version report acc).1.listed = state.listed := by
  rw [searchWith]
  split
  · rfl
  · split_ifs <;> rfl

theorem unused_searchWith {σ : Type} (h : state.Unused version) {other : UInt64}
    (hother : version ≠ other) (g : Nat) (text : Bytes) (mode : EscapeMode)
    (report : PatternMatch P → σ → ForInStep σ) (acc : σ) :
    (matcher.searchWith state g text mode other report acc).1.Unused version := by
  refine ⟨unseen_searchWith h.unseen hother g text mode report acc, ?_⟩
  rw [listed_searchWith]
  exact h.unlisted

theorem mem_listed_foldl {other : UInt64} {reports : List (PatternMatch P)} {listing : Listing}
    (h : version ∈ (reports.foldl (fun listing report => list other report listing)
      listing).listed) : version ∈ listing.listed ∨ version = other := by
  induction reports generalizing listing with
  | nil => exact Or.inl h
  | cons report reports ih =>
      rcases ih h with h | h
      · change version ∈ (list other report listing).listed at h
        rw [list] at h
        split_ifs at h
        · exact Or.inl h
        · exact Array.mem_or_eq_of_mem_setIfInBounds h
      · exact Or.inr h

/-- A group that is unknown or not compiled is refused, whatever the state. -/
theorem searchWith_refused {g : Nat}
    (h : ¬ ∃ automaton, matcher.group g = .ok automaton ∧ automaton.compiled = true) :
    ∃ cause, ∀ {σ : Type} (state : ScanState) (text : Bytes) (mode : EscapeMode)
      (version : UInt64) (report : PatternMatch P → σ → ForInStep σ) (acc : σ),
      matcher.searchWith state g text mode version report acc = (state, .error cause) := by
  cases hgroup : matcher.group g with
  | error cause => exact ⟨cause, fun state text mode version report acc => by rw [searchWith, hgroup]⟩
  | ok automaton =>
      refine ⟨.notCompiled g, fun state text mode version report acc => ?_⟩
      rw [searchWith, hgroup]
      exact if_neg fun hcompiled => h ⟨automaton, hgroup, hcompiled⟩

/-- So does a one-shot scan. -/
theorem unused_findAllWith (h : state.Unused version) (hzero : version ≠ 0)
    (hother : version ≠ state.nextVersion) (g : Nat) (text : Bytes) (mode : EscapeMode) :
    (matcher.findAllWith state g text mode).1.Unused version := by
  by_cases hready : ∃ automaton, matcher.group g = .ok automaton ∧ automaton.compiled = true
  · obtain ⟨automaton, hgroup, hcompiled⟩ := hready
    obtain ⟨-, hlisted, hcursors⟩ :=
      findAllWith_eq_listingOf hgroup hcompiled state text mode
    constructor
    · intro cursor hcursor
      rw [hcursors] at hcursor
      exact (unused_searchWith h hother g text mode _ _).unseen cursor hcursor
    · rw [hlisted]
      intro hmem
      rcases mem_listed_foldl hmem with hmem | hsame
      · rcases mem_extendArray hmem with hmem | hmem
        · exact h.unlisted hmem
        · exact hzero hmem
      · exact hother hsame
  · obtain ⟨cause, hrefused⟩ := searchWith_refused hready
    simp only [findAllWith, hrefused]
    exact h

theorem unused_afterCall (h : state.Unused version) (hzero : version ≠ 0) {call : ScanCall P}
    (hcall : version ∉ scannedUnder state call) :
    (matcher.afterCall state call).Unused version := by
  cases call with
  | search g text mode other report acc =>
      exact unused_searchWith h (by simpa [scannedUnder] using hcall) g text mode report acc
  | findAll g text mode =>
      exact unused_findAllWith h hzero (by simpa [scannedUnder] using hcall) g text mode
  | isMatch g text mode =>
      exact unused_searchWith h (by simpa [scannedUnder] using hcall) g text mode _ _
  | reset other =>
      refine ⟨fun cursor hcursor => ?_, h.unlisted⟩
      obtain ⟨_, -, rfl⟩ := Array.mem_map.mp hcursor
      exact PieceCursor.progress_fresh version other

/-- A version that no call scanned under is unused. -/
theorem unused_afterCalls (h : state.Unused version) (hzero : version ≠ 0)
    (calls : List (ScanCall P)) (hcalls : version ∉ matcher.versionsOf state calls) :
    (calls.foldl matcher.afterCall state).Unused version := by
  induction calls generalizing state with
  | nil => exact h
  | cons call calls ih =>
      rw [versionsOf, List.mem_append, not_or] at hcalls
      exact ih (unused_afterCall h hzero hcalls.1) hcalls.2

/-- Under an unused version, one-shot scans find what they find with a new state. -/
theorem oneShotLikeNew_of_unused (matcher : Matcher P) (hversion : state.nextVersion ≠ 0)
    (h : state.Unused state.nextVersion) : matcher.OneShotLikeNew state := by
  intro g text mode
  by_cases hready : ∃ automaton, matcher.group g = .ok automaton ∧ automaton.compiled = true
  · obtain ⟨automaton, hgroup, hcompiled⟩ := hready
    have hnew := ScanState.unused_new ScanState.new.nextVersion
    rw [findAllWith_eq h hversion hgroup hcompiled, findAllWith_eq hnew (by decide) hgroup hcompiled,
      isMatchWith_eq h.unseen hgroup hcompiled, isMatchWith_eq hnew.unseen hgroup hcompiled]
    exact ⟨rfl, rfl⟩
  · obtain ⟨cause, hrefused⟩ := searchWith_refused hready
    exact ⟨by simp only [findAllWith, hrefused], by simp only [isMatchWith, hrefused]⟩

/-! ## Versions that were in use -/

/-- Patterns that are each found wherever there is an `a`. -/
def repeated (n : Nat) : List Accepted := List.replicate n ⟨0, [[[0x61]]]⟩

theorem storedBranches_repeated (n : Nat) :
    storedBranches (repeated n) = (List.range n).map (⟨0, ·, [[0x61]]⟩) := by
  induction n with
  | zero => rfl
  | succ n ih =>
      rw [repeated, List.replicate_succ', storedBranches_concat, ← repeated, ih, List.range_succ,
        List.map_append, repeated, List.length_replicate]
      rfl

theorem branch_of_repeated {n p : Nat} {branch : StoredBranch}
    (h : (storedBranches (repeated n))[p]? = some branch) : branch = ⟨0, p, [[0x61]]⟩ := by
  rw [storedBranches_repeated, List.getElem?_map, Option.map_eq_some_iff] at h
  obtain ⟨q, hq, rfl⟩ := h
  obtain ⟨_, hget⟩ := List.getElem?_eq_some_iff.mp hq
  rw [List.getElem_range] at hget
  rw [hget]

/-- Any number of such patterns can be stored and compiled. -/
theorem exists_repeated (n : Nat) : ∃ (matcher : Matcher Unit) (automaton : GroupAutomaton),
    matcher.Indexed .standard (repeated n) ∧ matcher.groups[0]? = some automaton ∧
      automaton.compiled = true := by
  have hstored : ∃ (matcher : Matcher Unit) (automaton : GroupAutomaton),
      matcher.Indexed .standard (repeated n) ∧ matcher.groups[0]? = some automaton := by
    induction n with
    | zero => exact ⟨new .standard, _, indexed_new _, rfl⟩
    | succ n ih =>
        obtain ⟨matcher, automaton, hindexed, hgroup⟩ := ih
        have hok : matcher.group 0 = .ok automaton := by rw [group, hgroup]
        have hadded := (hindexed.addEntry hok "" () [[[0x61]]] (by simp) (by decide)).2
        rw [repeated, List.replicate_succ', ← repeated]
        have hlt := (Array.getElem?_eq_some_iff.mp hgroup).1
        exact ⟨_, _, hadded, (Array.getElem?_setIfInBounds_self).trans (if_pos hlt)⟩
  obtain ⟨matcher, automaton, hindexed, hgroup⟩ := hstored
  have hok : matcher.group 0 = .ok automaton := by rw [group, hgroup]
  obtain ⟨trie, moves, hcompile, -⟩ := (hindexed.built hgroup).stores.compile_eq
  refine ⟨(matcher.compile 0).1, automaton.compile.1, hindexed.compile 0, ?_, by rw [hcompile]⟩
  simp only [Matcher.compile, hok]
  refine (Array.getElem?_setIfInBounds_self).trans (if_pos ?_)
  exact (Array.getElem?_eq_some_iff.mp hgroup).1

section Repeated

variable {n i : Nat} {matcher : Matcher Unit} {automaton : GroupAutomaton}

theorem mem_new_repeated (hindexed : matcher.Indexed .standard (repeated n))
    (hgroup : matcher.groups[0]? = some automaton) (hcompiled : automaton.compiled = true)
    (hi : i < n) : ∃ ids, (matcher.findAllWith .new 0 [0x61] .plain).2 = .ok ids ∧ i ∈ ids := by
  have hok : matcher.group 0 = .ok automaton := by rw [group, hgroup]
  refine ⟨_, findAllWith_eq (ScanState.unused_new _) (by decide) hok hcompiled _ _, ?_⟩
  rw [hindexed.mem_firsts_reports rfl hgroup hcompiled]
  refine ⟨⟨0, [[[0x61]]]⟩, by simp [repeated, hi], rfl, [[0x61]], List.mem_singleton_self _, ?_⟩
  rw [EscapeMode.decode_plain]
  exact ⟨[1], .cons ⟨by decide, by decide⟩ .nil, .singleton _⟩

/-- A piece with a cursor that is not fresh is not finished any more. -/
theorem not_reported_repeated (hindexed : matcher.Indexed .standard (repeated n))
    (hgroup : matcher.groups[0]? = some automaton) (hcompiled : automaton.compiled = true)
    {text : Bytes} {mode : EscapeMode} (hstuck : state.progressOf version i ≠ .fresh) :
    ∀ report ∈ matcher.reportsFrom (state.progressOf version) (events automaton text mode),
      report.pattern ≠ i := by
  rintro report hreport rfl
  have hstores := (hindexed.built hgroup).stores
  obtain ⟨located, hall, -, hmem⟩ := hstores.findAll_spec hcompiled text mode
  obtain ⟨order, hreports, -, hfinishes⟩ :=
    reportsFrom_spec hindexed.closed (state.progressOf version) (events automaton text mode)
  obtain ⟨p, hp, before, after, event, hat⟩ := exists_left_of_forall₂ hreports hreport
  obtain ⟨-, hunfinished, hfinished⟩ := (hfinishes p).mp hp
  obtain ⟨piece, hpiece, hpattern⟩ := Option.map_eq_some_iff.mp hat.pattern_eq
  rw [hindexed.get?_piece] at hpiece
  obtain ⟨branch, hbranch, rfl⟩ := Option.map_eq_some_iff.mp hpiece
  obtain rfl := branch_of_repeated hbranch
  have hp' : p = report.pattern := hpattern
  have hevents : events automaton text mode = eventsOf (located.map Prod.snd) := by
    rw [events, hall]
    rfl
  have hstored : ∀ hit ∈ located.map Prod.snd,
      automaton.terminals.get? hit.id = some hit.terminal := by
    rintro hit hhit
    obtain ⟨⟨e, hit⟩, hin, rfl⟩ := List.mem_map.mp hhit
    obtain ⟨_, _, -, -, hfound⟩ := (hmem e hit).mp hin
    exact hfound.stored
  have hseen : (state.progressOf version p).seen ≠ 0 := by
    intro hzero
    exact hstuck (hp' ▸ ScanState.progressOf_eq_fresh hzero hunfinished)
  rw [hevents, settleAll_eventsOf hindexed hstores hbranch _ _ hstored, if_pos rfl,
    Progress.foldl_advance_of_none] at hfinished
  · exact Bool.false_ne_true (hunfinished.symm.trans hfinished)
  · rw [List.getElem?_eq_none_iff]
    simpa [StoredBranch.folded] using Nat.one_le_iff_ne_zero.mpr hseen

end Repeated

/-- What is listed was reported, and was not listed under the version before. -/
theorem mem_found_foldl {reports : List (PatternMatch P)} {listing : Listing} {id : Nat}
    (h : id ∈ (reports.foldl (fun listing report => list version report listing)
      listing).found) :
    id ∈ listing.found ∨ (∃ report ∈ reports, report.pattern = id) ∧
      listing.listed[id]? ≠ some version := by
  induction reports generalizing listing with
  | nil => exact Or.inl h
  | cons report reports ih =>
      have hstep := ih h
      dsimp only at hstep
      rw [list] at hstep
      split_ifs at hstep with hlisted
      · refine hstep.imp_right fun hlater => ⟨?_, hlater.2⟩
        obtain ⟨other, hother, hpattern⟩ := hlater.1
        exact ⟨other, List.mem_cons_of_mem _ hother, hpattern⟩
      · by_cases hid : id = report.pattern
        · exact Or.inr ⟨⟨report, List.mem_cons_self, hid.symm⟩, hid ▸ hlisted⟩
        · rcases hstep with hfound | ⟨⟨other, hother, hpattern⟩, hfree⟩
          · exact Or.inl ((Array.mem_push.mp hfound).resolve_right hid)
          · rw [Array.getElem?_setIfInBounds_ne (Ne.symm hid)] at hfree
            exact Or.inr ⟨⟨other, List.mem_cons_of_mem _ hother, hpattern⟩, hfree⟩

/-- A version that was in use makes a one-shot scan of some matcher miss a pattern. -/
theorem unused_of_oneShotLikeNew
    (h : ∀ matcher : Matcher Unit, matcher.OneShotLikeNew state) :
    state.Unused state.nextVersion := by
  -- A matcher with enough patterns that are all found has one at every index of the state.
  have hmiss : ∀ i : Nat, (state.progressOf state.nextVersion i = .fresh) ∧
      state.listed[i]? ≠ some state.nextVersion := by
    intro i
    obtain ⟨matcher, automaton, hindexed, hgroup, hcompiled⟩ := exists_repeated (i + 1)
    obtain ⟨ids, hids, hmem⟩ := mem_new_repeated hindexed hgroup hcompiled (Nat.lt_succ_self i)
    have hok : matcher.group 0 = .ok automaton := by rw [group, hgroup]
    have hlisting := (findAllWith_eq_listingOf hok hcompiled state [0x61] .plain).1
    rw [(h matcher 0 [0x61] .plain).1, hids] at hlisting
    obtain rfl := Except.ok.inj hlisting
    have hfound := mem_found_foldl (Array.mem_toList_iff.mp hmem)
    obtain ⟨⟨report, hreport, hpattern⟩, hfree⟩ := hfound.resolve_left (by simp)
    constructor
    · by_contra hstuck
      exact not_reported_repeated hindexed hgroup hcompiled hstuck report hreport hpattern
    · intro hlisted
      apply hfree
      have hlt := (Array.getElem?_eq_some_iff.mp hlisted).1
      rw [extendArray, Array.getElem?_append_left hlt, hlisted]
  constructor
  · intro cursor hcursor
    obtain ⟨i, hi⟩ := Array.getElem?_of_mem hcursor
    have hfresh := (hmiss i).1
    rwa [ScanState.progressOf, hi] at hfresh
  · intro hlisted
    obtain ⟨i, hi⟩ := Array.getElem?_of_mem hlisted
    exact (hmiss i).2 hi

/-- After any calls with a state, one-shot scans of every matcher find what they find with a new
state exactly if nothing was seen or listed under the next version, in particular if no call
scanned under it. -/
theorem oneShotLikeNew_iff_unused (matcher : Matcher P) (calls : List (ScanCall P))
    (hversion : (calls.foldl matcher.afterCall .new).nextVersion ≠ 0) :
    let state := calls.foldl matcher.afterCall .new
    ((∀ (Q : Type) (other : Matcher Q), other.OneShotLikeNew state) ↔
      state.Unused state.nextVersion) ∧
    (state.nextVersion ∉ matcher.versionsOf .new calls → matcher.OneShotLikeNew state) := by
  intro state
  refine ⟨⟨fun h => unused_of_oneShotLikeNew (h Unit), fun h Q other => ?_⟩, fun hnew => ?_⟩
  · exact oneShotLikeNew_of_unused other hversion h
  · exact oneShotLikeNew_of_unused matcher hversion
      (unused_afterCalls (ScanState.unused_new _) hversion calls hnew)

theorem oneShotLikeNew_reset_isMatch :
    let calls : List (BuildCall Unit) := [.addKeyword 0 [0x61, 0x62] (), .compile 0]
    let matcher : Matcher Unit := calls.foldl build (new .standard)
    let scans : List (ScanCall Unit) := [.reset 5, .isMatch 0 [0x61, 0x62] .plain]
    (scans.foldl matcher.afterCall .new).nextVersion = 7 ∧
      matcher.OneShotLikeNew (scans.foldl matcher.afterCall .new) := by
  intro calls matcher scans
  have hversion : (scans.foldl matcher.afterCall .new).nextVersion = 7 := rfl
  have hused : matcher.versionsOf .new scans = [6] := rfl
  refine ⟨hversion, (oneShotLikeNew_iff_unused matcher scans ?_).2 ?_⟩
  · rw [hversion]
    decide
  · rw [hversion, hused]
    decide

end Matcher

end LiteralSieve
