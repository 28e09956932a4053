import LiteralSieve.Proofs.Matcher.Operations
import LiteralSieve.Proofs.Matcher.Renewal

namespace LiteralSieve.Matcher

/-!
# One-shot scans of a matcher

The one-shot scans of a matcher run with a state of their own, which nothing else looks at. So they
leave no trace in other scans. Their versions only count up until the matcher is cleared, and so each
of them finds what it would find with a new state.
-/

variable {P : Type} {matcher : Matcher P}

/-! ## No trace in other scans -/

def withScratch (matcher : Matcher P) (scratch : ScanState) : Matcher P :=
  { matcher with scratch := scratch }

section Scratch

variable {σ : Type} (scratch : ScanState)

theorem scan_withScratch (version : UInt64) (report : PatternMatch P → σ → ForInStep σ)
    (cursors : Array PieceCursor) (acc : σ) (shown : List Event) :
    (matcher.withScratch scratch).scan version report cursors acc shown =
      matcher.scan version report cursors acc shown := by
  induction shown generalizing cursors acc with
  | nil => rfl
  | cons event shown ih =>
      obtain ⟨hit, id⟩ := event
      have hadvance : (matcher.withScratch scratch).advance? cursors version hit id =
          matcher.advance? cursors version hit id := rfl
      simp only [scan, hadvance, ih]

theorem searchWith_withScratch (state : ScanState) (g : Nat) (text : Bytes) (mode : EscapeMode)
    (version : UInt64) (report : PatternMatch P → σ → ForInStep σ) (acc : σ) :
    (matcher.withScratch scratch).searchWith state g text mode version report acc =
      matcher.searchWith state g text mode version report acc := by
  have hgroup : (matcher.withScratch scratch).group g = matcher.group g := rfl
  simp only [searchWith, hgroup, scan_withScratch]
  rfl

theorem addPattern_withScratch (g : Nat) (pattern : String) (payload : P) :
    ((matcher.withScratch scratch).addPattern g pattern payload).1 =
      (matcher.addPattern g pattern payload).1.withScratch scratch := by
  have hgroup : (matcher.withScratch scratch).group g = matcher.group g := rfl
  have hconfig : (matcher.withScratch scratch).config = matcher.config := rfl
  rw [addPattern, addPattern, hgroup, hconfig]
  split
  · rfl
  · split
    · rfl
    · split <;> rfl

theorem addKeyword_withScratch (g : Nat) (keyword : Bytes) (payload : P) :
    ((matcher.withScratch scratch).addKeyword g keyword payload).1 =
      (matcher.addKeyword g keyword payload).1.withScratch scratch := by
  have hgroup : (matcher.withScratch scratch).group g = matcher.group g := rfl
  rw [addKeyword, addKeyword, hgroup]
  split
  · rfl
  · split <;> rfl

theorem compile_withScratch (matcher : Matcher P) (g : Nat) :
    (matcher.withScratch scratch).compile g =
      ((matcher.compile g).1.withScratch scratch, (matcher.compile g).2) := by
  have hgroup : (matcher.withScratch scratch).group g = matcher.group g := rfl
  rw [compile, compile, hgroup]
  split <;> rfl

theorem compileAll_withScratch :
    (matcher.withScratch scratch).compileAll.1 = matcher.compileAll.1.withScratch scratch := by
  have hsteps : ∀ (groups : List Nat) (matcher : Matcher P),
      (untilFailure compile (matcher.withScratch scratch) groups).1 =
        (untilFailure compile matcher groups).1.withScratch scratch := by
    intro groups
    induction groups with
    | nil => exact fun matcher => rfl
    | cons g groups ih =>
        intro matcher
        rw [untilFailure, untilFailure, compile_withScratch]
        obtain ⟨next, result⟩ := matcher.compile g
        cases result with
        | ok => exact ih next
        | error cause => rfl
  exact hsteps _ matcher

end Scratch

/-- The matcher without what its one-shot scans left behind. -/
def forget (matcher : Matcher P) : Matcher P := matcher.withScratch .new

theorem search_forget {σ : Type} (matcher : Matcher P) (g : Nat) (text : Bytes) (mode : EscapeMode)
    (version : UInt64) (report : PatternMatch P → σ → ForInStep σ) (acc : σ) :
    (matcher.search g text mode version report acc).2 =
      (matcher.forget.search g text mode version report acc).2 :=
  (congrArg Prod.snd
    (searchWith_withScratch .new matcher.state g text mode version report acc)).symm

namespace Operation

def isOneShot : Operation P → Bool
  | .call (.scan (.findAll _ _ _)) | .call (.scan (.isMatch _ _ _)) | .searchVerified _ _ _ => true
  | _ => false

end Operation

section Erasing

variable [Verifier P]

theorem forget_perform (matcher : Matcher P) (operation : Operation P) :
    (matcher.perform operation).forget = (matcher.forget.perform operation).forget := by
  cases operation with
  | call call =>
      cases call with
      | build call =>
          cases call with
          | addPattern g pattern payload =>
              exact (congrArg forget (addPattern_withScratch .new g pattern payload)).symm
          | addKeyword g keyword payload =>
              exact (congrArg forget (addKeyword_withScratch .new g keyword payload)).symm
          | compile g =>
              exact (congrArg (fun next => forget next.1) (compile_withScratch .new matcher g)).symm
      | scan call =>
          cases call with
          | search g text mode version report acc =>
              have hsearch : (matcher.withScratch .new).searchWith matcher.state g text mode version
                  report acc = matcher.searchWith matcher.state g text mode version report acc :=
                searchWith_withScratch .new matcher.state g text mode version report acc
              exact (congrArg (fun next => { matcher.forget with state := next.1 }) hsearch).symm
          | findAll g text mode => rfl
          | isMatch g text mode => rfl
          | reset version => rfl
  | compileAll => exact (congrArg forget (compileAll_withScratch .new)).symm
  | searchVerified g text mode => rfl
  | resize groups => rfl
  | clear => rfl
  | shrink => rfl

theorem forget_perform_of_isOneShot {operation : Operation P} (h : operation.isOneShot = true) :
    (matcher.perform operation).forget = matcher.forget := by
  cases operation with
  | call call =>
      cases call with
      | build call => cases h
      | scan call =>
          cases call with
          | findAll g text mode => rfl
          | isMatch g text mode => rfl
          | search g text mode version report acc => cases h
          | reset version => cases h
  | searchVerified g text mode => rfl
  | _ => cases h

/-- One-shot scans may be left out of the history of a matcher. -/
theorem forget_foldl_perform {other : Matcher P} (h : matcher.forget = other.forget)
    (operations : List (Operation P)) :
    (operations.foldl perform matcher).forget =
      ((operations.filter (!·.isOneShot)).foldl perform other).forget := by
  induction operations generalizing matcher other with
  | nil => exact h
  | cons operation operations ih =>
      cases hshot : operation.isOneShot with
      | true =>
          rw [List.filter_cons_of_neg (by simp [hshot])]
          exact ih ((forget_perform_of_isOneShot hshot).trans h)
      | false =>
          rw [List.filter_cons_of_pos (by simp [hshot])]
          refine ih ?_
          rw [forget_perform matcher, h, ← forget_perform other]

end Erasing

/-! ## Versions of one-shot scans -/

/-- Later versions than the last one are unused. -/
abbrev Counts (state : ScanState) : Prop := CountsTo state state.version.toNat

theorem CountsTo.counts {state : ScanState} {n : Nat} (h : CountsTo state n) : Counts state :=
  ⟨le_rfl, h.unused⟩

theorem version_lt_of_nextVersion_ne {state : ScanState} (h : state.nextVersion ≠ 0) :
    state.version.toNat < 2 ^ 64 - 1 := by
  by_contra hmax
  apply h
  apply UInt64.toNat_inj.mp
  have hlt := state.version.toNat_lt
  have hlast : state.version.toNat = 2 ^ 64 - 1 := by omega
  rw [ScanState.nextVersion, UInt64.toNat_add, hlast]
  rfl

theorem oneShots_le_one (call : MatcherCall P) : oneShots call ≤ 1 := by
  unfold oneShots
  split <;> decide

theorem scratch_compileAll (matcher : Matcher P) :
    matcher.compileAll.1.scratch = matcher.scratch := by
  have hstep : ∀ (next : Matcher P) (g : Nat), next.scratch = matcher.scratch →
      (next.compile g).1.scratch = matcher.scratch :=
    fun next g h => (scratch_build next (.compile g)).trans h
  exact untilFailure_of_step hstep rfl _

theorem isEmpty_firsts (reports : List (PatternMatch P)) :
    (firsts [] reports).isEmpty = reports.isEmpty := by
  cases reports with
  | nil => rfl
  | cons report reports =>
      have hmem : report.pattern ∈ firsts [] (report :: reports) :=
        mem_firsts.mpr (Or.inr ⟨report, List.mem_cons_self, rfl⟩)
      rw [List.isEmpty_cons, List.isEmpty_eq_false_iff]
      exact List.ne_nil_of_mem hmem

theorem isMatchWith_eq_map {state : ScanState} (h : state.Unused state.nextVersion)
    (hversion : state.nextVersion ≠ 0) (g : Nat) (text : Bytes) (mode : EscapeMode) :
    (matcher.isMatchWith state g text mode).2 =
      (matcher.findAllWith state g text mode).2.map (!·.isEmpty) := by
  cases hready : matcher.isReady g with
  | true =>
      obtain ⟨automaton, hgroup, hcompiled⟩ := exists_ready hready
      rw [isMatchWith_eq h.unseen hgroup hcompiled, findAllWith_eq h hversion hgroup hcompiled,
        Except.map, isEmpty_firsts]
  | false =>
      obtain ⟨cause, hrefused⟩ := searchWith_of_not_ready hready
      simp only [isMatchWith, findAllWith, hrefused]
      rfl

section Operations

variable [Verifier P]

theorem Counts.perform (h : Counts matcher.scratch) (hnext : matcher.scratch.nextVersion ≠ 0)
    (operation : Operation P) : Counts (matcher.perform operation).scratch := by
  have hlt := version_lt_of_nextVersion_ne hnext
  cases operation with
  | call call =>
      have hone := oneShots_le_one call
      exact (CountsTo.after h call (by omega)).counts
  | compileAll =>
      rw [Matcher.perform, scratch_compileAll]
      exact h
  | searchVerified g text mode =>
      exact (CountsTo.after h (.scan (.findAll g text mode)) hlt).counts
  | resize groups => exact h
  | clear => exact (countsTo_new 0).counts
  | shrink => exact h

theorem Counts.performAll (h : Counts matcher.scratch) (operations : List (Operation P))
    (hnext : ∀ n ≤ operations.length,
      ((operations.take n).foldl Matcher.perform matcher).scratch.nextVersion ≠ 0) :
    Counts (operations.foldl Matcher.perform matcher).scratch := by
  induction operations generalizing matcher with
  | nil => exact h
  | cons operation operations ih =>
      apply ih (h.perform (hnext 0 (Nat.zero_le _)) operation)
      intro n hn
      exact hnext (n + 1) (Nat.succ_le_succ hn)

/-- After any operations of a new matcher, scans with its own state are as if there had been no
one-shot scans. While the count of the one-shot scans has not come round, they do not depend on the
history either, and the one for any match says whether the one for all finds something. -/
theorem oneShots_independent (config : MatcherConfig) (operations : List (Operation P)) (g : Nat)
    (text : Bytes) (mode : EscapeMode) :
    let matcher := performed config operations
    ((∀ n ≤ operations.length,
        (performed config (operations.take n)).scratch.nextVersion ≠ 0) →
      (matcher.findAll g text mode).2 = (matcher.findAllWith .new g text mode).2 ∧
      (matcher.isMatch g text mode).2 = (matcher.findAll g text mode).2.map (!·.isEmpty)) ∧
    ∀ {σ : Type} (version : UInt64) (report : PatternMatch P → σ → ForInStep σ) (acc : σ),
      (matcher.search g text mode version report acc).2 =
        ((performed config (operations.filter (!·.isOneShot))).search g text mode version report
          acc).2 := by
  intro matcher
  constructor
  · intro hversions
    have hcounts : Counts matcher.scratch :=
      Counts.performAll (countsTo_new 0).counts operations hversions
    have hlast : matcher.scratch.nextVersion ≠ 0 := by
      have hall := hversions operations.length le_rfl
      rwa [List.take_length] at hall
    have hunused : matcher.scratch.Unused matcher.scratch.nextVersion :=
      (hcounts.unused_nextVersion (version_lt_of_nextVersion_ne hlast)).1
    exact ⟨(oneShotLikeNew_of_unused matcher hlast hunused g text mode).1,
      isMatchWith_eq_map hunused hlast g text mode⟩
  · intro σ version report acc
    have hforget : matcher.forget = (performed config (operations.filter (!·.isOneShot))).forget :=
      forget_foldl_perform rfl operations
    rw [search_forget, hforget, ← search_forget]

end Operations

/-- One-shot scans of the group before the matcher was cleared, with one that was refused. -/
theorem oneShots_independent_cleared :
    let operations : List (Operation Needle) := [
      .call (.build (.addKeyword 0 [0x61, 0x62] ⟨[0x61, 0x62]⟩)),
      .call (.scan (.isMatch 0 [0x61, 0x62] .plain)), .compileAll,
      .searchVerified 0 [0x61, 0x62] .plain, .call (.scan (.findAll 0 [0x61, 0x62] .plain)), .clear,
      .call (.build (.addKeyword 0 [0x62, 0x63] ⟨[0x62, 0x63]⟩)), .resize 2, .compileAll, .shrink,
      .call (.scan (.isMatch 0 [0x62, 0x63] .plain))]
    let matcher := performed .standard operations
    (matcher.findAll 0 [0x61, 0x62, 0x63] .plain).2 = .ok [0] ∧
      (matcher.isMatch 0 [0x61, 0x62, 0x63] .plain).2 = .ok true := by
  intro operations matcher
  obtain ⟨hfind, hmatch⟩ := (oneShots_independent .standard operations 0 [0x61, 0x62, 0x63]
    .plain).1 (by decide +kernel)
  have hnew : (matcher.findAllWith .new 0 [0x61, 0x62, 0x63] .plain).2 = .ok [0] := by
    decide +kernel
  refine ⟨hfind.trans hnew, ?_⟩
  rw [hmatch, hfind, hnew]
  rfl

end LiteralSieve.Matcher
