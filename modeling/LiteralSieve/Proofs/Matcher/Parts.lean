import LiteralSieve.Proofs.Automaton.Lookup
import LiteralSieve.Proofs.Matcher.Operations
import LiteralSieve.Proofs.Matcher.Renewal

namespace LiteralSieve.Matcher

/-!
# Texts in parts

Scans under one version go on where the scans before them stopped, whichever groups and texts they
are of. A piece advances with the hits of its own group alone, so it is reported in the part, and at
the hit, that completes its literals as a subsequence of all hits of the group so far.
-/

open Automaton
open scoped List

/-- A scan that is never stopped. -/
structure Part (P : Type) : Type 1 where
  {σ : Type}
  group : Nat
  text : Bytes
  mode : EscapeMode
  next : σ → PatternMatch P → σ
  acc : σ

variable {P : Type} {matcher : Matcher P}

def scanPart (matcher : Matcher P) (version : UInt64) (state : ScanState) (part : Part P) :
    ScanState × Except MatchError (ForInStep part.σ) :=
  matcher.searchWith state part.group part.text part.mode version
    (fun report acc => .yield (part.next acc report)) part.acc

def stateAfter (matcher : Matcher P) (version : UInt64) (state : ScanState)
    (parts : List (Part P)) : ScanState :=
  parts.foldl (fun state part => (matcher.scanPart version state part).1) state

/-- The hits that a part shows to a group, which are those of its automaton if the part is of this
group. -/
def hitsIn (matcher : Matcher P) (g : Nat) (part : Part P) : List (Hit (List FrameId)) :=
  if part.group = g then
    (matcher.groups[g]?.map fun automaton => automaton.findAll part.text part.mode).getD []
  else []

def hitsOn (matcher : Matcher P) (g : Nat) (parts : List (Part P)) :
    List (Hit (List FrameId)) :=
  parts.flatMap (matcher.hitsIn g)

theorem hitsOn_cons (matcher : Matcher P) (g : Nat) (part : Part P) (parts : List (Part P)) :
    matcher.hitsOn g (part :: parts) = matcher.hitsIn g part ++ matcher.hitsOn g parts :=
  List.flatMap_cons

/-- The terminals of the literals of a branch in the automaton of its group. -/
def terminalsOf (matcher : Matcher P) (branch : StoredBranch) : List (Option TerminalId) :=
  branch.literals.map fun literal => matcher.groups[branch.group]?.bind (·.terminalOf? literal)

/-- The terminals of a branch are a subsequence of the hits. -/
def Completes (matcher : Matcher P) (branch : StoredBranch) (hits : List (Hit (List FrameId))) :
    Prop :=
  matcher.terminalsOf branch <+ hits.map fun hit => some hit.id

/-- What is reported of a branch in a part, after the parts before: the hit is the first one that
completes it, and the offset is that of the first hit of the first literal. -/
structure CompletedIn (matcher : Matcher P) (earlier : List (Part P)) (part : Part P)
    (branch : StoredBranch) (report : PatternMatch P) : Prop where
  group_eq : part.group = branch.group
  pattern_eq : report.pattern = branch.pattern
  hit : ∃ before hit after, matcher.hitsIn branch.group part = before ++ hit :: after ∧
    matcher.Completes branch (matcher.hitsOn branch.group earlier ++ before ++ [hit]) ∧
    ¬ matcher.Completes branch (matcher.hitsOn branch.group earlier ++ before) ∧
    report.stop = hit.stop
  start : ∃ before hit after,
    matcher.hitsOn branch.group (earlier ++ [part]) = before ++ hit :: after ∧
    (matcher.terminalsOf branch).head? = some (some hit.id) ∧
    (∀ other ∈ before, (matcher.terminalsOf branch).head? ≠ some (some other.id)) ∧
    report.offset = hit.offset

/-! ## From part to part -/

section Run

variable {version : UInt64} {cursors : Array PieceCursor} {all : PieceId → Progress}
  {state : ScanState}

theorem Agrees.scan {σ : Type} (h : matcher.Agrees version cursors all)
    (next : σ → PatternMatch P → σ) (acc : σ) (shown : List Event) :
    matcher.Agrees version
      (matcher.scan version (fun report acc => .yield (next acc report)) cursors acc shown).1
      (matcher.settleAll all shown) := by
  induction shown generalizing cursors all acc with
  | nil => exact h
  | cons event shown ih =>
      obtain ⟨hit, id⟩ := event
      rw [Matcher.scan, advance?_eq h, settleAll, List.foldl_cons, settle, ← settleAll]
      cases hprogress : matcher.progress? all hit id with
      | none => exact ih h acc
      | some moved =>
          obtain ⟨piece, progress, found⟩ := moved
          have hnext := h.update piece (seen_ne_zero_of_progress? hprogress)
          cases found with
          | none => exact ih hnext acc
          | some found => exact ih hnext (next acc found)

theorem Agrees.extend (h : matcher.Agrees version cursors all) (n : Nat) (cursor : PieceCursor) :
    matcher.Agrees version (extendArray cursors n cursor) all := by
  intro p hp
  obtain ⟨found, hfound, hall⟩ := h p hp
  have hlt := (Array.getElem?_eq_some_iff.mp hfound).1
  refine ⟨found, ?_, hall⟩
  rw [getElem?_extendArray, if_pos hlt, hfound]

/-- The state says this about all pieces, when a scan starts. -/
def Knows (matcher : Matcher P) (version : UInt64) (state : ScanState)
    (all : PieceId → Progress) : Prop :=
  matcher.Agrees version (state.prepare version matcher.pieces.size).cursors all

theorem knows_of_unseen (matcher : Matcher P) (h : state.Unseen version) :
    matcher.Knows version state fun _ => .fresh := by
  rw [← h.progressOf_eq]
  exact agrees_prepare matcher state version

/-- The events of a part. -/
def shownIn (matcher : Matcher P) (part : Part P) : List Event :=
  eventsOf (matcher.hitsIn part.group part)

def shownOn (matcher : Matcher P) (parts : List (Part P)) : List Event :=
  parts.flatMap matcher.shownIn

theorem shownOn_cons (matcher : Matcher P) (part : Part P) (parts : List (Part P)) :
    matcher.shownOn (part :: parts) = matcher.shownIn part ++ matcher.shownOn parts :=
  List.flatMap_cons

theorem hitsIn_of_ready {part : Part P} {automaton : GroupAutomaton}
    (hgroup : matcher.group part.group = .ok automaton) :
    matcher.hitsIn part.group part = automaton.findAll part.text part.mode := by
  rw [hitsIn, if_pos rfl, getElem?_groups_of_group hgroup]
  rfl

theorem hitsIn_of_not_ready {part : Part P} (h : matcher.isReady part.group = false) (g : Nat) :
    matcher.hitsIn g part = [] := by
  rw [hitsIn]
  split_ifs with hg
  · subst hg
    cases hgroup : matcher.groups[part.group]? with
    | none => rfl
    | some automaton =>
        rw [isReady_of_group (by rw [group, hgroup])] at h
        simp [Automaton.findAll, h]
  · rfl

/-- A part shows the reports of its events and leaves the pieces where they bring them. -/
theorem Knows.scanPart (h : matcher.Knows version state all) (part : Part P) :
    (matcher.isReady part.group = true → (matcher.scanPart version state part).2 =
      .ok (.yield ((matcher.reportsFrom all (matcher.shownIn part)).foldl part.next part.acc))) ∧
    matcher.Knows version (matcher.scanPart version state part).1
      (matcher.settleAll all (matcher.shownIn part)) := by
  cases hready : matcher.isReady part.group with
  | true =>
      obtain ⟨automaton, hgroup, hcompiled⟩ := exists_ready hready
      simp only [Matcher.scanPart, searchWith, hgroup, hcompiled, if_true, shownIn,
        hitsIn_of_ready hgroup]
      refine ⟨fun _ => ?_, (h.scan part.next part.acc _).extend _ _⟩
      rw [scan_eq_visitAll _ h, visitAll_eq_foldl]
      rfl
  | false =>
      obtain ⟨cause, hrefused⟩ := searchWith_of_not_ready hready
      have hnothing : matcher.shownIn part = [] := by
        rw [shownIn, hitsIn_of_not_ready hready]
        rfl
      refine ⟨fun htrue => Bool.noConfusion htrue, ?_⟩
      rw [Matcher.scanPart, hrefused, hnothing]
      exact h

/-- The reports of some parts, each with its piece. -/
structure Logs (matcher : Matcher P) (version : UInt64) (state : ScanState)
    (all : PieceId → Progress) (parts : List (Part P))
    (logs : List (List (PieceId × PatternMatch P))) : Prop where
  length_eq : logs.length = parts.length
  answer : ∀ {i part log}, parts[i]? = some part → logs[i]? = some log →
    (matcher.isReady part.group = true →
      (matcher.scanPart version (matcher.stateAfter version state (parts.take i)) part).2 =
        .ok (.yield ((log.map Prod.snd).foldl part.next part.acc))) ∧
    ∀ p report, (p, report) ∈ log →
      Reported matcher (matcher.settleAll all (matcher.shownOn (parts.take i)))
        (matcher.shownIn part) p report
  nodup : (logs.flatten.map Prod.fst).Nodup
  mem_iff : ∀ p, p ∈ logs.flatten.map Prod.fst ↔
    Finishes matcher all (matcher.shownOn parts) p

/-- The pieces that more events finish are those that the first ones finish and those that the
others finish later. -/
theorem finishes_append_iff (hclosed : matcher.Closed) (shown more : List Event) (p : Nat) :
    Finishes matcher all (shown ++ more) p ↔
      Finishes matcher all shown p ∨ Finishes matcher (matcher.settleAll all shown) more p := by
  simp only [Finishes, settleAll_append]
  constructor
  · rintro ⟨hlt, hunfinished, hfinished⟩
    cases hmid : (matcher.settleAll all shown p).finished with
    | true => exact Or.inl ⟨hlt, hunfinished, rfl⟩
    | false => exact Or.inr ⟨hlt, rfl, hfinished⟩
  · have hget : ∀ {p}, p < matcher.pieces.size → ∃ piece, matcher.pieces.get? p = some piece :=
      fun hlt => ⟨_, Array.getElem?_eq_getElem hlt⟩
    rintro (⟨hlt, hunfinished, hfinished⟩ | ⟨hlt, hmid, hfinished⟩)
    · obtain ⟨piece, hpiece⟩ := hget hlt
      refine ⟨hlt, hunfinished, ?_⟩
      rwa [settleAll_of_finished hclosed hpiece hfinished]
    · obtain ⟨piece, hpiece⟩ := hget hlt
      refine ⟨hlt, ?_, hfinished⟩
      by_contra hstart
      rw [Bool.not_eq_false] at hstart
      rw [settleAll_of_finished hclosed hpiece hstart, hstart] at hmid
      cases hmid

theorem Logs.cons (hclosed : matcher.Closed) (hknows : matcher.Knows version state all)
    {part : Part P} {parts : List (Part P)} {logs : List (List (PieceId × PatternMatch P))}
    (h : Logs matcher version (matcher.scanPart version state part).1
      (matcher.settleAll all (matcher.shownIn part)) parts logs) :
    ∃ log, Logs matcher version state all (part :: parts) (log :: logs) := by
  obtain ⟨order, hreports, hnodup, hmem⟩ :=
    reportsFrom_spec hclosed all (matcher.shownIn part)
  have hlength := hreports.length_eq
  have hfst : (order.zip (matcher.reportsFrom all (matcher.shownIn part))).map Prod.fst = order :=
    List.map_fst_zip hlength.le
  refine ⟨order.zip (matcher.reportsFrom all (matcher.shownIn part)), ?_, ?_, ?_, ?_⟩
  · rw [List.length_cons, h.length_eq, List.length_cons]
  · intro i found log hpart hlog
    cases i with
    | zero =>
        obtain rfl := Option.some.inj hpart
        obtain rfl := Option.some.inj hlog
        refine ⟨fun hready => ?_, fun p report hp => (List.forall₂_iff_zip.mp hreports).2 hp⟩
        rw [List.map_snd_zip hlength.ge]
        exact (hknows.scanPart part).1 hready
    | succ i =>
        rw [List.take_succ_cons, shownOn_cons, settleAll_append]
        exact h.answer hpart hlog
  · rw [List.flatten_cons, List.map_append, hfst, List.nodup_append']
    refine ⟨hnodup, h.nodup, fun p hfirst hlater => ?_⟩
    -- What the first part finishes is not unfinished after it.
    have hfinished := ((hmem p).mp hfirst).2.2
    rw [((h.mem_iff p).mp hlater).2.1] at hfinished
    cases hfinished
  · intro p
    rw [List.flatten_cons, List.map_append, hfst, List.mem_append, hmem, h.mem_iff]
    exact (finishes_append_iff hclosed _ _ p).symm

theorem exists_logs (hclosed : matcher.Closed) (h : matcher.Knows version state all)
    (parts : List (Part P)) : ∃ logs, Logs matcher version state all parts logs := by
  induction parts generalizing state all with
  | nil =>
      refine ⟨[], rfl, by simp, .nil, fun p => ?_⟩
      simp only [List.flatten_nil, List.map_nil, List.not_mem_nil, false_iff]
      rintro ⟨-, hunfinished, hfinished⟩
      exact Bool.false_ne_true (hunfinished.symm.trans hfinished)
  | cons part parts ih =>
      obtain ⟨logs, hlogs⟩ := ih (h.scanPart part).2
      obtain ⟨log, hlog⟩ := hlogs.cons hclosed h
      exact ⟨log :: logs, hlog⟩

end Run

/-! ## One piece in a run -/

/-- What a hit shows to a piece. -/
def keyOf (config : AutomatonConfig) (hit : Hit (List FrameId)) : Bytes × Nat :=
  (hit.terminal.key.map config.fold, hit.offset)

section Branch

variable {config : MatcherConfig} {entries : List Accepted} {p : Nat} {branch : StoredBranch}

theorem Indexed.stored_of_mem_hitsIn (h : matcher.Indexed config entries) {g : Nat} {part : Part P}
    {hit : Hit (List FrameId)} (hhit : hit ∈ matcher.hitsIn g part) : part.group = g ∧
      ∃ automaton, matcher.groups[g]? = some automaton ∧
        automaton.terminals.get? hit.id = some hit.terminal := by
  rw [hitsIn] at hhit
  split_ifs at hhit with hg
  · refine ⟨hg, ?_⟩
    cases hgroup : matcher.groups[g]? with
    | none =>
        rw [hgroup] at hhit
        cases hhit
    | some automaton =>
        rw [hgroup, Option.map_some, Option.getD_some] at hhit
        refine ⟨automaton, rfl, ?_⟩
        by_cases hcompiled : automaton.compiled = true
        · obtain ⟨located, hall, -, hmem⟩ :=
            (h.built hgroup).stores.findAll_spec hcompiled part.text part.mode
          rw [hall] at hhit
          obtain ⟨⟨e, hit⟩, hin, rfl⟩ := List.mem_map.mp hhit
          obtain ⟨_, _, -, -, hfound⟩ := (hmem e hit).mp hin
          exact hfound.stored
        · simp [Automaton.findAll, hcompiled] at hhit
  · cases hhit

theorem Indexed.stored_of_mem_hitsOn (h : matcher.Indexed config entries) {g : Nat}
    {parts : List (Part P)} {hit : Hit (List FrameId)} (hhit : hit ∈ matcher.hitsOn g parts) :
    ∃ automaton, matcher.groups[g]? = some automaton ∧
      automaton.terminals.get? hit.id = some hit.terminal := by
  obtain ⟨part, -, hpart⟩ := List.mem_flatMap.mp hhit
  exact (h.stored_of_mem_hitsIn hpart).2

theorem Indexed.settleAll_hits (h : matcher.Indexed config entries)
    (hbranch : (storedBranches entries)[p]? = some branch) (all : PieceId → Progress)
    {part : Part P} {hits : List (Hit (List FrameId))}
    (hhits : ∀ hit ∈ hits, hit ∈ matcher.hitsIn part.group part) :
    matcher.settleAll all (eventsOf hits) p =
      if part.group = branch.group then
        (hits.map (keyOf config.automatonConfig)).foldl
          (Progress.advance (branch.folded config.automatonConfig)) (all p)
      else all p := by
  cases hgroup : matcher.groups[part.group]? with
  | none =>
      have hnil : hits = [] := by
        rw [List.eq_nil_iff_forall_not_mem]
        intro hit hhit
        obtain ⟨-, automaton, hsome, -⟩ := h.stored_of_mem_hitsIn (hhits hit hhit)
        rw [hgroup] at hsome
        cases hsome
      rw [hnil]
      split_ifs <;> rfl
  | some automaton =>
      have hstores := (h.built hgroup).stores
      have hkey : keyAt automaton = keyOf config.automatonConfig := by
        rw [← hstores.config_eq]
        rfl
      rw [settleAll_eventsOf h hstores hbranch all hits, hkey]
      · exact if_congr eq_comm rfl rfl
      · intro hit hhit
        obtain ⟨-, other, hsome, hstored⟩ := h.stored_of_mem_hitsIn (hhits hit hhit)
        rw [hgroup] at hsome
        obtain rfl := Option.some.inj hsome
        exact hstored

theorem Indexed.settleAll_shownOn (h : matcher.Indexed config entries)
    (hbranch : (storedBranches entries)[p]? = some branch) (all : PieceId → Progress)
    (parts : List (Part P)) :
    matcher.settleAll all (matcher.shownOn parts) p =
      ((matcher.hitsOn branch.group parts).map (keyOf config.automatonConfig)).foldl
        (Progress.advance (branch.folded config.automatonConfig)) (all p) := by
  induction parts generalizing all with
  | nil => rfl
  | cons part parts ih =>
      rw [shownOn_cons, settleAll_append, ih, shownIn,
        h.settleAll_hits hbranch all fun _ hhit => hhit, hitsOn_cons, List.map_append,
        List.foldl_append]
      split_ifs with hgroup
      · rw [hgroup]
      · have hnone : matcher.hitsIn branch.group part = [] := if_neg hgroup
        rw [hnone]
        rfl

theorem map_eq_map_of_iff {α β γ δ : Type*} {f : α → γ} {g : β → γ} {f' : α → δ} {g' : β → δ}
    {xs : List α} {ys : List β} (h : ∀ x ∈ xs, ∀ y ∈ ys, f x = g y → f' x = g' y)
    (heq : xs.map f = ys.map g) : xs.map f' = ys.map g' := by
  induction xs generalizing ys with
  | nil => rw [List.map_eq_nil_iff.mp (heq.symm.trans List.map_nil), List.map_nil, List.map_nil]
  | cons x xs ih =>
      obtain ⟨y, ys, rfl, hhead, htail⟩ := List.map_eq_cons_iff.mp heq.symm
      rw [List.map_cons, List.map_cons, h x (by simp) y (by simp) hhead.symm]
      exact congrArg _ (ih (fun a ha b hb => h a (by simp [ha]) b (by simp [hb])) htail.symm)

theorem map_sublist_map_of {α β γ δ : Type*} {f : α → γ} {g : β → γ} {f' : α → δ} {g' : β → δ}
    {xs : List α} {ys : List β} (h : ∀ x ∈ xs, ∀ y ∈ ys, f x = g y → f' x = g' y)
    (hsub : xs.map f <+ ys.map g) : xs.map f' <+ ys.map g' := by
  obtain ⟨zs, hzs, heq⟩ := List.sublist_map_iff.mp hsub
  rw [map_eq_map_of_iff (fun x hx y hy => h x hx y (hzs.subset hy)) heq]
  exact hzs.map g'

theorem Indexed.terminal_eq_iff (h : matcher.Indexed config entries) (literal : Bytes)
    {hit : Hit (List FrameId)} {g : Nat} (hstored : ∃ automaton, matcher.groups[g]? = some automaton ∧
      automaton.terminals.get? hit.id = some hit.terminal) :
    matcher.groups[g]?.bind (·.terminalOf? literal) = some hit.id ↔
      literal.map config.automatonConfig.fold = (keyOf config.automatonConfig hit).1 := by
  obtain ⟨automaton, hgroup, hget⟩ := hstored
  rw [hgroup, Option.bind_some]
  exact (h.built hgroup).stores.terminalOf?_eq_id_iff hget

/-- The terminals are a subsequence of the hits if the folded literals are one of their keys. -/
theorem Indexed.completes_iff (h : matcher.Indexed config entries)
    {hits : List (Hit (List FrameId))} (hstored : ∀ hit ∈ hits, ∃ automaton,
      matcher.groups[branch.group]? = some automaton ∧
        automaton.terminals.get? hit.id = some hit.terminal) :
    matcher.Completes branch hits ↔
      branch.folded config.automatonConfig <+
        (hits.map (keyOf config.automatonConfig)).map Prod.fst := by
  rw [List.map_map]
  constructor
  · exact map_sublist_map_of fun literal _ hit hhit => (h.terminal_eq_iff literal (hstored hit hhit)).mp
  · exact map_sublist_map_of fun literal _ hit hhit => (h.terminal_eq_iff literal (hstored hit hhit)).mpr

theorem Indexed.seen_hits (h : matcher.Indexed config entries)
    (hbranch : (storedBranches entries)[p]? = some branch) (hits : List (Hit (List FrameId))) :
    Progress.Seen (branch.folded config.automatonConfig)
      (hits.map (keyOf config.automatonConfig))
      ((hits.map (keyOf config.automatonConfig)).foldl
        (Progress.advance (branch.folded config.automatonConfig)) .fresh) := by
  have hne := h.literals_ne_nil branch (List.mem_of_getElem? hbranch)
  exact Progress.seen_foldl_advance (by simpa [StoredBranch.folded] using hne) _

theorem Indexed.exists_first_hit (h : matcher.Indexed config entries)
    (hbranch : (storedBranches entries)[p]? = some branch) {hits : List (Hit (List FrameId))}
    (hstored : ∀ hit ∈ hits, ∃ automaton, matcher.groups[branch.group]? = some automaton ∧
      automaton.terminals.get? hit.id = some hit.terminal) {progress : Progress}
    (hprogress : Progress.Seen (branch.folded config.automatonConfig)
      (hits.map (keyOf config.automatonConfig)) progress)
    (hfinished : progress.finished = true) :
    ∃ before hit after, hits = before ++ hit :: after ∧
      (matcher.terminalsOf branch).head? = some (some hit.id) ∧
      (∀ other ∈ before, (matcher.terminalsOf branch).head? ≠ some (some other.id)) ∧
      progress.start = hit.offset := by
  have hne := h.literals_ne_nil branch (List.mem_of_getElem? hbranch)
  have hseen : progress.seen ≠ 0 := by
    rw [hprogress.finished_iff.mp hfinished, StoredBranch.folded, List.length_map]
    exact (List.length_pos_iff.mpr hne).ne'
  obtain ⟨literal, literals, hliterals⟩ := List.exists_cons_of_ne_nil hne
  have hhead : ∀ hit ∈ hits, (matcher.terminalsOf branch).head? = some (some hit.id) ↔
      (branch.folded config.automatonConfig).head? =
        some (keyOf config.automatonConfig hit).1 := by
    intro hit hhit
    simp only [terminalsOf, StoredBranch.folded, hliterals, List.map_cons, List.head?_cons,
      Option.some_inj]
    exact h.terminal_eq_iff literal (hstored hit hhit)
  obtain ⟨front, first, back, hsplit, hfirst, hfront, hstart⟩ := hprogress.start_eq hseen
  obtain ⟨before, tail, rfl, rfl, htail⟩ := List.map_eq_append_iff.mp hsplit
  obtain ⟨hit, after, rfl, rfl, -⟩ := List.map_eq_cons_iff.mp htail
  refine ⟨before, hit, after, rfl, (hhead hit (by simp)).mpr hfirst, fun other hother => ?_, hstart⟩
  rw [Ne, hhead other (by simp [hother])]
  exact hfront _ (List.mem_map_of_mem hother)

theorem Indexed.completedIn (h : matcher.Indexed config entries)
    (hbranch : (storedBranches entries)[p]? = some branch) (earlier : List (Part P))
    {part : Part P} {report : PatternMatch P}
    (hreport : Reported matcher (matcher.settleAll (fun _ => .fresh) (matcher.shownOn earlier))
      (matcher.shownIn part) p report) : CompletedIn matcher earlier part branch report := by
  obtain ⟨front, hit, back, hhits, hunfinished, hfinished, hpattern, hstop, hoffset⟩ :=
    hreport.exists_hit h.closed (h.get?_piece_of_branch hbranch)
  have hin : ∀ other ∈ front ++ [hit], other ∈ matcher.hitsIn part.group part := by
    intro other hother
    rw [hhits, List.append_cons]
    exact List.mem_append_left _ hother
  rw [h.settleAll_hits hbranch _ fun other hother => hin other (List.mem_append_left _ hother),
    h.settleAll_shownOn hbranch] at hunfinished
  rw [h.settleAll_hits hbranch _ hin, h.settleAll_shownOn hbranch] at hfinished hoffset
  by_cases hgroup : part.group = branch.group
  · simp only [if_pos hgroup, ← List.foldl_append, ← List.map_append] at hunfinished hfinished hoffset
    rw [hgroup] at hhits hin
    have hstored : ∀ other ∈ matcher.hitsOn branch.group earlier ++ (front ++ [hit]), ∃ automaton,
        matcher.groups[branch.group]? = some automaton ∧
          automaton.terminals.get? other.id = some other.terminal := by
      intro other hother
      rcases List.mem_append.mp hother with hold | hnew
      · exact h.stored_of_mem_hitsOn hold
      · exact (h.stored_of_mem_hitsIn (hin other hnew)).2
    have hbefore : ∀ other ∈ matcher.hitsOn branch.group earlier ++ front, ∃ automaton,
        matcher.groups[branch.group]? = some automaton ∧
          automaton.terminals.get? other.id = some other.terminal := by
      intro other hother
      apply hstored other
      rw [← List.append_assoc]
      exact List.mem_append_left _ hother
    refine ⟨hgroup, hpattern, ⟨front, hit, back, hhits, ?_, fun hcompletes => ?_, hstop⟩, ?_⟩
    · rw [List.append_assoc, h.completes_iff hstored]
      exact (h.seen_hits hbranch _).finished_iff_sublist.mp hfinished
    · rw [h.completes_iff hbefore] at hcompletes
      rw [(h.seen_hits hbranch _).finished_iff_sublist.mpr hcompletes] at hunfinished
      cases hunfinished
    · obtain ⟨before, first, after, hsplit, hfirst, hothers, hstart⟩ :=
        h.exists_first_hit hbranch hstored (h.seen_hits hbranch _) hfinished
      refine ⟨before, first, after ++ back, ?_, hfirst, hothers, hoffset.trans hstart⟩
      have hall : matcher.hitsOn branch.group (earlier ++ [part]) =
          matcher.hitsOn branch.group earlier ++ (front ++ [hit]) ++ back := by
        simp [hitsOn, hhits]
      rw [hall, hsplit, List.append_assoc, List.cons_append]
  · -- A part of another group does not move the piece.
    rw [if_neg hgroup] at hunfinished hfinished
    rw [hunfinished] at hfinished
    cases hfinished

theorem Indexed.finishes_shownOn_iff (h : matcher.Indexed config entries) (parts : List (Part P))
    (p : Nat) : Finishes matcher (fun _ => .fresh) (matcher.shownOn parts) p ↔
      ∃ branch, (storedBranches entries)[p]? = some branch ∧
        matcher.Completes branch (matcher.hitsOn branch.group parts) := by
  have hfinished : ∀ {branch : StoredBranch}, (storedBranches entries)[p]? = some branch →
      ((matcher.settleAll (fun _ => .fresh) (matcher.shownOn parts) p).finished = true ↔
        matcher.Completes branch (matcher.hitsOn branch.group parts)) := by
    intro branch hbranch
    rw [h.settleAll_shownOn hbranch, h.completes_iff fun _ => h.stored_of_mem_hitsOn]
    exact (h.seen_hits hbranch _).finished_iff_sublist
  constructor
  · rintro ⟨hlt, -, hend⟩
    have hpiece := h.get?_piece p
    rw [Pool.get?, Array.getElem?_eq_getElem hlt] at hpiece
    obtain ⟨branch, hbranch, -⟩ := Option.map_eq_some_iff.mp hpiece.symm
    exact ⟨branch, hbranch, (hfinished hbranch).mp hend⟩
  · rintro ⟨branch, hbranch, hcompletes⟩
    exact ⟨Pool.lt_size_of_get? (h.get?_piece_of_branch hbranch), rfl,
      (hfinished hbranch).mpr hcompletes⟩

end Branch

/-- Under a version that is new to a state, scans that are never stopped report a piece exactly if
its terminals are a subsequence of the hits of its group in all of them. It is reported once, where
they are complete first. -/
theorem reports_of_parts [Verifier P] (config : MatcherConfig) (operations : List (Operation P))
    (calls : List StateCall) (version : UInt64) (hnew : ScanState.IsNew calls version)
    (parts : List (Part P)) :
    let matcher := performed config operations
    let branches := storedBranches (stored config operations)
    let start := ScanState.new.afterAll calls
    ∃ logs : List (List (PieceId × PatternMatch P)),
      logs.length = parts.length ∧
      (∀ i part log, parts[i]? = some part → logs[i]? = some log →
        (matcher.isReady part.group = true →
          (matcher.scanPart version (matcher.stateAfter version start (parts.take i)) part).2 =
            .ok (.yield ((log.map Prod.snd).foldl part.next part.acc))) ∧
        ∀ p report, (p, report) ∈ log → ∃ branch, branches[p]? = some branch ∧
          CompletedIn matcher (parts.take i) part branch report) ∧
      (logs.flatten.map Prod.fst).Nodup ∧
      ∀ p, p ∈ logs.flatten.map Prod.fst ↔ ∃ branch, branches[p]? = some branch ∧
        matcher.Completes branch (matcher.hitsOn branch.group parts) := by
  intro matcher branches start
  have hindexed : matcher.Indexed matcher.config (stored config operations) :=
    indexed_performed config operations
  obtain ⟨logs, hlogs⟩ := exists_logs hindexed.closed
    (matcher.knows_of_unseen (ScanState.unseen_of_isNew hnew)) parts
  refine ⟨logs, hlogs.length_eq, fun i part log hpart hlog => ?_, hlogs.nodup, fun p =>
    (hlogs.mem_iff p).trans (hindexed.finishes_shownOn_iff parts p)⟩
  obtain ⟨hanswer, hreported⟩ := hlogs.answer hpart hlog
  refine ⟨hanswer, fun p report hp => ?_⟩
  have hreport := hreported p report hp
  obtain ⟨before, after, event, hat⟩ := id hreport
  obtain ⟨piece, hpiece, -⟩ := Option.map_eq_some_iff.mp hat.pattern_eq
  rw [hindexed.get?_piece] at hpiece
  obtain ⟨branch, hbranch, -⟩ := Option.map_eq_some_iff.mp hpiece
  exact ⟨branch, hbranch, hindexed.completedIn hbranch (parts.take i) hreport⟩

/-- The two literals of a pattern come in two parts, after a scan under another version. -/
theorem reports_of_parts_split :
    let operations : List (Operation Needle) := [
      .call (.build (.addPattern 0 "ab.*cd" ⟨[0x61]⟩)), .compileAll]
    let matcher := performed .standard operations
    let calls : List StateCall := [
      ⟨matcher, .search 0 [0x61, 0x62] .plain 1 (fun _ n => .yield (n + 1)) 0⟩]
    let parts : List (Part Needle) := [
      ⟨0, [0x61, 0x62], .plain, fun n _ => n + 1, 0⟩,
      ⟨0, [0x78, 0x63, 0x64], .plain, fun n _ => n + 1, 0⟩]
    ScanState.IsNew calls 2 ∧ ∃ logs : List (List (PieceId × PatternMatch Needle)),
      logs.length = parts.length ∧ 0 ∈ logs.flatten.map Prod.fst := by
  intro operations matcher calls parts
  have hnew : ScanState.IsNew calls 2 := Or.inl (by decide +kernel)
  obtain ⟨logs, hlength, -, -, hmem⟩ :=
    reports_of_parts .standard operations calls 2 hnew parts
  have hbranch : (storedBranches (stored .standard operations))[0]? =
      some ⟨0, 0, [[0x61, 0x62], [0x63, 0x64]]⟩ := by decide +kernel
  have hcompletes : matcher.Completes ⟨0, 0, [[0x61, 0x62], [0x63, 0x64]]⟩
      (matcher.hitsOn 0 parts) := by
    unfold Completes
    decide +kernel
  exact ⟨hnew, logs, hlength, (hmem 0).mpr ⟨_, hbranch, hcompletes⟩⟩

end LiteralSieve.Matcher
