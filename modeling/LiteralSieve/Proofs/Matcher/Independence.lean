import LiteralSieve.Proofs.Matcher.Frames
import LiteralSieve.Proofs.Matcher.Neighbours

namespace LiteralSieve

/-!
# Patterns do not interfere

A scan does to the cursors of a pattern what the sightings of its own literals do, and reports it
accordingly, whatever patterns stand beside it. So two matchers with the same configuration report a
pattern that both have in the same places, call by call, under whatever versions.
-/

open Automaton

namespace PieceCursor

/-- A literal moves a cursor if the cursor counts for it and the literal is the missing one. -/
def move? (cursor : PieceCursor) (version : UInt64) (size position offset : Nat) :
    Option PieceCursor :=
  (cursor.renew? version position).bind fun cursor => cursor.accept? size position offset

end PieceCursor

/-! ## A pattern on its own -/

/-- What a sighting does to the cursors of a pattern, with the offset and the end it reports. -/
def ownStep (sizes : List Nat) (version : UInt64) (cursors : Nat → PieceCursor)
    (sighting : Sighting) : (Nat → PieceCursor) × List (Nat × Nat) :=
  match (cursors sighting.branch).move? version (sizes.getD sighting.branch 0) sighting.position
    sighting.offset with
  | none => (cursors, [])
  | some cursor =>
    (Function.update cursors sighting.branch cursor,
      if cursor.finished then [(cursor.start, sighting.stop)] else [])

def ownScan (sizes : List Nat) (version : UInt64) (cursors : Nat → PieceCursor) :
    List Sighting → (Nat → PieceCursor) × List (Nat × Nat)
  | [] => (cursors, [])
  | sighting :: rest =>
    let step := ownStep sizes version cursors sighting
    let later := ownScan sizes version step.1 rest
    (later.1, step.2 ++ later.2)

namespace Matcher

variable {P : Type} {matcher : Matcher P} {version : UInt64} {cursors : Array PieceCursor}

def spansOf (id : PatternId) (log : List (PatternMatch P)) : List (Nat × Nat) :=
  (log.filter fun report => report.pattern = id).map fun report => (report.offset, report.stop)

theorem spansOf_append (id : PatternId) (log more : List (PatternMatch P)) :
    spansOf id (log ++ more) = spansOf id log ++ spansOf id more := by
  rw [spansOf, List.filter_append, List.map_append]
  rfl

/-! ## One event -/

/-- The cursors after an event, with what it reports. -/
def moved (matcher : Matcher P) (version : UInt64) (cursors : Array PieceCursor) (event : Event) :
    Array PieceCursor × List (PatternMatch P) :=
  match matcher.advance? cursors version event.1 event.2 with
  | none => (cursors, [])
  | some (p, cursor, found) => (cursors.setIfInBounds p cursor, found.toList)

theorem scan_cons {σ : Type} (next : σ → PatternMatch P → σ) (acc : σ) (event : Event)
    (shown : List Event) :
    matcher.scan version (fun report acc => .yield (next acc report)) cursors acc
        (event :: shown) =
      matcher.scan version (fun report acc => .yield (next acc report))
        (matcher.moved version cursors event).1
        ((matcher.moved version cursors event).2.foldl next acc) shown := by
  obtain ⟨hit, f⟩ := event
  rw [scan, moved]
  cases matcher.advance? cursors version hit f with
  | none => rfl
  | some found =>
      obtain ⟨p, cursor, report⟩ := found
      cases report <;> rfl

theorem exists_piece_of_advance? {hit : Hit (List FrameId)} {f p : Nat} {next : PieceCursor}
    {found : Option (PatternMatch P)}
    (h : matcher.advance? cursors version hit f = some (p, next, found)) :
    ∃ frame piece, matcher.frames.get? f = some frame ∧ frame.piece = p ∧
      matcher.pieces.get? p = some piece ∧ ∀ report ∈ found, report.pattern = piece.pattern := by
  simp only [advance?, Option.bind_eq_bind, Option.bind_eq_some_iff] at h
  obtain ⟨frame, hframe, piece, hpiece, cursor, -, renewed, -, accepted, -, h⟩ := h
  split_ifs at h
  · obtain ⟨entry, -, h⟩ := Option.bind_eq_some_iff.mp h
    obtain ⟨rfl, rfl, rfl⟩ := h
    refine ⟨frame, piece, hframe, rfl, hpiece, fun report hreport => ?_⟩
    obtain rfl := Option.some.inj hreport
    rfl
  · obtain ⟨rfl, rfl, rfl⟩ := h
    exact ⟨frame, piece, hframe, rfl, hpiece, by simp⟩

theorem moved_of_frame {hit : Hit (List FrameId)} {f : Nat} {frame : Frame} {piece : Piece}
    {cursor : PieceCursor} {entry : PatternEntry P} (hframe : matcher.frames.get? f = some frame)
    (hpiece : matcher.pieces.get? frame.piece = some piece)
    (hcursor : cursors[frame.piece]? = some cursor)
    (hentry : matcher.patterns.get? piece.pattern = some entry) :
    matcher.moved version cursors (hit, f) =
      match cursor.move? version piece.size frame.position hit.offset with
      | none => (cursors, [])
      | some next => (cursors.setIfInBounds frame.piece next,
          if next.finished then
            [⟨piece.pattern, entry.payload, next.start, hit.stop, hit.terminal.key⟩]
          else []) := by
  simp only [moved, advance?, PieceCursor.move?, hframe, hpiece, hcursor, hentry,
    Option.bind_eq_bind, Option.bind_some]
  cases cursor.renew? version frame.position with
  | none => rfl
  | some renewed =>
      rw [Option.bind_some, Option.bind_some]
      cases renewed.accept? piece.size frame.position hit.offset with
      | none => rfl
      | some next =>
          rw [Option.bind_some]
          split_ifs with hfinished <;> simp [hfinished]

/-! ## Cursors of one pattern -/

/-- The pieces of a pattern, from a number on, have these sizes. -/
structure Seats (matcher : Matcher P) (id base : Nat) (sizes : List Nat) : Prop where
  own : ∀ {p piece}, matcher.pieces.get? p = some piece → piece.pattern = id →
    ∃ k, p = base + k ∧ sizes[k]? = some piece.size
  exists_own : ∀ {k}, k < sizes.length →
    ∃ piece, matcher.pieces.get? (base + k) = some piece ∧ piece.pattern = id
  closed : matcher.Closed

def cursorOf (cursors : Array PieceCursor) (p : PieceId) : PieceCursor :=
  cursors[p]?.getD (.fresh 0)

/-- The cursors of the pieces of a pattern are these. -/
def Reflects (base count : Nat) (cursors : Array PieceCursor) (own : Nat → PieceCursor) : Prop :=
  ∀ k < count, cursorOf cursors (base + k) = own k

section Own

variable {id base : Nat} {sizes : List Nat} {own : Nat → PieceCursor}

theorem Reflects.set {count : Nat} (h : Reflects base count cursors own) {k : Nat}
    (hk : base + k < cursors.size) (cursor : PieceCursor) :
    Reflects base count (cursors.setIfInBounds (base + k) cursor)
      (Function.update own k cursor) := by
  intro j hj
  by_cases he : j = k
  · subst he
    rw [cursorOf, Array.getElem?_setIfInBounds_self, if_pos hk, Function.update_self]
    rfl
  · rw [cursorOf, Array.getElem?_setIfInBounds_ne (by omega), Function.update_of_ne he]
    exact h j hj

theorem Reflects.set_other {count : Nat} (h : Reflects base count cursors own) {p : Nat}
    (hp : ∀ k < count, base + k ≠ p) (cursor : PieceCursor) :
    Reflects base count (cursors.setIfInBounds p cursor) own := by
  intro j hj
  rw [cursorOf, Array.getElem?_setIfInBounds_ne (hp j hj).symm]
  exact h j hj

theorem size_moved (event : Event) :
    (matcher.moved version cursors event).1.size = cursors.size := by
  rw [moved]
  split
  · rfl
  · exact Array.size_setIfInBounds

theorem Seats.moved_of_none (h : matcher.Seats id base sizes) (version : UInt64)
    (hreflects : Reflects base sizes.length cursors own) {event : Event}
    (hnone : matcher.sighting? id base event = none) :
    Reflects base sizes.length (matcher.moved version cursors event).1 own ∧
      spansOf id (matcher.moved version cursors event).2 = [] := by
  obtain ⟨hit, f⟩ := event
  rw [moved]
  cases hadvance : matcher.advance? cursors version hit f with
  | none => exact ⟨hreflects, rfl⟩
  | some step =>
      obtain ⟨p, next, found⟩ := step
      obtain ⟨frame, piece, hframe, rfl, hpiece, hreport⟩ := exists_piece_of_advance? hadvance
      have hother : piece.pattern ≠ id := by
        intro hsame
        simp [sighting?, hframe, hpiece, hsame] at hnone
      refine ⟨hreflects.set_other (fun k hk he => ?_) next, ?_⟩
      · obtain ⟨own, hown, hpattern⟩ := h.exists_own hk
        rw [he, hpiece] at hown
        obtain rfl := Option.some.inj hown
        exact hother hpattern
      · rw [spansOf, List.filter_eq_nil_iff.mpr, List.map_nil]
        intro report hmem
        rw [hreport report (Option.mem_toList.mp hmem), decide_eq_true_eq]
        exact hother

theorem Seats.moved_of_some (h : matcher.Seats id base sizes) (version : UInt64)
    (hsize : matcher.pieces.size ≤ cursors.size)
    (hreflects : Reflects base sizes.length cursors own) {event : Event} {sighting : Sighting}
    (hsome : matcher.sighting? id base event = some sighting) :
    Reflects base sizes.length (matcher.moved version cursors event).1
        (ownStep sizes version own sighting).1 ∧
      spansOf id (matcher.moved version cursors event).2 =
        (ownStep sizes version own sighting).2 := by
  obtain ⟨hit, f⟩ := event
  obtain ⟨frame, hframe, hsome⟩ := Option.bind_eq_some_iff.mp hsome
  obtain ⟨piece, hpiece, hsome⟩ := Option.bind_eq_some_iff.mp hsome
  split_ifs at hsome with hpattern
  obtain rfl := Option.some.inj hsome
  obtain ⟨k, hk, hpieceSize⟩ := h.own hpiece hpattern
  have hlt := (Pool.lt_size_of_get? hpiece).trans_le hsize
  obtain ⟨entry, hentry⟩ := h.closed hpiece
  have hbranch : frame.piece - base = k := hk ▸ Nat.add_sub_cancel_left base k
  have hown : own k = cursors[frame.piece] := by
    have hcursor := hreflects k (List.getElem?_eq_some_iff.mp hpieceSize).1
    rw [cursorOf, ← hk, Array.getElem?_eq_getElem hlt] at hcursor
    exact hcursor.symm
  rw [moved_of_frame hframe hpiece (Array.getElem?_eq_getElem hlt) hentry, ownStep]
  simp only [hbranch, hown, List.getD_eq_getElem?_getD, hpieceSize, Option.getD_some]
  cases cursors[frame.piece].move? version piece.size frame.position hit.offset with
  | none => exact ⟨hreflects, rfl⟩
  | some next =>
      refine ⟨?_, ?_⟩
      · have hset := hreflects.set (hk ▸ hlt) next
        rwa [← hk] at hset
      · by_cases hfinished : next.finished = true <;> simp [spansOf, hfinished, hpattern]

/-! ## One scan -/

/-- A scan that is never stopped reports the pattern as its sightings do on their own. -/
theorem Seats.exists_log (h : matcher.Seats id base sizes) (version : UInt64)
    (hsize : matcher.pieces.size ≤ cursors.size)
    (hreflects : Reflects base sizes.length cursors own) (shown : List Event) :
    ∃ after log, (∀ {σ : Type} (next : σ → PatternMatch P → σ) (acc : σ),
        matcher.scan version (fun report acc => .yield (next acc report)) cursors acc shown =
          (after, .yield (log.foldl next acc))) ∧
      Reflects base sizes.length after
        (ownScan sizes version own (shown.filterMap (matcher.sighting? id base))).1 ∧
      spansOf id log =
        (ownScan sizes version own (shown.filterMap (matcher.sighting? id base))).2 := by
  -- The invariant is that the cursors of the pattern are those that it would have on its own.
  induction shown generalizing cursors own with
  | nil => exact ⟨cursors, [], fun _ _ => rfl, hreflects, rfl⟩
  | cons event shown ih =>
      have hsize' : matcher.pieces.size ≤ (matcher.moved version cursors event).1.size := by
        rwa [size_moved]
      cases hsighting : matcher.sighting? id base event with
      | none =>
          obtain ⟨hnext, hspans⟩ := h.moved_of_none version hreflects hsighting
          obtain ⟨after, log, hscan, hafter, hlog⟩ := ih hsize' hnext
          refine ⟨after, (matcher.moved version cursors event).2 ++ log, fun next acc => ?_, ?_, ?_⟩
          · rw [scan_cons, hscan, List.foldl_append]
          · rwa [List.filterMap_cons_none hsighting]
          · rw [List.filterMap_cons_none hsighting, spansOf_append, hspans, hlog, List.nil_append]
      | some sighting =>
          obtain ⟨hnext, hspans⟩ := h.moved_of_some version hsize hreflects hsighting
          obtain ⟨after, log, hscan, hafter, hlog⟩ := ih hsize' hnext
          refine ⟨after, (matcher.moved version cursors event).2 ++ log, fun next acc => ?_, ?_, ?_⟩
          · rw [scan_cons, hscan, List.foldl_append]
          · rwa [List.filterMap_cons_some hsighting]
          · rw [List.filterMap_cons_some hsighting, spansOf_append, hspans, hlog]
            rfl

end Own

/-! ## Calls on one state -/

/-- A scan, without its callback. -/
structure Pass where
  version : UInt64
  group : Nat
  text : Bytes
  mode : EscapeMode

/-- Calls on a state report this, whatever their callbacks do with it as long as they never stop. -/
inductive Tells (matcher : Matcher P) :
    ScanState → List Pass → List (Except MatchError (List (PatternMatch P))) → Prop
  | nil (state) : Tells matcher state [] []
  | cons {state after pass log passes logs}
      (answer : ∀ {σ : Type} (next : σ → PatternMatch P → σ) (acc : σ),
        matcher.searchWith state pass.group pass.text pass.mode pass.version
            (fun report acc => .yield (next acc report)) acc =
          (after, log.map fun reports => .yield (reports.foldl next acc)))
      (rest : Tells matcher after passes logs) : Tells matcher state (pass :: passes) (log :: logs)

/-- There is one log only, since a callback may keep all reports. -/
theorem Tells.unique {state : ScanState} {passes : List Pass}
    {logs others : List (Except MatchError (List (PatternMatch P)))}
    (h : matcher.Tells state passes logs) (h' : matcher.Tells state passes others) :
    logs = others := by
  induction h generalizing others with
  | nil state =>
      cases h'
      rfl
  | @cons state after pass log passes logs hanswer hrest ih =>
      obtain _ | @⟨_, after', _, other, _, others, hanswer', hrest'⟩ := h'
      have hkept := hanswer (fun kept report => report :: kept) []
      rw [hanswer'] at hkept
      obtain ⟨rfl, hsame⟩ := Prod.mk.inj hkept
      rw [ih hrest']
      congr 1
      cases log <;> cases other <;> simp [Except.map] at hsame <;> rw [hsame]

/-- A matcher that is compiled and has stored a pattern with these branches. -/
structure Serves (config : MatcherConfig) (g id base : Nat) (branches : List KeywordBranch)
    (matcher : Matcher P) : Prop where
  exists_entries : ∃ entries, matcher.Indexed config entries ∧
    Lodging g id base branches (storedBranches entries)
  size_eq : matcher.groups.size = config.groups
  compiled : ∀ {g : Nat} {automaton}, matcher.groups[g]? = some automaton →
    automaton.compiled = true

variable {config : MatcherConfig} {g id base : Nat} {branches : List KeywordBranch}

theorem Serves.seats (h : Serves config g id base branches matcher) :
    matcher.Seats id base (branches.map List.length) where
  own := by
    obtain ⟨entries, hindexed, hlodging⟩ := h.exists_entries
    intro p piece hpiece hpattern
    rw [hindexed.get?_piece] at hpiece
    obtain ⟨branch, hbranch, rfl⟩ := Option.map_eq_some_iff.mp hpiece
    obtain ⟨k, literals, hp, hliterals, rfl⟩ := hlodging.exists_of_pattern_eq hbranch hpattern
    refine ⟨k, hp, ?_⟩
    rw [List.getElem?_map, hliterals]
    rfl
  exists_own := by
    obtain ⟨entries, hindexed, hlodging⟩ := h.exists_entries
    intro k hk
    rw [List.length_map] at hk
    have hbranch := hlodging.getElem? (List.getElem?_eq_getElem hk)
    exact ⟨_, hindexed.get?_piece_of_branch hbranch, rfl⟩
  closed := by
    obtain ⟨entries, hindexed, -⟩ := h.exists_entries
    exact hindexed.closed

/-- What a pass shows to a pattern of a group. -/
def SightingsOf (config : MatcherConfig) (g : Nat) (branches : List KeywordBranch) (pass : Pass)
    (sightings : List Sighting) : Prop :=
  if pass.group = g then
    ∃ spans, Spans config branches (pass.mode.letters pass.text) spans ∧
      sightings = spans.flatMap (·.sightings config.automatonConfig branches)
  else sightings = []

theorem SightingsOf.unique {pass : Pass} {sightings others : List Sighting}
    (h : SightingsOf config g branches pass sightings)
    (h' : SightingsOf config g branches pass others) : sightings = others := by
  rw [SightingsOf] at h h'
  split_ifs at h h'
  · obtain ⟨spans, hspans, rfl⟩ := h
    obtain ⟨spans', hspans', rfl⟩ := h'
    rw [hspans.unique hspans']
  · rw [h, h']

theorem Serves.sightingsOf (h : Serves config g id base branches matcher) {pass : Pass}
    {automaton : GroupAutomaton} (hgroup : matcher.groups[pass.group]? = some automaton) :
    SightingsOf config g branches pass
      ((events automaton pass.text pass.mode).filterMap (matcher.sighting? id base)) := by
  obtain ⟨entries, hindexed, hlodging⟩ := h.exists_entries
  have hcompiled := h.compiled hgroup
  rw [SightingsOf]
  split_ifs with hg
  · exact hindexed.exists_spans hlodging (hg ▸ hgroup) hcompiled pass.text pass.mode
  · exact hindexed.sightings_of_other hlodging (Ne.symm hg) hgroup hcompiled pass.text pass.mode

theorem cursorOf_extendArray (cursors : Array PieceCursor) (n p : Nat) :
    cursorOf (extendArray cursors n (.fresh 0)) p = cursorOf cursors p := by
  rw [cursorOf, cursorOf, getElem?_extendArray]
  split_ifs with hlt hn
  · rfl
  · rw [Array.getElem?_eq_none (Nat.not_lt.mp hlt)]
    rfl
  · rw [Array.getElem?_eq_none (Nat.not_lt.mp hlt)]

theorem size_le_extendArray (cursors : Array PieceCursor) (n : Nat) (cursor : PieceCursor) :
    n ≤ (extendArray cursors n cursor).size := by
  rw [extendArray, Array.size_append, Array.size_replicate]
  omega

/-- A call reports the pattern, and moves its cursors, as its sightings do on their own. -/
theorem Serves.exists_log (h : Serves config g id base branches matcher) {state : ScanState}
    {own : Nat → PieceCursor} (hreflects : Reflects base branches.length state.cursors own)
    {pass : Pass} (hlt : pass.group < config.groups) :
    ∃ after log sightings, SightingsOf config g branches pass sightings ∧
      (∀ {σ : Type} (next : σ → PatternMatch P → σ) (acc : σ),
        matcher.searchWith state pass.group pass.text pass.mode pass.version
            (fun report acc => .yield (next acc report)) acc =
          (after, .ok (.yield (log.foldl next acc)))) ∧
      Reflects base branches.length after.cursors
        (ownScan (branches.map List.length) pass.version own sightings).1 ∧
      spansOf id log = (ownScan (branches.map List.length) pass.version own sightings).2 := by
  obtain ⟨automaton, hgroup⟩ : ∃ automaton, matcher.groups[pass.group]? = some automaton :=
    ⟨_, Array.getElem?_eq_getElem (h.size_eq.symm ▸ hlt)⟩
  have hok : matcher.group pass.group = .ok automaton := by
    rw [group, hgroup]
  have hprepared : Reflects base (branches.map List.length).length
      (state.prepare pass.version matcher.pieces.size).cursors own := by
    intro k hk
    rw [List.length_map] at hk
    exact (cursorOf_extendArray _ _ _).trans (hreflects k hk)
  have hsize : matcher.pieces.size ≤
      (state.prepare pass.version matcher.pieces.size).cursors.size := size_le_extendArray _ _ _
  obtain ⟨cursors, log, hscan, hafter, hspans⟩ := h.seats.exists_log pass.version hsize hprepared
    (events automaton pass.text pass.mode)
  rw [List.length_map] at hafter
  refine ⟨{ state.prepare pass.version matcher.pieces.size with cursors := cursors }, log, _,
    h.sightingsOf hgroup, fun next acc => ?_, hafter, hspans⟩
  rw [searchWith, hok]
  simp only [h.compiled hgroup, if_true, hscan]

theorem Serves.searchWith_of_le (h : Serves config g id base branches matcher) {g' : Nat}
    (hle : config.groups ≤ g') {σ : Type} (state : ScanState) (text : Bytes) (mode : EscapeMode)
    (version : UInt64) (report : PatternMatch P → σ → ForInStep σ) (acc : σ) :
    matcher.searchWith state g' text mode version report acc =
      (state, .error (.unknownGroup g' config.groups)) := by
  have hnone : matcher.groups[g']? = none := Array.getElem?_eq_none (h.size_eq.symm ▸ hle)
  rw [searchWith, group, hnone]
  simp only [h.size_eq]

/-- From states that agree on the cursors of a pattern, two matchers go on to report it alike. They
answer where the group is there. -/
theorem Serves.exists_logs {Q : Type} {matcher' : Matcher Q} {id' base' : Nat}
    (h : Serves config g id base branches matcher)
    (h' : Serves config g id' base' branches matcher') {own : Nat → PieceCursor}
    {state state' : ScanState} (hreflects : Reflects base branches.length state.cursors own)
    (hreflects' : Reflects base' branches.length state'.cursors own) (passes : List Pass) :
    ∃ logs logs', matcher.Tells state passes logs ∧ matcher'.Tells state' passes logs' ∧
      logs.map Except.isOk = passes.map (fun pass => decide (pass.group < config.groups)) ∧
      logs.map (Except.map (spansOf id)) = logs'.map (Except.map (spansOf id')) := by
  induction passes generalizing own state state' with
  | nil => exact ⟨[], [], .nil _, .nil _, rfl, rfl⟩
  | cons pass passes ih =>
      by_cases hlt : pass.group < config.groups
      · obtain ⟨after, log, sightings, hsightings, hanswer, hafter, hspans⟩ :=
          h.exists_log hreflects hlt
        obtain ⟨after', log', sightings', hsightings', hanswer', hafter', hspans'⟩ :=
          h'.exists_log hreflects' hlt
        obtain rfl := hsightings.unique hsightings'
        obtain ⟨logs, logs', htells, htells', hok, hsame⟩ := ih hafter hafter'
        refine ⟨.ok log :: logs, .ok log' :: logs', .cons hanswer htells, .cons hanswer' htells',
          ?_, ?_⟩
        · rw [List.map_cons, List.map_cons, hok, decide_eq_true hlt]
          rfl
        · rw [List.map_cons, List.map_cons, hsame]
          congr 1
          exact congrArg Except.ok (hspans.trans hspans'.symm)
      · obtain ⟨logs, logs', htells, htells', hok, hsame⟩ := ih hreflects hreflects'
        have hle := Nat.not_lt.mp hlt
        refine ⟨.error (.unknownGroup pass.group config.groups) :: logs,
          .error (.unknownGroup pass.group config.groups) :: logs',
          .cons (fun next acc => h.searchWith_of_le hle _ _ _ _ _ _) htells,
          .cons (fun next acc => h'.searchWith_of_le hle _ _ _ _ _ _) htells', ?_, ?_⟩
        · rw [List.map_cons, List.map_cons, hok, decide_eq_false hlt]
          rfl
        · rw [List.map_cons, List.map_cons, hsame]
          rfl

/-! ## Compiled matchers -/

variable {entries : List Accepted}

/-- Compiling goes through all groups, and those that are compiled stay so. -/
theorem Indexed.compiled_untilFailure (h : matcher.Indexed config entries) {gs : List Nat}
    (hgs : ∀ g ∈ gs, g < matcher.groups.size) {g : Nat} {automaton : GroupAutomaton}
    (hgroup : (untilFailure Matcher.compile matcher gs).1.groups[g]? = some automaton)
    (hready : g ∈ gs ∨ ∀ old, matcher.groups[g]? = some old → old.compiled = true) :
    automaton.compiled = true := by
  induction gs generalizing matcher with
  | nil =>
      rcases hready with hnone | hold
      · cases hnone
      · exact hold automaton hgroup
  | cons first gs ih =>
      have hfirst : first < matcher.groups.size := hgs first List.mem_cons_self
      obtain ⟨next, hnext, hcompile⟩ := h.compile_of_group (Array.getElem?_eq_getElem hfirst)
      have hindexed := h.compile first
      rw [hcompile] at hindexed
      rw [untilFailure, hcompile] at hgroup
      refine ih hindexed (fun g hg => ?_) hgroup ?_
      · rw [Array.size_setIfInBounds]
        exact hgs g (List.mem_cons_of_mem _ hg)
      · by_cases he : g = first
        · subst he
          refine Or.inr fun old hold => ?_
          rw [Array.getElem?_setIfInBounds_self, if_pos hfirst] at hold
          obtain rfl := Option.some.inj hold
          exact hnext
        · rw [Array.getElem?_setIfInBounds_ne (Ne.symm he)]
          exact hready.imp_left fun hmem => (List.mem_cons.mp hmem).resolve_left he

theorem Indexed.compiled_compileAll (h : matcher.Indexed config entries) {g : Nat}
    {automaton : GroupAutomaton} (hgroup : matcher.compileAll.1.groups[g]? = some automaton) :
    automaton.compiled = true := by
  refine h.compiled_untilFailure (fun g hg => List.mem_range.mp hg) hgroup (Or.inl ?_)
  rw [List.mem_range, ← size_groups_compileAll matcher]
  exact (Array.getElem?_eq_some_iff.mp hgroup).1

/-! ## Two matchers with one pattern -/

/-- What a caller adds. -/
inductive Subject where
  | pattern (source : String)
  | keyword (bytes : Bytes)

namespace Subject

def call (g : Nat) (payload : P) : Subject → BuildCall P
  | pattern source => .addPattern g source payload
  | keyword bytes => .addKeyword g bytes payload

def Decomposes (config : MatcherConfig) (branches : List KeywordBranch) : Subject → Prop
  | pattern source => ∃ found, decomposition config.decomposeOptions source = .ok found ∧
      branches = found.branches
  | keyword bytes => branches = [[bytes]]

theorem Decomposes.unique {subject : Subject} {others : List KeywordBranch}
    (h : subject.Decomposes config branches) (h' : subject.Decomposes config others) :
    branches = others := by
  cases subject with
  | pattern source =>
      obtain ⟨found, hfound, rfl⟩ := h
      obtain ⟨found', hfound', rfl⟩ := h'
      obtain rfl := Except.ok.inj (hfound.symm.trans hfound')
      rfl
  | keyword bytes => exact Eq.trans h (Eq.symm h')

end Subject

def add (matcher : Matcher P) (g : Nat) (payload : P) :
    Subject → Matcher P × Except MatchError PatternId
  | .pattern source => matcher.addPattern g source payload
  | .keyword bytes => matcher.addKeyword g bytes payload

/-- The subject was added to the group under this identifier, among any other additions, and then
all groups were compiled. -/
structure Hosts (config : MatcherConfig) (g : Nat) (subject : Subject) (id : PatternId)
    (matcher : Matcher P) : Prop where
  exists_calls : ∃ (before : List (BuildCall P)) (payload : P) (after : List (BuildCall P)),
    ((before.foldl build (new config)).add g payload subject).2 = .ok id ∧
    matcher = ((before ++ subject.call g payload :: after).foldl build (new config)).compileAll.1

theorem Indexed.add_of_ok (h : matcher.Indexed config entries) {subject : Subject} {payload : P}
    (hid : (matcher.add g payload subject).2 = .ok id) :
    ∃ branches, subject.Decomposes config branches ∧ id = entries.length ∧
      (matcher.build (subject.call g payload)).Indexed config (entries ++ [⟨g, branches⟩]) := by
  cases subject with
  | pattern source =>
      rcases h.addPattern g source payload with ⟨found, hfound, hok, hnext⟩ | ⟨cause, heq⟩
      · exact ⟨found.branches, ⟨found, hfound, rfl⟩, Except.ok.inj (hid.symm.trans hok), hnext⟩
      · rw [add, heq] at hid
        cases hid
  | keyword bytes =>
      rcases h.addKeyword g bytes payload with ⟨hok, hnext⟩ | ⟨cause, heq⟩
      · exact ⟨[[bytes]], rfl, Except.ok.inj (hid.symm.trans hok), hnext⟩
      · rw [add, heq] at hid
        cases hid

theorem size_groups_buildAll (matcher : Matcher P) (calls : List (BuildCall P)) :
    (calls.foldl build matcher).groups.size = matcher.groups.size := by
  induction calls generalizing matcher with
  | nil => rfl
  | cons call calls ih => exact (ih (matcher.build call)).trans (size_groups_build matcher call)

theorem Hosts.serves {subject : Subject} (h : Hosts config g subject id matcher) :
    ∃ branches base, subject.Decomposes config branches ∧
      Serves config g id base branches matcher := by
  obtain ⟨before, payload, after, hid, rfl⟩ := h.exists_calls
  obtain ⟨branches, hbranches, rfl, hadded⟩ := ((indexed_new config).buildAll before).add_of_ok hid
  have hindexed := hadded.buildAll after
  rw [List.append_assoc, List.singleton_append, ← List.foldl_cons, ← List.foldl_append] at hindexed
  refine ⟨branches, _, hbranches,
    ⟨_, hindexed.compileAll, lodging_storedBranches _ ⟨g, branches⟩ _⟩, ?_,
    hindexed.compiled_compileAll⟩
  rw [size_groups_compileAll, size_groups_buildAll]
  exact Array.size_replicate

/-- Two matchers with one configuration and a pattern that both have in the same group report it in
the same places, in the same order, in every call of any sequence of scans with new states, whatever
other patterns they have and whichever came first. Each call for a group that is there is
answered. -/
theorem reports_independent {Q : Type} {matcher' : Matcher Q} {id' : PatternId} {subject : Subject}
    (h : Hosts config g subject id matcher) (h' : Hosts config g subject id' matcher')
    (passes : List Pass) :
    (∃ logs, matcher.Tells .new passes logs) ∧ (∃ logs', matcher'.Tells .new passes logs') ∧
      ∀ logs logs', matcher.Tells .new passes logs → matcher'.Tells .new passes logs' →
        logs.map Except.isOk = passes.map (fun pass => decide (pass.group < config.groups)) ∧
        logs.map (Except.map (spansOf id)) = logs'.map (Except.map (spansOf id')) := by
  obtain ⟨branches, base, hbranches, hserves⟩ := h.serves
  obtain ⟨branches', base', hbranches', hserves'⟩ := h'.serves
  obtain rfl := hbranches.unique hbranches'
  have hfresh : ∀ base, Reflects base branches.length ScanState.new.cursors fun _ => .fresh 0 :=
    fun _ _ _ => rfl
  obtain ⟨found, found', htells, htells', hok, hsame⟩ :=
    hserves.exists_logs hserves' (hfresh base) (hfresh base') passes
  refine ⟨⟨found, htells⟩, ⟨found', htells'⟩, fun logs logs' hlogs hlogs' => ?_⟩
  rw [hlogs.unique htells, hlogs'.unique htells']
  exact ⟨hok, hsame⟩

/-- The same pattern alone, and after a keyword that overlaps its literals, the same source in
another group and a keyword that is refused. -/
theorem reports_independent_overlapping :
    let config : MatcherConfig := ⟨2, true, false, 100000, true, 2, 0, 255⟩
    let lone : List (BuildCall Unit) := [.addPattern 0 "ab.*cd" ()]
    let crowd : List (BuildCall Nat) := [.addKeyword 0 [0x62, 0x63] 7, .addPattern 1 "ab.*cd" 8,
      .addKeyword 0 [] 9, .addPattern 0 "ab.*cd" 10, .addPattern 0 "b.*abcd" 11]
    let passes : List Pass := [⟨1, 0, [0x61, 0x42], .plain⟩, ⟨2, 0, [0x63, 0x64], .url⟩,
      ⟨1, 0, [0x63, 0x64], .html⟩, ⟨1, 2, [], .plain⟩]
    ∃ logs logs', (lone.foldl build (new config)).compileAll.1.Tells .new passes logs ∧
      (crowd.foldl build (new config)).compileAll.1.Tells .new passes logs' ∧
        logs.map Except.isOk = [true, true, true, false] ∧
        logs.map (Except.map (spansOf 0)) = logs'.map (Except.map (spansOf 2)) := by
  intro config lone crowd passes
  have hlone : Hosts config 0 (.pattern "ab.*cd") 0 (lone.foldl build (new config)).compileAll.1 :=
    ⟨[], (), [], by decide +kernel, rfl⟩
  have hcrowd : Hosts config 0 (.pattern "ab.*cd") 2
      (crowd.foldl build (new config)).compileAll.1 :=
    ⟨crowd.take 3, 10, crowd.drop 4, by decide +kernel, rfl⟩
  obtain ⟨⟨logs, hlogs⟩, ⟨logs', hlogs'⟩, hsame⟩ := reports_independent hlone hcrowd passes
  exact ⟨logs, logs', hlogs, hlogs', hsame logs logs' hlogs hlogs'⟩

end Matcher

end LiteralSieve
