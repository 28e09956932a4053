import LiteralSieve.Proofs.Matcher.Frames
import LiteralSieve.Proofs.SuccessivePlaces

namespace LiteralSieve

/-!
# Verified search of keywords

A keyword is a pattern of one literal, so its piece is finished by the first of its occurrences. The
occurrences of all keywords are shown by their ends, longer ones first, and one after another to the
keywords that are the same. Where neither case nor words matter, every verifier confirms what is
found; so a verified search finds the keywords that occur in the decoded text.
-/

open Automaton

namespace Needle

/-- The needle is found if it stands somewhere. -/
theorem isSome_findFrom?_iff (needle : Bytes) (offset : Nat) (text : Bytes) :
    (findFrom? needle offset text).isSome ↔ needle <:+: text := by
  cases h : findFrom? needle offset text with
  | none =>
      refine iff_of_false (by simp) ?_
      rintro ⟨front, back, heq⟩
      exact not_occurs_of_findFrom? h ⟨front, back, heq.symm, rfl⟩
  | some place =>
      obtain ⟨-, -, ⟨front, back, heq, -⟩, -⟩ := findFrom?_eq_some h
      exact iff_of_true rfl ⟨front, back, heq.symm⟩

theorem isMatch_iff (needle : Needle) (text : Bytes) :
    Verifier.isMatch needle text = true ↔ needle.bytes <:+: text :=
  isSome_findFrom?_iff needle.bytes 0 text

end Needle

/-- Literals are looked for as they are, whatever their bytes. -/
structure MatcherConfig.Literal (config : MatcherConfig) : Prop where
  caseInsensitive : config.caseInsensitive = false
  wholeWord : config.wholeWord = false
  minLetter : config.minLetter = 0
  maxLetter : config.maxLetter = 255

namespace MatcherConfig.Literal

variable {config : MatcherConfig}

theorem fold_eq (h : config.Literal) : config.automatonConfig.fold = id := by
  funext b
  exact if_neg (by simp [automatonConfig, h.caseInsensitive])

theorem map_fold (h : config.Literal) (bytes : Bytes) :
    bytes.map config.automatonConfig.fold = bytes := by
  rw [h.fold_eq, List.map_id]

theorem validateFrom (h : config.Literal) (i : Nat) (bytes : Bytes) :
    config.automatonConfig.validateFrom i bytes = .ok () := by
  induction bytes generalizing i with
  | nil => rfl
  | cons b bytes ih =>
      have hmin : ¬ b < config.automatonConfig.minLetter := by
        simp [automatonConfig, h.minLetter]
      have hmax : ¬ config.automatonConfig.maxLetter < b := by
        rw [automatonConfig, h.maxLetter, UInt8.not_lt, UInt8.le_iff_toNat_le]
        exact Nat.le_of_lt_succ b.toNat_lt
      rw [AutomatonConfig.validateFrom, h.fold_eq]
      simp only [id_eq, hmin, hmax, or_self, if_false]
      exact ih (i + 1)

theorem validate (h : config.Literal) {keyword : Bytes} (hne : keyword ≠ []) :
    config.automatonConfig.validate keyword = .ok () := by
  rw [AutomatonConfig.validate, if_neg (mt List.isEmpty_iff.mp hne)]
  exact h.validateFrom 0 keyword

end MatcherConfig.Literal

/-! ## What is stored of keywords -/

def keywordEntries (g : Nat) (keywords : List Bytes) : List Accepted :=
  keywords.map fun keyword => ⟨g, [[keyword]]⟩

theorem storedBranches_keywordEntries (g : Nat) (keywords : List Bytes) :
    storedBranches (keywordEntries g keywords) =
      keywords.zipIdx.map fun x => ⟨g, x.2, [x.1]⟩ := by
  induction keywords using List.reverseRecOn with
  | nil => rfl
  | append_singleton keywords keyword ih =>
      have hlength : (keywordEntries g keywords).length = keywords.length := List.length_map _
      rw [keywordEntries, List.map_append, ← keywordEntries, List.map_singleton,
        storedBranches_concat, ih, hlength, List.zipIdx_append, List.map_append, Nat.zero_add]
      rfl

theorem getElem?_storedBranches_keywordEntries {g i : Nat} {keywords : List Bytes}
    {keyword : Bytes} (hi : keywords[i]? = some keyword) :
    (storedBranches (keywordEntries g keywords))[i]? = some ⟨g, i, [keyword]⟩ := by
  rw [storedBranches_keywordEntries, List.getElem?_map, List.getElem?_zipIdx, hi]
  simp

theorem allLabels_keywordEntries (g : Nat) (keywords : List Bytes) :
    allLabels (storedBranches (keywordEntries g keywords)) =
      keywords.zipIdx.map fun x => ⟨g, x.2, x.2, 0, x.1⟩ := by
  rw [storedBranches_keywordEntries]
  induction keywords using List.reverseRecOn with
  | nil => rfl
  | append_singleton keywords keyword ih =>
      rw [List.zipIdx_append, List.map_append, List.map_append, ← ih, Nat.zero_add]
      exact (allLabels_concat _ _).trans (by simp [StoredBranch.labels])

theorem getElem?_allLabels_keywordEntries {g i : Nat} {keywords : List Bytes} {label : Label} :
    (allLabels (storedBranches (keywordEntries g keywords)))[i]? = some label ↔
      ∃ keyword, keywords[i]? = some keyword ∧ label = ⟨g, i, i, 0, keyword⟩ := by
  rw [allLabels_keywordEntries, List.getElem?_map, List.getElem?_zipIdx, Nat.zero_add,
    Option.map_map, Option.map_eq_some_iff]
  simp only [Function.comp_apply, eq_comm]

namespace Matcher

def keywordCall (g : Nat) (keyword : Bytes) : BuildCall Needle := .addKeyword g keyword ⟨keyword⟩

/-- The matcher has these keywords in a group, each with itself as its needle. -/
structure Keyed (config : MatcherConfig) (g : Nat) (keywords : List Bytes)
    (matcher : Matcher Needle) : Prop where
  indexed : matcher.Indexed config (keywordEntries g keywords)
  patterns_eq : matcher.patterns.toList =
    keywords.map fun keyword => ⟨g, Text.ofBytes keyword, ⟨keyword⟩, 1⟩
  size_eq : matcher.groups.size = config.groups
  scratch_eq : matcher.scratch = .new

variable {config : MatcherConfig} {g : Nat} {keywords : List Bytes} {matcher : Matcher Needle}

theorem keyed_new (config : MatcherConfig) (g : Nat) :
    Keyed config g [] (new config : Matcher Needle) where
  indexed := indexed_new config
  patterns_eq := rfl
  size_eq := Array.size_replicate
  scratch_eq := rfl

theorem Keyed.exists_group (h : Keyed config g keywords matcher) (hg : g < config.groups) :
    ∃ automaton, matcher.groups[g]? = some automaton :=
  ⟨_, Array.getElem?_eq_getElem (h.size_eq.symm ▸ hg)⟩

/-- Any keyword that is not empty is accepted. -/
theorem Keyed.add (h : Keyed config g keywords matcher) (hconfig : config.Literal)
    (hg : g < config.groups) {keyword : Bytes} (hne : keyword ≠ []) :
    (matcher.addKeyword g keyword ⟨keyword⟩).2 = .ok keywords.length ∧
      Keyed config g (keywords ++ [keyword]) (matcher.build (keywordCall g keyword)) := by
  obtain ⟨automaton, hgroup⟩ := h.exists_group hg
  have hok : matcher.group g = .ok automaton := by
    rw [group, hgroup]
  have hvalid : automaton.validate keyword = .ok () :=
    (h.indexed.validate_eq hok keyword).trans (hconfig.validate hne)
  have hadd : matcher.addKeyword g keyword ⟨keyword⟩ =
      matcher.addEntry g automaton (Text.ofBytes keyword) ⟨keyword⟩ [[keyword]] := by
    simp only [addKeyword, hok, hvalid]
  have hbuild : matcher.build (keywordCall g keyword) =
      (matcher.addEntry g automaton (Text.ofBytes keyword) ⟨keyword⟩ [[keyword]]).1 := by
    rw [keywordCall, Matcher.build, hadd]
  have hliterals : ∀ literal ∈ ([[keyword]] : List KeywordBranch).flatten,
      config.automatonConfig.validate literal = .ok () := by
    intro literal hliteral
    obtain rfl : literal = keyword := by simpa using hliteral
    exact hconfig.validate hne
  obtain ⟨hid, hnext⟩ := h.indexed.addEntry hok (Text.ofBytes keyword) ⟨keyword⟩ [[keyword]]
    (by simp) hliterals
  rw [← hadd, keywordEntries, List.length_map] at hid
  refine ⟨hid, ?_, ?_, ?_, ?_⟩
  · rw [keywordEntries, List.map_append, hbuild]
    exact hnext
  · rw [hbuild, Matcher.addEntry, Pool.toList_push, h.patterns_eq, List.map_append]
    rfl
  · exact (size_groups_build matcher _).trans h.size_eq
  · exact (scratch_build matcher _).trans h.scratch_eq

theorem keyed_foldl (hconfig : config.Literal) (hg : g < config.groups)
    (hne : ∀ keyword ∈ keywords, keyword ≠ []) :
    Keyed config g keywords ((keywords.map (keywordCall g)).foldl build (new config)) := by
  induction keywords using List.reverseRecOn with
  | nil => exact keyed_new config g
  | append_singleton keywords keyword ih =>
      have hbefore := ih fun other hother => hne other (List.mem_append_left _ hother)
      rw [List.map_append, List.foldl_append]
      exact (hbefore.add hconfig hg (hne keyword (by simp))).2

theorem Keyed.compile (h : Keyed config g keywords matcher) (hg : g < config.groups) :
    Keyed config g keywords (matcher.compile g).1 ∧
      ∃ automaton, (matcher.compile g).1.groups[g]? = some automaton ∧
        automaton.compiled = true := by
  obtain ⟨automaton, hgroup⟩ := h.exists_group hg
  obtain ⟨next, hnext, hcompile⟩ := h.indexed.compile_of_group hgroup
  have hindexed := h.indexed.compile g
  rw [hcompile] at hindexed ⊢
  refine ⟨⟨hindexed, h.patterns_eq, ?_, h.scratch_eq⟩, next, ?_, hnext⟩
  · exact Array.size_setIfInBounds.trans h.size_eq
  · rw [Array.getElem?_setIfInBounds_self, if_pos (Array.getElem?_eq_some_iff.mp hgroup).1]

/-! ## One keyword in a scan -/

theorem Keyed.get?_pattern (h : Keyed config g keywords matcher) {i : Nat} {keyword : Bytes}
    (hi : keywords[i]? = some keyword) :
    matcher.patterns.get? i = some ⟨g, Text.ofBytes keyword, ⟨keyword⟩, 1⟩ := by
  rw [← Pool.getElem?_toList, h.patterns_eq, List.getElem?_map, hi]
  rfl

/-- An occurrence of a keyword finishes its piece, unless that is finished. -/
theorem Keyed.progress?_eq (h : Keyed config g keywords matcher) {i : Nat} {keyword : Bytes}
    (hi : keywords[i]? = some keyword) (all : PieceId → Progress) (hit : Hit (List FrameId)) :
    matcher.progress? all hit i = ((all i).accept? 1 0 hit.offset).map fun next =>
      (i, next, some ⟨i, ⟨keyword⟩, next.start, hit.stop, hit.terminal.key⟩) := by
  obtain ⟨frame, hframe, hpiece, hposition⟩ :=
    h.indexed.get?_frame (getElem?_allLabels_keywordEntries.mpr ⟨keyword, hi, rfl⟩)
  simp only [progress?, hframe, hpiece, hposition, StoredBranch.piece, List.length_singleton,
    h.indexed.get?_piece_of_branch (getElem?_storedBranches_keywordEntries hi),
    h.get?_pattern hi, Option.bind_eq_bind, Option.bind_some]
  cases hnext : (all i).accept? 1 0 hit.offset with
  | none => rfl
  | some next =>
      obtain ⟨-, -, rfl⟩ := Progress.accept?_eq_some_iff.mp hnext
      rfl

/-! ## The order of the reports -/

/-- An occurrence of a key and a keyword that has this key. -/
abbrev KeywordEvent := Located (List FrameId) × Nat

def KeywordEvent.Before (automaton : GroupAutomaton) (x y : KeywordEvent) : Prop :=
  Precedes (automaton.occurrence x.1) (automaton.occurrence y.1) ∨ x.1 = y.1 ∧ x.2 < y.2

/-- Of these events the first one of each keyword whose piece is not finished. -/
structure FirstEvents (before : KeywordEvent → KeywordEvent → Prop) (all : PieceId → Progress)
    (shown kept : List KeywordEvent) : Prop where
  sublist : kept.Sublist shown
  nodup : (kept.map Prod.snd).Nodup
  unfinished : ∀ x ∈ kept, (all x.2).finished = false
  first : ∀ y ∈ shown, (all y.2).finished = false →
    ∃ x ∈ kept, x.2 = y.2 ∧ (x = y ∨ before x y)

theorem FirstEvents.cons_of_finished {before : KeywordEvent → KeywordEvent → Prop}
    {all : PieceId → Progress} {shown kept : List KeywordEvent}
    (h : FirstEvents before all shown kept) {x : KeywordEvent}
    (hfinished : (all x.2).finished = true) : FirstEvents before all (x :: shown) kept where
  sublist := h.sublist.cons x
  nodup := h.nodup
  unfinished := h.unfinished
  first := by
    intro y hy hunfinished
    rcases List.mem_cons.mp hy with rfl | hy
    · rw [hfinished] at hunfinished
      cases hunfinished
    · exact h.first y hy hunfinished

theorem FirstEvents.cons_of_unfinished {before : KeywordEvent → KeywordEvent → Prop}
    {all : PieceId → Progress} {shown kept : List KeywordEvent} {x : KeywordEvent}
    {next : Progress} (h : FirstEvents before (Function.update all x.2 next) shown kept)
    (hunfinished : (all x.2).finished = false) (hnext : next.finished = true)
    (hbefore : ∀ y ∈ shown, before x y) : FirstEvents before all (x :: shown) (x :: kept) := by
  have hother : ∀ y ∈ kept, y.2 ≠ x.2 := by
    intro y hy heq
    have hfinished := h.unfinished y hy
    rw [heq, Function.update_self, hnext] at hfinished
    cases hfinished
  refine ⟨h.sublist.cons_cons x, ?_, ?_, ?_⟩
  · rw [List.map_cons, List.nodup_cons]
    refine ⟨fun hmem => ?_, h.nodup⟩
    obtain ⟨y, hy, heq⟩ := List.mem_map.mp hmem
    exact hother y hy heq
  · intro y hy
    rcases List.mem_cons.mp hy with rfl | hy
    · exact hunfinished
    · have hrest := h.unfinished y hy
      rwa [Function.update_of_ne (hother y hy)] at hrest
  · intro y hy hfresh
    rcases List.mem_cons.mp hy with rfl | hy
    · exact ⟨y, List.mem_cons_self, rfl, Or.inl rfl⟩
    · by_cases he : y.2 = x.2
      · exact ⟨x, List.mem_cons_self, he.symm, Or.inr (hbefore y hy)⟩
      · obtain ⟨z, hz, hsame⟩ := h.first y hy (by rwa [Function.update_of_ne he])
        exact ⟨z, List.mem_cons_of_mem x hz, hsame⟩

/-- A scan for keywords reports the first event of each. -/
theorem Keyed.exists_firstEvents (h : Keyed config g keywords matcher)
    {before : KeywordEvent → KeywordEvent → Prop} {shown : List KeywordEvent}
    (hordered : shown.Pairwise before)
    (hkeywords : ∀ x ∈ shown, ∃ keyword, keywords[x.2]? = some keyword)
    {all : PieceId → Progress} (hall : ∀ i, all i = .fresh ∨ (all i).finished = true) :
    ∃ kept, FirstEvents before all shown kept ∧
      (matcher.reportsFrom all (shown.map fun x => (x.1.2, x.2))).map (·.pattern) =
        kept.map Prod.snd := by
  induction shown generalizing all with
  | nil => exact ⟨[], ⟨.slnil, .nil, by simp, by simp⟩, rfl⟩
  | cons x shown ih =>
      obtain ⟨hbefore, hrest⟩ := List.pairwise_cons.mp hordered
      obtain ⟨keyword, hkeyword⟩ := hkeywords x List.mem_cons_self
      have hlater : ∀ y ∈ shown, ∃ keyword, keywords[y.2]? = some keyword :=
        fun y hy => hkeywords y (List.mem_cons_of_mem x hy)
      rw [List.map_cons, reportsFrom, h.progress?_eq hkeyword]
      -- A keyword has one literal, so its piece has not begun or is finished.
      rcases hall x.2 with hfresh | hfinished
      · have hnext : (all x.2).accept? 1 0 x.1.2.offset = some ⟨1, true, x.1.2.offset⟩ := by
          rw [hfresh]
          rfl
        have hupdated : ∀ i, Function.update all x.2 ⟨1, true, x.1.2.offset⟩ i = .fresh ∨
            (Function.update all x.2 ⟨1, true, x.1.2.offset⟩ i).finished = true := by
          intro i
          by_cases he : i = x.2
          · exact Or.inr (by rw [he, Function.update_self])
          · rw [Function.update_of_ne he]
            exact hall i
        obtain ⟨kept, hkept, hreports⟩ := ih hrest hlater hupdated
        refine ⟨x :: kept, hkept.cons_of_unfinished (by rw [hfresh]; rfl) rfl hbefore, ?_⟩
        rw [hnext, Option.map_some]
        exact congrArg (x.2 :: ·) hreports
      · have hstuck : (all x.2).accept? 1 0 x.1.2.offset = none := by
          rw [Progress.accept?, if_pos (Or.inl hfinished)]
        obtain ⟨kept, hkept, hreports⟩ := ih hrest hlater hall
        refine ⟨kept, hkept.cons_of_finished hfinished, ?_⟩
        rw [hstuck, Option.map_none]
        exact hreports

theorem firsts_eq_map {found : List PatternId} {reports : List (PatternMatch Needle)}
    (h : (found ++ reports.map (·.pattern)).Nodup) :
    firsts found reports = found ++ reports.map (·.pattern) := by
  induction reports generalizing found with
  | nil => exact (List.append_nil _).symm
  | cons report reports ih =>
      have hnew : report.pattern ∉ found := by
        intro hmem
        exact (List.nodup_append'.mp h).2.2 hmem List.mem_cons_self
      rw [List.map_cons, List.append_cons] at h ⊢
      rw [firsts, if_neg hnew, ih h]

/-! ## Occurrences of keywords -/

theorem occursAt_iff (hconfig : config.Literal) {text keyword : Bytes} {e : Nat} :
    OccursAt config.automatonConfig text keyword e ↔
      e ≤ text.length ∧ keyword <:+ text.take e := by
  constructor
  · rintro ⟨hle, hends⟩
    rw [hconfig.map_fold, hconfig.map_fold] at hends
    exact ⟨hle, hends⟩
  · rintro ⟨hle, hends⟩
    refine ⟨hle, ?_⟩
    rwa [hconfig.map_fold, hconfig.map_fold]

theorem infix_iff_exists_occursAt (hconfig : config.Literal) (text keyword : Bytes) :
    keyword <:+: text ↔ ∃ e, OccursAt config.automatonConfig text keyword e := by
  constructor
  · rintro ⟨front, back, rfl⟩
    refine ⟨(front ++ keyword).length, (occursAt_iff hconfig).mpr ⟨?_, ?_⟩⟩
    · exact (List.prefix_append (front ++ keyword) back).length_le
    · rw [List.take_left]
      exact List.suffix_append front keyword
  · rintro ⟨e, hoccurs⟩
    exact ((occursAt_iff hconfig).mp hoccurs).2.isInfix.trans (List.take_prefix e text).isInfix

/-- The events of a scan for keywords, with the number of letters up to each of them. -/
structure KeywordEvents (config : MatcherConfig) (keywords : List Bytes) (text : Bytes)
    (automaton : GroupAutomaton) (shown : List KeywordEvent) : Prop where
  ordered : shown.Pairwise (KeywordEvent.Before automaton)
  occurrence_eq : ∀ x ∈ shown, ∃ keyword, keywords[x.2]? = some keyword ∧
    automaton.occurrence x.1 = (keyword, x.1.1)
  occurs : ∀ x ∈ shown, ∀ keyword, keywords[x.2]? = some keyword →
    OccursAt config.automatonConfig text keyword x.1.1
  exists_event : ∀ {i keyword e}, keywords[i]? = some keyword →
    OccursAt config.automatonConfig text keyword e → ∃ x ∈ shown, x.2 = i ∧ x.1.1 = e

theorem foldKey_eq (hconfig : config.Literal) {additions : List (Addition (List FrameId))}
    {automaton : GroupAutomaton} (h : Stores config.automatonConfig additions automaton)
    (key : Bytes) : automaton.foldKey key = key := by
  have hfold : automaton.foldKey key = key.map config.automatonConfig.fold := by
    rw [← h.config_eq]
    rfl
  rw [hfold, hconfig.map_fold]

/-- A key lists the keywords that it stands for, the first one added first. -/
theorem Keyed.value_spec (h : Keyed config g keywords matcher) (hconfig : config.Literal)
    {automaton : GroupAutomaton} (hgroup : matcher.groups[g]? = some automaton) {t : Nat}
    {terminal : Terminal (List FrameId)} (hterminal : automaton.terminals.get? t = some terminal) :
    terminal.value.Pairwise (fun i j : Nat => i < j) ∧
      ∀ i : Nat, i ∈ terminal.value ↔ keywords[i]? = some terminal.key := by
  have hself : matcher.Indexed matcher.config (keywordEntries g keywords) := by
    rw [h.indexed.config_eq]
    exact h.indexed
  have hfold := foldKey_eq hconfig (h.indexed.built hgroup).stores
  refine ⟨?_, fun i => ?_⟩
  · rw [hself.value_eq hgroup hterminal]
    exact List.pairwise_map.mpr ((zipIdx_pairwise _).filter _)
  · rw [hself.mem_value_iff hgroup hterminal]
    constructor
    · rintro ⟨label, hlabel, -, hkey⟩
      obtain ⟨keyword, hi, rfl⟩ := getElem?_allLabels_keywordEntries.mp hlabel
      rw [hfold, hfold] at hkey
      rwa [← hkey]
    · intro hi
      exact ⟨_, getElem?_allLabels_keywordEntries.mpr ⟨_, hi, rfl⟩, rfl, rfl⟩

/-- The occurrences of keys, each with one after another of the keywords that it stands for. -/
def keywordEvents (located : List (Located (List FrameId))) : List KeywordEvent :=
  located.flatMap fun found => found.2.terminal.value.map fun i => (found, i)

theorem mem_keywordEvents_iff {located : List (Located (List FrameId))} {x : KeywordEvent} :
    x ∈ keywordEvents located ↔ x.1 ∈ located ∧ x.2 ∈ x.1.2.terminal.value := by
  rw [keywordEvents, List.mem_flatMap]
  constructor
  · rintro ⟨found, hfound, hx⟩
    obtain ⟨i, hi, rfl⟩ := List.mem_map.mp hx
    exact ⟨hfound, hi⟩
  · rintro ⟨hfound, hi⟩
    exact ⟨x.1, hfound, List.mem_map.mpr ⟨x.2, hi, rfl⟩⟩

theorem map_keywordEvents (located : List (Located (List FrameId))) :
    (keywordEvents located).map (fun x => (x.1.2, x.2)) = eventsOf (located.map Prod.snd) := by
  simp only [keywordEvents, eventsOf, List.flatMap_map, List.map_flatMap, List.map_map]
  rfl

/-- Events are ordered as their occurrences are, and then as the keywords are. -/
theorem pairwise_keywordEvents {automaton : GroupAutomaton}
    {located : List (Located (List FrameId))}
    (hlocated : (located.map automaton.occurrence).Pairwise Precedes)
    (hvalue : ∀ x ∈ located, x.2.terminal.value.Pairwise (fun i j : Nat => i < j)) :
    (keywordEvents located).Pairwise (KeywordEvent.Before automaton) := by
  refine List.pairwise_flatMap.mpr ⟨fun x hx => ?_, ?_⟩
  · exact List.pairwise_map.mpr ((hvalue x hx).imp fun hlt => Or.inr ⟨rfl, hlt⟩)
  · refine (List.pairwise_map.mp hlocated).imp fun hbefore x hx y hy => ?_
    obtain ⟨i, -, rfl⟩ := List.mem_map.mp hx
    obtain ⟨j, -, rfl⟩ := List.mem_map.mp hy
    exact Or.inl hbefore

theorem Keyed.exists_events (h : Keyed config g keywords matcher) (hconfig : config.Literal)
    {automaton : GroupAutomaton} (hgroup : matcher.groups[g]? = some automaton)
    (hcompiled : automaton.compiled = true) (text : Bytes) (mode : EscapeMode) :
    ∃ shown, events automaton text mode = shown.map (fun x => (x.1.2, x.2)) ∧
      KeywordEvents config keywords (mode.decode text) automaton shown := by
  have hstores := (h.indexed.built hgroup).stores
  have hfold := foldKey_eq hconfig hstores
  have hfree : ∀ a ∈ groupTable config (keywordEntries g keywords) g, a.wholeWord = false := by
    intro a ha
    obtain ⟨x, -, rfl⟩ := List.mem_map.mp ha
    exact hconfig.wholeWord
  obtain ⟨located, hall, hshown, hplaces⟩ := hstores.shown_spec hcompiled hfree text mode
  have hvalue : ∀ x ∈ located, x.2.terminal.value.Pairwise (fun i j : Nat => i < j) ∧
      ∀ i : Nat, i ∈ x.2.terminal.value ↔ keywords[i]? = some x.2.terminal.key :=
    fun x hx => h.value_spec hconfig hgroup (hplaces x hx).1
  have hmem : ∀ x ∈ keywordEvents located,
      x.1 ∈ located ∧ keywords[x.2]? = some x.1.2.terminal.key := by
    intro x hx
    obtain ⟨hfound, hi⟩ := mem_keywordEvents_iff.mp hx
    exact ⟨hfound, ((hvalue x.1 hfound).2 x.2).mp hi⟩
  refine ⟨keywordEvents located, ?_, ?_, fun x hx => ?_, fun x hx keyword hkeyword => ?_, ?_⟩
  · rw [map_keywordEvents, events, hall]
    rfl
  · exact pairwise_keywordEvents hshown.ordered fun x hx => (hvalue x hx).1
  · exact ⟨x.1.2.terminal.key, (hmem x hx).2, by rw [occurrence, hfold]⟩
  · obtain ⟨hfound, hkey⟩ := hmem x hx
    obtain rfl := Option.some.inj (hkey.symm.trans hkeyword)
    obtain ⟨-, hle, hends⟩ := hshown.mem_iff.mp (List.mem_map_of_mem hfound)
    rw [hfold] at hends
    exact ⟨hle, by rwa [hconfig.map_fold]⟩
  · intro i keyword e hi hoccurs
    have hlisted : (keyword.map config.automatonConfig.fold, e) ∈
        located.map automaton.occurrence := by
      refine hshown.mem_iff.mpr ⟨?_, hoccurs.le_length, hoccurs.ends⟩
      exact stored_of_branch (getElem?_storedBranches_keywordEntries hi) rfl keyword
        List.mem_cons_self
    obtain ⟨x, hx, heq⟩ := List.mem_map.mp hlisted
    obtain ⟨hkey, rfl⟩ := Prod.mk.inj heq
    rw [hfold, hconfig.map_fold] at hkey
    refine ⟨(x, i), mem_keywordEvents_iff.mpr ⟨hx, ?_⟩, rfl, rfl⟩
    rw [(hvalue x hx).2, hkey]
    exact hi

/-! ## What a verified search finds -/

/-- The first occurrence of one keyword ends before that of another, or they end together and the
first keyword is longer, or it is as long and was added before. -/
def FoundBefore (config : MatcherConfig) (text : Bytes) (keywords : List Bytes)
    (i j : PatternId) : Prop :=
  ∃ first second e e', keywords[i]? = some first ∧ keywords[j]? = some second ∧
    FirstEnd config.automatonConfig text first e ∧
    FirstEnd config.automatonConfig text second e' ∧
    (e < e' ∨ e = e' ∧ (second.length < first.length ∨ second.length = first.length ∧ i < j))

theorem KeywordEvent.Before.le {automaton : GroupAutomaton} {x y : KeywordEvent}
    (h : KeywordEvent.Before automaton x y) : x.1.1 ≤ y.1.1 := by
  rcases h with h | ⟨h, -⟩
  · exact Precedes.snd_le h
  · rw [h]

section Events

variable {text : Bytes} {automaton : GroupAutomaton} {shown kept : List KeywordEvent}
  (hshown : KeywordEvents config keywords text automaton shown)
  (hkept : FirstEvents (KeywordEvent.Before automaton) (fun _ => .fresh) shown kept)

include hshown hkept

theorem KeywordEvents.firstEnd {x : KeywordEvent} (hx : x ∈ kept) {keyword : Bytes}
    (hi : keywords[x.2]? = some keyword) :
    FirstEnd config.automatonConfig text keyword x.1.1 where
  occurs := hshown.occurs x (hkept.sublist.subset hx) keyword hi
  le := by
    intro e hoccurs
    obtain ⟨y, hy, hsame, rfl⟩ := hshown.exists_event hi hoccurs
    obtain ⟨z, hz, hzy, hbefore⟩ := hkept.first y hy rfl
    obtain rfl := List.inj_on_of_nodup_map hkept.nodup hz hx (hzy.trans hsame)
    rcases hbefore with rfl | hbefore
    · exact le_rfl
    · exact hbefore.le

theorem KeywordEvents.mem_kept_iff (hconfig : config.Literal) (i : Nat) :
    i ∈ kept.map Prod.snd ↔ ∃ keyword, keywords[i]? = some keyword ∧ keyword <:+: text := by
  rw [List.mem_map]
  constructor
  · rintro ⟨x, hx, rfl⟩
    obtain ⟨keyword, hi, -⟩ := hshown.occurrence_eq x (hkept.sublist.subset hx)
    exact ⟨keyword, hi, (infix_iff_exists_occursAt hconfig text keyword).mpr
      ⟨_, (hshown.firstEnd hkept hx hi).occurs⟩⟩
  · rintro ⟨keyword, hi, hinfix⟩
    obtain ⟨e, hoccurs⟩ := (infix_iff_exists_occursAt hconfig text keyword).mp hinfix
    obtain ⟨y, hy, rfl, -⟩ := hshown.exists_event hi hoccurs
    obtain ⟨x, hx, hsame, -⟩ := hkept.first y hy rfl
    exact ⟨x, hx, hsame⟩

theorem KeywordEvents.pairwise_foundBefore :
    (kept.map Prod.snd).Pairwise (FoundBefore config text keywords) := by
  refine List.pairwise_map.mpr ((hshown.ordered.sublist hkept.sublist).imp_of_mem ?_)
  intro x y hx hy hbefore
  obtain ⟨first, hi, hfirst⟩ := hshown.occurrence_eq x (hkept.sublist.subset hx)
  obtain ⟨second, hj, hsecond⟩ := hshown.occurrence_eq y (hkept.sublist.subset hy)
  refine ⟨first, second, x.1.1, y.1.1, hi, hj, hshown.firstEnd hkept hx hi,
    hshown.firstEnd hkept hy hj, ?_⟩
  rcases hbefore with hbefore | ⟨hsame, hlt⟩
  · rw [hfirst, hsecond] at hbefore
    exact hbefore.imp_right fun ⟨heq, hlonger⟩ => ⟨heq, Or.inl hlonger⟩
  · rw [hsame, hsecond] at hfirst
    obtain ⟨rfl, -⟩ := Prod.mk.inj hfirst
    exact Or.inr ⟨by rw [hsame], Or.inr ⟨rfl, hlt⟩⟩

end Events

theorem searchVerified_eq_map {P : Type} [Verifier P] (matcher : Matcher P) (g : Nat) (text : Bytes)
    (mode : EscapeMode) :
    (matcher.searchVerified g text mode).2 = (matcher.findAll g text mode).2.map
      (·.filter (matcher.confirms (mode.decode text))) := rfl

theorem Keyed.confirms_iff (h : Keyed config g keywords matcher) {i : Nat} {keyword : Bytes}
    (hi : keywords[i]? = some keyword) (text : Bytes) :
    matcher.confirms text i = true ↔ keyword <:+: text := by
  rw [confirms, h.get?_pattern hi]
  exact Needle.isMatch_iff ⟨keyword⟩ text

theorem Keyed.searchVerified_spec (h : Keyed config g keywords matcher) (hconfig : config.Literal)
    {automaton : GroupAutomaton} (hgroup : matcher.groups[g]? = some automaton)
    (hcompiled : automaton.compiled = true) (text : Bytes) (mode : EscapeMode) :
    ∃ ids, (matcher.searchVerified g text mode).2 = .ok ids ∧ ids.Nodup ∧
      (∀ id : Nat, id ∈ ids ↔
        ∃ keyword, keywords[id]? = some keyword ∧ keyword <:+: mode.decode text) ∧
      ids.Pairwise (FoundBefore config (mode.decode text) keywords) := by
  obtain ⟨shown, hevents, hshown⟩ := h.exists_events hconfig hgroup hcompiled text mode
  have hkeywords : ∀ x ∈ shown, ∃ keyword, keywords[x.2]? = some keyword := by
    intro x hx
    obtain ⟨keyword, hi, -⟩ := hshown.occurrence_eq x hx
    exact ⟨keyword, hi⟩
  obtain ⟨kept, hkept, hreports⟩ :=
    h.exists_firstEvents hshown.ordered hkeywords fun _ => Or.inl rfl
  have hmem := hshown.mem_kept_iff hkept hconfig
  have hok : matcher.group g = .ok automaton := by
    rw [group, hgroup]
  have hfind : (matcher.findAll g text mode).2 = .ok (kept.map Prod.snd) := by
    have hunused : matcher.scratch.Unused matcher.scratch.nextVersion :=
      h.scratch_eq ▸ ScanState.unused_new _
    have hversion : matcher.scratch.nextVersion ≠ 0 := by
      rw [h.scratch_eq]
      decide
    have hfirsts := findAllWith_eq hunused hversion hok hcompiled text mode
    rw [reports, hevents, firsts_eq_map (by rw [hreports]; exact hkept.nodup), hreports] at hfirsts
    exact hfirsts
  have hconfirmed : (kept.map Prod.snd).filter (matcher.confirms (mode.decode text)) =
      kept.map Prod.snd := by
    refine List.filter_eq_self.mpr fun id hid => ?_
    obtain ⟨keyword, hi, hinfix⟩ := (hmem id).mp hid
    exact (h.confirms_iff hi _).mpr hinfix
  refine ⟨kept.map Prod.snd, ?_, hkept.nodup, hmem, hshown.pairwise_foundBefore hkept⟩
  rw [searchVerified_eq_map, hfind]
  exact congrArg Except.ok hconfirmed

/-- A matcher with these keywords in a group, which is compiled. -/
def withKeywords (config : MatcherConfig) (g : Nat) (keywords : List Bytes) : Matcher Needle :=
  ((keywords.map (keywordCall g)).foldl build (new config)).compile g |>.1

/-- Where neither case nor words matter and all bytes may occur, keywords get the identifiers of
their places, and a verified search finds exactly those that occur in the decoded text, each once,
by the ends of their first occurrences, then longer ones first, then in the order in which they were
added. -/
theorem searchVerified_withKeywords (config : MatcherConfig) (hconfig : config.Literal) {g : Nat}
    (hg : g < config.groups) {keywords : List Bytes} (hne : ∀ keyword ∈ keywords, keyword ≠ [])
    (text : Bytes) (mode : EscapeMode) :
    (∀ before keyword after, keywords = before ++ keyword :: after →
      (((before.map (keywordCall g)).foldl build (new config)).addKeyword g keyword
        ⟨keyword⟩).2 = .ok before.length) ∧
    ∃ ids, ((withKeywords config g keywords).searchVerified g text mode).2 = .ok ids ∧
      ids.Nodup ∧
      (∀ id : Nat, id ∈ ids ↔
        ∃ keyword, keywords[id]? = some keyword ∧ keyword <:+: mode.decode text) ∧
      ids.Pairwise (FoundBefore config (mode.decode text) keywords) := by
  constructor
  · rintro before keyword after rfl
    have hbefore := keyed_foldl hconfig hg fun other hother =>
      hne other (List.mem_append_left _ hother)
    exact (hbefore.add hconfig hg (hne keyword (by simp))).1
  · obtain ⟨hkeyed, automaton, hgroup, hcompiled⟩ := (keyed_foldl hconfig hg hne).compile hg
    exact hkeyed.searchVerified_spec hconfig hgroup hcompiled text mode

/-- Keywords that end together, one of them twice, in a text that has one of their letters as an
escape. -/
theorem searchVerified_withKeywords_she :
    let config : MatcherConfig := ⟨1, false, false, 100000, true, 2, 0, 255⟩
    let keywords : List Bytes := [[0x68, 0x65], [0x73, 0x68, 0x65], [0x65], [0x68, 0x65], [0x25]]
    ∃ ids, ((withKeywords config 0 keywords).searchVerified 0
        [0x25, 0x37, 0x33, 0x68, 0x65] .url).2 = .ok ids ∧
      ids.Nodup ∧ 1 ∈ ids ∧
      ids.Pairwise (FoundBefore config [0x73, 0x68, 0x65] keywords) := by
  intro config keywords
  have hne : ∀ keyword ∈ keywords, keyword ≠ [] := by decide
  have hdecode : EscapeMode.url.decode [0x25, 0x37, 0x33, 0x68, 0x65] = [0x73, 0x68, 0x65] := by
    decide +kernel
  obtain ⟨-, ids, hids, hnodup, hmem, hordered⟩ := searchVerified_withKeywords config
    ⟨rfl, rfl, rfl, rfl⟩ (show 0 < config.groups by decide) hne
    [0x25, 0x37, 0x33, 0x68, 0x65] .url
  rw [hdecode] at hmem hordered
  exact ⟨ids, hids, hnodup, (hmem 1).mpr ⟨_, rfl, List.infix_rfl⟩, hordered⟩

example : ((withKeywords ⟨1, false, false, 100000, true, 2, 0, 255⟩ 0
    [[0x68, 0x65], [0x73, 0x68, 0x65], [0x65], [0x68, 0x65], [0x25]]).searchVerified 0
      [0x25, 0x37, 0x33, 0x68, 0x65] .url).2 = .ok [1, 0, 3, 2] := by
  decide +kernel

end Matcher

end LiteralSieve
