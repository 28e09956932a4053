import LiteralSieve.Proofs.Decompositions
import LiteralSieve.Proofs.Matcher.Operations

namespace LiteralSieve

/-!
# Records of a matcher

The frames of a piece come last literal first, without anything in between. So the frame of the
literal before a given one has the next number, and all frames of a matcher are known from its
branches. With them the matcher records the groups and the branch counts of its patterns, and no two
branches of one pattern wait for the same keys.
-/

/-! ## Branches of one pattern -/

/-- No two branches have the same folded literals. -/
def DistinctFolds (config : AutomatonConfig) (branches : List KeywordBranch) : Prop :=
  (branches.map fun branch => branch.map (·.map config.fold)).Nodup

theorem pairwise_of_keywordDecomposition {options : DecomposeOptions} {pattern : String}
    {tree : PatternTree} {found : Decomposition}
    (h : keywordDecomposition options pattern tree = .ok found) :
    found.branches.Pairwise fun first second =>
      first.key options.caseInsensitive ≠ second.key options.caseInsensitive := by
  rw [keywordDecomposition] at h
  split at h
  case isFalse => cases h
  case isTrue =>
    dsimp only at h
    split at h
    case isTrue => cases h
    case isFalse =>
      obtain rfl := Except.ok.inj h
      exact pairwise_withoutRepeats _ _ _

theorem pairwise_of_treeDecomposition {options : DecomposeOptions} {pattern : String}
    {tree : PatternTree} {found : Decomposition}
    (h : treeDecomposition options pattern tree = .ok found) :
    found.branches.Pairwise fun first second =>
      first.key options.caseInsensitive ≠ second.key options.caseInsensitive := by
  rw [treeDecomposition] at h
  split at h
  · split at h
    case h_1 hcollect =>
      obtain rfl := Except.ok.inj h
      exact pairwise_of_collect hcollect
    case h_2 => cases h
  · split at h
    case h_1 hcollect =>
      obtain rfl := Except.ok.inj h
      exact pairwise_of_collect hcollect
    case h_2 => exact pairwise_of_keywordDecomposition h

/-- Branches that are told apart in lower case are told apart in upper case. -/
theorem key_eq_of_folded_eq {config : MatcherConfig} {first second : KeywordBranch}
    (h : first.map (·.map config.automatonConfig.fold) =
      second.map (·.map config.automatonConfig.fold)) :
    first.key config.caseInsensitive = second.key config.caseInsensitive := by
  have hkey : ∀ branch : KeywordBranch, branch.key config.caseInsensitive =
      KeywordBranch.key config.caseInsensitive
        (branch.map (·.map config.automatonConfig.fold)) := by
    intro branch
    rw [KeywordBranch.key, KeywordBranch.key]
    split
    case isTrue hcase =>
      rw [List.map_map]
      refine List.map_congr_left fun literal _ => ?_
      rw [Function.comp_apply, List.map_map]
      refine List.map_congr_left fun b _ => ?_
      have hfold : config.automatonConfig.fold b = Byte.toUpper b := if_pos hcase
      rw [Function.comp_apply, hfold, Byte.toLower_toUpper]
    case isFalse hcase =>
      have hfold : config.automatonConfig.fold = id := funext fun b => if_neg hcase
      simp [hfold]
  rw [hkey first, h, ← hkey second]

theorem distinctFolds_of_decomposition {config : MatcherConfig} {pattern : String}
    {found : Decomposition} (h : decomposition config.decomposeOptions pattern = .ok found) :
    DistinctFolds config.automatonConfig found.branches := by
  have hpairs : found.branches.Pairwise fun first second =>
      first.key config.caseInsensitive ≠ second.key config.caseInsensitive := by
    rw [decomposition, Decomposer.decompose] at h
    split at h
    case h_1 => cases h
    case h_2 => exact pairwise_of_treeDecomposition h
  refine List.pairwise_map.mpr (hpairs.imp fun hne heq => hne (key_eq_of_folded_eq heq))

/-! ## Frames by their numbers -/

/-- The frame that waits for a literal, if it has this number. -/
def Label.frame (label : Label) (id : FrameId) : Frame :=
  ⟨label.piece, if label.position = 0 then none else some (id + 1), label.position⟩

def linkedFrames (base : Nat) (labels : List Label) : List Frame :=
  (labels.zipIdx base).map fun x => x.1.frame x.2

theorem linkedFrames_append (base : Nat) (labels more : List Label) :
    linkedFrames base (labels ++ more) =
      linkedFrames base labels ++ linkedFrames (base + labels.length) more := by
  rw [linkedFrames, List.zipIdx_append, List.map_append]
  rfl

theorem getElem?_reverse_zipIdx {α : Type*} (xs : List α) {i : Nat} (hi : i < xs.length) :
    xs.zipIdx.reverse[i]? = some (xs[xs.length - 1 - i], xs.length - 1 - i) := by
  rw [List.getElem?_reverse (by rwa [List.length_zipIdx]), List.getElem?_zipIdx, List.length_zipIdx,
    Nat.zero_add, List.getElem?_eq_getElem]
  rfl

theorem length_labels (branch : StoredBranch) (piece : PieceId) :
    (branch.labels piece).length = branch.literals.length := by
  rw [StoredBranch.labels, List.length_map, List.length_reverse, List.length_zipIdx]

theorem getElem?_labels (branch : StoredBranch) (piece : PieceId) {i : Nat}
    (hi : i < branch.literals.length) :
    (branch.labels piece)[i]? = some ⟨branch.group, branch.pattern, piece,
      branch.literals.length - 1 - i, branch.literals[branch.literals.length - 1 - i]⟩ := by
  rw [StoredBranch.labels, List.getElem?_map, getElem?_reverse_zipIdx _ hi]
  rfl

namespace Matcher

namespace GroupIndex

variable {index next : GroupIndex} {pattern : PatternId} {wholeWord : Bool}

theorem map_fst_framesOf (branch : StoredBranch) (piece base : Nat) :
    (framesOf piece base branch.literals).map Prod.fst =
      linkedFrames base (branch.labels piece) := by
  refine List.ext_getElem? fun i => ?_
  rw [framesOf, List.map_map, List.getElem?_map, linkedFrames, List.getElem?_map,
    List.getElem?_zipIdx]
  by_cases hi : i < branch.literals.length
  · have hnext : base + branch.literals.length - (branch.literals.length - 1 - i) =
        base + i + 1 := by omega
    rw [getElem?_reverse_zipIdx _ hi, getElem?_labels branch piece hi]
    simp [Label.frame, prevFrame, hnext]
  · rw [List.getElem?_eq_none (by simpa using hi), List.getElem?_eq_none]
    · rfl
    · rw [length_labels]
      exact Nat.not_lt.mp hi

theorem frames_addFrame (pattern : PatternId) (wholeWord : Bool) (index : GroupIndex)
    (item : Frame × Bytes) :
    (addFrame pattern wholeWord index item).1.frames = index.frames.push item.1 ∧
      (addFrame pattern wholeWord index item).1.pieces = index.pieces := by
  obtain ⟨frame, literal⟩ := item
  rw [addFrame]
  split <;> exact ⟨rfl, rfl⟩

theorem frames_addFrames {items : List (Frame × Bytes)}
    (h : untilFailure (addFrame pattern wholeWord) index items = (next, .ok ())) :
    next.frames.toList = index.frames.toList ++ items.map Prod.fst ∧
      next.pieces = index.pieces := by
  induction items generalizing index with
  | nil =>
      obtain ⟨rfl, -⟩ := Prod.mk.inj h
      exact ⟨(List.append_nil _).symm, rfl⟩
  | cons item items ih =>
      obtain ⟨hframes, hpieces⟩ := frames_addFrame pattern wholeWord index item
      rw [untilFailure] at h
      split at h
      case h_1 mid heq =>
        rw [heq] at hframes hpieces
        obtain ⟨hrest, hsame⟩ := ih h
        refine ⟨?_, hsame.trans hpieces⟩
        rw [hrest, hframes, Pool.toList_push, List.append_assoc]
        rfl
      case h_2 => cases h

/-- The frames of the index are those of these branches. -/
structure Links (branches : List StoredBranch) (index : GroupIndex) : Prop where
  pieces_size : index.pieces.size = branches.length
  frames_eq : index.frames.toList = linkedFrames 0 (allLabels branches)

theorem Links.addPiece {branches : List StoredBranch} (h : index.Links branches)
    (branch : StoredBranch)
    (hadd : addPiece pattern wholeWord index branch.literals = (next, .ok ())) :
    next.Links (branches ++ [branch]) := by
  obtain ⟨hframes, hpieces⟩ := frames_addFrames hadd
  have hsize : index.frames.size = (allLabels branches).length := by
    have hlength := congrArg List.length h.frames_eq
    rwa [Pool.length_toList, linkedFrames, List.length_map, List.length_zipIdx] at hlength
  refine ⟨?_, ?_⟩
  · rw [hpieces, List.length_append, ← h.pieces_size]
    exact Pool.size_push _ _
  · rw [hframes, map_fst_framesOf, allLabels_concat, linkedFrames_append, ← h.frames_eq,
      h.pieces_size, Nat.zero_add, hsize]

theorem Links.addPieces {branches : List StoredBranch} {g : Nat} {literals : List KeywordBranch}
    (h : index.Links branches)
    (hadd : untilFailure (GroupIndex.addPiece pattern wholeWord) index literals =
      (next, .ok ())) : next.Links (branches ++ literals.map (⟨g, pattern, ·⟩)) := by
  induction literals generalizing index branches with
  | nil =>
      obtain ⟨rfl, -⟩ := Prod.mk.inj hadd
      simpa using h
  | cons first literals ih =>
      rw [untilFailure] at hadd
      split at hadd
      case h_1 mid heq =>
        have hmid := h.addPiece ⟨g, pattern, first⟩ heq
        simpa using ih hmid hadd
      case h_2 => cases hadd

end GroupIndex

variable {P : Type} {matcher : Matcher P} {config : MatcherConfig} {entries : List Accepted}

/-! ## What a call builds -/

/-- The branches can be stored as those of one pattern. -/
structure Storable (config : MatcherConfig) (branches : List KeywordBranch) : Prop where
  ne_nil : ∀ literals ∈ branches, literals ≠ []
  valid : ∀ literal ∈ branches.flatten, config.automatonConfig.validate literal = .ok ()
  distinct : DistinctFolds config.automatonConfig branches

/-- The matcher has one more pattern with these branches, and the call says so. -/
structure Enters (matcher : Matcher P) (call : BuildCall P) (g : Nat)
    (automaton : GroupAutomaton) (source : String) (payload : P)
    (branches : List KeywordBranch) : Prop where
  group_eq : matcher.group g = .ok automaton
  build_eq : matcher.build call = (matcher.addEntry g automaton source payload branches).1
  accepted_eq : matcher.accepted call = [⟨g, branches⟩]
  storable : Storable matcher.config branches

theorem addPattern_of_ok {g : Nat} {pattern : String} {payload : P} {id : PatternId}
    (hid : (matcher.addPattern g pattern payload).2 = .ok id) :
    ∃ automaton found, matcher.group g = .ok automaton ∧
      decomposition matcher.config.decomposeOptions pattern = .ok found ∧
      validateAll automaton found.branches.flatten = .ok () ∧
      matcher.addPattern g pattern payload =
        matcher.addEntry g automaton pattern payload found.branches := by
  rw [Matcher.addPattern] at hid ⊢
  split at hid
  case h_1 => cases hid
  case h_2 automaton hgroup =>
    split at hid
    case h_1 => cases hid
    case h_2 found hfound =>
      split at hid
      case h_1 => cases hid
      case h_2 hvalid => exact ⟨automaton, found, hgroup, hfound, hvalid, rfl⟩

theorem addKeyword_of_ok {g : Nat} {keyword : Bytes} {payload : P} {id : PatternId}
    (hid : (matcher.addKeyword g keyword payload).2 = .ok id) :
    ∃ automaton, matcher.group g = .ok automaton ∧ automaton.validate keyword = .ok () ∧
      matcher.addKeyword g keyword payload =
        matcher.addEntry g automaton (Text.ofBytes keyword) payload [[keyword]] := by
  rw [Matcher.addKeyword] at hid ⊢
  split at hid
  case h_1 => cases hid
  case h_2 automaton hgroup =>
    split at hid
    case h_1 => cases hid
    case h_2 hvalid => exact ⟨automaton, hgroup, hvalid, rfl⟩

theorem Indexed.enters_addPattern (h : matcher.Indexed matcher.config entries) {g : Nat}
    {pattern : String} {payload : P} {id : PatternId}
    (hid : (matcher.addPattern g pattern payload).2 = .ok id) :
    id = entries.length ∧ ∃ automaton branches,
      Enters matcher (.addPattern g pattern payload) g automaton pattern payload branches := by
  obtain ⟨automaton, found, hgroup, hfound, hvalid, hadd⟩ := addPattern_of_ok hid
  refine ⟨?_, automaton, found.branches, hgroup, ?_, ?_, ne_nil_of_decomposition hfound,
    fun literal hmem => ?_, distinctFolds_of_decomposition hfound⟩
  · rcases h.addPattern g pattern payload with ⟨_, -, hok, -⟩ | ⟨cause, heq⟩
    · exact Except.ok.inj (hid.symm.trans hok)
    · rw [heq] at hid
      cases hid
  · rw [Matcher.build, hadd]
  · rw [accepted, hid, hfound]
  · rw [← h.validate_eq hgroup]
    exact validate_of_validateAll hvalid literal hmem

theorem Indexed.enters_addKeyword (h : matcher.Indexed matcher.config entries) {g : Nat}
    {keyword : Bytes} {payload : P} {id : PatternId}
    (hid : (matcher.addKeyword g keyword payload).2 = .ok id) :
    id = entries.length ∧ ∃ automaton, Enters matcher (.addKeyword g keyword payload) g automaton
      (Text.ofBytes keyword) payload [[keyword]] := by
  obtain ⟨automaton, hgroup, hvalid, hadd⟩ := addKeyword_of_ok hid
  refine ⟨?_, automaton, hgroup, ?_, ?_, by simp, fun literal hmem => ?_, List.nodup_singleton _⟩
  · rcases h.addKeyword g keyword payload with ⟨hok, -⟩ | ⟨cause, heq⟩
    · exact Except.ok.inj (hid.symm.trans hok)
    · rw [heq] at hid
      cases hid
  · rw [Matcher.build, hadd]
  · rw [accepted, hid]
  · obtain rfl : literal = keyword := by simpa using hmem
    rw [← h.validate_eq hgroup]
    exact hvalid

theorem Indexed.build_cases (h : matcher.Indexed matcher.config entries) (call : BuildCall P) :
    (∃ g automaton source payload branches,
      Enters matcher call g automaton source payload branches) ∨
    (∃ g, matcher.build call = (matcher.compile g).1 ∧ matcher.accepted call = []) ∨
    (matcher.build call = matcher ∧ matcher.accepted call = []) := by
  cases call with
  | compile g => exact Or.inr (Or.inl ⟨g, rfl, rfl⟩)
  | addPattern g pattern payload =>
      rcases h.addPattern g pattern payload with ⟨_, -, hid, -⟩ | ⟨cause, heq⟩
      · obtain ⟨-, automaton, branches, henters⟩ := h.enters_addPattern hid
        exact Or.inl ⟨g, automaton, pattern, payload, branches, henters⟩
      · refine Or.inr (Or.inr ⟨?_, ?_⟩)
        · rw [Matcher.build, heq]
        · rw [accepted, heq]
  | addKeyword g keyword payload =>
      rcases h.addKeyword g keyword payload with ⟨hid, -⟩ | ⟨cause, heq⟩
      · obtain ⟨-, automaton, henters⟩ := h.enters_addKeyword hid
        exact Or.inl ⟨g, automaton, Text.ofBytes keyword, payload, [[keyword]], henters⟩
      · refine Or.inr (Or.inr ⟨?_, ?_⟩)
        · rw [Matcher.build, heq]
        · rw [accepted, heq]

/-! ## From call to call -/

/-- What the matcher has recorded of its patterns. -/
structure Recorded (entries : List Accepted) (matcher : Matcher P) : Prop where
  frames_eq : matcher.frames.toList = linkedFrames 0 (allLabels (storedBranches entries))
  counts_eq : matcher.patterns.toList.map (·.branches) = entries.map (·.branches.length)
  /-- A group that is there is the one that its patterns were added to. -/
  group_eq : ∀ {id : Nat} {pattern entry}, matcher.patterns.get? id = some pattern →
    entries[id]? = some entry → entry.group < matcher.groups.size → pattern.group = entry.group
  distinct : ∀ entry ∈ entries, DistinctFolds matcher.config.automatonConfig entry.branches

theorem recorded_new (config : MatcherConfig) : Recorded [] (new config : Matcher P) where
  frames_eq := rfl
  counts_eq := rfl
  group_eq := by simp
  distinct := by simp

theorem Recorded.addEntry (h : matcher.Recorded entries)
    (hindexed : matcher.Indexed matcher.config entries) {g : Nat} {automaton : GroupAutomaton}
    (hgroup : matcher.group g = .ok automaton) (source : String) (payload : P)
    {branches : List KeywordBranch} (hstorable : Storable matcher.config branches) :
    (matcher.addEntry g automaton source payload branches).1.Recorded
      (entries ++ [⟨g, branches⟩]) := by
  have hholds : GroupIndex.Holds matcher.config g (storedBranches entries)
      (allLabels (storedBranches entries)) ⟨automaton, matcher.pieces, matcher.frames⟩ :=
    ⟨hindexed.built (getElem?_groups_of_group hgroup), hindexed.pieces_eq, hindexed.frames_eq⟩
  obtain ⟨index, hindex, -⟩ :=
    GroupIndex.addPieces_spec matcher.patterns.size branches hholds hstorable.valid
  have hlinks : GroupIndex.Links (storedBranches entries)
      ⟨automaton, matcher.pieces, matcher.frames⟩ := by
    refine ⟨?_, h.frames_eq⟩
    have hlength := congrArg List.length hindexed.pieces_eq
    rwa [List.length_map, Pool.length_toList] at hlength
  have hnext := hlinks.addPieces (g := g) hindex
  rw [hindexed.patterns_size, ← storedBranches_concat entries ⟨g, branches⟩] at hnext
  simp only [Matcher.addEntry, hindex]
  refine ⟨hnext.frames_eq, ?_, ?_, ?_⟩
  · rw [Pool.toList_push, List.map_append, List.map_append, h.counts_eq]
    rfl
  · intro id pattern entry hpattern hentry hlt
    rw [Array.size_setIfInBounds] at hlt
    rw [Pool.get?_push] at hpattern
    split_ifs at hpattern with hid
    · obtain rfl := Option.some.inj hpattern
      rw [hid, hindexed.patterns_size, List.getElem?_concat_length] at hentry
      obtain rfl := Option.some.inj hentry
      rfl
    · have hbefore : id < entries.length := by
        rw [← hindexed.patterns_size]
        exact Pool.lt_size_of_get? hpattern
      rw [List.getElem?_append_left hbefore] at hentry
      exact h.group_eq hpattern hentry hlt
  · intro entry hentry
    rcases List.mem_append.mp hentry with hold | hnew
    · exact h.distinct entry hold
    · obtain rfl := List.mem_singleton.mp hnew
      exact hstorable.distinct

theorem size_groups_compile (matcher : Matcher P) (g : Nat) :
    (matcher.compile g).1.groups.size = matcher.groups.size := by
  rw [Matcher.compile]
  split
  · rfl
  · exact Array.size_setIfInBounds

theorem size_groups_compileAll (matcher : Matcher P) :
    matcher.compileAll.1.groups.size = matcher.groups.size :=
  untilFailure_of_step (Q := fun next : Matcher P => next.groups.size = matcher.groups.size)
    (fun next g hsize => (size_groups_compile next g).trans hsize) rfl _

theorem Indexed.compile_of_group (h : matcher.Indexed config entries) {g : Nat}
    {automaton : GroupAutomaton} (hgroup : matcher.groups[g]? = some automaton) :
    ∃ next : GroupAutomaton, next.compiled = true ∧
      matcher.compile g =
        ({ matcher with groups := matcher.groups.setIfInBounds g next }, .ok ()) := by
  obtain ⟨trie, moves, heq, -⟩ := (h.built hgroup).stores.compile_eq
  refine ⟨{ automaton with trie := trie, moves := moves, compiled := true }, rfl, ?_⟩
  rw [Matcher.compile, group, hgroup]
  simp only [heq, if_true]

theorem Recorded.compile (h : matcher.Recorded entries) (g : Nat) :
    (matcher.compile g).1.Recorded entries := by
  have hsize := size_groups_compile matcher g
  rw [Matcher.compile] at hsize ⊢
  split
  case h_1 => exact h
  case h_2 hgroup =>
    rw [hgroup] at hsize
    exact ⟨h.frames_eq, h.counts_eq, fun hpattern hentry hlt =>
      h.group_eq hpattern hentry (hsize ▸ hlt), h.distinct⟩

theorem Recorded.after (h : matcher.Recorded entries)
    (hindexed : matcher.Indexed matcher.config entries) (call : MatcherCall P) :
    (matcher.after call).Recorded (entries ++ matcher.storedBy call) := by
  cases call with
  | scan call =>
      rw [storedBy, List.append_nil]
      cases call <;> exact ⟨h.frames_eq, h.counts_eq, h.group_eq, h.distinct⟩
  | build call =>
      rw [Matcher.after, storedBy]
      rcases hindexed.build_cases call with
        ⟨g, automaton, source, payload, branches, henters⟩ | ⟨g, hbuild, hnone⟩ | ⟨hbuild, hnone⟩
      · rw [henters.build_eq, henters.accepted_eq]
        exact h.addEntry hindexed henters.group_eq source payload henters.storable
      · rw [hbuild, hnone, List.append_nil]
        exact h.compile g
      · rwa [hbuild, hnone, List.append_nil]

theorem size_groups_resize (matcher : Matcher P) (groups : Nat) :
    (matcher.resize groups).groups.size = groups := by
  rw [Matcher.resize, size_extendArray, Array.take_eq_extract, Array.size_extract]
  omega

theorem Recorded.resize (h : matcher.Recorded entries) (groups : Nat) :
    (matcher.resize groups).Recorded
      (entries.map (.regroup (refiled (min matcher.groups.size groups) groups))) where
  frames_eq := by
    have hlinked : ∀ (base : Nat) (f : Nat → Nat) (labels : List Label),
        linkedFrames base (labels.map (.regroup f)) = linkedFrames base labels := by
      intro base f labels
      rw [linkedFrames, List.zipIdx_map, List.map_map]
      rfl
    rw [storedBranches_regroup, allLabels_regroup, hlinked]
    exact h.frames_eq
  counts_eq := by
    rw [List.map_map]
    exact h.counts_eq
  group_eq := by
    intro id pattern entry hpattern hentry hlt
    rw [List.getElem?_map] at hentry
    obtain ⟨old, hold, rfl⟩ := Option.map_eq_some_iff.mp hentry
    rw [size_groups_resize] at hlt
    -- A pattern that is in a group after the change was in the same one before.
    simp only [Accepted.regroup, refiled] at hlt ⊢
    split_ifs at hlt ⊢ with hkept
    · exact h.group_eq hpattern hold (by omega)
    · exact (lt_irrefl _ hlt).elim
  distinct := by
    intro entry hentry
    obtain ⟨old, hold, rfl⟩ := List.mem_map.mp hentry
    exact h.distinct old hold

theorem Recorded.perform [Verifier P] (h : matcher.Recorded entries)
    (hindexed : matcher.Indexed matcher.config entries) (operation : Operation P) :
    (matcher.perform operation).Recorded (matcher.held entries operation) := by
  cases operation with
  | call call => exact h.after hindexed call
  | compileAll => exact untilFailure_of_step (fun _ g hrecorded => hrecorded.compile g) h _
  | searchVerified g text mode =>
      have hscan := h.after hindexed (.scan (.findAll g text mode))
      rwa [storedBy, List.append_nil] at hscan
  | resize groups => exact h.resize groups
  | clear => exact ⟨rfl, rfl, by simp [Matcher.perform, Matcher.clear], by simp [held]⟩
  | shrink => exact h

theorem Recorded.performAll [Verifier P] (h : matcher.Recorded entries)
    (hindexed : matcher.Indexed matcher.config entries) (operations : List (Operation P)) :
    (operations.foldl Matcher.perform matcher).Recorded (matcher.heldAll entries operations) := by
  induction operations generalizing matcher entries with
  | nil => exact h
  | cons operation operations ih =>
      exact ih (h.perform hindexed operation) (hindexed.perform operation)

theorem recorded_performed [Verifier P] (config : MatcherConfig)
    (operations : List (Operation P)) :
    (performed config operations).Recorded (stored config operations) :=
  (recorded_new config).performAll (indexed_new config) operations

end Matcher

end LiteralSieve
