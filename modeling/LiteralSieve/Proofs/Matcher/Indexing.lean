import LiteralSieve.Matcher.Basic
import LiteralSieve.Proofs.Automaton.KeyTable
import LiteralSieve.Proofs.Keywords

namespace LiteralSieve

/-!
# What a matcher has stored

Pieces and frames are numbered through all groups in the order in which they came. A frame stands
for a literal of a branch, and the automaton of a group was built from the literals of its frames;
so the frames that wait for a key are known from the branches alone.
-/

/-- A pattern that was accepted, with its branches. -/
structure Accepted where
  group : Nat
  branches : List KeywordBranch
deriving DecidableEq

/-- A branch of an accepted pattern. -/
structure StoredBranch where
  group : Nat
  pattern : PatternId
  literals : KeywordBranch
deriving DecidableEq

/-- A literal of a stored branch, which a frame waits for. -/
structure Label where
  group : Nat
  pattern : PatternId
  piece : PieceId
  position : Nat
  literal : Bytes
deriving DecidableEq

/-- The branches of accepted patterns, by the order of their pieces. -/
def storedBranches (entries : List Accepted) : List StoredBranch :=
  entries.zipIdx.flatMap fun (entry, id) => entry.branches.map (⟨entry.group, id, ·⟩)

namespace StoredBranch

def piece (branch : StoredBranch) : Piece := ⟨branch.literals.length, branch.pattern⟩

def folded (config : AutomatonConfig) (branch : StoredBranch) : List Bytes :=
  branch.literals.map (·.map config.fold)

/-- The literals of a branch in the order of their frames. -/
def labels (branch : StoredBranch) (piece : PieceId) : List Label :=
  branch.literals.zipIdx.reverse.map fun (literal, position) =>
    ⟨branch.group, branch.pattern, piece, position, literal⟩

end StoredBranch

/-- The literals of all branches in the order of their frames. -/
def allLabels (branches : List StoredBranch) : List Label :=
  branches.zipIdx.flatMap fun (branch, piece) => branch.labels piece

def Label.place (label : Label) : PieceId × Nat := (label.piece, label.position)

def Frame.place (frame : Frame) : PieceId × Nat := (frame.piece, frame.position)

def Label.addition (wholeWord : Bool) (label : Label) (id : FrameId) :
    Automaton.Addition (List FrameId) :=
  ⟨label.literal, label.pattern, wholeWord, fun frames => frames.getD [] ++ [id]⟩

def groupAdditions (wholeWord : Bool) (labels : List Label) (g : Nat) :
    List (Automaton.Addition (List FrameId)) :=
  (labels.zipIdx.filter fun x => x.1.group = g).map fun x => x.1.addition wholeWord x.2

theorem storedBranches_concat (entries : List Accepted) (entry : Accepted) :
    storedBranches (entries ++ [entry]) = storedBranches entries ++
      entry.branches.map (⟨entry.group, entries.length, ·⟩) := by
  simp [storedBranches, List.zipIdx_append]

theorem allLabels_concat (branches : List StoredBranch) (branch : StoredBranch) :
    allLabels (branches ++ [branch]) = allLabels branches ++ branch.labels branches.length := by
  simp [allLabels, List.zipIdx_append]

theorem groupAdditions_concat (wholeWord : Bool) (labels : List Label) (label : Label) (g : Nat) :
    groupAdditions wholeWord (labels ++ [label]) g = groupAdditions wholeWord labels g ++
      if label.group = g then [label.addition wholeWord labels.length] else [] := by
  rw [groupAdditions, List.zipIdx_append, List.filter_append, List.map_append, ← groupAdditions]
  split_ifs with h <;> simp [h]

/-- Literals of other groups add nothing. -/
theorem groupAdditions_append (wholeWord : Bool) (labels more : List Label) {g : Nat}
    (h : ∀ label ∈ more, label.group ≠ g) :
    groupAdditions wholeWord (labels ++ more) g = groupAdditions wholeWord labels g := by
  induction more using List.reverseRecOn with
  | nil => rw [List.append_nil]
  | append_singleton more label ih =>
      rw [← List.append_assoc, groupAdditions_concat, if_neg (h label (by simp)), List.append_nil]
      exact ih fun l hl => h l (by simp [hl])

theorem group_of_mem_labels {branch : StoredBranch} {piece : PieceId} {label : Label}
    (h : label ∈ branch.labels piece) : label.group = branch.group := by
  obtain ⟨x, -, rfl⟩ := List.mem_map.mp h
  rfl

/-- Branches of other groups add nothing. -/
theorem groupAdditions_allLabels_append (wholeWord : Bool) (branches more : List StoredBranch)
    {g : Nat} (h : ∀ branch ∈ more, branch.group ≠ g) :
    groupAdditions wholeWord (allLabels (branches ++ more)) g =
      groupAdditions wholeWord (allLabels branches) g := by
  induction more using List.reverseRecOn with
  | nil => rw [List.append_nil]
  | append_singleton more branch ih =>
      rw [← List.append_assoc, allLabels_concat, groupAdditions_append]
      · exact ih fun b hb => h b (by simp [hb])
      · intro label hlabel
        rw [group_of_mem_labels hlabel]
        exact h branch (by simp)

namespace Matcher

namespace GroupIndex

/-- The index of a group that is being extended: these branches have their pieces, and these
literals their frames. -/
structure Holds (config : MatcherConfig) (g : Nat) (branches : List StoredBranch)
    (labels : List Label) (index : GroupIndex) : Prop where
  built : Automaton.Built config.automatonConfig (groupAdditions config.wholeWord labels g)
    index.automaton
  pieces_eq : index.pieces.toList = branches.map StoredBranch.piece
  frames_eq : index.frames.toList.map Frame.place = labels.map Label.place

variable {config : MatcherConfig} {g : Nat} {branches : List StoredBranch} {labels : List Label}
  {index : GroupIndex}

theorem Holds.validate_eq (h : index.Holds config g branches labels) (literal : Bytes) :
    index.automaton.validate literal = config.automatonConfig.validate literal := by
  rw [Automaton.validate, h.built.stores.config_eq]

/-- One more literal gets its frame. -/
theorem addFrame_spec (h : index.Holds config g branches labels) (label : Label)
    (hgroup : label.group = g) (frame : Frame) (hplace : frame.place = label.place)
    (hvalid : config.automatonConfig.validate label.literal = .ok ()) :
    ∃ next, addFrame label.pattern config.wholeWord index (frame, label.literal) =
        (next, .ok ()) ∧ next.Holds config g branches (labels ++ [label]) := by
  have hsize : index.frames.size = labels.length := by
    have hlength := congrArg List.length h.frames_eq
    rwa [List.length_map, List.length_map, Pool.length_toList] at hlength
  obtain ⟨automaton, terminal, hadd⟩ := Automaton.addWith_of_validate
    ((h.validate_eq label.literal).trans hvalid) label.pattern config.wholeWord
    (label.addition config.wholeWord labels.length).update
  refine ⟨⟨automaton, index.pieces, index.frames.push frame⟩, ?_, ?_, h.pieces_eq, ?_⟩
  · rw [addFrame, hsize]
    simp only [Label.addition] at hadd
    simp only [hadd]
  · rw [groupAdditions_concat, if_pos hgroup]
    exact .add (label.addition config.wholeWord labels.length) h.built hadd
  · rw [Pool.toList_push, List.map_append, h.frames_eq, List.map_append]
    simp [hplace]

/-- The frames of a piece, from one of its literals on. -/
theorem addFrames_spec (pattern : PatternId) (piece : PieceId) (prev : Nat → Option FrameId)
    (places : List (Bytes × Nat)) (h : index.Holds config g branches labels)
    (hvalid : ∀ x ∈ places, config.automatonConfig.validate x.1 = .ok ()) :
    ∃ next, untilFailure (addFrame pattern config.wholeWord) index
        (places.map fun x => (⟨piece, prev x.2, x.2⟩, x.1)) = (next, .ok ()) ∧
      next.Holds config g branches
        (labels ++ places.map fun x => ⟨g, pattern, piece, x.2, x.1⟩) := by
  induction places generalizing index labels with
  | nil => exact ⟨index, rfl, by simpa using h⟩
  | cons x places ih =>
      obtain ⟨mid, hmid, hholds⟩ := addFrame_spec h ⟨g, pattern, piece, x.2, x.1⟩ rfl
        ⟨piece, prev x.2, x.2⟩ rfl (hvalid x (by simp))
      obtain ⟨next, hnext, hall⟩ := ih hholds fun y hy => hvalid y (by simp [hy])
      refine ⟨next, ?_, by simpa using hall⟩
      rw [List.map_cons, untilFailure, hmid]
      exact hnext

/-- One more branch gets its piece and its frames. -/
theorem addPiece_spec (h : index.Holds config g branches (allLabels branches))
    (pattern : PatternId) {literals : KeywordBranch}
    (hvalid : ∀ literal ∈ literals, config.automatonConfig.validate literal = .ok ()) :
    ∃ next, addPiece pattern config.wholeWord index literals = (next, .ok ()) ∧
      next.Holds config g (branches ++ [⟨g, pattern, literals⟩])
        (allLabels (branches ++ [⟨g, pattern, literals⟩])) := by
  have hsize : index.pieces.size = branches.length := by
    have hlength := congrArg List.length h.pieces_eq
    rwa [List.length_map, Pool.length_toList] at hlength
  have hpushed : Holds config g (branches ++ [⟨g, pattern, literals⟩]) (allLabels branches)
      { index with pieces := index.pieces.push ⟨literals.length, pattern⟩ } :=
    ⟨h.built, by simp [h.pieces_eq, StoredBranch.piece], h.frames_eq⟩
  have hplaces : ∀ x ∈ literals.zipIdx.reverse,
      config.automatonConfig.validate x.1 = .ok () := by
    intro x hx
    exact hvalid x.1 (List.fst_mem_of_mem_zipIdx (List.mem_reverse.mp hx))
  obtain ⟨next, hnext, hall⟩ := addFrames_spec pattern index.pieces.size
    (prevFrame index.frames.size literals.length) literals.zipIdx.reverse hpushed hplaces
  refine ⟨next, hnext, ?_⟩
  rw [allLabels_concat]
  rw [hsize] at hall
  exact hall

theorem addPieces_spec (pattern : PatternId) (literals : List KeywordBranch)
    (h : index.Holds config g branches (allLabels branches))
    (hvalid : ∀ literal ∈ literals.flatten, config.automatonConfig.validate literal = .ok ()) :
    ∃ next, untilFailure (addPiece pattern config.wholeWord) index literals = (next, .ok ()) ∧
      next.Holds config g (branches ++ literals.map (⟨g, pattern, ·⟩))
        (allLabels (branches ++ literals.map (⟨g, pattern, ·⟩))) := by
  induction literals generalizing index branches with
  | nil => exact ⟨index, rfl, by simpa using h⟩
  | cons first literals ih =>
      obtain ⟨mid, hmid, hholds⟩ := addPiece_spec h pattern
        fun literal hmem => hvalid literal (List.mem_flatten_of_mem List.mem_cons_self hmem)
      obtain ⟨next, hnext, hall⟩ := ih hholds fun literal hmem =>
        hvalid literal (List.mem_append_right _ hmem)
      refine ⟨next, ?_, by simpa using hall⟩
      rw [untilFailure, hmid]
      exact hnext

end GroupIndex

variable {P : Type}

/-- The matcher has stored these patterns. -/
structure Indexed (config : MatcherConfig) (entries : List Accepted) (matcher : Matcher P) :
    Prop where
  config_eq : matcher.config = config
  patterns_size : matcher.patterns.size = entries.length
  pieces_eq : matcher.pieces.toList = (storedBranches entries).map StoredBranch.piece
  frames_eq : matcher.frames.toList.map Frame.place =
    (allLabels (storedBranches entries)).map Label.place
  built : ∀ {g automaton}, matcher.groups[g]? = some automaton →
    Automaton.Built config.automatonConfig
      (groupAdditions config.wholeWord (allLabels (storedBranches entries)) g) automaton
  literals_ne_nil : ∀ branch ∈ storedBranches entries, branch.literals ≠ []

theorem indexed_new (config : MatcherConfig) : Indexed config [] (new config : Matcher P) where
  config_eq := rfl
  patterns_size := rfl
  pieces_eq := rfl
  frames_eq := rfl
  built := by
    intro g automaton hg
    have hmem := Array.mem_of_getElem? hg
    rw [(Array.mem_replicate.mp hmem).2]
    exact .new
  literals_ne_nil := by simp [storedBranches]

variable {config : MatcherConfig} {entries : List Accepted} {matcher : Matcher P}

theorem getElem?_groups_of_group {g : Nat} {automaton : GroupAutomaton}
    (h : matcher.group g = .ok automaton) : matcher.groups[g]? = some automaton := by
  rw [group] at h
  split at h
  · obtain rfl := Except.ok.inj h
    assumption
  · cases h

/-- A pattern whose literals can all be keys is stored. -/
theorem Indexed.addEntry (h : matcher.Indexed config entries) {g : Nat}
    {automaton : GroupAutomaton} (hgroup : matcher.group g = .ok automaton) (source : String)
    (payload : P) (branches : List KeywordBranch) (hne : ∀ literals ∈ branches, literals ≠ [])
    (hvalid : ∀ literal ∈ branches.flatten, config.automatonConfig.validate literal = .ok ()) :
    (matcher.addEntry g automaton source payload branches).2 = .ok entries.length ∧
      (matcher.addEntry g automaton source payload branches).1.Indexed config
        (entries ++ [⟨g, branches⟩]) := by
  have hg := getElem?_groups_of_group hgroup
  have hstart : GroupIndex.Holds config g (storedBranches entries)
      (allLabels (storedBranches entries)) ⟨automaton, matcher.pieces, matcher.frames⟩ :=
    ⟨h.built hg, h.pieces_eq, h.frames_eq⟩
  obtain ⟨index, hindex, hholds⟩ :=
    GroupIndex.addPieces_spec entries.length branches hstart hvalid
  have hconcat := storedBranches_concat entries ⟨g, branches⟩
  rw [← hconcat] at hholds
  rw [← h.config_eq, ← h.patterns_size] at hindex
  simp only [Matcher.addEntry, hindex]
  refine ⟨by rw [h.patterns_size]; rfl, h.config_eq, by simp [h.patterns_size], hholds.pieces_eq,
    hholds.frames_eq, ?_, ?_⟩
  · intro g' automaton' hg'
    by_cases he : g = g'
    · subst he
      have hlt := (Array.getElem?_eq_some_iff.mp hg).1
      rw [Array.getElem?_setIfInBounds_self, if_pos hlt] at hg'
      obtain rfl := Option.some.inj hg'
      exact hholds.built
    · rw [Array.getElem?_setIfInBounds_ne he] at hg'
      rw [hconcat, groupAdditions_allLabels_append]
      · exact h.built hg'
      · intro branch hbranch
        obtain ⟨literals, -, rfl⟩ := List.mem_map.mp hbranch
        exact he
  · intro branch hbranch
    rw [hconcat] at hbranch
    rcases List.mem_append.mp hbranch with hold | hnew
    · exact h.literals_ne_nil branch hold
    · obtain ⟨literals, hliterals, rfl⟩ := List.mem_map.mp hnew
      exact hne literals hliterals

/-- A group that is compiled stays what it is. -/
theorem Indexed.compile (h : matcher.Indexed config entries) (g : Nat) :
    (matcher.compile g).1.Indexed config entries := by
  rw [Matcher.compile]
  split
  · exact h
  case _ automaton hgroup =>
    refine ⟨h.config_eq, h.patterns_size, h.pieces_eq, h.frames_eq, ?_, h.literals_ne_nil⟩
    intro g' automaton' hg'
    have hg := getElem?_groups_of_group hgroup
    by_cases he : g = g'
    · subst he
      have hlt := (Array.getElem?_eq_some_iff.mp hg).1
      change (matcher.groups.setIfInBounds g automaton.compile.1)[g]? = _ at hg'
      rw [Array.getElem?_setIfInBounds_self, if_pos hlt] at hg'
      obtain rfl := Option.some.inj hg'
      exact .compile (h.built hg)
    · change (matcher.groups.setIfInBounds g automaton.compile.1)[g']? = _ at hg'
      rw [Array.getElem?_setIfInBounds_ne he] at hg'
      exact h.built hg'

theorem validate_of_validateAll {automaton : GroupAutomaton} {literals : List Bytes}
    (h : validateAll automaton literals = .ok ()) :
    ∀ literal ∈ literals, automaton.validate literal = .ok () := by
  induction literals with
  | nil => simp
  | cons first literals ih =>
      rw [validateAll] at h
      split at h
      case h_1 hfirst =>
        intro literal hmem
        rcases List.mem_cons.mp hmem with rfl | hmem
        · exact hfirst
        · exact ih h literal hmem
      case h_2 => cases h

theorem Indexed.validate_eq (h : matcher.Indexed config entries) {g : Nat}
    {automaton : GroupAutomaton} (hgroup : matcher.group g = .ok automaton) (literal : Bytes) :
    automaton.validate literal = config.automatonConfig.validate literal := by
  rw [Automaton.validate, (h.built (getElem?_groups_of_group hgroup)).stores.config_eq]

/-- A pattern is stored with the branches of its decomposition, or refused without a trace. -/
theorem Indexed.addPattern (h : matcher.Indexed config entries) (g : Nat) (pattern : String)
    (payload : P) :
    (∃ found, decomposition config.decomposeOptions pattern = .ok found ∧
      (matcher.addPattern g pattern payload).2 = .ok entries.length ∧
        (matcher.addPattern g pattern payload).1.Indexed config
          (entries ++ [⟨g, found.branches⟩])) ∨
      ∃ cause, matcher.addPattern g pattern payload = (matcher, .error cause) := by
  rw [Matcher.addPattern, h.config_eq]
  split
  case h_1 => exact Or.inr ⟨_, rfl⟩
  case h_2 automaton hgroup =>
    split
    case h_1 => exact Or.inr ⟨_, rfl⟩
    case h_2 found hfound =>
      split
      case h_1 => exact Or.inr ⟨_, rfl⟩
      case h_2 hvalid =>
        refine Or.inl ⟨found, hfound, ?_⟩
        apply h.addEntry hgroup pattern payload found.branches (ne_nil_of_decomposition hfound)
        intro literal hmem
        rw [← h.validate_eq hgroup]
        exact validate_of_validateAll hvalid literal hmem

/-- A keyword is stored as the only literal of the only branch, or refused without a trace. -/
theorem Indexed.addKeyword (h : matcher.Indexed config entries) (g : Nat) (keyword : Bytes)
    (payload : P) :
    ((matcher.addKeyword g keyword payload).2 = .ok entries.length ∧
        (matcher.addKeyword g keyword payload).1.Indexed config (entries ++ [⟨g, [[keyword]]⟩])) ∨
      ∃ cause, matcher.addKeyword g keyword payload = (matcher, .error cause) := by
  rw [Matcher.addKeyword]
  split
  case h_1 => exact Or.inr ⟨_, rfl⟩
  case h_2 automaton hgroup =>
    split
    case h_1 => exact Or.inr ⟨_, rfl⟩
    case h_2 hvalid =>
      refine Or.inl (h.addEntry hgroup _ payload _ (by simp) ?_)
      intro literal hmem
      obtain rfl : literal = keyword := by simpa using hmem
      rw [← h.validate_eq hgroup]
      exact hvalid

/-! ## Building calls -/

/-- A call that changes what a matcher has stored. -/
inductive BuildCall (P : Type) where
  | addPattern (g : Nat) (pattern : String) (payload : P)
  | addKeyword (g : Nat) (keyword : Bytes) (payload : P)
  | compile (g : Nat)

def build (matcher : Matcher P) : BuildCall P → Matcher P
  | .addPattern g pattern payload => (matcher.addPattern g pattern payload).1
  | .addKeyword g keyword payload => (matcher.addKeyword g keyword payload).1
  | .compile g => (matcher.compile g).1

/-- What a call stores, if it is accepted: a pattern with the branches of its decomposition, or a
keyword as it stands. -/
def accepted (matcher : Matcher P) : BuildCall P → List Accepted
  | .addPattern g pattern payload =>
    match (matcher.addPattern g pattern payload).2,
      decomposition matcher.config.decomposeOptions pattern with
    | .ok _, .ok found => [⟨g, found.branches⟩]
    | _, _ => []
  | .addKeyword g keyword payload =>
    match (matcher.addKeyword g keyword payload).2 with
    | .ok _ => [⟨g, [[keyword]]⟩]
    | .error _ => []
  | .compile _ => []

/-- The patterns that were accepted in these calls; their identifiers are their places. -/
def acceptedAll (matcher : Matcher P) : List (BuildCall P) → List Accepted
  | [] => []
  | call :: calls => matcher.accepted call ++ acceptedAll (matcher.build call) calls

theorem Indexed.build (h : matcher.Indexed config entries) (call : BuildCall P) :
    (matcher.build call).Indexed config (entries ++ matcher.accepted call) := by
  cases call with
  | addPattern g pattern payload =>
      rcases h.addPattern g pattern payload with ⟨found, hfound, hid, hnext⟩ | ⟨cause, heq⟩
      · rw [Matcher.build, accepted, hid, h.config_eq, hfound]
        exact hnext
      · rw [Matcher.build, accepted, heq]
        simpa using h
  | addKeyword g keyword payload =>
      rcases h.addKeyword g keyword payload with ⟨hid, hnext⟩ | ⟨cause, heq⟩
      · rw [Matcher.build, accepted, hid]
        exact hnext
      · rw [Matcher.build, accepted, heq]
        simpa using h
  | compile g =>
      rw [Matcher.build, accepted, List.append_nil]
      exact h.compile g

/-- A matcher stores exactly what was accepted. -/
theorem Indexed.buildAll (h : matcher.Indexed config entries) (calls : List (BuildCall P)) :
    (calls.foldl Matcher.build matcher).Indexed config (entries ++ matcher.acceptedAll calls) := by
  induction calls generalizing matcher entries with
  | nil => simpa [acceptedAll] using h
  | cons call calls ih =>
      rw [List.foldl_cons, acceptedAll, ← List.append_assoc]
      exact ih (h.build call)

theorem scratch_build (matcher : Matcher P) (call : BuildCall P) :
    (matcher.build call).scratch = matcher.scratch := by
  cases call with
  | addPattern g pattern payload =>
      rw [Matcher.build, Matcher.addPattern]
      split
      · rfl
      · split
        · rfl
        · split <;> rfl
  | addKeyword g keyword payload =>
      rw [Matcher.build, Matcher.addKeyword]
      split
      · rfl
      · split <;> rfl
  | compile g =>
      rw [Matcher.build, Matcher.compile]
      split <;> rfl

theorem scratch_buildAll (matcher : Matcher P) (calls : List (BuildCall P)) :
    (calls.foldl Matcher.build matcher).scratch = matcher.scratch := by
  induction calls generalizing matcher with
  | nil => rfl
  | cons call calls ih => rw [List.foldl_cons, ih, scratch_build]

end Matcher

end LiteralSieve
