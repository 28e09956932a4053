import LiteralSieve.Automaton.Links
import LiteralSieve.Decomposition
import LiteralSieve.Matcher.State
import LiteralSieve.Text.Lossy
import LiteralSieve.Visit

namespace LiteralSieve

/-!
# Matchers

A matcher holds patterns in groups, each with a payload. A pattern's branches are its pieces, and
the literals of a piece are its frames. Every group has an automaton whose keys are these literals;
the value of a key lists the frames that wait for it.

An operation that may fail answers with the matcher after it in any case. The literals of a pattern
are looked at before anything is stored, so that a pattern that is refused leaves no trace.
-/

structure MatcherConfig where
  groups : Nat
  caseInsensitive : Bool
  /-- Literals count only between letters that are no part of a word. -/
  wholeWord : Bool
  maxBranches : Nat
  expansion : Bool
  minKeywordLength : Nat
  minLetter : UInt8
  maxLetter : UInt8
deriving DecidableEq, Inhabited

namespace MatcherConfig

def standard : MatcherConfig := ⟨1, true, false, 100000, true, 2, 0, 255⟩

def decomposeOptions (config : MatcherConfig) : DecomposeOptions :=
  ⟨config.maxBranches, config.expansion, config.minKeywordLength, config.caseInsensitive⟩

def automatonConfig (config : MatcherConfig) : AutomatonConfig :=
  ⟨config.caseInsensitive, config.minLetter, config.maxLetter⟩

end MatcherConfig

/-- A branch of a pattern. -/
structure Piece where
  size : Nat
  pattern : PatternId
deriving DecidableEq, Inhabited

/-- A literal of a piece. -/
structure Frame where
  piece : PieceId
  /-- The frame of the literal before it. -/
  prev : Option FrameId
  position : Nat
deriving DecidableEq, Inhabited

structure PatternEntry (P : Type) where
  group : Nat
  source : String
  payload : P
  branches : Nat
deriving Inhabited

abbrev GroupAutomaton := Automaton (List FrameId)

structure Matcher (P : Type) where
  config : MatcherConfig
  groups : Array GroupAutomaton
  patterns : Pool (PatternEntry P)
  pieces : Pool Piece
  frames : Pool Frame
  /-- For scans under the versions of the caller. -/
  state : ScanState
  /-- For scans that carry nothing over. -/
  scratch : ScanState
deriving Inhabited

namespace Matcher

variable {P : Type}

def new (config : MatcherConfig) : Matcher P :=
  ⟨config, Array.replicate config.groups (.new config.automatonConfig), .empty, .empty, .empty,
    .new, .new⟩

def group (matcher : Matcher P) (g : Nat) : Except MatchError GroupAutomaton :=
  match matcher.groups[g]? with
  | some automaton => .ok automaton
  | none => .error (.unknownGroup g matcher.groups.size)

/-! ## Building -/

/-- The frame that waits for the literal before the one at a position, if the frames of the piece
are numbered from `base` on, last literals first. -/
def prevFrame (base size position : Nat) : Option FrameId :=
  if position = 0 then none else some (base + size - position)

/-- What grows when a pattern is added to a group. -/
structure GroupIndex where
  automaton : GroupAutomaton
  pieces : Pool Piece
  frames : Pool Frame

namespace GroupIndex

/-- One more frame, which waits for a literal. -/
def addFrame (pattern : PatternId) (wholeWord : Bool) (index : GroupIndex)
    (item : Frame × Bytes) : GroupIndex × Except MatchError Unit :=
  let (frame, literal) := item
  let id := index.frames.size
  let push (frames : Option (List FrameId)) : List FrameId := frames.getD [] ++ [id]
  match index.automaton.addWith literal pattern wholeWord push with
  | .ok (automaton, _) => (⟨automaton, index.pieces, index.frames.push frame⟩, .ok ())
  | .error cause => ({ index with frames := index.frames.push frame }, .error (.key cause))

/-- The frames of a piece with their literals. They come from the last literal to the first, so that
a key for which a piece waits more than once lists the later position first. -/
def framesOf (piece : PieceId) (base : FrameId) (literals : List Bytes) : List (Frame × Bytes) :=
  literals.zipIdx.reverse.map fun (literal, position) =>
    (⟨piece, prevFrame base literals.length position, position⟩, literal)

def addPiece (pattern : PatternId) (wholeWord : Bool) (index : GroupIndex)
    (literals : List Bytes) : GroupIndex × Except MatchError Unit :=
  let frames := framesOf index.pieces.size index.frames.size literals
  untilFailure (addFrame pattern wholeWord)
    { index with pieces := index.pieces.push ⟨literals.length, pattern⟩ } frames

end GroupIndex

/-- A pattern with these branches in a group with this automaton. -/
def addEntry (matcher : Matcher P) (g : Nat) (automaton : GroupAutomaton) (source : String)
    (payload : P) (branches : List KeywordBranch) : Matcher P × Except MatchError PatternId :=
  let id := matcher.patterns.size
  let entry : PatternEntry P := ⟨g, source, payload, branches.length⟩
  let (index, result) := untilFailure (GroupIndex.addPiece id matcher.config.wholeWord)
    ⟨automaton, matcher.pieces, matcher.frames⟩ branches
  ({ matcher with
      groups := matcher.groups.setIfInBounds g index.automaton
      patterns := matcher.patterns.push entry
      pieces := index.pieces
      frames := index.frames }, result.map fun () => id)

/-- All literals can be keys of the automaton. -/
def validateAll (automaton : GroupAutomaton) : List Bytes → Except KeyError Unit
  | [] => .ok ()
  | literal :: rest =>
    match automaton.validate literal with
    | .ok () => validateAll automaton rest
    | .error cause => .error cause

def addPattern (matcher : Matcher P) (g : Nat) (pattern : String) (payload : P) :
    Matcher P × Except MatchError PatternId :=
  match matcher.group g with
  | .error cause => (matcher, .error cause)
  | .ok automaton =>
    match decomposition matcher.config.decomposeOptions pattern with
    | .error cause => (matcher, .error (.pattern cause))
    | .ok found =>
      match validateAll automaton found.branches.flatten with
      | .error cause => (matcher, .error (.key cause))
      | .ok () => matcher.addEntry g automaton pattern payload found.branches

/-- One more pattern in a group, which is a literal as it stands. -/
def addKeyword (matcher : Matcher P) (g : Nat) (keyword : Bytes) (payload : P) :
    Matcher P × Except MatchError PatternId :=
  match matcher.group g with
  | .error cause => (matcher, .error cause)
  | .ok automaton =>
    match automaton.validate keyword with
    | .error cause => (matcher, .error (.key cause))
    | .ok () => matcher.addEntry g automaton (Text.ofBytes keyword) payload [[keyword]]

/-- The number of branches that a pattern would have. -/
def testPattern (matcher : Matcher P) (pattern : String) : Except PatternError Nat :=
  (decomposition matcher.config.decomposeOptions pattern).map (·.branches.length)

def compile (matcher : Matcher P) (g : Nat) : Matcher P × Except MatchError Unit :=
  match matcher.group g with
  | .error cause => (matcher, .error cause)
  | .ok automaton =>
    let (automaton, ok) := automaton.compile
    ({ matcher with groups := matcher.groups.setIfInBounds g automaton },
      if ok then .ok () else .error (.inconsistent g))

def compileAll (matcher : Matcher P) : Matcher P × Except MatchError Unit :=
  untilFailure compile matcher (List.range matcher.groups.size)

/-- The matcher with another number of groups. The patterns of groups that go stay known, but are
not found any more. -/
def resize (matcher : Matcher P) (groups : Nat) : Matcher P :=
  let kept := matcher.groups.take groups
  { matcher with
    config := { matcher.config with groups := groups }
    groups := extendArray kept groups (.new matcher.config.automatonConfig) }

def clear (matcher : Matcher P) : Matcher P :=
  { matcher with
    groups := matcher.groups.map Automaton.clear, patterns := .empty, pieces := .empty,
    frames := .empty, state := .new, scratch := .new }

/-! ## Showing -/

def groupCount (matcher : Matcher P) : Nat := matcher.groups.size

def literals (matcher : Matcher P) (g : Nat) : Except MatchError (List Bytes) :=
  (matcher.group g).map fun automaton => automaton.toList.map (·.key)

end Matcher

end LiteralSieve
