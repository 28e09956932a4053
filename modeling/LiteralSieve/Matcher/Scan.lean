import LiteralSieve.Automaton.Scan
import LiteralSieve.Matcher.Basic
import LiteralSieve.Verifier

namespace LiteralSieve

/-!
# Searching for patterns

Every occurrence of a literal is shown to the frames that wait for it. A frame moves the cursor of
its piece if its literal is the one that was missing, and a piece whose last literal is seen reports
its pattern, once under each version. A text may be scanned in parts under one version: the cursors
stay where they are from part to part.
-/

/-- A pattern of which some branch had all its literals in order. -/
structure PatternMatch (P : Type) where
  pattern : PatternId
  payload : P
  /-- The raw offset of the first literal. -/
  offset : Nat
  /-- The raw offset after the last literal. -/
  stop : Nat
  keyword : Bytes
deriving Inhabited

namespace Matcher

variable {P σ : Type}

/-- What happens to one frame when its literal occurs: the cursor that it moves, with its number and
the pattern if that was the last literal. -/
def advance? (matcher : Matcher P) (cursors : Array PieceCursor) (version : UInt64)
    (hit : Hit (List FrameId)) (id : FrameId) :
    Option (PieceId × PieceCursor × Option (PatternMatch P)) := do
  let frame ← matcher.frames.get? id
  let piece ← matcher.pieces.get? frame.piece
  let cursor ← cursors[frame.piece]?
  let cursor ← cursor.renew? version frame.position
  let cursor ← cursor.accept? piece.size frame.position hit.offset
  if cursor.finished then
    let entry ← matcher.patterns.get? piece.pattern
    return (frame.piece, cursor,
      some ⟨piece.pattern, entry.payload, cursor.start, hit.stop, hit.terminal.key⟩)
  else return (frame.piece, cursor, none)

/-- The frames are shown the occurrences of their literals, in order, until a report is the last. -/
def scan (matcher : Matcher P) (version : UInt64) (report : PatternMatch P → σ → ForInStep σ)
    (cursors : Array PieceCursor) (acc : σ) :
    List (Hit (List FrameId) × FrameId) → Array PieceCursor × ForInStep σ
  | [] => (cursors, .yield acc)
  | (hit, id) :: rest =>
    match matcher.advance? cursors version hit id with
    | none => scan matcher version report cursors acc rest
    | some (piece, cursor, found) =>
      let cursors := cursors.setIfInBounds piece cursor
      match found with
      | none => scan matcher version report cursors acc rest
      | some found =>
        match report found acc with
        | .done acc => (cursors, .done acc)
        | .yield acc => scan matcher version report cursors acc rest

/-- The occurrences of literals in a text, each with the frames that wait for it. -/
def events (automaton : GroupAutomaton) (text : Bytes) (mode : EscapeMode) :
    List (Hit (List FrameId) × FrameId) :=
  (automaton.findAll text mode).flatMap fun hit => hit.terminal.value.map fun id => (hit, id)

/-- A scan of a text with a state of the caller. The reports go to `report` until it is done. -/
def searchWith (matcher : Matcher P) (state : ScanState) (g : Nat) (text : Bytes)
    (mode : EscapeMode) (version : UInt64) (report : PatternMatch P → σ → ForInStep σ) (acc : σ) :
    ScanState × Except MatchError (ForInStep σ) :=
  match matcher.group g with
  | .error cause => (state, .error cause)
  | .ok automaton =>
    if automaton.compiled then
      let state := state.prepare version matcher.pieces.size
      let (cursors, result) :=
        matcher.scan version report state.cursors acc (events automaton text mode)
      ({ state with cursors := cursors }, .ok result)
    else (state, .error (.notCompiled g))

def search (matcher : Matcher P) (g : Nat) (text : Bytes) (mode : EscapeMode) (version : UInt64)
    (report : PatternMatch P → σ → ForInStep σ) (acc : σ) :
    Matcher P × Except MatchError (ForInStep σ) :=
  let (state, result) := matcher.searchWith matcher.state g text mode version report acc
  ({ matcher with state := state }, result)

/-- What a visitor made of the reports, whether it was done or not. -/
def outcome : ForInStep σ → σ
  | .done acc => acc
  | .yield acc => acc

/-- Whether any pattern of the group may match, by a scan under the next version of the state. -/
def isMatchWith (matcher : Matcher P) (state : ScanState) (g : Nat) (text : Bytes)
    (mode : EscapeMode) : ScanState × Except MatchError Bool :=
  let (state, result) :=
    matcher.searchWith state g text mode state.nextVersion (fun _ _ => .done true) false
  (state, result.map outcome)

def isMatch (matcher : Matcher P) (g : Nat) (text : Bytes) (mode : EscapeMode) :
    Matcher P × Except MatchError Bool :=
  let (scratch, result) := matcher.isMatchWith matcher.scratch g text mode
  ({ matcher with scratch := scratch }, result)

/-- What is listed so far: the version under which each pattern was listed, and the patterns. -/
structure Listing where
  listed : Array UInt64
  found : Array PatternId

/-- A report lists its pattern unless that was done under this version. -/
def list (version : UInt64) (found : PatternMatch P) (listing : Listing) : Listing :=
  if listing.listed[found.pattern]? = some version then listing
  else
    ⟨listing.listed.setIfInBounds found.pattern version, listing.found.push found.pattern⟩

/-- The patterns of the group that may match, each once in the order of their first reports, by a
scan under the next version of the state. -/
def findAllWith (matcher : Matcher P) (state : ScanState) (g : Nat) (text : Bytes)
    (mode : EscapeMode) : ScanState × Except MatchError (List PatternId) :=
  let version := state.nextVersion
  let listing : Listing := ⟨extendArray state.listed matcher.patterns.size 0, #[]⟩
  let (state, result) := matcher.searchWith state g text mode version
    (fun found listing => .yield (list version found listing)) listing
  match result with
  | .error cause => (state, .error cause)
  | .ok result =>
    let listing := outcome result
    ({ state with listed := listing.listed }, .ok listing.found.toList)

def findAll (matcher : Matcher P) (g : Nat) (text : Bytes) (mode : EscapeMode) :
    Matcher P × Except MatchError (List PatternId) :=
  let (scratch, result) := matcher.findAllWith matcher.scratch g text mode
  ({ matcher with scratch := scratch }, result)

def reset (matcher : Matcher P) (version : UInt64) : Matcher P :=
  { matcher with state := (matcher.state.prepare version matcher.pieces.size).reset version }

/-- The payload of a pattern says that it matches. -/
def confirms [Verifier P] (matcher : Matcher P) (text : Bytes) (id : PatternId) : Bool :=
  (matcher.patterns.get? id).any fun entry => Verifier.isMatch entry.payload text

/-- The patterns that may match and whose payloads find their subject in the decoded text. -/
def searchVerified [Verifier P] (matcher : Matcher P) (g : Nat) (text : Bytes)
    (mode : EscapeMode) : Matcher P × Except MatchError (List PatternId) :=
  let (matcher, result) := matcher.findAll g text mode
  (matcher, result.map (·.filter (matcher.confirms (mode.decode text))))

end Matcher

end LiteralSieve
