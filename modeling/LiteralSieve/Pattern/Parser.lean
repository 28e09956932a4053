import LiteralSieve.Pattern.Draft
import LiteralSieve.Pattern.Lexeme

namespace LiteralSieve

/-!
# Reading a pattern

A pattern is read from left to right, lexeme by lexeme. What is open is kept on a stack: one level
for the pattern and one for every group around the place of reading. A closing parenthesis turns the
innermost level into a node, which is an atom of the level around it.
-/

/-- The largest number of groups open at once. -/
def maxDepth : Nat := 256

/-- Alternatives that are being read: where they start, the ones that are finished, and the one at
the end of which the reading is. -/
structure Level where
  start : Nat
  finished : List Node
  current : Nat
  draft : Draft
deriving Inhabited

namespace Level

/-- Nothing read yet, from the offset on. -/
def fresh (offset made : Nat) : Level := ⟨offset, [], offset, .start made⟩

def made (level : Level) : Nat := level.draft.made

/-- All alternatives, if the last one ends at the offset. -/
def branches (level : Level) (offset : Nat) : List Node :=
  level.finished ++ [level.draft.sequence ⟨level.current, offset⟩]

/-- The last alternative ends at the offset, and the next one starts after the sign there. -/
def nextBranch (level : Level) (offset : Nat) : Level :=
  ⟨level.start, level.branches offset, offset + 1, .start (level.draft.flush.made + 1)⟩

/-- The choice of all alternatives, which ends at the offset. -/
def node (level : Level) (offset : Nat) : Node :=
  .choice (level.branches offset) false ⟨level.start, offset⟩

/-- The number of nodes made with those that end the level. -/
def madeAtEnd (level : Level) : Nat := level.draft.flush.made + 2

end Level

/-- A level that waits until a group in it is closed: where the group opens, whether it is an
assertion, and the options outside. -/
structure Outer where
  opening : Nat
  assertion : Bool
  flags : Flags
  level : Level
deriving Inhabited

structure ParserState where
  flags : Flags
  level : Level
  outer : List Outer
deriving Inhabited

structure ParseResult where
  made : Nat
  root : Except Fault Node

/-- What one step leads to. -/
inductive ParserStep where
  | next (state : ParserState) (cursor : Cursor)
  | done (result : ParseResult)

namespace ParserState

/-- Before the first lexeme. -/
def initial : ParserState := ⟨.none, .fresh 0 0, []⟩

/-- The end of the pattern, which must leave no group open. -/
def finish (state : ParserState) (offset : Nat) : ParseResult :=
  ⟨state.level.madeAtEnd,
    match state.outer with
    | [] => .ok (state.level.node offset)
    | outer :: _ => .error ⟨.unmatchedOpenParen, outer.opening⟩⟩

def fail (state : ParserState) (fault : Fault) : ParserStep :=
  .done ⟨state.level.made, .error fault⟩

/-- An atom that starts at an offset and ends at the cursor, with the quantifier after it. -/
def addAtom (reading : Reading) (state : ParserState) (start : Nat) (atom : Atom)
    (cursor : Cursor) : ParserStep :=
  match Quantifier.read state.flags.extended cursor with
  | .error fault => state.fail fault
  | .ok (q, n) =>
    let stop := cursor.advance n
    let draft :=
      state.level.draft.add reading.expansion q atom ⟨start, cursor.offset⟩ stop.offset
    .next { state with level := { state.level with draft := draft } } stop

/-- A group opens at an offset; its contents start at the cursor. -/
def openGroup (state : ParserState) (opening : Nat) (assertion : Bool) (flags : Flags)
    (cursor : Cursor) : ParserStep :=
  if maxDepth ≤ state.outer.length then state.fail ⟨.depthLimit, opening⟩
  else
    let outer := ⟨opening, assertion, state.flags, state.level⟩
    .next ⟨flags, .fresh cursor.offset state.level.made, outer :: state.outer⟩ cursor

/-- The innermost group is closed by the sign at an offset, before the cursor. -/
def closeGroup (reading : Reading) (state : ParserState) (offset : Nat) (cursor : Cursor) :
    ParserStep :=
  match state.outer with
  | [] => .done ⟨state.level.madeAtEnd, .error ⟨.unmatchedCloseParen, offset⟩⟩
  | ⟨opening, assertion, flags, level⟩ :: outer =>
    let made := state.level.madeAtEnd
    let level := { level with draft := { level.draft with made := made } }
    let atom := if assertion then .gap else .node (state.level.node offset)
    addAtom reading ⟨flags, level, outer⟩ opening atom cursor

/-- The step for a lexeme that starts at an offset and ends at the cursor. -/
def apply (reading : Reading) (state : ParserState) (offset : Nat) (cursor : Cursor) :
    Lexeme → ParserStep
  | .blank | .atom .nothing => .next state cursor
  | .bar => .next { state with level := state.level.nextBranch offset } cursor
  | .close => state.closeGroup reading offset cursor
  | .body assertion flags => state.openGroup offset assertion flags cursor
  | .options flags => addAtom reading { state with flags := flags } offset .gap cursor
  | .atom atom =>
    state.addAtom reading offset (atom.under state.flags reading.caseSensitive) cursor

/-- One lexeme further, with the quantifier after it. -/
def step (reading : Reading) (state : ParserState) : Cursor → ParserStep
  | ⟨offset, []⟩ => .done (state.finish offset)
  | ⟨offset, c :: rest⟩ =>
    match Lexeme.read state.flags offset c rest with
    | .error fault => state.fail fault
    | .ok (lexeme, n) =>
      state.apply reading offset (Cursor.advance ⟨offset, c :: rest⟩ (n + 1)) lexeme

theorem addAtom_rest_le {reading : Reading} {state next : ParserState} {start : Nat} {atom : Atom}
    {cursor stop : Cursor} (h : addAtom reading state start atom cursor = .next next stop) :
    stop.rest.length ≤ cursor.rest.length := by
  unfold addAtom at h
  split at h
  · simp [fail] at h
  · simp only [ParserStep.next.injEq] at h
    obtain ⟨-, rfl⟩ := h
    simp

theorem apply_rest_le {reading : Reading} {state next : ParserState} {offset : Nat}
    {lexeme : Lexeme} {cursor stop : Cursor}
    (h : apply reading state offset cursor lexeme = .next next stop) :
    stop.rest.length ≤ cursor.rest.length := by
  unfold apply at h
  split at h
  · simp_all
  · simp_all
  · simp_all
  · unfold closeGroup at h
    split at h
    · simp at h
    · exact addAtom_rest_le h
  · unfold openGroup at h
    split at h <;> simp_all [fail]
  · exact addAtom_rest_le h
  · exact addAtom_rest_le h

/-- A step that leads on leaves less of the pattern ahead. -/
theorem step_rest_lt {reading : Reading} {state next : ParserState} {cursor stop : Cursor}
    (h : step reading state cursor = .next next stop) :
    stop.rest.length < cursor.rest.length := by
  unfold step at h
  split at h
  · simp at h
  · split at h
    · simp [fail] at h
    · have := apply_rest_le h
      simp at this ⊢
      omega

def run (reading : Reading) (state : ParserState) (cursor : Cursor) : ParseResult :=
  match _h : step reading state cursor with
  | .done result => result
  | .next next stop => run reading next stop
termination_by cursor.rest.length
decreasing_by exact step_rest_lt _h

theorem run_of_next {reading : Reading} {state next : ParserState} {cursor stop : Cursor}
    (h : step reading state cursor = .next next stop) :
    run reading state cursor = run reading next stop := by
  rw [run]
  split <;> simp_all

theorem run_of_done {reading : Reading} {state : ParserState} {cursor : Cursor}
    {result : ParseResult} (h : step reading state cursor = .done result) :
    run reading state cursor = result := by
  rw [run]
  split <;> simp_all

end ParserState

def parse (reading : Reading) (pattern : String) : ParseResult :=
  ParserState.run reading .initial (.start pattern)

end LiteralSieve
