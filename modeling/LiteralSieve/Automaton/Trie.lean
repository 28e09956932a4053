import LiteralSieve.Error
import LiteralSieve.Store.Pool

namespace LiteralSieve

/-!
# Key tries

An automaton finds many keys in a text at once. Its keys form a trie: a state for every beginning of
a key, the root for the empty one. States are numbered as they come. A key that is added again keeps
its terminal, with the text and the identifier that came first; its value is updated by the caller.

Keys and texts are compared by their folds, which are in upper case if case does not count.
-/

/-- A state of an automaton; the root is `0`. -/
abbrev StateId := Nat

/-- A key of an automaton, by the order in which the keys came. -/
abbrev TerminalId := Nat

/-- What the caller calls a key. -/
abbrev PatternId := Nat

structure AutomatonConfig where
  /-- Letters are found in either case. -/
  caseInsensitive : Bool
  minLetter : UInt8
  maxLetter : UInt8
deriving DecidableEq, Inhabited

namespace AutomatonConfig

def standard : AutomatonConfig := ⟨true, 0, 255⟩

/-- The form that letters share if they count as the same. -/
def fold (config : AutomatonConfig) (letter : UInt8) : UInt8 :=
  if config.caseInsensitive then Byte.toUpper letter else letter

/-- The letters from position `i` on are in the alphabet. -/
def validateFrom (config : AutomatonConfig) (i : Nat) : Bytes → Except KeyError Unit
  | [] => .ok ()
  | b :: rest =>
    let letter := config.fold b
    if letter < config.minLetter ∨ config.maxLetter < letter then .error (.alphabet b i)
    else validateFrom config (i + 1) rest

def validate (config : AutomatonConfig) (key : Bytes) : Except KeyError Unit :=
  if key.isEmpty then .error .emptyKey else config.validateFrom 0 key

end AutomatonConfig

/-- One state: the letters that lead to it, the last one first, and where it leads. -/
structure TrieState where
  word : Bytes
  /-- The next states by their letters, in ascending order of these. -/
  children : List (UInt8 × StateId)
  /-- The state of the longest proper end of the word that is in the trie. -/
  fail : Option StateId
  /-- The state of the longest proper end of the word that is a key. -/
  output : Option StateId
  terminal : Option TerminalId
deriving DecidableEq, Inhabited

namespace TrieState

def leaf (word : Bytes) : TrieState := ⟨word, [], none, none, none⟩

def depth (state : TrieState) : Nat := state.word.length

def child? (state : TrieState) (letter : UInt8) : Option StateId := state.children.lookup letter

def insertChild (letter : UInt8) (next : StateId) :
    List (UInt8 × StateId) → List (UInt8 × StateId)
  | [] => [(letter, next)]
  | (other, id) :: rest =>
    if other < letter then (other, id) :: insertChild letter next rest
    else (letter, next) :: (other, id) :: rest

def addChild (letter : UInt8) (next : StateId) (state : TrieState) : TrieState :=
  { state with children := insertChild letter next state.children }

end TrieState

/-- The states of a trie by their numbers. -/
abbrev Trie := Array TrieState

namespace Trie

def root : StateId := 0

def start : Trie := #[.leaf []]

def child? (trie : Trie) (s : StateId) (letter : UInt8) : Option StateId :=
  trie[s]?.bind (·.child? letter)

def fail? (trie : Trie) (s : StateId) : Option StateId := trie[s]?.bind (·.fail)

def output? (trie : Trie) (s : StateId) : Option StateId := trie[s]?.bind (·.output)

def terminal? (trie : Trie) (s : StateId) : Option TerminalId := trie[s]?.bind (·.terminal)

/-- The letters that lead to a state, the last one first. -/
def word (trie : Trie) (s : StateId) : Bytes := (trie[s]?.map (·.word)).getD []

def depth (trie : Trie) (s : StateId) : Nat := (trie.word s).length

def find? (trie : Trie) (s : StateId) : Bytes → Option StateId
  | [] => some s
  | letter :: rest => (trie.child? s letter).bind fun next => find? trie next rest

/-- The state after one letter, made if it is not there. -/
def extend (trie : Trie) (s : StateId) (letter : UInt8) : Trie × StateId :=
  match trie.child? s letter with
  | some next => (trie, next)
  | none =>
    let next := trie.size
    ((trie.modify s (·.addChild letter next)).push (.leaf (letter :: trie.word s)), next)

def insert (trie : Trie) (s : StateId) : Bytes → Trie × StateId
  | [] => (trie, s)
  | letter :: rest =>
    let (trie, next) := trie.extend s letter
    insert trie next rest

def setTerminal (trie : Trie) (s : StateId) (terminal : TerminalId) : Trie :=
  trie.modify s fun state => { state with terminal := some terminal }

end Trie

/-- A key and what is kept with it. -/
structure Terminal (V : Type) where
  state : StateId
  key : Bytes
  id : PatternId
  value : V
  /-- The key counts only between letters that are no part of a word. -/
  wholeWord : Bool
deriving DecidableEq, Inhabited

structure Automaton (V : Type) where
  config : AutomatonConfig
  trie : Trie
  terminals : Pool (Terminal V)
  /-- The next state by state and letter; nothing while the automaton is not compiled. -/
  moves : Array (Array StateId)
  compiled : Bool
  /-- The number of keys added, repeated ones included. -/
  insertions : Nat
  minLength : Nat
  maxLength : Nat
deriving Inhabited

namespace Automaton

variable {V : Type}

def new (config : AutomatonConfig) : Automaton V :=
  ⟨config, .start, .empty, #[], false, 0, 0, 0⟩

def clear (automaton : Automaton V) : Automaton V := new automaton.config

def fold (automaton : Automaton V) (letter : UInt8) : UInt8 := automaton.config.fold letter

def foldKey (automaton : Automaton V) (key : Bytes) : Bytes := key.map automaton.fold

def validate (automaton : Automaton V) (key : Bytes) : Except KeyError Unit :=
  automaton.config.validate key

def size (automaton : Automaton V) : Nat := automaton.terminals.size

def isEmpty (automaton : Automaton V) : Bool := automaton.terminals.isEmpty

def stateCount (automaton : Automaton V) : Nat := automaton.trie.size

/-- The automaton with the states of one more key, which is not compiled any more. -/
def withPath (automaton : Automaton V) (trie : Trie) : Automaton V :=
  { automaton with
    trie := trie, moves := #[], compiled := false, insertions := automaton.insertions + 1 }

/-- A key that was not there before gets a terminal at its state. -/
def addTerminal (automaton : Automaton V) (terminal : Terminal V) : Automaton V × TerminalId :=
  let id := automaton.terminals.size
  let n := terminal.key.length
  ({ automaton with
      trie := automaton.trie.setTerminal terminal.state id
      terminals := automaton.terminals.push terminal
      minLength := if id = 0 then n else min automaton.minLength n
      maxLength := max automaton.maxLength n }, id)

/-- A key that was there gets another value, and counts without word limits if one of its additions
does. -/
def updateTerminal (automaton : Automaton V) (id : TerminalId) (wholeWord : Bool)
    (update : Option V → V) : Automaton V :=
  { automaton with
    terminals := automaton.terminals.modify id fun terminal =>
      { terminal with
        value := update (some terminal.value), wholeWord := terminal.wholeWord && wholeWord } }

/-- The automaton with one more key. The value to be kept is made from the one that equal keys have
so far. -/
def addWith (automaton : Automaton V) (key : Bytes) (id : PatternId) (wholeWord : Bool)
    (update : Option V → V) : Except KeyError (Automaton V × TerminalId) :=
  match automaton.validate key with
  | .error cause => .error cause
  | .ok () =>
    let (trie, state) := automaton.trie.insert Trie.root (automaton.foldKey key)
    let automaton := automaton.withPath trie
    match trie.terminal? state with
    | some terminal => .ok (automaton.updateTerminal terminal wholeWord update, terminal)
    | none => .ok (automaton.addTerminal ⟨state, key, id, update none, wholeWord⟩)

def add (automaton : Automaton PatternId) (key : Bytes) (id : PatternId) (wholeWord : Bool) :
    Except KeyError (Automaton PatternId × TerminalId) :=
  automaton.addWith key id wholeWord (·.getD id)

def find? (automaton : Automaton V) (key : Bytes) : Option V := do
  let state ← automaton.trie.find? Trie.root (automaton.foldKey key)
  let id ← automaton.trie.terminal? state
  let terminal ← automaton.terminals.get? id
  return terminal.value

/-- The keys in the order in which they came first. -/
def toList (automaton : Automaton V) : List (Terminal V) := automaton.terminals.toList

end Automaton

end LiteralSieve
