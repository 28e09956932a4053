import LiteralSieve.Automaton.Links
import LiteralSieve.Letter
import LiteralSieve.Visit

namespace LiteralSieve

/-!
# Scanning a text

A scan reads the letters of a text one by one and keeps the state for what was read last. After each
letter it shows the keys that end there, longer ones first. A key for whole words is passed over if
the letter before or after it belongs to a word.
-/

/-- An occurrence of a key: the raw offsets before its first and after its last letter. -/
structure Hit (V : Type) where
  offset : Nat
  stop : Nat
  id : TerminalId
  terminal : Terminal V
deriving DecidableEq, Inhabited

namespace Trie

/-- The states of the keys that end where `s` does, from a first one on, at most `fuel`. -/
def outputsFrom (trie : Trie) : Nat → Option StateId → List StateId
  | _, none => []
  | 0, some _ => []
  | fuel + 1, some s => s :: outputsFrom trie fuel (trie.output? s)

/-- The states of the keys that end where `s` does, longer keys first. -/
def outputs (trie : Trie) (s : StateId) : List StateId :=
  trie.outputsFrom (trie.depth s + 1) (trie.nearestKey s)

end Trie

namespace Automaton

variable {V : Type}

def touchesWord (letter : Option Letter) : Bool := letter.any fun letter => Byte.isWord letter.byte

/-- The occurrence of the key of state `s` that ends with the first of the letters read, which are
in reverse; `ahead` is the letter after it. -/
def hitAt? (automaton : Automaton V) (past : List Letter) (ahead : Option Letter) (s : StateId) :
    Option (Hit V) := do
  let id ← automaton.trie.terminal? s
  let terminal ← automaton.terminals.get? id
  let depth := automaton.trie.depth s
  let last ← past.head?
  let first ← past[depth - 1]?
  if terminal.wholeWord && (touchesWord past[depth]? || touchesWord ahead) then none
  else some ⟨first.start, last.stop, id, terminal⟩

/-- The occurrences that end with the last letter read. -/
def hitsAt (automaton : Automaton V) (past : List Letter) (ahead : Option Letter) (s : StateId) :
    List (Hit V) :=
  (automaton.trie.outputs s).filterMap (automaton.hitAt? past ahead)

/-- The occurrences that end in the letters ahead, after the letters read so far led to a state. Of
these letters only the last ones are kept, which are enough for the longest key and the letter
before it. -/
def hitsFrom (automaton : Automaton V) (s : StateId) (past : List Letter) :
    List Letter → List (Hit V)
  | [] => []
  | letter :: rest =>
    let s := automaton.move s (automaton.fold letter.byte)
    let past := (letter :: past).take (automaton.maxLength + 1)
    automaton.hitsAt past rest.head? s ++ hitsFrom automaton s past rest

/-- The occurrences of all keys in a text. An automaton that is not compiled finds nothing. -/
def findAll (automaton : Automaton V) (text : Bytes) (mode : EscapeMode) : List (Hit V) :=
  if automaton.compiled && !automaton.isEmpty then
    automaton.hitsFrom Trie.root [] (mode.letters text)
  else []

/-- The occurrences are shown to `visit` until that is done. -/
def search {σ : Type} (automaton : Automaton V) (text : Bytes) (mode : EscapeMode)
    (visit : Hit V → σ → ForInStep σ) (acc : σ) : ForInStep σ :=
  visitAll visit (automaton.findAll text mode) acc

def findFirst? (automaton : Automaton V) (text : Bytes) (mode : EscapeMode) : Option (Hit V) :=
  (automaton.findAll text mode).head?

end Automaton

end LiteralSieve
