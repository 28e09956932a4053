import LiteralSieve.Automaton.Links

namespace LiteralSieve

/-!
# Checking an automaton

The checks look at every state again and compare what is stored there with what its word demands.
They hold of every automaton that was built by adding keys; links and table count only once the
automaton is compiled.
-/

namespace Trie

def isAscending : List (UInt8 × StateId) → Bool
  | (a, _) :: (b, t) :: rest => a < b && isAscending ((b, t) :: rest)
  | _ => true

/-- Every child's word is that of the state and one letter. -/
def checkChildren (trie : Trie) (state : TrieState) : Bool :=
  isAscending state.children &&
    state.children.all fun (letter, child) => trie[child]?.any (·.word == letter :: state.word)

/-- The states on the way along the outputs are keys and have shorter and shorter ends of the word;
at most `fuel` of them are looked at. -/
def checkOutputs (trie : Trie) (word : Bytes) : Nat → Nat → Option StateId → Bool
  | _, _, none => true
  | 0, _, some _ => false
  | fuel + 1, depth, some s =>
    trie[s]?.any fun state =>
      state.terminal.isSome && state.depth < depth && state.word.isPrefixOf word &&
        checkOutputs trie word fuel state.depth state.output

/-- The link is a proper end of the word, and so are the outputs. -/
def checkLinks (trie : Trie) (s : StateId) (state : TrieState) : Bool :=
  if s = root then state.fail.isNone
  else
    match state.fail with
    | none => false
    | some shorter =>
      trie.depth shorter < state.depth && (trie.word shorter).isPrefixOf state.word &&
        checkOutputs trie state.word state.depth state.depth state.output

end Trie

namespace Automaton

variable {V : Type}

/-- The states agree with their words. -/
def checkSiblings (automaton : Automaton V) : Bool :=
  automaton.trie.all automaton.trie.checkChildren

/-- Links and outputs are ends of the words. -/
def checkFail (automaton : Automaton V) : Bool :=
  !automaton.compiled ||
    automaton.trie.toList.zipIdx.all fun (state, s) => automaton.trie.checkLinks s state

/-- The table agrees with the links. -/
def checkMove (automaton : Automaton V) : Bool :=
  !automaton.compiled ||
    (automaton.moves.size == automaton.trie.size &&
      (List.range automaton.trie.size).all fun s =>
        Byte.all.all fun letter => automaton.move s letter == automaton.trie.next s letter)

def check (automaton : Automaton V) : Bool :=
  automaton.checkSiblings && automaton.checkFail && automaton.checkMove

end Automaton

end LiteralSieve
