import LiteralSieve.Automaton.Trie

namespace LiteralSieve

/-!
# Links between the states of a trie

While a text is read, the state of an automaton is the longest end of the text that is in the trie.
So that it can be kept from letter to letter, every state has a link to the longest proper end of
its own word, and from these links the next state is tabled for every state and letter. A state's
links are found from those of shorter words, level by level.
-/

namespace Trie

/-- The states level by level, at most `fuel` levels from the given one on. -/
def levels (trie : Trie) : Nat → List StateId → List StateId
  | 0, _ => []
  | fuel + 1, level =>
    if level.isEmpty then []
    else
      let next := level.flatMap fun s => (trie[s]?.map (·.children.map Prod.snd)).getD []
      level ++ levels trie fuel next

/-- All states, those of shorter words first. -/
def breadthFirst (trie : Trie) : List StateId := trie.levels trie.size [root]

/-- The state after a letter, if at most `fuel` links are followed: the child of the first state on
the way that has one, otherwise the root. -/
def follow (trie : Trie) (letter : UInt8) : Nat → StateId → StateId
  | 0, _ => root
  | fuel + 1, s =>
    match trie.child? s letter with
    | some next => next
    | none =>
      match trie.fail? s with
      | some shorter => follow trie letter fuel shorter
      | none => root

def next (trie : Trie) (s : StateId) (letter : UInt8) : StateId :=
  trie.follow letter (trie.depth s + 1) s

/-- The state that a child of `s` links to. -/
def childFail (trie : Trie) (s : StateId) (letter : UInt8) : StateId :=
  match trie.fail? s with
  | some shorter => trie.next shorter letter
  | none => root

/-- The nearest key on the way from a state along the links. -/
def nearestKey (trie : Trie) (s : StateId) : Option StateId :=
  if (trie.terminal? s).isSome then some s else trie.output? s

/-- The trie with the links of one child of `s`; `none` if it is no child by its word. -/
def linkChild (s : StateId) (trie : Trie) (edge : UInt8 × StateId) : Option Trie :=
  let (letter, child) := edge
  if trie.word child = letter :: trie.word s then
    let shorter := trie.childFail s letter
    let output := trie.nearestKey shorter
    some (trie.modify child fun state => { state with fail := some shorter, output := output })
  else none

def linkChildren (trie : Trie) (s : StateId) : Option Trie :=
  ((trie[s]?.map (·.children)).getD []).foldlM (linkChild s) trie

def link (trie : Trie) : Option Trie :=
  let trie : Trie := trie.modify root fun state => { state with fail := none, output := none }
  trie.breadthFirst.foldlM linkChildren trie

/-- The next states of a state that has none of its own. -/
def rootRow : Array StateId := Array.replicate 256 root

/-- The table with the row of a state: that of its link, with the state's own children. -/
def fillRow (trie : Trie) (moves : Array (Array StateId)) (s : StateId) :
    Option (Array (Array StateId)) := do
  let base ← if s = root then some rootRow else do
    let shorter ← trie.fail? s
    moves[shorter]?
  let children := (trie[s]?.map (·.children)).getD []
  let row := children.foldl (fun row (letter, child) => row.setIfInBounds letter.toNat child) base
  return moves.setIfInBounds s row

/-- The next state for every state and letter; `none` if a state has no link. -/
def table (trie : Trie) : Option (Array (Array StateId)) :=
  trie.breadthFirst.foldlM trie.fillRow (Array.replicate trie.size rootRow)

end Trie

namespace Automaton

variable {V : Type}

/-- The automaton with new links, and whether all could be set. -/
def compileLinks (automaton : Automaton V) : Automaton V × Bool :=
  match automaton.trie.link with
  | some trie => ({ automaton with trie := trie }, true)
  | none => (automaton, false)

/-- The automaton with a new table, and whether every state has its link. -/
def compileTable (automaton : Automaton V) : Automaton V × Bool :=
  match automaton.trie.table with
  | some moves => ({ automaton with moves := moves }, true)
  | none => (automaton, false)

/-- The automaton ready for scanning, and whether it is. -/
def compile (automaton : Automaton V) : Automaton V × Bool :=
  let (linked, ok) := automaton.compileLinks
  let (tabled, ok) := if ok then linked.compileTable else (linked, false)
  ({ tabled with compiled := ok }, ok)

def move (automaton : Automaton V) (s : StateId) (letter : UInt8) : StateId :=
  (automaton.moves[s]?.bind (·[letter.toNat]?)).getD Trie.root

end Automaton

end LiteralSieve
