import LiteralSieve.Automaton.Trie
import LiteralSieve.Text.Lossy
import LiteralSieve.Text.Quoted

namespace LiteralSieve.Automaton

/-!
# Showing an automaton

One line for the whole and one for every key, with the state that its word leads to.
-/

variable {V : Type}

def summary (automaton : Automaton V) : String :=
  "automaton: " ++ toString automaton.stateCount ++ " states, " ++ toString automaton.size
    ++ " keys" ++ (if automaton.compiled then ", compiled" else "")

def terminalLine (automaton : Automaton V) (id : TerminalId) (terminal : Terminal V) : String :=
  let limits := if terminal.wholeWord then " whole-word" else ""
  let link := match automaton.trie.fail? terminal.state with
    | some shorter => " fail " ++ toString shorter
    | none => ""
  "  " ++ indexLabel "EndId" id ++ " " ++ Text.quote (Text.ofBytes terminal.key) ++ " -> "
    ++ indexLabel "PatternId" terminal.id ++ " state " ++ toString terminal.state
    ++ " depth " ++ toString (automaton.trie.depth terminal.state) ++ limits ++ link

def describe (automaton : Automaton V) : String :=
  let lines := automaton.terminals.entries.map fun (id, terminal) =>
    automaton.terminalLine id terminal ++ "\n"
  automaton.summary ++ "\n" ++ String.join lines

end LiteralSieve.Automaton
