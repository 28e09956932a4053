import LiteralSieve.Pattern.Node
import LiteralSieve.Text.Lossy
import LiteralSieve.Text.Quoted

namespace LiteralSieve

/-!
# Outlines

A tree is shown node by node, every node before its children and with its depth.
-/

/-- A node and its depth. -/
structure OutlineEntry where
  level : Nat
  node : Node
deriving Inhabited

namespace Node

mutual

/-- The node and all below it, at this depth. -/
def outline (level : Nat) : Node → List OutlineEntry
  | literal bytes source => [⟨level, literal bytes source⟩]
  | gap source => [⟨level, gap source⟩]
  | sequence children hollow source =>
    ⟨level, sequence children hollow source⟩ :: outlineOf (level + 1) children
  | choice children disabled source =>
    ⟨level, choice children disabled source⟩ :: outlineOf (level + 1) children

def outlineOf (level : Nat) : List Node → List OutlineEntry
  | [] => []
  | node :: nodes => node.outline level ++ outlineOf level nodes

end

def kindText : Node → String
  | literal _ _ => "leaf"
  | gap _ => "leaf disabled"
  | sequence _ hollow _ => if hollow then "and all-disabled" else "and"
  | choice _ disabled _ => if disabled then "or disabled" else "or"

/-- What a leaf says: its literal and where it comes from. -/
def leafText (sourceText : Extent → String) : Node → String
  | literal bytes source =>
    " " ++ Text.quote (Text.ofBytes bytes) ++ " <- " ++ Text.quote (sourceText source)
  | gap source => " " ++ Text.quote "" ++ " <- " ++ Text.quote (sourceText source)
  | _ => ""

end Node

namespace OutlineEntry

def line (sourceText : Extent → String) (entry : OutlineEntry) : String :=
  String.ofList (List.replicate (2 * entry.level) ' ') ++ entry.node.kindText
    ++ entry.node.leafText sourceText ++ "\n"

end OutlineEntry

end LiteralSieve
