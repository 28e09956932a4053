import LiteralSieve.Byte
import LiteralSieve.Extent

namespace LiteralSieve

/-!
# Pattern nodes

What a pattern requires, as far as literals can say it: literals and gaps, joined to sequences and
choices. A gap stands for whatever has no literal of its own. Every node keeps the extent of the
pattern that it was read from.
-/

inductive Node where
  | literal (bytes : Bytes) (source : Extent)
  | gap (source : Extent)
  /-- One child after the other; `hollow` marks a sequence of which no child has content. -/
  | sequence (children : List Node) (hollow : Bool) (source : Extent)
  /-- One of the children; `disabled` marks a choice of which some child has no content. -/
  | choice (children : List Node) (disabled : Bool) (source : Extent)
deriving Inhabited

namespace Node

def source : Node → Extent
  | literal _ source => source
  | gap source => source
  | sequence _ _ source => source
  | choice _ _ source => source

def children : Node → List Node
  | literal _ _ => []
  | gap _ => []
  | sequence children _ _ => children
  | choice children _ _ => children

def isGap : Node → Bool
  | gap _ => true
  | _ => false

mutual

def size : Node → Nat
  | literal _ _ => 1
  | gap _ => 1
  | sequence children _ _ => sizeAll children + 1
  | choice children _ _ => sizeAll children + 1

def sizeAll : List Node → Nat
  | [] => 0
  | node :: nodes => node.size + sizeAll nodes

end

end Node

end LiteralSieve
