import LiteralSieve.Pattern.Node

namespace LiteralSieve.Node

/-!
# Simplifying a tree

Three passes over a tree, none of which changes what it requires. `adjust` removes nodes with one
child and joins sequences in sequences and choices in choices, `mark` finds out where there is no
content, and `mergeLiterals` joins literals that follow each other.
-/

/-! ## Flattening -/

/-- The children in place of a sequence, the node itself otherwise. -/
def sequenceItems : Node → List Node
  | sequence children _ _ => children
  | node => [node]

/-- The children in place of an enabled choice, the node itself otherwise. -/
def choiceItems : Node → List Node
  | choice children false _ => children
  | node => [node]

/-- The sequence of these nodes, where one stands for itself and none for the empty literal. -/
def ofSequence (hollow : Bool) (source : Extent) : List Node → Node
  | [] => literal [] source
  | [node] => node
  | nodes => sequence nodes hollow source

def ofChoice (disabled : Bool) (source : Extent) : List Node → Node
  | [] => literal [] source
  | [node] => node
  | nodes => choice nodes disabled source

mutual

/-- Wrappers go, and nested sequences and choices become one. -/
def adjust : Node → Node
  | literal bytes source => literal bytes source
  | gap source => gap source
  | sequence children hollow source => ofSequence hollow source (adjustSequence children)
  | choice children disabled source => ofChoice disabled source (adjustChoice children)

def adjustSequence : List Node → List Node
  | [] => []
  | node :: nodes => node.adjust.sequenceItems ++ adjustSequence nodes

def adjustChoice : List Node → List Node
  | [] => []
  | node :: nodes => node.adjust.choiceItems ++ adjustChoice nodes

end

/-! ## Marking -/

mutual

/-- Whether the node has no content: a gap, a sequence of nothing else, or a choice that may take
such a way. -/
def isHollow : Node → Bool
  | literal _ _ => false
  | gap _ => true
  | sequence children _ _ => !children.isEmpty && allHollow children
  | choice children _ _ => anyHollow children

def allHollow : List Node → Bool
  | [] => true
  | node :: nodes => node.isHollow && allHollow nodes

def anyHollow : List Node → Bool
  | [] => false
  | node :: nodes => node.isHollow || anyHollow nodes

end

mutual

/-- Every sequence and choice gets its mark. A choice keeps one that it had. -/
def mark : Node → Node
  | literal bytes source => literal bytes source
  | gap source => gap source
  | sequence children hollow source =>
    sequence (markAll children) (isHollow (sequence children hollow source)) source
  | choice children disabled source =>
    choice (markAll children) (disabled || isHollow (choice children disabled source)) source

def markAll : List Node → List Node
  | [] => []
  | node :: nodes => node.mark :: markAll nodes

end

/-! ## Joining literals -/

/-- Literals that follow each other, in order, and the extent that they cover. -/
structure Run where
  bytes : Bytes
  source : Extent
  count : Nat

/-- The nodes with every run of literals joined. -/
def joinLiterals : Option Run → List Node → List Node
  | none, [] => []
  | some run, [] => [literal run.bytes run.source]
  | none, literal bytes source :: nodes => joinLiterals (some ⟨bytes, source, 1⟩) nodes
  | some run, literal bytes source :: nodes =>
    joinLiterals (some ⟨run.bytes ++ bytes, run.source.through source, run.count + 1⟩) nodes
  | none, node :: nodes => node :: joinLiterals none nodes
  | some run, node :: nodes => literal run.bytes run.source :: node :: joinLiterals none nodes

/-- The number of literals that joining makes, one for every run of at least two. -/
def joinedCount : Option Run → List Node → Nat
  | none, [] => 0
  | some run, [] => if 2 ≤ run.count then 1 else 0
  | none, literal bytes source :: nodes => joinedCount (some ⟨bytes, source, 1⟩) nodes
  | some run, literal bytes source :: nodes =>
    joinedCount (some ⟨run.bytes ++ bytes, run.source.through source, run.count + 1⟩) nodes
  | none, _ :: nodes => joinedCount none nodes
  | some run, _ :: nodes => (if 2 ≤ run.count then 1 else 0) + joinedCount none nodes

def ofMerged (hollow : Bool) (source : Extent) : List Node → Node
  | [node] => node
  | nodes => sequence nodes hollow source

mutual

/-- Literals that follow each other in a sequence become one. -/
def mergeLiterals : Node → Node
  | literal bytes source => literal bytes source
  | gap source => gap source
  | sequence children hollow source =>
    ofMerged hollow source (joinLiterals none (mergeAll children))
  | choice children disabled source => choice (mergeAll children) disabled source

def mergeAll : List Node → List Node
  | [] => []
  | node :: nodes => node.mergeLiterals :: mergeAll nodes

end

mutual

/-- The number of nodes that `mergeLiterals` makes. -/
def mergeCost : Node → Nat
  | literal _ _ => 0
  | gap _ => 0
  | sequence children _ _ => mergeCostAll children + joinedCount none (mergeAll children)
  | choice children _ _ => mergeCostAll children

def mergeCostAll : List Node → Nat
  | [] => 0
  | node :: nodes => node.mergeCost + mergeCostAll nodes

end

end LiteralSieve.Node
