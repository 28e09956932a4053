import LiteralSieve.Pattern.Atom
import LiteralSieve.Pattern.Quantifier

namespace LiteralSieve

/-!
# Drafts

A draft is a sequence that is being read: the nodes that are finished, and the literal that may
still grow. Atoms with their quantifiers are added at its end. What an atom requires is kept where
literals can say it, and a gap takes the place of the rest. A draft also counts the nodes made so
far, with those that were given up again.
-/

structure Draft where
  nodes : List Node
  run : Option (Bytes × Extent)
  made : Nat
deriving Inhabited

namespace Draft

/-- Nothing read yet, in a pattern for which `made` nodes were made before. -/
def start (made : Nat) : Draft := ⟨[], none, made⟩

/-- The growing literal gets more bytes, which come from `source`. -/
def pushBytes (draft : Draft) (bytes : Bytes) (source : Extent) : Draft :=
  match draft.run with
  | none => { draft with run := some (bytes, source) }
  | some (before, whole) => { draft with run := some (before ++ bytes, whole.through source) }

/-- The growing literal is finished. -/
def flush (draft : Draft) : Draft :=
  match draft.run with
  | none => draft
  | some (bytes, source) =>
    ⟨draft.nodes ++ [.literal bytes source], none, draft.made + 1⟩

/-- A node is added for which `made` nodes were made. -/
def push (draft : Draft) (node : Node) (made : Nat) : Draft :=
  let draft := draft.flush
  { draft with nodes := draft.nodes ++ [node], made := draft.made + made }

def sequence (draft : Draft) (source : Extent) : Node := .sequence draft.flush.nodes false source

end Draft

namespace ByteSet

/-- The only member of a set that is one ASCII byte. -/
def literal? (s : ByteSet) : Option UInt8 := s.single?.filter Byte.isAscii

/-- The node of a set: a choice of its members. A set with members beyond ASCII is a gap, since
those stand for parts of characters in UTF-8. -/
def node (expansion : Bool) (s : ByteSet) (source : Extent) : Node :=
  if !expansion || s.isEmpty || !s.isAscii then .gap source
  else .choice (s.toList.map fun b => .literal [b] source) false source

end ByteSet

namespace Atom

/-- A node that stands for the atom alone. -/
def toNode (expansion : Bool) (source : Extent) : Atom → Node
  | char c => .literal (String.utf8EncodeChar c) source
  | set members =>
    match members.literal? with
    | some b => .literal [b] source
    | none => members.node expansion source
  | node n => n
  | gap => .gap source
  | quoted text => .literal (text.flatMap String.utf8EncodeChar) source
  | nothing => .literal [] source

/-- The number of nodes that `toNode` makes: a group's node is there already. -/
def made (expansion : Bool) (source : Extent) : Atom → Nat
  | node _ => 0
  | atom => (atom.toNode expansion source).size

end Atom

namespace Draft

/-- Exact repetitions of a character up to this number are written out. -/
def maxInline : Nat := 16

def addOnce (expansion : Bool) (draft : Draft) (source : Extent) : Atom → Draft
  | .char c => draft.pushBytes (String.utf8EncodeChar c) source
  | .set members =>
    match members.literal? with
    | some b => draft.pushBytes [b] source
    | none => draft.push (members.node expansion source) (members.node expansion source).size
  | .node n => draft.push n 0
  | .gap => draft.push (.gap source) 1
  | .quoted text => draft.pushBytes (text.flatMap String.utf8EncodeChar) source
  | .nothing => draft

/-- The atom occurs or does not: a choice of the atom and nothing. -/
def addOptional (expansion : Bool) (draft : Draft) (atom : Atom) (source full : Extent) : Draft :=
  let node := atom.toNode expansion source
  let made := atom.made expansion source
  if node.isGap then draft.push (.gap full) (made + 1)
  else
    let absent := .literal [] ⟨full.stop, full.stop⟩
    draft.push (.choice [node, absent] false full) (made + 2)

/-- The number of times that a quantifier writes a character out. -/
def inlineCount? (q : Quantifier) (atom : Atom) : Option (Char × Nat) :=
  match atom with
  | .char c => if q.most = some q.least ∧ q.least ≤ maxInline then some (c, q.least) else none
  | _ => none

/-- An atom from `source` with a quantifier, which ends at `stop`. -/
def addRepeated (expansion : Bool) (draft : Draft) (q : Quantifier) (atom : Atom)
    (source : Extent) (stop : Nat) : Draft :=
  let full : Extent := ⟨source.start, stop⟩
  match atom with
  | .gap => draft.push (.gap full) 1
  | atom =>
    if q.least = 0 then
      if q.most = some 1 then draft.addOptional expansion atom source full
      else draft.push (.gap full) 1
    else
      match inlineCount? q atom with
      | some (c, n) =>
        draft.pushBytes (List.replicate n (String.utf8EncodeChar c)).flatten full
      | none =>
        let draft := draft.addOnce expansion source atom
        if q = ⟨1, some 1⟩ then draft else draft.push (.gap ⟨source.stop, stop⟩) 1

/-- An atom from `source`, with its quantifier if it has one. -/
def addPlain (expansion : Bool) (draft : Draft) (q : Option Quantifier) (atom : Atom)
    (source : Extent) (stop : Nat) : Draft :=
  match q with
  | none => draft.addOnce expansion source atom
  | some q => draft.addRepeated expansion q atom source stop

/-- A quotation of these characters. Its quantifier binds to the last one alone. -/
def addQuoted (expansion : Bool) (draft : Draft) (q : Option Quantifier) (text : List Char)
    (source : Extent) (stop : Nat) : Draft :=
  let first := text.dropLast
  let split := source.start + 2 + width first
  let draft :=
    if first.isEmpty then draft
    else draft.pushBytes (first.flatMap String.utf8EncodeChar) ⟨source.start, split⟩
  match text.getLast? with
  | none => draft
  | some c => draft.addPlain expansion q (.char c) ⟨split, source.stop⟩ stop

/-- The draft with one more atom, which stands at `source`, and its quantifier up to `stop`. -/
def add (expansion : Bool) (draft : Draft) (q : Option Quantifier) (atom : Atom)
    (source : Extent) (stop : Nat) : Draft :=
  match atom with
  | .quoted text => draft.addQuoted expansion q text source stop
  | .nothing => draft
  | atom => draft.addPlain expansion q atom source stop

end Draft

end LiteralSieve
