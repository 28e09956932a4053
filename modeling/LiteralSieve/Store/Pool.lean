namespace LiteralSieve

/-!
# Pools

A pool keeps elements in the order in which they came, and an element's index is its place in that
order. Elements are replaced or dropped all together, so an index never moves.
-/

structure Pool (α : Type) where
  items : Array α

namespace Pool

variable {α : Type}

def empty : Pool α := ⟨#[]⟩

instance : Inhabited (Pool α) := ⟨empty⟩

/-- The pool with `a` added; its index is the old `size`. -/
def push (pool : Pool α) (a : α) : Pool α := ⟨pool.items.push a⟩

def size (pool : Pool α) : Nat := pool.items.size

def isEmpty (pool : Pool α) : Bool := pool.items.isEmpty

def get? (pool : Pool α) (i : Nat) : Option α := pool.items[i]?

/-- The pool with element `i` replaced; unchanged if there is none. -/
def set (pool : Pool α) (i : Nat) (a : α) : Pool α := ⟨pool.items.setIfInBounds i a⟩

/-- The pool with element `i` put through `f`; unchanged if there is none. -/
def modify (pool : Pool α) (i : Nat) (f : α → α) : Pool α := ⟨pool.items.modify i f⟩

def toList (pool : Pool α) : List α := pool.items.toList

def entries (pool : Pool α) : List (Nat × α) :=
  pool.toList.zipIdx.map fun (a, i) => (i, a)

def describe (text : α → String) (pool : Pool α) : String :=
  "[" ++ ", ".intercalate (pool.toList.map text) ++ "]"

@[simp] theorem size_empty : (empty : Pool α).size = 0 := rfl

@[simp] theorem get?_empty (i : Nat) : (empty : Pool α).get? i = none := by
  simp [empty, get?]

@[simp] theorem toList_push (pool : Pool α) (a : α) :
    (pool.push a).toList = pool.toList ++ [a] :=
  Array.toList_push

@[simp] theorem length_toList (pool : Pool α) : pool.toList.length = pool.size := rfl

theorem getElem?_toList (pool : Pool α) (i : Nat) : pool.toList[i]? = pool.get? i :=
  Array.getElem?_toList

@[simp] theorem size_push (pool : Pool α) (a : α) : (pool.push a).size = pool.size + 1 :=
  Array.size_push a

theorem get?_push (pool : Pool α) (a : α) (i : Nat) :
    (pool.push a).get? i = if i = pool.size then some a else pool.get? i :=
  Array.getElem?_push

@[simp] theorem size_modify (pool : Pool α) (i : Nat) (f : α → α) :
    (pool.modify i f).size = pool.size := by
  simp [modify, size]

theorem get?_modify (pool : Pool α) (i j : Nat) (f : α → α) :
    (pool.modify i f).get? j = if i = j then (pool.get? j).map f else pool.get? j := by
  simp [modify, get?, Array.getElem?_modify]

theorem get?_eq_none_iff {pool : Pool α} {i : Nat} : pool.get? i = none ↔ pool.size ≤ i := by
  simp [get?, size]

theorem lt_size_of_get? {pool : Pool α} {i : Nat} {a : α} (h : pool.get? i = some a) :
    i < pool.size :=
  (Array.getElem?_eq_some_iff.mp h).1

end Pool

/-- An index with the name of what it points to, as in `PatternId(0)`. -/
def indexLabel (name : String) (i : Nat) : String := name ++ "(" ++ toString i ++ ")"

end LiteralSieve
