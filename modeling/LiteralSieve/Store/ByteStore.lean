import LiteralSieve.Byte

namespace LiteralSieve

/-!
# Byte stores

A store keeps many byte strings in one buffer that only grows. A stored string is addressed by the
span it takes there, in 32-bit words, and a span once given out reads the same ever after.
-/

structure Span where
  start : UInt32
  length : UInt32
deriving DecidableEq, Inhabited

namespace Span

/-- The span of every empty string. -/
def empty : Span := ⟨0, 0⟩

def size (span : Span) : Nat := span.length.toNat

def isEmpty (span : Span) : Bool := span.length == 0

def describe (span : Span) : String :=
  "Span \x7b start: " ++ toString span.start ++ ", len: " ++ toString span.length ++ " \x7d"

end Span

structure ByteStore where
  buffer : Array UInt8
deriving Inhabited

namespace ByteStore

def empty : ByteStore := ⟨#[]⟩

def size (store : ByteStore) : Nat := store.buffer.size

def isEmpty (store : ByteStore) : Bool := store.buffer.isEmpty

/-- The bytes that a span addresses. -/
def get (store : ByteStore) (span : Span) : Bytes :=
  (store.buffer.extract span.start.toNat (span.start.toNat + span.size)).toList

/-- The store with `bytes` added, and where they are. -/
def push (store : ByteStore) (bytes : Bytes) : ByteStore × Span :=
  if bytes.isEmpty then (store, Span.empty)
  else (⟨store.buffer ++ bytes⟩, ⟨store.size.toUInt32, bytes.length.toUInt32⟩)

/-- The store with the strings at `parts` added once more as one string. -/
def concat (store : ByteStore) (parts : List Span) : ByteStore × Span :=
  let buffer := parts.foldl (fun buffer part => buffer ++ get ⟨buffer⟩ part) store.buffer
  let added := buffer.size - store.size
  if added = 0 then (⟨buffer⟩, Span.empty)
  else (⟨buffer⟩, ⟨store.size.toUInt32, added.toUInt32⟩)

end ByteStore

end LiteralSieve
