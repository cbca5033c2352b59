import StackLang.Table
import StackLang.Value

namespace StackLang

/-- The key of an entry. Any value may be one; numbers of the same size are the same key. -/
structure Key where
  value : Value
  deriving Repr, DecidableEq

instance : BEq Key := ⟨fun a b => a.value.same b.value⟩

abbrev Fields := Table Key Value

inductive Object where
  | record (fields : Fields)
  | array (items : Array Value)
  | missing
  deriving Repr

structure Heap where
  objects : Array Object
  deriving Repr

namespace Heap

def firstId : Nat := 2024

def empty : Heap := ⟨#[]⟩

/-- The number that the next object gets. -/
def nextId (h : Heap) : Nat := firstId + h.objects.size

def alloc (h : Heap) (o : Object) : Heap := ⟨h.objects.push o⟩

/-- The place of the object that a value refers to. -/
def place? (h : Heap) (v : Value) : Option Nat := do
  let id ← v.key?
  if (firstId : Int) ≤ id ∧ id < h.nextId then some (id - firstId).toNat else none

def object? (h : Heap) (v : Value) : Option Object := do
  h.objects[← h.place? v]?

def record? (h : Heap) (v : Value) : Option Fields :=
  match h.object? v with
  | some (.record fields) => some fields
  | _ => none

def array? (h : Heap) (v : Value) : Option (Array Value) :=
  match h.object? v with
  | some (.array items) => some items
  | _ => none

/-- Replaces the object that a value refers to. -/
def replace (h : Heap) (v : Value) (o : Object) : Heap :=
  match h.place? v with
  | some i => ⟨h.objects.setIfInBounds i o⟩
  | none => h

/-- Gives an object to the number that was taken last. -/
def fill (h : Heap) (o : Object) : Heap := ⟨h.objects.setIfInBounds (h.objects.size - 1) o⟩

/-- The objects with their numbers. -/
def numbered (h : Heap) : List (Nat × Object) :=
  h.objects.toList.zipIdx.map fun (o, i) => (firstId + i, o)

def records (h : Heap) : List (Nat × Fields) :=
  h.numbered.filterMap fun
    | (id, .record fields) => some (id, fields)
    | _ => none

def arrays (h : Heap) : List (Nat × Array Value) :=
  h.numbered.filterMap fun
    | (id, .array items) => some (id, items)
    | _ => none

end Heap
end StackLang
