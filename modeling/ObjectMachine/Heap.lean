import ObjectMachine.Class.Basic
import ObjectMachine.Fault

/-!
# The heap

Objects and arrays, in the order of their creation. Nothing is ever removed, so a reference stays
good once it has been handed out. An object keeps its class and an array its length; only the values
in slots and elements change.
-/

namespace ObjectMachine

/-- An object: its class and one value for every field of the class, bases first. -/
structure Instance where
  cls : Class
  slots : Array Value
deriving DecidableEq, Repr

namespace Instance

/-- A new object: every field is null. -/
def create (c : Class) : Instance := ⟨c, Array.replicate c.fieldCount .null⟩

/-- The slot of a field. -/
def slot (o : Instance) (field : String) : Except Fault Nat :=
  match o.cls.fieldSlot? field with
  | some i => .ok i
  | none => .error (.fieldNotFound o.cls.name field)

def slotValue (o : Instance) (i : Nat) : Except Fault Value :=
  match o.slots[i]? with
  | some v => .ok v
  | none => .error (.outOfRange .fieldSlot i o.slots.size)

def get (o : Instance) (field : String) : Except Fault Value := o.slot field >>= o.slotValue

def inspect (o : Instance) : String :=
  "Object \x7b class: " ++ Text.quoted o.cls.name ++ ", fields: " ++ toString o.slots.size
    ++ " \x7d"

end Instance

/-- All objects and arrays. -/
structure Heap where
  objects : Array Instance := #[]
  arrays : Array (Array Value) := #[]
deriving DecidableEq, Repr

/-- An operation on the heap that may fail; what it changed before it failed stays changed. -/
abbrev HeapM := EStateM Fault Heap

namespace Heap

def object? (h : Heap) (r : ObjectRef) : Option Instance := h.objects[r.index]?

/-- The elements of an array; a reference outside the heap has none. -/
def elements (h : Heap) (r : ArrayRef) : Array Value := h.arrays[r.index]?.getD #[]

def length (h : Heap) (r : ArrayRef) : Nat := (h.elements r).size

/-- The class of the object that a value refers to. -/
def classOf? (h : Heap) (v : Value) : Option Class := v.toObject?.bind h.object? |>.map (·.cls)

def newObject (c : Class) : HeapM ObjectRef := fun h =>
  .ok ⟨h.objects.size⟩ { h with objects := h.objects.push (.create c) }

/-- Creates an array of nulls. -/
def newArray (n : Nat) : HeapM ArrayRef := fun h =>
  .ok ⟨h.arrays.size⟩ { h with arrays := h.arrays.push (Array.replicate n .null) }

/-- The value of a field of an object; a reference outside the heap has no fields. -/
def getField (h : Heap) (r : ObjectRef) (field : String) : Except Fault Value :=
  match h.object? r with
  | some o => o.get field
  | none => .error (.fieldNotFound "" field)

/-- Changes the value of a field; never adds a slot. -/
def setField (r : ObjectRef) (field : String) (v : Value) : HeapM Unit := fun h =>
  match h.object? r with
  | none => .error (.fieldNotFound "" field) h
  | some o =>
    match o.slot field with
    | .error e => .error e h
    | .ok i =>
      .ok () { h with
        objects := h.objects.modify r.index fun o =>
          { o with slots := o.slots.setIfInBounds i v } }

/-- The position that an index selects in an array of a given length. -/
def elementIndex (n : Nat) (index : Int) : Except Fault Nat :=
  if 0 ≤ index ∧ index < n then .ok index.toNat
  else .error (.indexOutOfRange .arrayElement index n)

def getElement (h : Heap) (r : ArrayRef) (index : Int) : Except Fault Value := do
  let i ← elementIndex (h.length r) index
  pure ((h.elements r).getD i .null)

def setElement (r : ArrayRef) (index : Int) (v : Value) : HeapM Unit := fun h =>
  match elementIndex (h.length r) index with
  | .error e => .error e h
  | .ok i => .ok () { h with arrays := h.arrays.modify r.index (·.setIfInBounds i v) }

end Heap

end ObjectMachine
