import ObjectMachine.Run

/-!
# The machine

A machine owns a program, the heap on which it runs and the supply of class identities. Registering
something never changes the index of what was registered before.
-/

namespace ObjectMachine

/-- A program with its heap. -/
structure Machine where
  program : Program
  /-- The index of the class whose main method starts the program. -/
  entryPoint : Option Nat := none
  heap : Heap := {}
  /-- How many instructions the last run executed. -/
  steps : Nat := 0
  /-- The stamp of the next class identity. -/
  nextStamp : Nat := 0

namespace Machine

def empty (limits : Limits) (host : Host) : Machine := { program := { limits, host } }

def registry (m : Machine) : Registry := m.program.registry

/-! ## Classes -/

/-- Gives a declaration its identity. The class is not registered. -/
def define (m : Machine) (decl : ClassDecl) (base : Option Class) : Class × Machine :=
  (.derive ⟨m.nextStamp⟩ decl base, { m with nextStamp := m.nextStamp + 1 })

/-- Registers a class under the next index. -/
def register (m : Machine) (c : Class) : Nat × Machine :=
  (m.registry.size, { m with program := { m.program with registry := m.registry.register c } })

/-- Defines a class and registers it. -/
def install (m : Machine) (decl : ClassDecl) (base : Option Class) : Nat × Machine :=
  let (c, m) := m.define decl base
  m.register c

/-- The class with a name, which has to exist. -/
def classNamed (m : Machine) (name : String) : Except Fault Class :=
  match m.registry.named? name with
  | some c => .ok c
  | none => .error (.classNotFound name)

def classIndex (m : Machine) (name : String) : Except Fault Nat :=
  match m.registry.indexOf? name with
  | some i => .ok i
  | none => .error (.classNotFound name)

/-! ## Strings and constants -/

def addString (m : Machine) (s : String) : Nat × Machine :=
  (m.program.strings.size,
    { m with program := { m.program with strings := m.program.strings.push s } })

def addConstant (m : Machine) (v : Value) : Nat × Machine :=
  (m.program.constants.size,
    { m with program := { m.program with constants := m.program.constants.push v } })

/-! ## The heap -/

/-- Applies a heap operation to the heap of the machine. -/
def onHeap {α : Type} (m : Machine) (f : HeapM α) : Except Fault α × Machine :=
  match f m.heap with
  | .ok a heap => (.ok a, { m with heap })
  | .error e heap => (.error e, { m with heap })

/-- Creates an object of the class with a name. -/
def newObject (m : Machine) (name : String) : Except Fault ObjectRef × Machine :=
  match m.classNamed name with
  | .ok c => m.onHeap (Heap.newObject c)
  | .error e => (.error e, m)

end Machine

end ObjectMachine
