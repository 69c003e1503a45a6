import ObjectMachine.Machine.Basic

/-!
# Calling methods of a machine

A method is found first and then executed. Finding it may fail, which leaves the machine as it is;
executing it changes the heap and the number of executed instructions, and nothing else.

Each call is told how many instructions to execute at most. The answer is `none` if that is not
enough; with a step budget, one instruction more than the budget always is.
-/

namespace ObjectMachine

/-- The method with which a program starts. -/
def mainMethod : String := "Main"

/-- The name that stands for the class of a program without an entry point. -/
def missingEntry : String := "<entry point>"

namespace Class

/-- The method that answers to a name, which has to exist. -/
def methodNamed (c : Class) (name : String) : Except Fault Method :=
  match c.method? name with
  | some m => .ok m
  | none => .error (.methodNotFound c.name name)

end Class

/-- A call of a method of an object that the machine has yet to execute. -/
structure Pending where
  method : Method
  receiver : ObjectRef
  arguments : Array Value
deriving DecidableEq, Repr

/-- What calling a method of an object comes to: a native body has already run, an interpreted
method is still to be executed. -/
inductive Invocation where
  | value (v : Value)
  | pending (call : Pending)
deriving DecidableEq, Repr

namespace Machine

/-- The answer of a call, and the machine after it. -/
abbrev Answer := Except Fault Value × Machine

def execute (m : Machine) (patience : Nat) (c : Call) : Option Answer :=
  (ObjectMachine.execute m.program patience c m.heap).map fun o =>
    (o.result, { m with heap := o.heap, steps := o.steps })

/-- Executes the call that was found, or answers why there is none. -/
def executeFound (m : Machine) (patience : Nat) : Except Fault Call → Option Answer
  | .ok c => m.execute patience c
  | .error e => some (.error e, m)

/-- The call of a method of the class with a name. -/
def staticCall (m : Machine) (className method : String) (arguments : Array Value) :
    Except Fault Call := do
  let c ← m.classNamed className
  return ⟨← c.methodNamed method, none, arguments⟩

/-- Calls a method of the class with a name. -/
def invoke (m : Machine) (patience : Nat) (className method : String) (arguments : Array Value) :
    Option Answer :=
  m.executeFound patience (m.staticCall className method arguments)

def objectCall (h : Heap) (r : ObjectRef) (method : String) (arguments : Array Value) :
    Except Fault Call :=
  match h.object? r with
  | some o => do return ⟨← o.cls.methodNamed method, some r, arguments⟩
  | none => .error (.methodNotFound "" method)

def invokeOn (m : Machine) (patience : Nat) (r : ObjectRef) (method : String)
    (arguments : Array Value) : Option Answer :=
  m.executeFound patience (objectCall m.heap r method arguments)

/-- Calls the method at a place in the method table of a class. -/
def invokeAt (m : Machine) (patience : Nat) (classIndex methodIndex : Nat)
    (arguments : Array Value) : Option Answer :=
  m.executeFound patience do
    return ⟨← m.registry.methodAt classIndex methodIndex, none, arguments⟩

/-- The call with which the program starts. -/
def entryCall (m : Machine) : Except Fault Call := do
  match m.entryPoint with
  | none => throw (.methodNotFound missingEntry mainMethod)
  | some index =>
    let c ← m.registry.classAt index
    return ⟨← c.methodNamed mainMethod, none, #[]⟩

/-- Runs the program from its entry point. -/
def runEntry (m : Machine) (patience : Nat) : Option Answer := m.executeFound patience m.entryCall

/-- Begins a call of a method of an object without executing instructions: a native body runs at
once. -/
def begin (m : Machine) (r : ObjectRef) (method : String) (arguments : Array Value) :
    Except Fault Invocation × Machine :=
  match objectCall m.heap r method arguments with
  | .error e => (.error e, m)
  | .ok c =>
    match c.method.body with
    | .native name => m.onHeap (.value <$> m.program.host.native name (some r) arguments)
    | .interpreted _ => (.ok (.pending ⟨c.method, r, arguments⟩), m)

/-- Executes a call that was begun. -/
def runPending (m : Machine) (patience : Nat) (call : Pending) : Option Answer :=
  m.execute patience ⟨call.method, some call.receiver, call.arguments⟩

end Machine

end ObjectMachine
