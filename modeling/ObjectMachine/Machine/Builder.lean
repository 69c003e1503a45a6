import ObjectMachine.Machine.Basic

/-!
# Building classes call by call

A builder assembles one class at a time, and within it one method at a time, and registers the class
when it is ended. A call that does not fit the work in progress fails and the builder can go on with
other calls.
-/

namespace ObjectMachine

/-- A method in progress. -/
structure MethodDraft where
  name : String
  returns : TypeRef
  parameters : List Variable := []
  locals : List Variable := []
  code : Array Instruction := #[]
  native : Option String := none
deriving DecidableEq, Repr

def MethodDraft.finish (d : MethodDraft) : Method :=
  match d.native with
  | some body => .native d.name d.returns d.parameters body .everyone
  | none => .interpreted d.name d.returns d.parameters d.locals d.code .everyone

/-- A class in progress. -/
structure ClassDraft where
  decl : ClassDecl
  base : Option Class
deriving DecidableEq, Repr

/-- A machine and the work in progress. -/
structure Builder where
  machine : Machine
  draft : Option ClassDraft := none
  method : Option MethodDraft := none

/-- A call of a builder that may fail. -/
abbrev BuilderM := EStateM Fault Builder

namespace Builder

/-- Fails because the call does not fit the work in progress. -/
def refuse {α : Type} (cause : Misuse) : BuilderM α := throw (.typeMismatch (.builder cause))

/-- The type that a name means now. -/
def typeNamed (name : String) : BuilderM TypeRef := do
  return (← get).machine.registry.typeNamed name

def currentClass : BuilderM ClassDraft := do
  match (← get).draft with
  | some d => pure d
  | none => refuse .noClass

def currentMethod : BuilderM MethodDraft := do
  match (← get).method with
  | some d => pure d
  | none => refuse .noMethod

def setClass (d : ClassDraft) : BuilderM Unit := modify fun b => { b with draft := some d }

def setMethod (d : MethodDraft) : BuilderM Unit := modify fun b => { b with method := some d }

/-- The base class with a name, if one is asked for. -/
def baseNamed (name : Option String) : BuilderM (Option Class) := do
  match name with
  | none => pure none
  | some name =>
    match (← get).machine.classNamed name with
    | .ok c => pure (some c)
    | .error e => throw e

def beginClass (name : String) (base : Option String) : BuilderM Unit := do
  if (← get).draft.isSome then refuse .classOpen
  let base ← baseNamed base
  setClass ⟨{ name }, base⟩

def addField (name typeName : String) : BuilderM Unit := do
  let type ← typeNamed typeName
  let d ← currentClass
  setClass { d with decl := d.decl.addField { name, type } }

def beginMethod (name returnType : String) : BuilderM Unit := do
  let _ ← currentClass
  if (← get).method.isSome then refuse .methodOpen
  setMethod { name, returns := ← typeNamed returnType }

def addParameter (name typeName : String) : BuilderM Unit := do
  let type ← typeNamed typeName
  let d ← currentMethod
  setMethod { d with parameters := d.parameters ++ [{ name, type }] }

def addLocal (name typeName : String) : BuilderM Unit := do
  let type ← typeNamed typeName
  let d ← currentMethod
  setMethod { d with locals := d.locals ++ [{ name, type }] }

def emit (i : Instruction) : BuilderM Unit := do
  let d ← currentMethod
  if d.native.isSome then refuse .hasNativeBody
  setMethod { d with code := d.code.push i }

/-- Gives the method in progress a native body. -/
def nativeBody (body : String) : BuilderM Unit := do
  let d ← currentMethod
  if !d.code.isEmpty then refuse .hasInstructions
  setMethod { d with native := some body }

/-- Ends the method in progress and declares it. -/
def endMethod : BuilderM Unit := do
  let d ← currentMethod
  modify fun b => { b with method := none }
  let c ← currentClass
  setClass { c with decl := c.decl.addMethod d.finish }

/-- Ends the class in progress and registers it; the answer is its index. -/
def endClass : BuilderM Nat := do
  if (← get).method.isSome then refuse .methodUnfinished
  let d ← currentClass
  let b ← get
  let (index, machine) := b.machine.install d.decl d.base
  set { b with machine, draft := none }
  return index

end Builder

end ObjectMachine
