import ObjectMachine.Class.Method
import ObjectMachine.Stack

/-!
# Activations of methods

A frame is one call of a method in progress: the receiver and the arguments, the local variables,
the operand stack and the position of the instruction that is executed. If there is a receiver it
is argument 0, and the arguments of the call follow it.
-/

namespace ObjectMachine

/-- A call in progress. -/
structure Frame where
  method : Method
  receiver : Option ObjectRef
  arguments : Array Value
  locals : Array Value
  stack : Stack
  pc : Nat
deriving DecidableEq, Repr

namespace Frame

/-- The frame in which a method begins: local variables are null and the stack is empty. -/
def enter (m : Method) (receiver : Option ObjectRef) (arguments : Array Value)
    (stackLimit : Nat) : Frame where
  method := m
  receiver := receiver
  arguments := arguments
  locals := Array.replicate m.locals.length .null
  stack := .empty stackLimit
  pc := 0

/-- How many argument slots there are, that of the receiver included. -/
def argumentCount (f : Frame) : Nat := f.arguments.size + if f.receiver.isSome then 1 else 0

/-- The fault of an argument slot that does not exist. -/
def noArgument (f : Frame) (i : Nat) : Fault := .outOfRange .arguments i f.argumentCount

/-- The value in an argument slot. -/
def argument (f : Frame) (i : Nat) : Except Fault Value :=
  let found :=
    match f.receiver, i with
    | some r, 0 => some (.object r)
    | some _, i + 1 => f.arguments[i]?
    | none, i => f.arguments[i]?
  match found with
  | some v => .ok v
  | none => .error (f.noArgument i)

/-- Changes an argument slot. The slot of the receiver only takes objects. -/
def setArgument (f : Frame) (i : Nat) (v : Value) : Except Fault Frame :=
  let store (j : Nat) : Except Fault Frame :=
    if j < f.arguments.size then .ok { f with arguments := f.arguments.setIfInBounds j v }
    else .error (f.noArgument i)
  match f.receiver, i with
  | some _, 0 =>
    match v.toObject? with
    | some r => .ok { f with receiver := some r }
    | none => .error (.typeMismatch (.receiverStore v.kind))
  | some _, j + 1 => store j
  | none, j => store j

def localValue (f : Frame) (i : Nat) : Except Fault Value :=
  match f.locals[i]? with
  | some v => .ok v
  | none => .error (.outOfRange .locals i f.locals.size)

def setLocal (f : Frame) (i : Nat) (v : Value) : Except Fault Frame :=
  if i < f.locals.size then .ok { f with locals := f.locals.setIfInBounds i v }
  else .error (.outOfRange .locals i f.locals.size)

/-- The values of all argument slots, that of the receiver first. -/
def argumentSlots (f : Frame) : List Value :=
  (f.receiver.map Value.object).toList ++ f.arguments.toList

theorem argumentCount_eq (f : Frame) : f.argumentCount = f.argumentSlots.length := by
  cases h : f.receiver <;> simp [argumentCount, argumentSlots, h]

/-- The argument slots are numbered in order, that of the receiver first. -/
theorem argument_eq_ok_iff {f : Frame} {i : Nat} {v : Value} :
    f.argument i = .ok v ↔ f.argumentSlots[i]? = some v := by
  cases h : f.receiver with
  | none =>
    simp only [argument, argumentSlots, h, Option.map_none, Option.toList_none, List.nil_append,
      Array.getElem?_toList]
    split <;> simp_all
  | some r =>
    cases i with
    | zero => simp [argument, argumentSlots, h]
    | succ j =>
      simp only [argument, argumentSlots, h, Option.map_some, Option.toList_some,
        List.cons_append, List.nil_append, List.getElem?_cons_succ, Array.getElem?_toList]
      split <;> simp_all

/-- The frame that continues at an instruction. -/
def jump (f : Frame) (target : Nat) : Frame := { f with pc := target }

/-- The frame that continues after the current instruction. -/
def advance (f : Frame) : Frame := f.jump (f.pc + 1)

end Frame

end ObjectMachine
