import ObjectMachine.Heap
import ObjectMachine.Registry
import ObjectMachine.Stack

/-!
# What running code refers to

Instructions name classes, methods, strings and constants by number, and native bodies by name. A
program is the tables behind those numbers and the host behind those names, together with the limits
that a run has to respect.
-/

namespace ObjectMachine

/-- How much a run may use. -/
structure Limits where
  /-- How many calls may be in progress at once. -/
  callDepth : Nat := 256
  /-- How many operands each call may have. -/
  stackSize : Nat := Stack.defaultLimit
  /-- How long an array may be. -/
  arrayLength : Nat := 16777216
  /-- How many instructions a run may execute. -/
  stepBudget : Option Nat := none
deriving DecidableEq, Repr

/-- A native body: given the receiver and the arguments it works on the heap and returns a value. -/
abbrev Native := Option ObjectRef → Array Value → HeapM Value

/-- The native bodies that the surroundings of the machine provide, by name. -/
structure Host where
  native : String → Native

/-- Everything that running code refers to. -/
structure Program where
  registry : Registry := {}
  strings : Array String := #[]
  constants : Array Value := #[]
  limits : Limits := {}
  host : Host

namespace Program

/-- The string with an index, which has to exist. -/
def stringAt (p : Program) (index : Nat) : Except Fault String :=
  match p.strings[index]? with
  | some s => .ok s
  | none => .error (.outOfRange .strings index p.strings.size)

def constantAt (p : Program) (index : Nat) : Except Fault Value :=
  match p.constants[index]? with
  | some v => .ok v
  | none => .error (.outOfRange .constants index p.constants.size)

end Program

end ObjectMachine
