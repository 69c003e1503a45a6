import ObjectMachine.Callers
import ObjectMachine.Step

/-!
# Runs

A run is a chain of calls in progress, one of them active. `tick` executes one instruction of the
active frame and applies its outcome: going on, returning into the caller, or entering a method.
Calls never nest inside the machine that executes them, so the depth of calls is bounded by the
limits of the program alone.

A program need not come to an end, so `run` is told how many instructions to execute at most.
-/

namespace ObjectMachine

/-- A run in progress. -/
structure Config where
  /-- The frame whose instructions are executed. -/
  active : Frame
  /-- The frames that wait for a result. Each one waits at its call. -/
  callers : Callers
  heap : Heap
  /-- How many instructions have been executed. -/
  steps : Nat
deriving DecidableEq, Repr

/-- What a run ends with. -/
structure Outcome where
  result : Except Fault Value
  heap : Heap
  steps : Nat

/-- A run after some instructions. -/
inductive Status where
  | running (c : Config)
  | finished (o : Outcome)

namespace Config

/-- The run that begins with a call. -/
def start (p : Program) (c : Call) (heap : Heap) : Config where
  active := .enter c.method c.receiver c.arguments p.limits.stackSize
  callers := .empty
  heap := heap
  steps := 0

/-- How many calls are in progress. -/
def depth (c : Config) : Nat := c.callers.count + 1

end Config

/-- The run after the active frame has returned a value: the caller finds it on its stack and goes
on after its call. -/
def returnTo (callers : Callers) (v : Value) (heap : Heap) (steps : Nat) : Status :=
  match callers.pop? with
  | none => .finished ⟨.ok v, heap, steps⟩
  | some (⟨m, r, as, ls, stack, pc⟩, rest) =>
    match Stack.push v stack with
    | .ok _ stack => .running ⟨⟨m, r, as, ls, stack, pc + 1⟩, rest, heap, steps⟩
    | .error e _ => .finished ⟨.error e, heap, steps⟩

/-- The run after the active frame has made a call: the callee becomes active if the limit on the
depth of calls allows it. -/
def enterCall (p : Program) (c : Call) (caller : Frame) (callers : Callers) (heap : Heap)
    (steps : Nat) : Status :=
  if p.limits.callDepth ≤ callers.count + 1 then
    .finished ⟨.error (.recursionLimitExceeded p.limits.callDepth), heap, steps⟩
  else
    .running ⟨.enter c.method c.receiver c.arguments p.limits.stackSize, callers.push caller, heap,
      steps⟩

/-- The budget that a run has used up, if there is one. -/
def exhausted? (p : Program) (steps : Nat) : Option Nat :=
  p.limits.stepBudget.filter (· ≤ steps)

/-- The run after an instruction of the active frame: what the outcome of the instruction means for
the chain of calls. -/
def proceed (p : Program) (callers : Callers) (steps : Nat) :
    EStateM.Result Fault Activation Flow → Status
  | .error e s => .finished ⟨.error e, s.heap, steps⟩
  | .ok .next ⟨frame, heap⟩ => .running ⟨frame.advance, callers, heap, steps⟩
  | .ok (.jump target) ⟨frame, heap⟩ => .running ⟨frame.jump target, callers, heap, steps⟩
  | .ok (.ret v) s => returnTo callers v s.heap steps
  | .ok (.call c) ⟨frame, heap⟩ => enterCall p c frame callers heap steps

/-- Executes one instruction of the active frame, unless the budget is used up. -/
def tick (p : Program) : Config → Status
  | ⟨active, callers, heap, steps⟩ =>
    match exhausted? p steps with
    | some budget => .finished ⟨.error (.stepBudgetExceeded budget), heap, steps⟩
    | none => proceed p callers (steps + 1) (step p ⟨active, heap⟩)

/-- Executes up to a given number of instructions. -/
def run (p : Program) : Nat → Config → Status
  | 0, c => .running c
  | n + 1, c =>
    match tick p c with
    | .running c => run p n c
    | .finished o => .finished o

/-- Makes a call and executes it to its end, if that takes no more than the given number of
instructions. A native body counts for none. -/
def execute (p : Program) (patience : Nat) (c : Call) (heap : Heap) : Option Outcome :=
  match c.method.body with
  | .native name =>
    match p.host.native name c.receiver c.arguments heap with
    | .ok v heap => some ⟨.ok v, heap, 0⟩
    | .error e heap => some ⟨.error e, heap, 0⟩
  | .interpreted _ =>
    match run p patience (.start p c heap) with
    | .finished o => some o
    | .running _ => none

end ObjectMachine
