import ObjectMachine.Action
import ObjectMachine.Frame
import ObjectMachine.Value.Arithmetic

/-!
# One instruction

`step` executes the current instruction of a frame and says how the run continues. It never enters
an interpreted method; that is left to whoever keeps the frames. When an instruction fails, the
operands that it had already taken stay taken.
-/

namespace ObjectMachine

/-- What an instruction works on. -/
structure Activation where
  frame : Frame
  heap : Heap
deriving DecidableEq, Repr

/-- An operation on an activation that may fail. -/
abbrev Exec := EStateM Fault Activation

/-- A call that is to be made. -/
structure Call where
  method : Method
  receiver : Option ObjectRef
  arguments : Array Value
deriving DecidableEq, Repr

/-- How a run continues after an instruction. -/
inductive Flow where
  | next
  | jump (target : Nat)
  | ret (v : Value)
  | call (c : Call)
deriving DecidableEq, Repr

/-- The name under which a value that cannot be cast is reported: that of its class, or that of its
kind. -/
def Heap.describe (h : Heap) (v : Value) : String :=
  match h.classOf? v with
  | some c => c.name
  | none => v.kind.name

/-- Whether a value is an instance of a class or of one of its subclasses. -/
def Heap.isInstance (h : Heap) (v : Value) (c : Class) : Bool :=
  (h.classOf? v).any (·.isSubclassOf c)

/-- The length of a new array, which has to respect the limit. -/
def Limits.checkLength (l : Limits) (n : Int) : Except Fault Nat :=
  if 0 ≤ n ∧ n ≤ l.arrayLength then .ok n.toNat
  else .error (.indexOutOfRange .arrayLength n l.arrayLength)

namespace Exec

/-- Works on the operand stack. -/
def onStack {α : Type} (f : StackM α) : Exec α
  | ⟨⟨m, r, as, ls, stack, pc⟩, heap⟩ =>
    match f stack with
    | .ok a stack => .ok a ⟨⟨m, r, as, ls, stack, pc⟩, heap⟩
    | .error e stack => .error e ⟨⟨m, r, as, ls, stack, pc⟩, heap⟩

def onHeap {α : Type} (f : HeapM α) : Exec α
  | ⟨frame, heap⟩ =>
    match f heap with
    | .ok a heap => .ok a ⟨frame, heap⟩
    | .error e heap => .error e ⟨frame, heap⟩

/-- Works on the variables of the frame. -/
def onFrame (f : Frame → Except Fault Frame) : Exec Unit := fun s =>
  match f s.frame with
  | .ok frame => .ok () { s with frame }
  | .error e => .error e s

/-- Something computed from the activation, or its fault. -/
def read {α : Type} (f : Activation → Except Fault α) : Exec α := fun s =>
  match f s with
  | .ok a => .ok a s
  | .error e => .error e s

/-- Something computed without the activation, or its fault. -/
def lift {α : Type} (x : Except Fault α) : Exec α := read fun _ => x

def push (v : Value) : Exec Unit := onStack (Stack.push v)

def pop : Exec Value := onStack Stack.pop

/-- Takes an operand that has to be an object. -/
def popObject (op : Opcode) : Exec (ObjectRef × Instance) := do
  let v ← pop
  read fun s =>
    match v.toObject?.bind fun r => (s.heap.object? r).map (r, ·) with
    | some found => .ok found
    | none => .error (.typeMismatch (.receiver op v.kind))

def popArray (op : Opcode) : Exec ArrayRef := do
  let v ← pop
  match v.toArray? with
  | some r => pure r
  | none => throw (.typeMismatch (.array op v.kind))

def popIndex (op : Opcode) : Exec Int := do
  let v ← pop
  match v.toIndex? with
  | some n => pure n
  | none => throw (.typeMismatch (.index op v.kind))

/-- Makes a call: a native body runs at once and its result becomes an operand, an interpreted
method is left to the run. -/
def dispatch (p : Program) (c : Call) : Exec Flow :=
  match c.method.body with
  | .native name => do
    let v ← onHeap (p.host.native name c.receiver c.arguments)
    push v
    pure .next
  | .interpreted _ => pure (.call c)

/-- Performs an action on the current frame. -/
def perform (p : Program) : Action → Exec Flow
  | .skip => pure .next
  | .duplicate => do
    let v ← onStack Stack.peek
    push v
    pure .next
  | .discard => do
    let _ ← pop
    pure .next
  | .push v => do
    push v
    pure .next
  | .loadArgument i => do
    push (← read (·.frame.argument i))
    pure .next
  | .storeArgument i => do
    let v ← pop
    onFrame (·.setArgument i v)
    pure .next
  | .loadLocal i => do
    push (← read (·.frame.localValue i))
    pure .next
  | .storeLocal i => do
    let v ← pop
    onFrame (·.setLocal i v)
    pure .next
  | .arith op => do
    let b ← pop
    let a ← pop
    push (← lift (a.arith op b))
    pure .next
  | .negate => do
    let a ← pop
    push (← lift a.neg)
    pure .next
  | .compare op => do
    let b ← pop
    let a ← pop
    push (.bool (← lift (a.compare op b)))
    pure .next
  | .ret => do
    match (← get).frame.stack.top? with
    | none => pure (.ret .null)
    | some _ => return .ret (← pop)
  | .branch none target => pure (.jump target)
  | .branch (some condition) target => do
    let v ← pop
    pure (if v.isTruthy = condition then .jump target else .next)
  | .create c => do
    let r ← onHeap (Heap.newObject c)
    push (.object r)
    pure .next
  | .loadField name => do
    let (_, o) ← popObject .ldFld
    push (← lift (o.get name))
    pure .next
  | .storeField name => do
    let v ← pop
    let (r, _) ← popObject .stFld
    onHeap (Heap.setField r name v)
    pure .next
  | .call m => do
    let arguments ← onStack (Stack.popMany m.arity)
    dispatch p ⟨m, none, arguments⟩
  | .callVirtual m => do
    let arguments ← onStack (Stack.popMany m.arity)
    let (r, o) ← popObject .callVirt
    match p.registry.resolve? o.cls m.name with
    | some target => dispatch p ⟨target, some r, arguments⟩
    | none => throw (.methodNotFound o.cls.name m.name)
  | .cast c => do
    let v ← pop
    let h := (← get).heap
    if v = .null ∨ h.isInstance v c then push v
    else throw (.typeMismatch (.cast (h.describe v) c.name))
    pure .next
  | .testClass c => do
    let v ← pop
    push (if (← get).heap.isInstance v c then v else .null)
    pure .next
  | .createArray => do
    let n ← popIndex .newArr
    let n ← lift (p.limits.checkLength n)
    let r ← onHeap (Heap.newArray n)
    push (.array r)
    pure .next
  | .loadElement => do
    let i ← popIndex .ldElem
    let r ← popArray .ldElem
    push (← read (·.heap.getElement r i))
    pure .next
  | .storeElement => do
    let v ← pop
    let i ← popIndex .stElem
    let r ← popArray .stElem
    onHeap (Heap.setElement r i v)
    pure .next
  | .arrayLength => do
    let r ← popArray .ldLen
    push (.ofInt ((← get).heap.length r))
    pure .next

end Exec

/-- Executes the current instruction of the frame. Running off the end of the code returns null. -/
def step (p : Program) : Exec Flow := fun s =>
  match s.frame.method.body with
  | .native _ => .error (.typeMismatch (.noInstructions s.frame.method.name)) s
  | .interpreted code =>
    match code[s.frame.pc]? with
    | none => .ok (.ret .null) s
    | some i =>
      match i.action p code.size with
      | .error e => .error e s
      | .ok a => Exec.perform p a s

end ObjectMachine
