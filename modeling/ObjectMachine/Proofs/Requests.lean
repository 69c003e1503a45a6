import ObjectMachine.Machine.Invoke
import ObjectMachine.Proofs.Building
import ObjectMachine.Proofs.Linking
import ObjectMachine.Proofs.Reachable

/-!
# Requests to a machine

A machine is used through requests: classes are defined and registered, strings and constants are
added, a builder is called, objects are created and accessed, methods are invoked. `World` is all
that a session works with and `World.serve` answers a request, whether it succeeds or not.

A request appends to the tables what it registers and changes nothing else about them
(`World.program_of_serve`). One that works on the heap leaves everything else alone
(`World.settle_of_serve`).
-/

namespace ObjectMachine

/-! ## Requests -/

/-- What a method is called on, and how it is found. -/
inductive Target where
  | static (className method : String) (arguments : Array Value)
  | onObject (r : ObjectRef) (method : String) (arguments : Array Value)
  | atIndex (classIndex methodIndex : Nat) (arguments : Array Value)
  | entry
  | pending (call : Pending)
  | direct (call : Call)
deriving DecidableEq, Repr

/-- The call of a target, if it is found. -/
def Target.find (m : Machine) : Target → Except Fault Call
  | static className method arguments => m.staticCall className method arguments
  | onObject r method arguments => Machine.objectCall m.heap r method arguments
  | atIndex classIndex methodIndex arguments => do
    return ⟨← m.registry.methodAt classIndex methodIndex, none, arguments⟩
  | entry => m.entryCall
  | pending call => .ok ⟨call.method, some call.receiver, call.arguments⟩
  | direct call => .ok call

/-- An access to the heap. -/
inductive HeapCall where
  | newObject (c : Class)
  | newArray (length : Nat)
  | getField (r : ObjectRef) (field : String)
  | setField (r : ObjectRef) (field : String) (v : Value)
  | getElement (r : ArrayRef) (index : Int)
  | setElement (r : ArrayRef) (index : Int) (v : Value)
deriving DecidableEq, Repr

def HeapCall.make : HeapCall → HeapM Value
  | newObject c => .object <$> Heap.newObject c
  | newArray length => .array <$> Heap.newArray length
  | getField r field => fun h =>
    match h.getField r field with
    | .ok v => .ok v h
    | .error e => .error e h
  | setField r field v => do
    Heap.setField r field v
    return .null
  | getElement r index => fun h =>
    match h.getElement r index with
    | .ok v => .ok v h
    | .error e => .error e h
  | setElement r index v => do
    Heap.setElement r index v
    return .null

/-- What a session can ask for. -/
inductive Request where
  /-- Defines a class with the given members, declared one after the other. -/
  | define (decl : ClassDecl) (fields : List Field) (methods : List Method) (base : Option Class)
  | register (c : Class)
  | addString (s : String)
  | addConstant (v : Value)
  /-- Begins anew with a builder that has nothing in progress. -/
  | newBuilder
  | build (call : BuilderCall)
  | newObject (className : String)
  | heap (call : HeapCall)
  /-- Calls a method and executes it, with up to a number of instructions. -/
  | invoke (patience : Nat) (target : Target)
  /-- Begins a call of a method of an object. -/
  | begin (r : ObjectRef) (method : String) (arguments : Array Value)
deriving DecidableEq, Repr

/-- The answer to a request that succeeds. -/
inductive Reply where
  | nothing
  | index (i : Nat)
  | value (v : Value)
  | pending (call : Pending)
deriving DecidableEq, Repr

/-- What a session works with. -/
structure World where
  /-- The machine, with a builder and its work in progress. -/
  builder : Builder
  /-- All classes that exist, registered or not, the newest first. -/
  classes : List Class := []
  /-- The frames that the machine keeps. -/
  frames : List Frame := []

/-- Something that is registered and gets an index. -/
inductive Entry where
  | cls (c : Class)
  | string (s : String)
  | constant (v : Value)
deriving DecidableEq, Repr

/-- What an index denotes. With a class go the slots of its methods. -/
def Program.Denotes (p : Program) (i : Nat) : Entry → Prop
  | .cls c => p.registry.class? i = some c ∧ p.registry.table? i = some c.allMethods.toArray
  | .string s => p.strings[i]? = some s
  | .constant v => p.constants[i]? = some v

/-- The class in progress, as it would be registered now. -/
def Builder.inProgress? (b : Builder) : Option Class :=
  b.draft.map fun d => .derive ⟨b.machine.nextStamp⟩ d.decl d.base

namespace World

def machine (w : World) : Machine := w.builder.machine

def registry (w : World) : Registry := w.machine.registry

def withMachine (w : World) (machine : Machine) : World :=
  { w with builder := { w.builder with machine } }

/-- What a request registers, if it succeeds. -/
def added? (w : World) : Request → Option Entry
  | .register c => some (.cls c)
  | .addString s => some (.string s)
  | .addConstant v => some (.constant v)
  | .build .endClass => if w.builder.method.isSome then none else w.builder.inProgress?.map .cls
  | _ => none

/-- The class that a request registers. -/
def registers (w : World) (r : Request) : List Class :=
  match w.added? r with
  | some (.cls c) => [c]
  | _ => []

/-- The world after an execution that has left these frames. -/
def settle (w : World) (heap : Heap) (steps : Nat) (frames : List Frame) : World :=
  { w.withMachine { w.machine with heap, steps } with frames }

/-- Executes a call. A native body runs at once. An interpreted method runs on frames of its own,
which are discarded at the end, whatever the end is. -/
def execute (w : World) (patience : Nat) (c : Call) : Option (Except Fault Value × World) :=
  let p := w.machine.program
  match c.method.body with
  | .native name =>
    match p.host.native name c.receiver c.arguments w.machine.heap with
    | .ok v heap => some (.ok v, w.settle heap 0 w.frames)
    | .error e heap => some (.error e, w.settle heap 0 w.frames)
  | .interpreted _ =>
    let first := Frame.enter c.method c.receiver c.arguments p.limits.stackSize
    match Loop.turns p patience ⟨[first], w.machine.heap, 0⟩ with
    | .ended o => some (o.result, w.settle o.heap o.steps [])
    | _ => none

/-- Answers a request: the answer and the world afterwards, unless an execution does not come to an
end with the given patience. -/
def serve (w : World) : Request → Option (Except Fault Reply × World)
  | .define decl fields methods base =>
    let (c, m) := w.machine.define
      { decl with fields := .ofList fields, methods := .ofList methods } base
    some (.ok .nothing, { w.withMachine m with classes := c :: w.classes })
  | .register c =>
    let (i, m) := w.machine.register c
    some (.ok (.index i), w.withMachine m)
  | .addString s =>
    let (i, m) := w.machine.addString s
    some (.ok (.index i), w.withMachine m)
  | .addConstant v =>
    let (i, m) := w.machine.addConstant v
    some (.ok (.index i), w.withMachine m)
  | .newBuilder => some (.ok .nothing, { w with builder := .start w.machine })
  | .build call =>
    match call.make w.builder with
    | .ok answer builder =>
      some (.ok (answer.elim .nothing .index),
        { w with builder, classes := w.registers (.build call) ++ w.classes })
    | .error e builder => some (.error e, { w with builder })
  | .newObject className =>
    let (answer, m) := w.machine.newObject className
    some ((fun r => .value (.object r)) <$> answer, w.withMachine m)
  | .heap call =>
    let (answer, m) := w.machine.onHeap call.make
    some (.value <$> answer, w.withMachine m)
  | .invoke patience target =>
    match target.find w.machine with
    | .ok c => (w.execute patience c).map fun (answer, w) => (.value <$> answer, w)
    | .error e => some (.error e, w)
  | .begin r method arguments =>
    let (answer, m) := w.machine.begin r method arguments
    some (
      (fun
        | .value v => .value v
        | .pending call => .pending call) <$> answer,
      w.withMachine m)

/-- A request that mentions only classes that exist. -/
def Allows (w : World) : Request → Prop
  | .define _ _ _ base => ∀ b ∈ base, b ∈ w.classes
  | .register c => c ∈ w.classes
  | .heap (.newObject c) => c ∈ w.classes
  | _ => True

/-- The world in which a session on a machine begins: the classes are those of the machine. -/
def opening (m : Machine) : World where
  builder := .start m
  classes := m.registry.classes.toList.reverse

/-- A world in which a session can begin: that of a new machine, or that of an image, encoded or
not. -/
inductive Opened : World → Prop
  | new (limits : Limits) (host : Host) : Opened (opening (.empty limits host))
  | loaded {data : List UInt8} {limits : Limits} {host : Host} {m : Machine}
    (h : Machine.load data limits host = .ok m) : Opened (opening m)
  | linked {image : Image} {limits : Limits} {host : Host} {m : Machine}
    (h : Machine.ofImage image limits host = .ok m) : Opened (opening m)

end World

/-! ## What a request does to the world -/

/-- The program with one more entry in its tables. -/
def Program.adding (p : Program) : Option Entry → Program
  | some (.cls c) => { p with registry := p.registry.register c }
  | some (.string s) => { p with strings := p.strings.push s }
  | some (.constant v) => { p with constants := p.constants.push v }
  | none => p

/-- A request that only works on the heap: objects and arrays are accessed, methods are called. -/
def Request.isAccess : Request → Bool
  | newObject _ | heap _ | invoke _ _ | begin _ _ _ => true
  | _ => false

theorem Machine.heap_onHeap {α : Type} (m : Machine) (f : HeapM α) :
    (m.onHeap f).2.heap = f.leaves m.heap := by
  unfold onHeap EStateM.leaves
  cases f m.heap <;> rfl

/-- Only the heap and the counter of instructions are different. -/
def Machine.Touched (m m' : Machine) : Prop := ∃ heap steps, m' = { m with heap, steps }

namespace Machine.Touched

theorem refl (m : Machine) : m.Touched m := ⟨m.heap, m.steps, rfl⟩

theorem onHeap {α : Type} (m : Machine) (f : HeapM α) : m.Touched (m.onHeap f).2 := by
  unfold Machine.onHeap
  split <;> exact ⟨_, _, rfl⟩

theorem newObject (m : Machine) (className : String) : m.Touched (m.newObject className).2 := by
  unfold Machine.newObject
  split
  · exact onHeap m _
  · exact refl m

theorem begin (m : Machine) (r : ObjectRef) (method : String) (arguments : Array Value) :
    m.Touched (m.begin r method arguments).2 := by
  unfold Machine.begin
  split
  · exact refl m
  · split
    · exact onHeap m _
    · exact refl m

end Machine.Touched

namespace World

variable {w w' : World} {r : Request} {answer : Except Fault Reply}

/-- The loop over a list of frames executes the call as the machine does. -/
theorem execute_eq (w : World) (patience : Nat) (c : Call) :
    w.execute patience c =
      (w.machine.execute patience c).map fun (answer, m) =>
        (answer, { w.withMachine m with
          frames := if c.method.body.isNative then w.frames else [] }) := by
  unfold execute Machine.execute ObjectMachine.execute
  cases hb : c.method.body with
  | native name =>
    dsimp only
    cases w.machine.program.host.native name c.receiver c.arguments w.machine.heap <;> rfl
  | interpreted code =>
    have hloop := Loop.turns_toLoop w.machine.program patience
      (.start w.machine.program c w.machine.heap)
    change Loop.turns w.machine.program patience ⟨[.enter _ _ _ _], w.machine.heap, 0⟩ = _ at hloop
    dsimp only
    rw [hloop]
    cases run w.machine.program patience (.start w.machine.program c w.machine.heap) <;> rfl

/-- A request that works on the heap leaves everything else alone. -/
theorem settle_of_serve (hr : r.isAccess) (hframes : w.frames = [])
    (hs : w.serve r = some (answer, w')) : ∃ heap steps, w' = w.settle heap steps [] := by
  have htouched : ∀ m, w.machine.Touched m →
      ∃ heap steps, w.withMachine m = w.settle heap steps [] := by
    rintro m ⟨heap, steps, rfl⟩
    exact ⟨heap, steps, by rw [settle, ← hframes]; rfl⟩
  cases r with
  | newObject className =>
    cases hs
    exact htouched _ (.newObject _ _)
  | heap call =>
    cases hs
    exact htouched _ (.onHeap _ _)
  | begin receiver method arguments =>
    cases hs
    exact htouched _ (.begin _ _ _ _)
  | invoke patience target =>
    unfold serve at hs
    dsimp only at hs
    split at hs
    · rename_i c hc
      rw [execute_eq, hframes, ite_self] at hs
      obtain ⟨⟨answer', w₁⟩, h, hw⟩ := Option.map_eq_some_iff.mp hs
      obtain ⟨⟨result, m⟩, hm, h⟩ := Option.map_eq_some_iff.mp h
      obtain ⟨o, -, ho⟩ := Option.map_eq_some_iff.mp hm
      cases hw
      cases h
      cases ho
      exact ⟨o.heap, o.steps, rfl⟩
    · cases hs
      exact ⟨w.machine.heap, w.machine.steps, by rw [settle, ← hframes]; rfl⟩
  | _ => cases hr

/-- What a builder call registers is what the machine has more of. -/
theorem program_of_make (hb : w.builder.Sound) (call : BuilderCall) :
    match call.make w.builder with
    | .ok _ b => b.machine.program = w.machine.program.adding (w.added? (.build call))
    | .error _ b => b = w.builder ∧ w.added? (.build call) = none := by
  by_cases hcall : call = .endClass
  · subst hcall
    obtain ⟨⟨m, draft, method⟩, classes, frames⟩ := w
    cases method with
    | some d => exact ⟨rfl, rfl⟩
    | none =>
      cases draft with
      | none => exact ⟨rfl, rfl⟩
      | some c => rfl
  · have hentry : w.added? (.build call) = none := by
      cases call with
      | endClass => exact absurd rfl hcall
      | _ => rfl
    rw [hentry]
    cases h : call.make w.builder with
    | ok answer b => exact congrArg Machine.program (Builder.machine_of_make hb h hcall)
    | error e b => exact ⟨Builder.eq_of_make_error hb h, rfl⟩

/-- A request appends to the tables what it registers and changes nothing else about them. -/
theorem program_of_serve (hb : w.builder.Sound) (hframes : w.frames = [])
    (hs : w.serve r = some (answer, w')) :
    w'.machine.program = w.machine.program.adding (w.added? r) := by
  cases hr : r.isAccess with
  | true =>
    obtain ⟨heap, steps, rfl⟩ := settle_of_serve hr hframes hs
    have hentry : w.added? r = none := by cases r <;> first | rfl | cases hr
    rw [hentry]
    rfl
  | false =>
    cases r with
    | define | register | addString | addConstant | newBuilder =>
      cases hs
      rfl
    | build call =>
      have hmake := program_of_make hb call
      unfold serve at hs
      dsimp only at hs
      split at hs
      · rename_i heq
        rw [heq] at hmake
        cases hs
        exact hmake
      · rename_i heq
        rw [heq] at hmake
        obtain ⟨rfl, hentry⟩ := hmake
        cases hs
        rw [hentry]
        rfl
    | _ => cases hr

/-- A request appends to the classes the one that it registers. -/
theorem classes_of_serve (hb : w.builder.Sound) (hframes : w.frames = [])
    (hs : w.serve r = some (answer, w')) :
    w'.registry.classes.toList = w.registry.classes.toList ++ w.registers r := by
  change w'.machine.program.registry.classes.toList = _
  rw [program_of_serve hb hframes hs, registers]
  cases w.added? r with
  | none => exact (List.append_nil _).symm
  | some e =>
    cases e with
    | cls c => exact Array.toList_push
    | string | constant => exact (List.append_nil _).symm

theorem host_of_serve (hb : w.builder.Sound) (hframes : w.frames = [])
    (hs : w.serve r = some (answer, w')) :
    w'.machine.program.host = w.machine.program.host := by
  have hadding : ∀ e, (w.machine.program.adding e).host = w.machine.program.host := by
    rintro (_ | _ | _ | _) <;> rfl
  rw [program_of_serve hb hframes hs, hadding]

/-- A class that exists goes on to exist. -/
theorem mem_classes_of_serve (hframes : w.frames = []) (hs : w.serve r = some (answer, w'))
    {c : Class} (hc : c ∈ w.classes) : c ∈ w'.classes := by
  cases haccess : r.isAccess with
  | true =>
    obtain ⟨heap, steps, rfl⟩ := settle_of_serve haccess hframes hs
    exact hc
  | false =>
    cases r with
    | define decl fields methods base =>
      cases hs
      exact List.mem_cons_of_mem _ hc
    | register | addString | addConstant | newBuilder =>
      cases hs
      exact hc
    | build call =>
      unfold serve at hs
      dsimp only at hs
      split at hs
      · cases hs
        exact List.mem_append_right _ hc
      · cases hs
        exact hc
    | _ => cases haccess

end World

end ObjectMachine
