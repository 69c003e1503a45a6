import ObjectMachine.Machine.Invoke
import ObjectMachine.Proofs.Instructions
import ObjectMachine.Proofs.Layout
import ObjectMachine.Proofs.Runs

/-!
# Which method a call selects

There are two ways to find the method of an object by name. A virtual call searches the table of
methods that was laid down when the class was registered, from its end; everything else walks the
chain of classes from the object's own class to the root. Here both are traced to the same place:
the last method of that name in the enumeration of all methods of the class
(`Link.methodSlot?_eq`, `Registry.resolveSlot?_eq`). A method is told apart from others with equal
contents by that place.

So a virtual call, a call by the machine and a call that is begun and then run all make the same
call (`dispatch_paths_agree`).
-/

namespace ObjectMachine

/-! ## Along the chain -/

namespace Link

variable {name : String} {chain : List Link}

/-- The place, among all methods of a chain, of the method that answers to a name: the methods of
the bases come before a link's own ones. -/
def methodSlot? (name : String) : List Link → Option Nat
  | [] => none
  | l :: rest =>
    match l.decl.methods.slot? name with
    | some i => some ((methodsOf rest).length + i)
    | none => methodSlot? name rest

theorem methodSlot?_eq_memberSlot? (name : String) (chain : List Link) :
    methodSlot? name chain = memberSlot? (·.methods) name chain := by
  induction chain with
  | nil => rfl
  | cons l rest ih => rw [methodSlot?, memberSlot?, ih]; rfl

/-- The walk stops at the last method of the name, in the order of the enumeration. -/
theorem methodSlot?_eq (h : ∀ l ∈ chain, l.decl.methods.Declared) :
    methodSlot? name chain = lastNamed? name (methodsOf chain) := by
  rw [methodSlot?_eq_memberSlot?, memberSlot?_eq h]
  rfl

/-- The method that the walk finds is the one at its place. -/
theorem method?_eq (h : ∀ l ∈ chain, l.decl.methods.Declared) :
    method? name chain = (methodSlot? name chain).bind ((methodsOf chain)[·]?) := by
  rw [methodSlot?_eq_memberSlot?]
  exact member?_eq h

end Link

/-- The place, in the enumeration of all methods of a class, of the method that answers to a
name. -/
def Class.methodSlot? (c : Class) (name : String) : Option Nat := Link.methodSlot? name c.links

/-! ## Through the method table -/

namespace Registry

/-- The place of the method that a virtual call selects on an object of a class: a place in the
method table of the class, or in the enumeration of its methods if it has no table. -/
def resolveSlot? (r : Registry) (c : Class) (name : String) : Option Nat :=
  match r.idOf? c with
  | some i => lastNamed? name ((r.table? i).getD #[]).toList
  | none => c.methodSlot? name

section
variable {r : Registry} {c : Class} (hr : r.Lawful)
  (hid : ∀ i d, r.class? i = some d → d.id = c.id → d = c)
include hr hid

/-- The table in which a virtual call searches is the enumeration of all methods of the very
class, whatever other classes were registered under its name. -/
theorem table?_of_idOf? {i : Nat} (h : r.idOf? c = some i) :
    r.table? i = some c.allMethods.toArray := by
  obtain ⟨d, hd, he⟩ := class?_of_idOf? h
  rw [hr.table?_eq, hd, hid i d hd he, Option.map_some]

theorem resolveSlot?_eq (hc : ∀ l ∈ c.links, l.decl.methods.Declared) (name : String) :
    r.resolveSlot? c name = c.methodSlot? name := by
  unfold resolveSlot?
  cases h : r.idOf? c with
  | none => rfl
  | some i =>
    dsimp only
    rw [table?_of_idOf? hr hid h, Class.methodSlot?, Link.methodSlot?_eq hc]
    rfl

/-- A virtual call selects the method at that place. -/
theorem resolve?_eq (hc : ∀ l ∈ c.links, l.decl.methods.Declared) (name : String) :
    r.resolve? c name = (c.methodSlot? name).bind (c.allMethods[·]?) := by
  unfold resolve?
  cases h : r.idOf? c with
  | none => exact Link.method?_eq hc
  | some i =>
    dsimp only
    rw [table?_of_idOf? hr hid h, Class.methodSlot?, Link.methodSlot?_eq hc]
    exact find?_reverse_eq name c.allMethods

end

end Registry

/-! ## The calls that are made -/

/-- The call of the method of a class that answers to a name, with an object as its receiver. -/
def Class.callOn (c : Class) (name : String) (r : ObjectRef) (arguments : Array Value) :
    Except Fault Call := do
  return ⟨← c.methodNamed name, some r, arguments⟩

/-- Begins a call of a method of an object, and executes it if it is then still pending. -/
def Machine.beginAndRun (m : Machine) (patience : Nat) (r : ObjectRef) (name : String)
    (arguments : Array Value) : Option Answer :=
  match m.begin r name arguments with
  | (.ok (.value v), m) => some (.ok v, m)
  | (.ok (.pending call), m) => m.runPending patience call
  | (.error e, m) => some (.error e, m)

section
variable {p : Program} {s : Activation} {o : Instance} {r : ObjectRef} {args : Array Value}

theorem Exec.pop_of_push {base : Array Value} {v : Value}
    (hstack : s.frame.stack.slots = base.push v) : pop s = .ok v (s.withOperands base) := by
  obtain ⟨⟨m, receiver, as, ls, ⟨slots, limit⟩, pc⟩, heap⟩ := s
  dsimp only at hstack
  subst hstack
  simp only [pop, onStack, Stack.pop_push]
  rfl

theorem Exec.push_of_lt (v : Value) (h : s.frame.stack.depth < s.frame.stack.limit) :
    push v s = .ok () (s.withOperands (s.frame.stack.slots.push v)) := by
  rw [push, onStack, Stack.push_of_lt v h]
  rfl

/-- A result is pushed last. -/
theorem Exec.pushNext_of_lt (h : s.frame.stack.depth < s.frame.stack.limit) (v : Value) :
    (do push v; pure Flow.next : Exec Flow) s =
      .ok .next (s.withOperands (s.frame.stack.slots.push v)) := by
  simp only [bind, EStateM.bind, push_of_lt v h]
  rfl

theorem Exec.popObject_of_push {base : Array Value} (op : Opcode)
    (hstack : s.frame.stack.slots = base.push (.object r)) (ho : s.heap.object? r = some o) :
    popObject op s = .ok (r, o) (s.withOperands base) := by
  have ho' : (s.withOperands base).heap.object? r = some o := ho
  simp only [popObject, bind, EStateM.bind, pop_of_push hstack, read, Value.toObject?,
    Option.bind_some, ho', Option.map_some]

theorem Exec.popMany_of_append {base : Array Value} {n : Nat} (hargs : n = args.size)
    (hstack : s.frame.stack.slots = base ++ args) :
    onStack (Stack.popMany n) s = .ok args (s.withOperands base) := by
  obtain ⟨⟨m, receiver, as, ls, ⟨slots, limit⟩, pc⟩, heap⟩ := s
  dsimp only at hstack
  subst hstack
  rw [onStack, hargs, Stack.popMany_append]
  rfl

/-- What a virtual call does when the arguments and the receiver are on the stack. -/
theorem perform_callVirtual {declared : Method} {base : Array Value}
    (ho : s.heap.object? r = some o) (hargs : declared.arity = args.size)
    (hstack : s.frame.stack.slots = base.push (.object r) ++ args) :
    Exec.perform p (.callVirtual declared) s =
      match p.registry.resolve? o.cls declared.name with
      | some target => Exec.dispatch p ⟨target, some r, args⟩ (s.withOperands base)
      | none => .error (.methodNotFound o.cls.name declared.name) (s.withOperands base) := by
  have hmany := Exec.popMany_of_append hargs hstack
  have hobject : Exec.popObject .callVirt (s.withOperands (base.push (.object r))) =
      .ok (r, o) (s.withOperands base) := Exec.popObject_of_push .callVirt rfl ho
  simp only [Exec.perform, bind, EStateM.bind, hmany, hobject]
  cases p.registry.resolve? o.cls declared.name <;> rfl

end

section
variable {h : Heap} {o : Instance} {r : ObjectRef} (name : String) (args : Array Value)

theorem objectCall_eq (ho : h.object? r = some o) :
    Machine.objectCall h r name args = o.cls.callOn name r args := by
  rw [Machine.objectCall, ho]
  rfl

theorem Class.callOn_of_some {c : Class} {target : Method} (h : c.method? name = some target) :
    c.callOn name r args = .ok ⟨target, some r, args⟩ := by
  rw [callOn, methodNamed, h]
  rfl

theorem Class.callOn_of_none {c : Class} (h : c.method? name = none) :
    c.callOn name r args = .error (.methodNotFound c.name name) := by
  rw [callOn, methodNamed, h]
  rfl

end

/-- The call of a method of an object has the object as its receiver. -/
theorem eq_of_objectCall {h : Heap} {r : ObjectRef} {name : String} {args : Array Value} {c : Call}
    (hc : Machine.objectCall h r name args = .ok c) : c = ⟨c.method, some r, args⟩ := by
  unfold Machine.objectCall at hc
  split at hc
  · obtain ⟨target, -, hc⟩ := ok_of_bind hc
    cases hc
    rfl
  · cases hc

section
variable (m : Machine) {r : ObjectRef} {name : String} {args : Array Value}

/-- A call of an interpreted method is still pending when it has been begun. -/
theorem Machine.begin_of_interpreted {c : Call} {code : Array Instruction}
    (hc : objectCall m.heap r name args = .ok c) (hb : c.method.body = .interpreted code) :
    m.begin r name args = (.ok (.pending ⟨c.method, r, args⟩), m) := by
  simp only [Machine.begin, hc, hb]

/-- A native body has run when its call has been begun. -/
theorem Machine.begin_of_native {c : Call} {body : String}
    (hc : objectCall m.heap r name args = .ok c) (hb : c.method.body = .native body) :
    m.begin r name args = m.onHeap (.value <$> m.program.host.native body (some r) args) := by
  simp only [Machine.begin, hc, hb]

/-- A call that is begun and then run has the result and leaves the heap of a call that is executed
at once. -/
theorem Machine.beginAndRun_eq (patience : Nat) :
    (m.beginAndRun patience r name args).map (fun a => (a.1, a.2.heap)) =
      (m.invokeOn patience r name args).map (fun a => (a.1, a.2.heap)) := by
  rw [invokeOn]
  cases hc : objectCall m.heap r name args with
  | error e => simp only [beginAndRun, Machine.begin, hc, executeFound]
  | ok c =>
    have hcall := eq_of_objectCall hc
    cases hb : c.method.body with
    | interpreted code =>
      rw [beginAndRun, m.begin_of_interpreted hc hb, executeFound, hcall]
      rfl
    | native body =>
      rw [beginAndRun, m.begin_of_native hc hb, executeFound, hcall, Machine.execute,
        ObjectMachine.execute, hb]
      dsimp only [onHeap, Functor.map, EStateM.map]
      cases m.program.host.native body (some r) args m.heap <;> rfl

end

/-! ## All of them agree -/

/-- **All ways of dispatching select the same method.** Take any class that exists beside a machine,
be it registered once, several times, under a name that a later class has taken over, or not at all.
The method table and the walk along the chain select the same method at the same place, and so a
virtual call, a call by the machine and a call that is begun make the same call or fail alike. -/
theorem dispatch_paths_agree {m : Machine} {cs : List Class} (hm : m.Grown cs) {c : Class}
    (hc : c ∈ cs) (hbuilt : ∀ l ∈ c.links, l.decl.methods.Declared) (name : String) :
    (m.registry.resolveSlot? c name = c.methodSlot? name ∧
      m.registry.resolve? c name = (c.methodSlot? name).bind (c.allMethods[·]?) ∧
      c.method? name = (c.methodSlot? name).bind (c.allMethods[·]?) ∧
      (m.registry.resolve? c name = none ↔ c.method? name = none)) ∧
    ∀ (r : ObjectRef) (o : Instance) (args : Array Value), o.cls = c →
      (∀ (s : Activation) (code : Array Instruction) (i : Instruction) (declared : Method)
        (base : Array Value), s.heap.object? r = some o →
        s.frame.method.body = .interpreted code → code[s.frame.pc]? = some i →
        i.opcode? = some .callVirt → i.methodOperand m.program = .ok declared →
        declared.name = name → declared.arity = args.size →
        s.frame.stack.slots = base.push (.object r) ++ args →
        step m.program s =
          match c.callOn name r args with
          | .ok call => Exec.dispatch m.program call (s.withOperands base)
          | .error e => .error e (s.withOperands base)) ∧
      (m.heap.object? r = some o → ∀ patience,
        m.invokeOn patience r name args = m.executeFound patience (c.callOn name r args) ∧
        (∀ call, c.callOn name r args = .ok call →
          match call.method.body with
          | .native body =>
            m.begin r name args =
              m.onHeap (.value <$> m.program.host.native body call.receiver call.arguments)
          | .interpreted _ =>
            ∃ pending, m.begin r name args = (.ok (.pending pending), m) ∧
              call = ⟨pending.method, some pending.receiver, pending.arguments⟩) ∧
        (m.beginAndRun patience r name args).map (fun a => (a.1, a.2.heap)) =
          (m.invokeOn patience r name args).map (fun a => (a.1, a.2.heap))) := by
  have hid : ∀ i d, m.registry.class? i = some d → d.id = c.id → d = c :=
    fun i d hd he => hm.eq_of_id d (hm.mem_of_class? hd) c hc he
  have hresolve := Registry.resolve?_eq hm.lawful hid hbuilt name
  have hwalk : c.method? name = (c.methodSlot? name).bind (c.allMethods[·]?) :=
    Link.method?_eq hbuilt
  refine ⟨⟨Registry.resolveSlot?_eq hm.lawful hid hbuilt name, hresolve, hwalk,
    by rw [hresolve, hwalk]⟩, ?_⟩
  rintro r o args rfl
  refine ⟨?_, ?_⟩
  · intro s code i declared base ho hb hi hop hdeclared hname harity hstack
    have ha : i.action m.program code.size = .ok (.callVirtual declared) := by
      rw [Instruction.action, hop]
      dsimp only [Instruction.actionOf]
      rw [hdeclared]
      rfl
    rw [step_of_action hb hi ha, perform_callVirtual ho harity hstack, hname]
    change (match m.registry.resolve? o.cls name with | some _ => _ | none => _) = _
    rw [hresolve, ← hwalk]
    cases hfound : o.cls.method? name with
    | none => rw [Class.callOn_of_none name args hfound]
    | some target => rw [Class.callOn_of_some name args hfound]
  · intro ho patience
    have hcall := objectCall_eq name args ho
    refine ⟨by rw [Machine.invokeOn, hcall], ?_, m.beginAndRun_eq patience⟩
    intro call hfound
    rw [← hcall] at hfound
    have heq := eq_of_objectCall hfound
    split
    · rename_i body hb
      rw [m.begin_of_native hfound hb, heq]
    · rename_i code hb
      exact ⟨_, m.begin_of_interpreted hfound hb, heq⟩

/-! ## A class whose name was taken over

A class overrides a method of its base and declares it twice; then another class is registered
under its name. -/

namespace TakenOver

def speak (n : Int32) : Method :=
  .interpreted "Speak" .void [] [] #[.loadInt32 n, .of .ret []] .everyone

def animal : Class × Machine :=
  (Machine.empty {} .basic).define (({ name := "Animal" } : ClassDecl).addMethod (speak 1)) none

def dog : Class × Machine :=
  animal.2.define ((({ name := "Dog" } : ClassDecl).addMethod (speak 2)).addMethod (speak 3))
    (some animal.1)

/-- A class of the same name that has nothing to do with the others. -/
def stranger : Class × Machine := (dog.2.register dog.1).2.define { name := "Dog" } none

/-- The machine on which both classes of one name are registered, with an object of the first. -/
def machine : Machine :=
  { (stranger.2.register stranger.1).2 with heap := { objects := #[.create dog.1] } }

def calling : Activation where
  frame :=
    { Frame.enter (.interpreted "Caller" .void [] [] #[.of .callVirt [0, 0]] .everyone) none #[] 4
      with stack := ⟨#[.object ⟨0⟩], 4⟩ }
  heap := machine.heap

end TakenOver

theorem dispatch_paths_agree_takenOver :
    let m := TakenOver.machine
    let dog := TakenOver.dog.1
    m.registry.named? "Dog" = some TakenOver.stranger.1 ∧
    m.registry.resolveSlot? dog "Speak" = some 2 ∧
    m.registry.resolve? dog "Speak" = some (TakenOver.speak 3) ∧
    step m.program TakenOver.calling =
      .ok (.call ⟨TakenOver.speak 3, some ⟨0⟩, #[]⟩) (TakenOver.calling.withOperands #[]) ∧
    (m.beginAndRun 2 ⟨0⟩ "Speak" #[]).map (fun a => (a.1, a.2.heap)) =
      (m.invokeOn 2 ⟨0⟩ "Speak" #[]).map (fun a => (a.1, a.2.heap)) := by
  intro m dog
  have hanimal : TakenOver.animal.2.Grown [TakenOver.animal.1] :=
    (Machine.Grown.empty {} .basic).define _ none (by simp)
  have hdog : TakenOver.dog.2.Grown [dog, TakenOver.animal.1] :=
    hanimal.define _ (some TakenOver.animal.1) (by simp)
  have hstranger : TakenOver.stranger.2.Grown [TakenOver.stranger.1, dog, TakenOver.animal.1] :=
    (hdog.register (c := dog) (by simp)).define _ none (by simp)
  have hgrown : m.Grown [TakenOver.stranger.1, dog, TakenOver.animal.1] :=
    (hstranger.register (c := TakenOver.stranger.1) (by simp)).other rfl rfl
  have hbuilt : ∀ l ∈ dog.links, l.decl.methods.Declared := by
    rintro l (_ | ⟨_, _ | ⟨_, hl⟩⟩)
    · exact (Members.Declared.none.add _).add _
    · exact Members.Declared.none.add _
    · cases hl
  obtain ⟨⟨hslot, hresolve, -⟩, hpaths⟩ :=
    dispatch_paths_agree hgrown (by simp) hbuilt "Speak"
  obtain ⟨hvirtual, hinvoke⟩ := hpaths ⟨0⟩ (.create dog) #[] rfl
  refine ⟨rfl, hslot.trans (by decide), hresolve.trans (by decide), ?_, (hinvoke rfl 2).2.2⟩
  exact hvirtual TakenOver.calling _ _ (TakenOver.speak 1) #[] rfl rfl rfl rfl rfl rfl rfl rfl

end ObjectMachine
