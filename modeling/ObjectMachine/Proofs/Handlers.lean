import ObjectMachine.Host
import ObjectMachine.Proofs.Trusting

/-!
# Instructions that trust their place

The opcodes come in groups, and each group has a handler (`Handler.of`). A handler first looks up
what its opcodes have in common and then tells them apart; there is nothing that it could do with an
opcode of another group, and it is never given one (`Handler.action_of`).

With the trusting operations, instructions, runs and whole executions are written once more. If the
classes were registered in order, the native bodies leave sound objects behind and the heap is sound
at the beginning, then all of them have the results of the machine (`Trusting.step_eq`,
`Trusting.run_eq`, `Trusting.execute_eq`), and the heap is sound at the end.
-/

namespace ObjectMachine

/-! ## Handlers of opcodes -/

/-- The groups of opcodes that have a handler of their own. -/
inductive Handler where
  | stack | constants | frame | arithmetic | comparison | controlFlow | objects | calls | types
  | arrays
deriving DecidableEq, Repr

namespace Handler

def of : Opcode → Handler
  | .nop | .dup | .pop => stack
  | .ldCon | .ldStr | .ldI4 | .ldI8 | .ldR4 | .ldR8 | .ldTrue | .ldFalse | .ldNull => constants
  | .ldArg | .ldLoc | .stLoc | .stArg => frame
  | .add | .sub | .mul | .div | .rem | .neg => arithmetic
  | .ceq | .cne | .clt | .cle | .cgt | .cge => comparison
  | .ret | .br | .brTrue | .brFalse => controlFlow
  | .newObj | .ldFld | .stFld => objects
  | .call | .callVirt => calls
  | .castClass | .isInst => types
  | .newArr | .ldElem | .stElem | .ldLen => arrays

/-- The action of an instruction, as a handler finds it. What all opcodes of the handler have in
common is looked up first; there is no action for an opcode that the handler does not expect. -/
def action (i : Instruction) (p : Program) (codeSize : Nat) (op : Opcode) :
    Handler → Except Fault (Option Action)
  | stack =>
    match op with
    | .nop => pure (some .skip)
    | .pop => pure (some .discard)
    | .dup => pure (some .duplicate)
    | _ => pure none
  | constants =>
    match op with
    | .ldCon => do return some (.push (← p.constantAt (← i.operand 0)))
    | .ldStr => do return some (.push (.string (← p.stringAt (← i.operand 0))))
    | .ldI4 => do return some (.push (.int32 (UInt32.ofNat (← i.operand 0)).toInt32))
    | .ldI8 => do return some (.push (.int64 (← i.wideOperand).toInt64))
    | .ldR4 => do return some (.push (.float32 ⟨.ofNat (← i.operand 0)⟩))
    | .ldR8 => do return some (.push (.float64 ⟨← i.wideOperand⟩))
    | .ldTrue => pure (some (.push (.bool true)))
    | .ldFalse => pure (some (.push (.bool false)))
    | .ldNull => pure (some (.push .null))
    | _ => pure none
  | frame => do
    let n ← i.operand 0
    match op with
    | .ldArg => pure (some (.loadArgument n))
    | .stArg => pure (some (.storeArgument n))
    | .ldLoc => pure (some (.loadLocal n))
    | .stLoc => pure (some (.storeLocal n))
    | _ => pure none
  | arithmetic =>
    if op = .neg then pure (some .negate)
    else
      match op with
      | .add => pure (some (.arith .add))
      | .sub => pure (some (.arith .sub))
      | .mul => pure (some (.arith .mul))
      | .div => pure (some (.arith .div))
      | .rem => pure (some (.arith .rem))
      | _ => pure none
  | comparison =>
    match op with
    | .ceq => pure (some (.compare .eq))
    | .cne => pure (some (.compare .ne))
    | .clt => pure (some (.compare .lt))
    | .cle => pure (some (.compare .le))
    | .cgt => pure (some (.compare .gt))
    | .cge => pure (some (.compare .ge))
    | _ => pure none
  | controlFlow =>
    if op = .ret then pure (some .ret)
    else do
      let target ← i.target codeSize
      match op with
      | .br => pure (some (.branch none target))
      | .brTrue => pure (some (.branch (some true) target))
      | .brFalse => pure (some (.branch (some false) target))
      | _ => pure none
  | objects => do
    let n ← i.operand 0
    match op with
    | .newObj => return some (.create (← p.registry.classAt n))
    | .ldFld => return some (.loadField (← p.stringAt n))
    | .stFld => return some (.storeField (← p.stringAt n))
    | _ => pure none
  | calls => do
    let m ← i.methodOperand p
    match op with
    | .call => pure (some (.call m))
    | .callVirt => pure (some (.callVirtual m))
    | _ => pure none
  | types => do
    let c ← i.classOperand p
    match op with
    | .castClass => pure (some (.cast c))
    | .isInst => pure (some (.testClass c))
    | _ => pure none
  | arrays =>
    match op with
    | .newArr => pure (some .createArray)
    | .ldElem => pure (some .loadElement)
    | .stElem => pure (some .storeElement)
    | .ldLen => pure (some .arrayLength)
    | _ => pure none

/-- A handler expects every opcode that it is given, and finds the action of the instruction. -/
theorem action_of (i : Instruction) (p : Program) (codeSize : Nat) (op : Opcode) :
    (of op).action i p codeSize op = some <$> i.actionOf p codeSize op := by
  cases op <;>
    simp [of, action, Instruction.actionOf, Instruction.stringOperand, Instruction.classOperand]

end Handler

/-! ## What has to hold before an instruction -/

/-- A native body works on the heap through its operations, which leave a sound heap behind. -/
def Native.Sound (f : Native) : Prop :=
  ∀ receiver arguments, Preserves Heap.Sound (fun _ => True) (f receiver arguments)

def Host.Sound (h : Host) : Prop := ∀ name, (h.native name).Sound

namespace Host

theorem outcome_preserves {I : Heap → Prop} {x : Except Fault Value} :
    Preserves I (fun _ => True) (outcome x) := by
  cases x with
  | ok v => exact .pure trivial
  | error e => exact .throw e

/-- The native bodies of the basic host change nothing but fields. -/
theorem basic_preserves {I : Heap → Prop}
    (hset : ∀ r field v, Preserves I (fun _ => True) (Heap.setField r field v)) (name : String)
    (receiver : Option ObjectRef) (arguments : Array Value) :
    Preserves I (fun _ => True) (basic.native name receiver arguments) := by
  simp only [basic]
  split
  · unfold sub
    split
    · exact outcome_preserves
    · exact .throw _
  · exact .pure trivial
  · exact .pure trivial
  · exact .pure trivial
  · exact .throw _
  · unfold bump
    cases receiver with
    | none => exact .throw _
    | some r =>
      exact Preserves.get.bind fun h _ => outcome_preserves.bind fun old _ =>
        outcome_preserves.bind fun new _ => (hset r _ new).bind fun _ _ => .pure trivial
  · exact .throw _

theorem sound_basic : basic.Sound := basic_preserves Preserves.setField

end Host

/-- What running code refers to has been registered in order. -/
structure Program.Sound (p : Program) : Prop where
  lawful : p.registry.Lawful
  tidy : ∀ c ∈ p.registry.classes.toList, c.Tidy
  host : p.host.Sound

def Activation.Sound (s : Activation) : Prop := s.heap.Sound

/-- The objects that an action creates are those of a tidy class. -/
theorem Program.Sound.action {p : Program} (hp : p.Sound) {i : Instruction} {codeSize : Nat}
    {op : Opcode} {a : Action} (h : i.actionOf p codeSize op = .ok a) :
    a.All (fun _ => True) Class.Tidy := by
  cases op with
  | newObj =>
    obtain ⟨c, hc, rfl⟩ := ok_of_map h
    obtain ⟨n, -, hc⟩ := ok_of_bind hc
    exact hp.tidy c (List.mem_of_getElem? (classAt_eq_ok_iff.mp hc))
  | ldArg | ldLoc | ldFld | stLoc | stFld | stArg | castClass | isInst | br | brTrue | brFalse
  | call | callVirt =>
    obtain ⟨_, -, rfl⟩ := ok_of_map h
    trivial
  | ldStr | ldI4 | ldI8 | ldR4 | ldR8 =>
    obtain ⟨_, -, h⟩ := ok_of_bind h
    cases h
    trivial
  | ldCon =>
    obtain ⟨_, -, h⟩ := ok_of_bind h
    obtain ⟨_, -, h⟩ := ok_of_bind h
    cases h
    trivial
  | _ =>
    cases h
    trivial

theorem OperandLaw.sound : OperandLaw Activation.Sound :=
  ⟨fun _ hs _ => hs, fun hs => hs, fun _ hs => hs⟩

namespace Preserves

variable {α : Type} {Q : α → Prop}

theorem onSoundHeap {f : HeapM α} (hf : Preserves Heap.Sound Q f) :
    Preserves Activation.Sound Q (Exec.onHeap f) :=
  .onHeap hf (fun _ hs => hs) fun _ _ _ hheap => hheap

/-- An object on the heap is sound. -/
theorem popObject (op : Opcode) :
    Preserves Activation.Sound (fun found => found.2.Sound) (Exec.popObject op) := by
  refine OperandLaw.sound.reads.pop.bind fun v _ =>
    (Preserves.composes Activation.Sound).read fun s s' hs => ⟨by rw [hs.1], fun found h => ?_⟩
  split at h
  · rename_i hfound
    cases h
    obtain ⟨r, -, hfound⟩ := Option.bind_eq_some_iff.mp hfound
    obtain ⟨o, ho, rfl⟩ := Option.map_eq_some_iff.mp hfound
    exact Heap.Sound.object? hs.2 ho
  · cases h

end Preserves

/-- Every access keeps the heap sound. -/
theorem Program.Sound.accesses {p : Program} (hp : p.Sound) :
    Exec.Accesses (fun _ Q x _ => Preserves Activation.Sound Q x) (fun s s' => s' = s ∧ s.Sound)
      (fun _ => True) Class.Tidy p p where
  toReads := OperandLaw.sound.reads
  popMany := OperandLaw.sound.popMany
  setArgument _ _ _ := .onFrame fun _ _ hs _ => hs
  setLocal _ _ _ := .onFrame fun _ _ hs _ => hs
  newObject hc := .onSoundHeap (.newObject hc)
  newArray n := .onSoundHeap (.newArray n)
  checkLength _ := (Preserves.composes _).lift fun _ _ => trivial
  setField _ _ _ _ := .onSoundHeap (.setField _ _ _)
  setElement _ _ _ _ := .onSoundHeap (.setElement _ _ _)
  native _ _ _ _ := .onSoundHeap (hp.host _ _ _)
  registry := rfl

/-! ## One instruction -/

namespace Trusting

variable {α β : Type}

def onStack (f : Trusting Stack α) : Trusting Activation α
  | ⟨⟨m, r, as, ls, stack, pc⟩, heap⟩ =>
    (f stack).map fun
      | .ok a stack => .ok a ⟨⟨m, r, as, ls, stack, pc⟩, heap⟩
      | .error e stack => .error e ⟨⟨m, r, as, ls, stack, pc⟩, heap⟩

def onHeap (f : Trusting Heap α) : Trusting Activation α
  | ⟨frame, heap⟩ =>
    (f heap).map fun
      | .ok a heap => .ok a ⟨frame, heap⟩
      | .error e heap => .error e ⟨frame, heap⟩

def onFrame (f : Frame → Option (Except Fault Frame)) : Trusting Activation Unit := fun s =>
  (f s.frame).map fun
    | .ok frame => .ok () { s with frame }
    | .error e => .error e s

def read (f : Activation → Option (Except Fault α)) : Trusting Activation α := fun s =>
  (f s).map fun
    | .ok a => .ok a s
    | .error e => .error e s

/-- What there is at a place. -/
def reach (x : Option α) : Trusting Activation α := fun s => x.map (.ok · s)

def perform (p : Program) : Action → Trusting Activation Flow
  | .loadArgument i => do
    lift (Exec.push (← read fun s => argument s.frame i))
    pure .next
  | .storeArgument i => do
    let v ← lift Exec.pop
    onFrame fun f => setArgument f i v
    pure .next
  | .arith op => do
    let b ← lift Exec.pop
    let a ← lift Exec.pop
    lift (Exec.push (← read fun _ => arith op a b))
    pure .next
  | .compare op => do
    let b ← lift Exec.pop
    let a ← lift Exec.pop
    lift (Exec.push (.bool (← read fun _ => compare op a b)))
    pure .next
  | .storeField name => do
    let v ← lift Exec.pop
    let (r, _) ← lift (Exec.popObject .stFld)
    onHeap (setField r name v)
    pure .next
  | .call m => do
    let arguments ← onStack (popMany m.arity)
    lift (Exec.dispatch p ⟨m, none, arguments⟩)
  | .callVirtual m => do
    let arguments ← onStack (popMany m.arity)
    let (r, o) ← lift (Exec.popObject .callVirt)
    match ← reach (resolve p.registry o.cls m.name) with
    | some target => lift (Exec.dispatch p ⟨target, some r, arguments⟩)
    | none => lift (throw (.methodNotFound o.cls.name m.name))
  | .loadElement => do
    let i ← lift (Exec.popIndex .ldElem)
    let r ← lift (Exec.popArray .ldElem)
    lift (Exec.push (← read fun s => getElement s.heap r i))
    pure .next
  | .storeElement => do
    let v ← lift Exec.pop
    let i ← lift (Exec.popIndex .stElem)
    let r ← lift (Exec.popArray .stElem)
    onHeap (setElement r i v)
    pure .next
  | a => lift (Exec.perform p a)

/-- Executes the current instruction of the frame. The handler of an opcode has to expect it. -/
def step (p : Program) : Trusting Activation Flow := fun s =>
  match s.frame.method.body with
  | .native _ => some (.error (.typeMismatch (.noInstructions s.frame.method.name)) s)
  | .interpreted code =>
    match code[s.frame.pc]? with
    | none => some (.ok (.ret .null) s)
    | some i =>
      match i.opcode? with
      | none => some (.error (.unknownOpcode i.opcode) s)
      | some op =>
        match (Handler.of op).action i p code.size op with
        | .error e => some (.error e s)
        | .ok a => a.bind fun a => perform p a s

namespace Sure

variable {Q : α → Prop} {P : β → Prop}

theorem popMany (n : Nat) :
    Sure Activation.Sound (fun vs : Array Value => ∀ v ∈ vs, True) (onStack (popMany n))
      (Exec.onStack (Stack.popMany n)) where
  preserves := OperandLaw.sound.popMany n
  result := by
    rintro ⟨⟨m, r, as, ls, stack, pc⟩, heap⟩ -
    simp only [Trusting.onStack, Exec.onStack, popMany_eq n stack]
    cases Stack.popMany n stack <;> rfl

theorem onHeap {f : Trusting Heap α} {g : HeapM α} (h : Sure Heap.Sound Q f g) :
    Sure Activation.Sound Q (onHeap f) (Exec.onHeap g) where
  preserves := .onSoundHeap h.preserves
  result := by
    rintro ⟨frame, heap⟩ hs
    simp only [Trusting.onHeap, Exec.onHeap, h.result heap hs]
    cases g heap <;> rfl

theorem onFrame {f : Frame → Option (Except Fault Frame)} {g : Frame → Except Fault Frame}
    (h : ∀ frame, f frame = some (g frame)) :
    Sure Activation.Sound (fun _ => True) (onFrame f) (Exec.onFrame g) where
  preserves := .onFrame fun _ _ hs _ => hs
  result s _ := by
    simp only [Trusting.onFrame, Exec.onFrame, h s.frame]
    cases g s.frame <;> rfl

theorem read {f : Activation → Option (Except Fault α)} {g : Activation → Except Fault α}
    (h : ∀ s, f s = some (g s)) :
    Sure Activation.Sound (fun _ => True) (read f) (Exec.read g) where
  preserves := (Preserves.composes _).read fun _ _ hs => ⟨by rw [hs.1], fun _ _ => trivial⟩
  result s _ := by
    simp only [Trusting.read, Exec.read, h s]
    cases g s <;> rfl

theorem reach_bind {x : Option α} {a : α} (hx : x = some a) {f : α → Trusting Activation β}
    {y : Exec β} (h : Sure Activation.Sound P (f a) y) :
    Sure Activation.Sound P (reach x >>= f) y := by
  subst hx
  exact h

theorem pushNext (v : Value) :
    Sure Activation.Sound (Flow.All fun _ => True)
      (do Trusting.lift (Exec.push v); Pure.pure Flow.next : Trusting Activation Flow)
      (do Exec.push v; Pure.pure Flow.next) :=
  (lift (OperandLaw.sound.reads.push trivial)).bind fun _ _ => .pure trivial

theorem setField (r : ObjectRef) (field : String) (v : Value) :
    Sure Heap.Sound (fun _ => True) (setField r field v) (Heap.setField r field v) :=
  ⟨.setField r field v, fun _ hh => setField_eq hh r field v⟩

theorem setElement (r : ArrayRef) (index : Int) (v : Value) :
    Sure Heap.Sound (fun _ => True) (setElement r index v) (Heap.setElement r index v) :=
  ⟨.setElement r index v, fun h _ => setElement_eq r index v h⟩

end Sure

/-- A trusting action is the action, and leaves a sound heap behind. -/
theorem perform_sure {p : Program} (hp : p.Sound) {a : Action}
    (ha : a.All (fun _ => True) Class.Tidy) :
    Sure Activation.Sound (Flow.All fun _ => True) (perform p a) (Exec.perform p a) := by
  have hpop : Sure Activation.Sound (fun _ => True) (lift Exec.pop) Exec.pop :=
    .lift hp.accesses.pop
  cases a with
  | loadArgument i => exact (Sure.read fun s => argument_eq s.frame i).bind fun v _ => .pushNext v
  | storeArgument i =>
    exact hpop.bind fun v _ => (Sure.onFrame fun f => setArgument_eq f i v).bind fun _ _ =>
      .pure trivial
  | arith op =>
    exact hpop.bind fun b _ => hpop.bind fun a _ =>
      (Sure.read fun _ => arith_eq op a b).bind fun v _ => .pushNext v
  | compare op =>
    exact hpop.bind fun b _ => hpop.bind fun a _ =>
      (Sure.read fun _ => compare_eq op a b).bind fun v _ => .pushNext _
  | storeField name =>
    exact hpop.bind fun v _ => (Sure.lift (.popObject _)).bind fun found _ =>
      (Sure.onHeap (.setField found.1 name v)).bind fun _ _ => .pure trivial
  | call m =>
    exact (Sure.popMany m.arity).bind fun arguments _ =>
      .lift (hp.accesses.dispatch fun _ _ => trivial)
  | callVirtual m =>
    refine (Sure.popMany m.arity).bind fun arguments _ =>
      (Sure.lift (.popObject _)).bind fun found hfound => ?_
    -- the class of the receiver is tidy because the object is one of the heap
    refine Sure.reach_bind (resolve_eq hp.lawful hfound.tidy m.name) ?_
    dsimp only
    cases p.registry.resolve? found.2.cls m.name with
    | some target => exact .lift (hp.accesses.dispatch fun _ _ => trivial)
    | none => exact .lift (.throw _)
  | loadElement =>
    exact (Sure.lift (hp.accesses.popIndex _)).bind fun i _ =>
      (Sure.lift (hp.accesses.popArray _)).bind fun r _ =>
        (Sure.read fun s => getElement_eq s.heap r i).bind fun v _ => .pushNext v
  | storeElement =>
    exact hpop.bind fun v _ => (Sure.lift (hp.accesses.popIndex _)).bind fun i _ =>
      (Sure.lift (hp.accesses.popArray _)).bind fun r _ =>
        (Sure.onHeap (.setElement r i v)).bind fun _ _ => .pure trivial
  -- the other actions look everywhere, so only the heap that they leave behind matters
  | _ => exact .lift (hp.accesses.perform ha)

/-- A trusting instruction is the instruction: its handler expects it, and every place that its
action goes to is there. -/
theorem step_eq {p : Program} (hp : p.Sound) {s : Activation} (hs : s.Sound) :
    step p s = some (ObjectMachine.step p s) ∧
      Kept Activation.Sound (Flow.All fun _ => True) (ObjectMachine.step p s) := by
  unfold step ObjectMachine.step
  cases s.frame.method.body with
  | native name => exact ⟨rfl, .error _ hs⟩
  | interpreted code =>
    dsimp only
    cases code[s.frame.pc]? with
    | none => exact ⟨rfl, .ok trivial hs⟩
    | some i =>
      dsimp only [Instruction.action]
      cases i.opcode? with
      | none => exact ⟨rfl, .error _ hs⟩
      | some op =>
        dsimp only
        rw [Handler.action_of]
        cases ha : i.actionOf p code.size op with
        | error e => exact ⟨rfl, .error _ hs⟩
        | ok a =>
          have hsure := perform_sure hp (hp.action ha)
          exact ⟨hsure.result s hs, hsure.preserves s hs⟩

end Trusting

/-! ## Runs -/

/-- The heap of a run, in progress or at its end. -/
def Status.heap : Status → Heap
  | running c => c.heap
  | finished o => o.heap

/-- Following the outcome of an instruction does not touch the heap. -/
theorem Status.heap_proceed (p : Program) (callers : Callers) (steps : Nat)
    (r : EStateM.Result Fault Activation Flow) :
    (proceed p callers steps r).heap =
      match r with
      | .ok _ s => s.heap
      | .error _ s => s.heap := by
  cases r with
  | error e s => rfl
  | ok flow s =>
    cases flow with
    | next => rfl
    | jump target => rfl
    | ret v =>
      change (returnTo callers v s.heap steps).heap = s.heap
      rcases callers.empty_or_push with rfl | ⟨f, rest, rfl⟩
      · rfl
      · rcases returnTo_push f rest v s.heap steps with h | h <;> rw [h] <;> rfl
    | call c =>
      change (enterCall p c s.frame callers s.heap steps).heap = s.heap
      unfold enterCall
      split <;> rfl

theorem sound_of_proceed (p : Program) (callers : Callers) (steps : Nat) {Q : Flow → Prop}
    {r : EStateM.Result Fault Activation Flow} (hr : Kept Activation.Sound Q r) :
    (proceed p callers steps r).heap.Sound := by
  rw [Status.heap_proceed]
  cases hr <;> assumption

namespace Trusting

def tick (p : Program) : Config → Option Status
  | ⟨active, callers, heap, steps⟩ =>
    match exhausted? p steps with
    | some budget => some (.finished ⟨.error (.stepBudgetExceeded budget), heap, steps⟩)
    | none => (step p ⟨active, heap⟩).map (proceed p callers (steps + 1))

def run (p : Program) : Nat → Config → Option Status
  | 0, c => some (.running c)
  | n + 1, c => do
    match ← tick p c with
    | .running c => run p n c
    | .finished o => some (.finished o)

def execute (p : Program) (patience : Nat) (c : Call) (heap : Heap) : Option (Option Outcome) :=
  match c.method.body with
  | .native name =>
    match p.host.native name c.receiver c.arguments heap with
    | .ok v heap => some (some ⟨.ok v, heap, 0⟩)
    | .error e heap => some (some ⟨.error e, heap, 0⟩)
  | .interpreted _ => do
    match ← run p patience (.start p c heap) with
    | .finished o => some (some o)
    | .running _ => some none

section
variable {p : Program} (hp : p.Sound)
include hp

theorem tick_eq {c : Config} (hc : c.heap.Sound) :
    tick p c = some (ObjectMachine.tick p c) ∧ (ObjectMachine.tick p c).heap.Sound := by
  obtain ⟨active, callers, heap, steps⟩ := c
  dsimp only [tick, ObjectMachine.tick]
  cases exhausted? p steps with
  | some budget => exact ⟨rfl, hc⟩
  | none =>
    obtain ⟨hstep, hkept⟩ := step_eq hp (s := ⟨active, heap⟩) hc
    refine ⟨?_, sound_of_proceed p callers _ hkept⟩
    dsimp only
    rw [hstep, Option.map_some]

theorem run_eq (n : Nat) {c : Config} (hc : c.heap.Sound) :
    run p n c = some (ObjectMachine.run p n c) ∧ (ObjectMachine.run p n c).heap.Sound := by
  induction n generalizing c with
  | zero => exact ⟨rfl, hc⟩
  | succ n ih =>
    obtain ⟨htick, hsound⟩ := tick_eq hp hc
    rw [run, htick]
    cases h : ObjectMachine.tick p c with
    | running d =>
      rw [h] at hsound
      rw [run_succ_of_running n h]
      exact ih hsound
    | finished o =>
      rw [h] at hsound
      rw [run_succ_of_finished n h]
      exact ⟨rfl, hsound⟩

/-- A trusting execution is the execution, and leaves a sound heap behind. -/
theorem execute_eq (patience : Nat) (c : Call) {heap : Heap} (hh : heap.Sound) :
    execute p patience c heap = some (ObjectMachine.execute p patience c heap) ∧
      ∀ o ∈ ObjectMachine.execute p patience c heap, o.heap.Sound := by
  unfold execute ObjectMachine.execute
  cases c.method.body with
  | native name =>
    have hkept := hp.host name c.receiver c.arguments heap hh
    dsimp only
    generalize p.host.native name c.receiver c.arguments heap = r at hkept ⊢
    cases hkept with
    | ok _ hs =>
      refine ⟨rfl, ?_⟩
      rintro o ⟨⟩
      exact hs
    | error e hs =>
      refine ⟨rfl, ?_⟩
      rintro o ⟨⟩
      exact hs
  | interpreted code =>
    obtain ⟨hrun, hsound⟩ := run_eq hp patience (c := .start p c heap) hh
    dsimp only
    rw [hrun]
    cases h : ObjectMachine.run p patience (.start p c heap) with
    | running d => exact ⟨rfl, by simp⟩
    | finished o =>
      rw [h] at hsound
      refine ⟨rfl, ?_⟩
      rintro o ⟨⟩
      exact hsound

end

end Trusting

end ObjectMachine
