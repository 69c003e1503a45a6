import ObjectMachine.Proofs.Computation
import ObjectMachine.Step

/-!
# What actions are made of

An action is put together from a few accesses to the operand stack, to the variables of the frame
and to the heap. So whatever is to be shown of all actions has to be shown of these accesses only.

What is shown is a relation between two computations, `Exec.Relation`: that they do the same on two
machines that are alike in some way, or just that the first one keeps something. `Exec.Composes`
says that it carries over from parts to the whole, and `Exec.Reads` and `Exec.Accesses` that it
holds of the accesses. Then it holds of every action (`Accesses.perform`) and of every instruction
(`Accesses.step`); the actions that only move operands do not need those accesses that write
(`Reads.perform`).
-/

namespace ObjectMachine

/-! ## Values that are passed along -/

/-- A value that refers to nothing. -/
def Value.IsPlain (v : Value) : Prop := v.toObject? = none ∧ v.toArray? = none

/-- Arithmetic gives numbers, never references. -/
theorem Value.isPlain_of_arith {op : ArithOp} {a b v : Value} (h : a.arith op b = .ok v) :
    v.IsPlain := by
  unfold arith at h
  split at h
  · rename_i x y _ _
    cases hn : op.onNumbers x y with
    | error e => rw [hn] at h; cases h
    | ok n =>
      rw [hn] at h
      cases h
      cases n with
      | whole width n => cases width <;> exact ⟨rfl, rfl⟩
      | real width x => cases width <;> exact ⟨rfl, rfl⟩
  · cases h

theorem Value.isPlain_of_neg {a v : Value} (h : a.neg = .ok v) : v.IsPlain := by
  unfold neg at h
  split at h <;> cases h <;> exact ⟨rfl, rfl⟩

/-- The values that a method is given: the receiver, if there is one, and the arguments. -/
def argumentValues (receiver : Option ObjectRef) (arguments : Array Value) : List Value :=
  (receiver.map Value.object).toList ++ arguments.toList

section
variable (V : Value → Prop)

theorem forall_argumentValues {V : Value → Prop} {receiver : Option ObjectRef}
    {arguments : Array Value} :
    (∀ v ∈ argumentValues receiver arguments, V v) ↔
      (∀ r, receiver = some r → V (.object r)) ∧ ∀ v ∈ arguments, V v := by
  cases receiver <;> simp [argumentValues]

/-- What is known of the values that a call passes along. -/
def Call.All (c : Call) : Prop := ∀ v ∈ argumentValues c.receiver c.arguments, V v

/-- What is known of the values that a run continues with. -/
def Flow.All : Flow → Prop
  | .next | .jump _ => True
  | .ret v => V v
  | .call c => c.All V

/-- What is known of a value that an action brings along, or of the class of a new object. -/
def Action.All (T : Class → Prop) : Action → Prop
  | .push v => V v
  | .create c => T c
  | _ => True

theorem Action.all_of_forall {V : Value → Prop} {T : Class → Prop} (hV : ∀ v, V v) (hT : ∀ c, T c)
    (a : Action) : a.All V T := by
  cases a with
  | push v => exact hV v
  | create c => exact hT c
  | _ => trivial

end

/-! ## Relations that carry over -/

namespace Exec

variable {α β : Type}

/-- A relation between two computations, together with a predicate on what both return. -/
abbrev Relation : Type 1 := ∀ ⦃α : Type⦄, (α → Prop) → Exec α → Exec α → Prop

/-- The relation carries over to what is put together from related parts, and to two computations
that from two states in `R` do the same as related ones. -/
structure Composes (P : Relation) (R : Activation → Activation → Prop) : Prop where
  pure : ∀ {α : Type} {Q : α → Prop} {a : α}, Q a → P Q (Pure.pure a) (Pure.pure a)
  throw : ∀ {α : Type} {Q : α → Prop} (e : Fault), P Q (throw e) (throw e)
  bind : ∀ {α β : Type} {Q : α → Prop} {Q' : β → Prop} {x y : Exec α} {f g : α → Exec β},
    P Q x y → (∀ a, Q a → P Q' (f a) (g a)) → P Q' (x >>= f) (y >>= g)
  congr : ∀ {α : Type} {Q : α → Prop} {x y : Exec α},
    (∀ s s', R s s' → ∃ x' y', P Q x' y' ∧ x s = x' s ∧ y s' = y' s') → P Q x y

namespace Composes

variable {P : Relation} {R : Activation → Activation → Prop} (rules : Composes P R)
  {Q : α → Prop}
include rules

theorem get_bind {f g : Activation → Exec α} (h : ∀ s s', R s s' → P Q (f s) (g s')) :
    P Q (get >>= f) (get >>= g) :=
  rules.congr fun s s' hs => ⟨f s, g s', h s s' hs, rfl, rfl⟩

theorem read {f g : Activation → Except Fault α}
    (h : ∀ s s', R s s' → g s' = f s ∧ ∀ a, f s = .ok a → Q a) : P Q (read f) (read g) := by
  refine rules.congr fun s s' hs => ?_
  obtain ⟨hsame, hq⟩ := h s s' hs
  simp only [Exec.read, hsame]
  cases ha : f s with
  | ok a => exact ⟨_, _, rules.pure (hq a ha), rfl, rfl⟩
  | error e => exact ⟨_, _, rules.throw e, rfl, rfl⟩

theorem lift {x : Except Fault α} (h : ∀ a, x = .ok a → Q a) : P Q (lift x) (lift x) :=
  rules.read fun _ _ _ => ⟨rfl, h⟩

end Composes

/-! ## What actions find -/

/-- Related activations show the same to an instruction, and the values that they show have a
property, like those that an instruction comes to itself. -/
structure Agreement (R : Activation → Activation → Prop) (V : Value → Prop) : Prop where
  plain : ∀ {v}, v.IsPlain → V v
  method : ∀ {s s'}, R s s' → s'.frame.method = s.frame.method
  pc : ∀ {s s'}, R s s' → s'.frame.pc = s.frame.pc
  top : ∀ {s s'}, R s s' → s'.frame.stack.top? = s.frame.stack.top?
  argument : ∀ {s s'} (i), R s s' → s'.frame.argument i = s.frame.argument i ∧
    ∀ v, s.frame.argument i = .ok v → V v
  localValue : ∀ {s s'} (i), R s s' → s'.frame.localValue i = s.frame.localValue i ∧
    ∀ v, s.frame.localValue i = .ok v → V v
  object : ∀ {s s' r}, R s s' → V (.object r) → s'.heap.object? r = s.heap.object? r ∧
    ∀ o, s.heap.object? r = some o → ∀ v ∈ o.slots, V v
  elements : ∀ {s s' r}, R s s' → V (.array r) → s'.heap.elements r = s.heap.elements r ∧
    ∀ v ∈ s.heap.elements r, V v

/-- The same activation shows the same. -/
theorem Agreement.of_eq {R : Activation → Activation → Prop} (h : ∀ {s s'}, R s s' → s' = s) :
    Agreement R fun _ => True where
  plain _ := trivial
  method hs := by rw [h hs]
  pc hs := by rw [h hs]
  top hs := by rw [h hs]
  argument i hs := ⟨by rw [h hs], fun _ _ => trivial⟩
  localValue i hs := ⟨by rw [h hs], fun _ _ => trivial⟩
  object hs _ := ⟨by rw [h hs], fun _ _ _ _ => trivial⟩
  elements hs _ := ⟨by rw [h hs], fun _ _ => trivial⟩

namespace Agreement

variable {R : Activation → Activation → Prop} {V : Value → Prop} (agreement : Agreement R V)
  {s s' : Activation} {v : Value}
include agreement

theorem classOf?_eq (hs : R s s') (hv : V v) : s'.heap.classOf? v = s.heap.classOf? v := by
  cases v with
  | object r => simp only [Heap.classOf?, Value.toObject?, Option.bind_some,
      (agreement.object hs hv).1]
  | _ => rfl

theorem isInstance_eq (hs : R s s') (hv : V v) (c : Class) :
    s'.heap.isInstance v c = s.heap.isInstance v c := by
  rw [Heap.isInstance, Heap.isInstance, agreement.classOf?_eq hs hv]

theorem describe_eq (hs : R s s') (hv : V v) : s'.heap.describe v = s.heap.describe v := by
  rw [Heap.describe, Heap.describe, agreement.classOf?_eq hs hv]

end Agreement

end Exec

theorem Instance.mem_of_get {o : Instance} {field : String} {v : Value} (h : o.get field = .ok v) :
    v ∈ o.slots := by
  obtain ⟨i, -, h⟩ := ok_of_bind h
  unfold slotValue at h
  split at h
  · rename_i w hw
    cases h
    exact Array.mem_of_getElem? hw
  · cases h

theorem Heap.mem_of_getElement {h : Heap} {r : ArrayRef} {index : Int} {v : Value}
    (hv : h.getElement r index = .ok v) : v ∈ h.elements r := by
  obtain ⟨i, hi, hv⟩ := ok_of_bind hv
  unfold elementIndex at hi
  split at hi
  · rename_i hrange
    cases hi
    have hlt : index.toNat < (h.elements r).size := by
      rw [Heap.length] at hrange
      omega
    cases hv
    rw [Array.getD_eq_getD_getElem?, Array.getElem?_eq_getElem hlt]
    exact Array.getElem_mem hlt
  · cases hi

/-- Whether an action can write to the variables of the frame or to the heap. -/
def Action.writes : Action → Bool
  | .storeLocal _ | .storeArgument _ | .storeField _ | .storeElement | .create _ | .createArray
  | .call _ | .callVirtual _ => true
  | _ => false

namespace Exec

variable {α : Type} {P : Relation} {R : Activation → Activation → Prop} {V : Value → Prop}

/-! ## Actions that move operands -/

/-- The relation holds of the accesses to the operand stack, one operand at a time. -/
structure Reads (P : Relation) (R : Activation → Activation → Prop) (V : Value → Prop) : Prop
    extends Composes P R, Agreement R V where
  push : ∀ {v}, V v → P (fun _ => True) (push v) (push v)
  pop : P V pop pop
  peek : P V (onStack Stack.peek) (onStack Stack.peek)

/-- Takes an operand that has to be of some sort. -/
def popAs (sort? : Value → Option α) (mismatch : Value → Fault) : Exec α := do
  let v ← pop
  match sort? v with
  | some a => pure a
  | none => throw (mismatch v)

theorem popArray_eq (op : Opcode) :
    popArray op = popAs Value.toArray? fun v => .typeMismatch (.array op v.kind) := by
  refine congrArg (pop >>= ·) (funext fun v => ?_)
  cases v.toArray? <;> rfl

theorem popIndex_eq (op : Opcode) :
    popIndex op = popAs Value.toIndex? fun v => .typeMismatch (.index op v.kind) := by
  refine congrArg (pop >>= ·) (funext fun v => ?_)
  cases v.toIndex? <;> rfl

namespace Reads

variable (reads : Reads P R V)
include reads

theorem popAs {Q : α → Prop} {sort? : Value → Option α} (mismatch : Value → Fault)
    (h : ∀ v a, V v → sort? v = some a → Q a) :
    P Q (popAs sort? mismatch) (popAs sort? mismatch) := by
  refine reads.bind reads.pop fun v hv => ?_
  cases ha : sort? v with
  | some a => exact reads.pure (h v a hv ha)
  | none => exact reads.throw _

theorem popArray (op : Opcode) : P (fun r => V (.array r)) (popArray op) (popArray op) := by
  rw [popArray_eq]
  refine reads.popAs _ fun v r hv hr => ?_
  cases v <;> cases hr
  exact hv

theorem popIndex (op : Opcode) : P (fun _ => True) (popIndex op) (popIndex op) := by
  rw [popIndex_eq]
  exact reads.popAs _ fun _ _ _ _ => trivial

theorem popObject (op : Opcode) :
    P (fun found => V (.object found.1) ∧ ∀ v ∈ found.2.slots, V v) (popObject op)
      (popObject op) := by
  refine reads.bind reads.pop fun v hv => reads.read fun s s' hs => ?_
  cases v with
  | object r =>
    obtain ⟨hsame, hslots⟩ := reads.object hs hv
    refine ⟨by simp only [Value.toObject?, Option.bind_some, hsame], fun found hfound => ?_⟩
    cases ho : s.heap.object? r with
    | none => simp [Value.toObject?, ho] at hfound
    | some o =>
      simp only [Value.toObject?, Option.bind_some, ho, Option.map_some, Except.ok.injEq] at hfound
      subst hfound
      exact ⟨hv, hslots o ho⟩
  | _ => exact ⟨rfl, fun found hfound => by cases hfound⟩

/-- An operand is put on the stack and the run goes on. -/
theorem pushNext {v : Value} (hv : V v) :
    P (Flow.All V) (do Exec.push v; Pure.pure Flow.next) (do Exec.push v; Pure.pure Flow.next) :=
  reads.bind (reads.push hv) fun _ _ => reads.pure trivial

/-- What holds of the accesses holds of every action that does not write. -/
theorem perform (p p' : Program) {T : Class → Prop} {a : Action} (hwrites : a.writes = false)
    (ha : a.All V T) : P (Flow.All V) (perform p a) (perform p' a) := by
  cases a with
  | skip => exact reads.pure trivial
  | duplicate => exact reads.bind reads.peek fun v hv => reads.pushNext hv
  | discard => exact reads.bind reads.pop fun v _ => reads.pure trivial
  | push v => exact reads.pushNext ha
  | loadArgument i =>
    exact reads.bind (reads.read fun s s' hs => reads.argument i hs) fun v hv => reads.pushNext hv
  | loadLocal i =>
    exact reads.bind (reads.read fun s s' hs => reads.localValue i hs) fun v hv => reads.pushNext hv
  | arith op =>
    exact reads.bind reads.pop fun b _ => reads.bind reads.pop fun a _ =>
      reads.bind (reads.lift fun v hv => reads.plain (Value.isPlain_of_arith hv)) fun v hv =>
        reads.pushNext hv
  | negate =>
    exact reads.bind reads.pop fun a _ =>
      reads.bind (reads.lift fun v hv => reads.plain (Value.isPlain_of_neg hv)) fun v hv =>
        reads.pushNext hv
  | compare op =>
    exact reads.bind reads.pop fun b _ => reads.bind reads.pop fun a _ =>
      reads.bind (Q := fun _ => True) (reads.lift fun _ _ => trivial) fun c _ =>
        reads.pushNext (reads.plain ⟨rfl, rfl⟩)
  | ret =>
    refine reads.get_bind fun s s' hs => ?_
    rw [reads.top hs]
    cases s.frame.stack.top? with
    | none => exact reads.pure (reads.plain ⟨rfl, rfl⟩)
    | some _ => exact reads.bind reads.pop fun v hv => reads.pure hv
  | branch condition target =>
    cases condition with
    | none => exact reads.pure trivial
    | some condition =>
      refine reads.bind reads.pop fun v _ => reads.pure ?_
      split <;> trivial
  | loadField name =>
    exact reads.bind (reads.popObject _) fun found hfound =>
      reads.bind (reads.lift fun v hv => hfound.2 v (Instance.mem_of_get hv)) fun v hv =>
        reads.pushNext hv
  | cast c =>
    refine reads.bind reads.pop fun v hv => reads.get_bind fun s s' hs => ?_
    dsimp only
    rw [reads.isInstance_eq hs hv, reads.describe_eq hs hv]
    split
    · exact reads.pushNext hv
    · exact reads.throw _
  | testClass c =>
    refine reads.bind reads.pop fun v hv => reads.get_bind fun s s' hs => ?_
    rw [reads.isInstance_eq hs hv]
    refine reads.pushNext ?_
    split
    · exact hv
    · exact reads.plain ⟨rfl, rfl⟩
  | loadElement =>
    refine reads.bind (reads.popIndex _) fun i _ => reads.bind (reads.popArray _) fun r hr => ?_
    refine reads.bind (reads.read (Q := V) fun s s' hs => ?_) fun v hv => reads.pushNext hv
    obtain ⟨hsame, helements⟩ := reads.elements hs hr
    refine ⟨?_, fun v hv => helements v (Heap.mem_of_getElement hv)⟩
    rw [Heap.getElement, Heap.getElement, Heap.length, Heap.length, hsame]
  | arrayLength =>
    refine reads.bind (reads.popArray _) fun r hr => reads.get_bind fun s s' hs => ?_
    rw [Heap.length, Heap.length, (reads.elements hs hr).1]
    exact reads.pushNext (reads.plain ⟨rfl, rfl⟩)
  | storeLocal | storeArgument | storeField | storeElement | create | createArray | call
  | callVirtual => cases hwrites

end Reads

/-! ## All actions -/

/-- The relation also holds of the accesses that write, and of those that take several operands at
once, when the two machines run two programs with the same classes. -/
structure Accesses (P : Relation) (R : Activation → Activation → Prop) (V : Value → Prop)
    (T : Class → Prop) (p p' : Program) : Prop extends Reads P R V where
  popMany : ∀ n, P (fun vs : Array Value => ∀ v ∈ vs, V v) (onStack (Stack.popMany n))
    (onStack (Stack.popMany n))
  setArgument : ∀ i {v}, V v →
    P (fun _ => True) (onFrame (·.setArgument i v)) (onFrame (·.setArgument i v))
  setLocal : ∀ i {v}, V v → P (fun _ => True) (onFrame (·.setLocal i v)) (onFrame (·.setLocal i v))
  newObject : ∀ {c}, T c →
    P (fun r => V (.object r)) (onHeap (Heap.newObject c)) (onHeap (Heap.newObject c))
  newArray : ∀ n, P (fun r => V (.array r)) (onHeap (Heap.newArray n)) (onHeap (Heap.newArray n))
  checkLength : ∀ n,
    P (fun _ => True) (lift (p.limits.checkLength n)) (lift (p'.limits.checkLength n))
  setField : ∀ {r} name {v}, V (.object r) → V v →
    P (fun _ => True) (onHeap (Heap.setField r name v)) (onHeap (Heap.setField r name v))
  setElement : ∀ {r} i {v}, V (.array r) → V v →
    P (fun _ => True) (onHeap (Heap.setElement r i v)) (onHeap (Heap.setElement r i v))
  native : ∀ name {receiver arguments}, (∀ v ∈ argumentValues receiver arguments, V v) →
    P V (onHeap (p.host.native name receiver arguments))
      (onHeap (p'.host.native name receiver arguments))
  registry : p'.registry = p.registry

namespace Accesses

variable {T : Class → Prop} {p p' : Program} (accesses : Accesses P R V T p p')
include accesses

theorem dispatch {c : Call} (hc : c.All V) : P (Flow.All V) (dispatch p c) (dispatch p' c) := by
  unfold Exec.dispatch
  cases c.method.body with
  | native name =>
    exact accesses.bind (accesses.native name hc) fun v hv => accesses.pushNext hv
  | interpreted code => exact accesses.pure hc

/-- What holds of the accesses holds of every action. -/
theorem perform {a : Action} (ha : a.All V T) : P (Flow.All V) (perform p a) (perform p' a) := by
  cases hwrites : a.writes with
  | false => exact accesses.toReads.perform p p' hwrites ha
  | true =>
    cases a with
    | storeArgument i =>
      exact accesses.bind accesses.pop fun v hv =>
        accesses.bind (accesses.setArgument i hv) fun _ _ => accesses.pure trivial
    | storeLocal i =>
      exact accesses.bind accesses.pop fun v hv =>
        accesses.bind (accesses.setLocal i hv) fun _ _ => accesses.pure trivial
    | create c =>
      exact accesses.bind (accesses.newObject ha) fun r hr => accesses.pushNext hr
    | storeField name =>
      exact accesses.bind accesses.pop fun v hv =>
        accesses.bind (accesses.popObject _) fun found hfound =>
          accesses.bind (accesses.setField name hfound.1 hv) fun _ _ => accesses.pure trivial
    | call m =>
      refine accesses.bind (accesses.popMany _) fun arguments harguments => accesses.dispatch ?_
      exact forall_argumentValues.mpr ⟨nofun, harguments⟩
    | callVirtual m =>
      refine accesses.bind (accesses.popMany _) fun arguments harguments =>
        accesses.bind (accesses.popObject _) fun found hfound => ?_
      dsimp only
      rw [accesses.registry]
      cases p.registry.resolve? found.2.cls m.name with
      | some target =>
        refine accesses.dispatch (forall_argumentValues.mpr ⟨?_, harguments⟩)
        rintro r ⟨⟩
        exact hfound.1
      | none => exact accesses.throw _
    | createArray =>
      exact accesses.bind (accesses.popIndex _) fun n _ =>
        accesses.bind (accesses.checkLength n) fun n _ =>
          accesses.bind (accesses.newArray n) fun r hr => accesses.pushNext hr
    | storeElement =>
      exact accesses.bind accesses.pop fun v hv => accesses.bind (accesses.popIndex _) fun i _ =>
        accesses.bind (accesses.popArray _) fun r hr =>
          accesses.bind (accesses.setElement i hr hv) fun _ _ => accesses.pure trivial
    | _ => cases hwrites

/-- What holds of the accesses holds of every instruction that brings along what it may. -/
theorem step (hsame : ∀ i n, Instruction.action i p' n = Instruction.action i p n)
    (haction : ∀ {i n a}, Instruction.action i p n = .ok a → a.All V T) :
    P (Flow.All V) (step p) (step p') := by
  refine accesses.congr fun s s' hs => ?_
  simp only [ObjectMachine.step, accesses.method hs, accesses.pc hs, hsame]
  cases s.frame.method.body with
  | native name => exact ⟨_, _, accesses.throw _, rfl, rfl⟩
  | interpreted code =>
    dsimp only
    cases code[s.frame.pc]? with
    | none =>
      have hnull : (Flow.ret .null).All V := accesses.plain ⟨rfl, rfl⟩
      exact ⟨_, _, accesses.pure hnull, rfl, rfl⟩
    | some i =>
      dsimp only
      cases ha : i.action p code.size with
      | error e => exact ⟨_, _, accesses.throw e, rfl, rfl⟩
      | ok a => exact ⟨_, _, accesses.perform (haction ha), rfl, rfl⟩

end Accesses

end Exec

/-! ## Invariants -/

/-- The activation with other operands on the stack. -/
def Activation.withOperands (s : Activation) (slots : Array Value) : Activation :=
  { s with frame := { s.frame with stack := { s.frame.stack with slots } } }

/-- An invariant of activations is kept when operands are put on the stack or taken from it. -/
structure OperandLaw (I : Activation → Prop) : Prop where
  pushed : ∀ {s} (v), I s → s.frame.stack.depth < s.frame.stack.limit →
    I (s.withOperands (s.frame.stack.slots.push v))
  popped : ∀ {s}, I s → I (s.withOperands s.frame.stack.slots.pop)
  shrunk : ∀ {s} (n), I s → I (s.withOperands (s.frame.stack.slots.shrink n))

namespace Preserves

open Exec

variable {α : Type} {I : Activation → Prop} {Q : α → Prop}

theorem onHeap {f : HeapM α} {J : Heap → Prop} (hf : Preserves J Q f) (hI : ∀ s, I s → J s.heap)
    (hJ : ∀ s heap, I s → J heap → I { s with heap }) : Preserves I Q (onHeap f) := by
  intro s hs
  have hkept := hf s.heap (hI s hs)
  simp only [Exec.onHeap]
  generalize f s.heap = r at hkept ⊢
  cases hkept with
  | ok ha hheap => exact .ok ha (hJ s _ hs hheap)
  | error e hheap => exact .error e (hJ s _ hs hheap)

theorem onFrame {f : Frame → Except Fault Frame}
    (hf : ∀ s g, I s → f s.frame = .ok g → I { s with frame := g }) :
    Preserves I (fun _ => True) (onFrame f) := by
  intro s hs
  simp only [Exec.onFrame]
  cases hg : f s.frame with
  | ok g => exact .ok trivial (hf s g hs hg)
  | error e => exact .error e hs

/-- An invariant carries over to what is put together from parts that keep it. -/
theorem composes (I : Activation → Prop) :
    Composes (fun _ Q x _ => Preserves I Q x) fun s s' => s' = s ∧ I s where
  pure ha := .pure ha
  throw e := .throw e
  bind hx hf := hx.bind hf
  congr h s hs := by
    obtain ⟨x', -, hx', heq, -⟩ := h s s ⟨rfl, hs⟩
    rw [heq]
    exact hx' s hs

end Preserves

namespace OperandLaw

open Exec

variable {I : Activation → Prop} (law : OperandLaw I)
include law

theorem popMany (n : Nat) : Preserves I (fun vs : Array Value => ∀ v ∈ vs, True)
    (onStack (Stack.popMany n)) := by
  intro s hs
  by_cases h : s.frame.stack.depth < n
  · simp only [onStack, Stack.popMany_of_lt h]
    exact .error _ hs
  · simp only [onStack, Stack.popMany_of_le (Nat.not_lt.mp h)]
    exact .ok (fun _ _ => trivial) (law.shrunk _ hs)

/-- The accesses to the operand stack keep the invariant. -/
theorem reads :
    Reads (fun _ Q x _ => Preserves I Q x) (fun s s' => s' = s ∧ I s) fun _ => True where
  toComposes := Preserves.composes I
  toAgreement := .of_eq (·.1)
  push {v} _ s hs := by
    by_cases h : s.frame.stack.depth < s.frame.stack.limit
    · simp only [push, onStack, Stack.push_of_lt v h]
      exact .ok trivial (law.pushed v hs h)
    · simp only [push, onStack, Stack.push_of_le v (Nat.not_lt.mp h)]
      exact .error _ hs
  pop s hs := by
    simp only [pop, onStack, Stack.pop]
    cases s.frame.stack.slots.back? with
    | some v => exact .ok trivial (law.popped hs)
    | none => exact .error _ hs
  peek s hs := by
    simp only [onStack, Stack.peek]
    cases s.frame.stack.slots.back? with
    | some v => exact .ok trivial hs
    | none => exact .error _ hs

end OperandLaw

end ObjectMachine
