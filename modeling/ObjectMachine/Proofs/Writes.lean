import ObjectMachine.Proofs.Cells
import ObjectMachine.Proofs.Effects
import ObjectMachine.Proofs.Trusting

/-!
# What an instruction changes

Beside the operands on its stack, an instruction can leave something behind in three places: the
local variables, the argument slots and the cells of the heap. `Activation.surroundings` is what
there is in these places.

Most actions only move operands; they spare the surroundings (`Exec.Spares.perform`). The others
write to one place, and each of them takes its operands first and writes last. So a store that fails
has not written yet, and a store that succeeds has changed exactly the place that it names
(`step_frame_law`).
-/

namespace ObjectMachine

/-! ## Surroundings -/

/-- What there is in the places that an instruction can write to. -/
structure Surroundings where
  locals : List Value
  arguments : List Value
  cells : Cell → Option Content

namespace Surroundings

/-- A local variable has another value. -/
def setLocal (u : Surroundings) (i : Nat) (v : Value) : Surroundings :=
  { u with locals := u.locals.set i v }

/-- An argument slot has another value. -/
def setArgument (u : Surroundings) (i : Nat) (v : Value) : Surroundings :=
  { u with arguments := u.arguments.set i v }

/-- A cell is new or has another content. -/
def put (u : Surroundings) (target : Cell) (content : Content) : Surroundings :=
  { u with cells := fun cell => if cell = target then some content else u.cells cell }

end Surroundings

def Activation.surroundings (s : Activation) : Surroundings :=
  ⟨s.frame.locals.toList, s.frame.argumentSlots, s.heap.content?⟩

/-- The instruction that an activation is about to execute, and its opcode. -/
def Activation.Executes (s : Activation) (i : Instruction) (op : Opcode) : Prop :=
  ∃ code, s.frame.method.body = .interpreted code ∧ code[s.frame.pc]? = some i ∧
    i.opcode? = some op

/-- The heap after a call has been made: a native body has worked on it, an interpreted method has
yet to begin. -/
def Call.heapAfter (p : Program) (c : Call) (h : Heap) : Heap :=
  match c.method.body with
  | .native name => (p.host.native name c.receiver c.arguments).leaves h
  | .interpreted _ => h

/-- The heap after the call that an instruction makes, if it makes one. -/
def Activation.heapAfterCall (s : Activation) (p : Program) (i : Instruction) (op : Opcode) :
    Heap :=
  (s.callOf? p i op).elim s.heap fun c => c.heapAfter p s.heap

/-! ## Computations that spare the surroundings -/

namespace Exec

variable {α β : Type}

/-- A computation that leaves the surroundings as they are, whether it fails or not. -/
def Spares (x : Exec α) : Prop := ∀ s, (x.leaves s).surroundings = s.surroundings

/-- A computation that fails and has left the surroundings as they are. -/
def FailsEarly (x : Exec α) (s : Activation) : Prop :=
  ∃ e s', x s = .error e s' ∧ s'.surroundings = s.surroundings

theorem FailsEarly.congr {x y : Exec α} {s : Activation} (h : y s = x s) (hx : FailsEarly x s) :
    FailsEarly y s := by
  obtain ⟨e, s', he, hspared⟩ := hx
  exact ⟨e, s', h.trans he, hspared⟩

namespace Spares

/-- To leave the surroundings as they are is to keep them, whatever they are. -/
theorem of_preserves {x : Exec α} {Q : α → Prop}
    (h : ∀ u, Preserves (fun s => s.surroundings = u) Q x) : Spares x :=
  fun s => (h s.surroundings).leaves rfl

/-- The operand stack is no part of the surroundings. -/
theorem operandLaw (u : Surroundings) : OperandLaw fun s => s.surroundings = u :=
  ⟨fun _ hs _ => hs, fun hs => hs, fun _ hs => hs⟩

theorem pop : Spares pop := of_preserves fun u => (operandLaw u).reads.pop

theorem popObject (op : Opcode) : Spares (popObject op) :=
  of_preserves fun u => (operandLaw u).reads.popObject op

theorem popArray (op : Opcode) : Spares (popArray op) :=
  of_preserves fun u => (operandLaw u).reads.popArray op

theorem popIndex (op : Opcode) : Spares (popIndex op) :=
  of_preserves fun u => (operandLaw u).reads.popIndex op

theorem pushNext (v : Value) : Spares (do Exec.push v; Pure.pure Flow.next) :=
  of_preserves fun u => (operandLaw u).reads.pushNext trivial

/-- The actions that only move operands. -/
theorem perform (p : Program) {a : Action} (h : a.writes = false) : Spares (perform p a) :=
  of_preserves fun u => (operandLaw u).reads.perform p p (T := fun _ => True) h
    (a.all_of_forall (fun _ => trivial) fun _ => trivial)

/-- What comes after a computation that spares the surroundings: nothing, or the next one. -/
theorem bind_cases {x : Exec α} (hx : Spares x) (f : α → Exec β) (s : Activation) :
    FailsEarly (x >>= f) s ∨ ∃ a s₁, x s = .ok a s₁ ∧ (x >>= f) s = f a s₁ := by
  have h := hx s
  simp only [FailsEarly, EStateM.leaves, Bind.bind, EStateM.bind] at h ⊢
  cases hs : x s with
  | ok a s₁ => exact .inr ⟨a, s₁, rfl, rfl⟩
  | error e s₁ => rw [hs] at h; exact .inl ⟨e, s₁, rfl, h⟩

end Spares

end Exec

def Opcode.writes : Opcode → Bool
  | .stLoc | .stArg | .stFld | .stElem | .newObj | .newArr | .call | .callVirt => true
  | _ => false

theorem Instruction.writes_of_actionOf {i : Instruction} {p : Program} {codeSize : Nat}
    {op : Opcode} {a : Action} (h : i.actionOf p codeSize op = .ok a) : a.writes = op.writes := by
  cases op with
  | ldArg | ldLoc | stLoc | stArg | ldFld | stFld | br | brTrue | brFalse | newObj | castClass
  | isInst | call | callVirt =>
    obtain ⟨_, -, rfl⟩ := ok_of_map h
    rfl
  | ldCon =>
    obtain ⟨_, -, h⟩ := ok_of_bind h
    obtain ⟨_, -, h⟩ := ok_of_bind h
    cases h
    rfl
  | ldStr | ldI4 | ldI8 | ldR4 | ldR8 =>
    obtain ⟨_, -, h⟩ := ok_of_bind h
    cases h
    rfl
  | _ =>
    cases h
    rfl

/-! ## Operands that are taken -/

namespace Exec

variable {s s₁ : Activation}

theorem pop_eq_ok {v : Value} (h : pop s = .ok v s₁) :
    ∃ base, s.frame.stack.slots = base.push v ∧ s₁ = s.withOperands base := by
  obtain ⟨⟨m, r, as, ls, ⟨slots, limit⟩, pc⟩, heap⟩ := s
  simp only [pop, onStack, Stack.pop] at h
  cases hback : slots.back? with
  | none => rw [hback] at h; cases h
  | some w =>
    obtain ⟨base, rfl⟩ := Array.back?_eq_some_iff.mp hback
    rw [hback] at h
    cases h
    exact ⟨base, rfl, by simp [Activation.withOperands]⟩

theorem popObject_eq_ok {op : Opcode} {r : ObjectRef} {o : Instance}
    (h : popObject op s = .ok (r, o) s₁) :
    ∃ base, s.frame.stack.slots = base.push (.object r) ∧ s.heap.object? r = some o ∧
      s₁ = s.withOperands base := by
  rcases Spares.pop.bind_cases _ s with ⟨e, s', he, -⟩ | ⟨v, s₂, hpop, heq⟩
  · cases he.symm.trans h
  · obtain ⟨base, hbase, rfl⟩ := pop_eq_ok hpop
    have hread := heq.symm.trans h
    cases hfound : v.toObject?.bind fun r => (s.heap.object? r).map (r, ·) with
    | none =>
      simp only [read, Activation.withOperands, hfound] at hread
      cases hread
    | some found =>
      simp only [read, Activation.withOperands, hfound] at hread
      cases hread
      obtain ⟨r', hr, hmap⟩ := Option.bind_eq_some_iff.mp hfound
      obtain ⟨o', ho, hpair⟩ := Option.map_eq_some_iff.mp hmap
      cases hpair
      cases v <;> cases hr
      exact ⟨base, hbase, ho, rfl⟩

theorem popAs_eq_ok {α : Type} {sort? : Value → Option α} {mismatch : Value → Fault} {a : α}
    (h : popAs sort? mismatch s = .ok a s₁) :
    ∃ base v, s.frame.stack.slots = base.push v ∧ sort? v = some a ∧ s₁ = s.withOperands base := by
  rcases Spares.pop.bind_cases _ s with ⟨e, s', he, -⟩ | ⟨v, s₂, hpop, heq⟩
  · cases he.symm.trans h
  · obtain ⟨base, hbase, rfl⟩ := pop_eq_ok hpop
    have hsort := heq.symm.trans h
    cases hv : sort? v with
    | none =>
      simp only [hv] at hsort
      cases hsort
    | some b =>
      simp only [hv] at hsort
      cases hsort
      exact ⟨base, v, hbase, hv, rfl⟩

theorem popArray_eq_ok {op : Opcode} {r : ArrayRef} (h : popArray op s = .ok r s₁) :
    ∃ base, s.frame.stack.slots = base.push (.array r) ∧ s₁ = s.withOperands base := by
  rw [popArray_eq] at h
  obtain ⟨base, v, hbase, hr, rfl⟩ := popAs_eq_ok h
  cases v <;> cases hr
  exact ⟨base, hbase, rfl⟩

theorem popIndex_eq_ok {op : Opcode} {n : Int} (h : popIndex op s = .ok n s₁) :
    ∃ base v, s.frame.stack.slots = base.push v ∧ v.toIndex? = some n ∧
      s₁ = s.withOperands base := by
  rw [popIndex_eq] at h
  exact popAs_eq_ok h

end Exec

/-! ## The places that are written to -/

/-- One cell is new or has another content, and all others are as they were. -/
def Heap.Put (target : Cell) (content : Content) (h h' : Heap) : Prop :=
  ∀ cell, h'.content? cell = if cell = target then some content else h.content? cell

theorem Heap.Put.surroundings {target : Cell} {content : Content} {s : Activation} {h : Heap}
    (hput : Put target content s.heap h) :
    Activation.surroundings { s with heap := h } = s.surroundings.put target content := by
  simp only [Activation.surroundings, Surroundings.put]
  rw [funext hput]

theorem Heap.put_newObject (c : Class) (h : Heap) :
    Put (.object ⟨h.objects.size⟩) (.object (.create c)) h ((newObject c).leaves h) :=
  content?_of_objects fun _ => Array.getElem?_push

theorem Heap.put_newArray (n : Nat) (h : Heap) :
    Put (.array ⟨h.arrays.size⟩) (.array (Array.replicate n .null)) h ((newArray n).leaves h) :=
  content?_of_arrays fun _ => Array.getElem?_push

theorem Heap.setField_of_slot {h : Heap} {r : ObjectRef} {o : Instance} {field : String} {k : Nat}
    (ho : h.object? r = some o) (hk : o.cls.fieldSlot? field = some k) (v : Value) :
    ∃ h', setField r field v h = .ok () h' ∧
      Put (.object r) (.object { o with slots := o.slots.setIfInBounds k v }) h h' := by
  let change (o : Instance) : Instance := { o with slots := o.slots.setIfInBounds k v }
  refine ⟨{ h with objects := h.objects.modify r.index change }, ?_,
    content?_of_objects (getElem?_modify_of_some ho change)⟩
  simp only [setField, ho, Instance.slot, hk]
  rfl

/-- A field is not changed, or its slot in the object and nothing else. -/
theorem Heap.setField_cases (r : ObjectRef) (field : String) (v : Value) (h : Heap) :
    (∃ e, setField r field v h = .error e h) ∨
    ∃ o k h', h.object? r = some o ∧ o.cls.fieldSlot? field = some k ∧
      setField r field v h = .ok () h' ∧
      Put (.object r) (.object { o with slots := o.slots.setIfInBounds k v }) h h' := by
  cases ho : h.object? r with
  | none => exact .inl ⟨_, by rw [setField, ho]⟩
  | some o =>
    cases hk : o.cls.fieldSlot? field with
    | none =>
      refine .inl ⟨.fieldNotFound o.cls.name field, ?_⟩
      simp only [setField, ho, Instance.slot, hk]
    | some k =>
      obtain ⟨h', hset, hput⟩ := setField_of_slot ho hk v
      exact .inr ⟨o, k, h', rfl, hk, hset, hput⟩

/-- An element is not changed, or this one and nothing else. -/
theorem Heap.setElement_cases (r : ArrayRef) (index : Int) (v : Value) (h : Heap) :
    (∃ e, setElement r index v h = .error e h) ∨
    ∃ (elements : Array Value) (k : Nat) (h' : Heap), h.arrays[r.index]? = some elements ∧
      index = k ∧ k < elements.size ∧ setElement r index v h = .ok () h' ∧
      Put (.array r) (.array (elements.setIfInBounds k v)) h h' := by
  unfold setElement elementIndex
  by_cases hindex : 0 ≤ index ∧ index < h.length r
  · rw [if_pos hindex]
    cases ha : h.arrays[r.index]? with
    | none =>
      -- what is not allocated has no elements
      simp only [length, elements, ha, Option.getD_none, Array.size_empty] at hindex
      omega
    | some elements =>
      simp only [length, Heap.elements, ha, Option.getD_some] at hindex
      exact .inr ⟨elements, index.toNat, _, rfl, by omega, by omega, rfl,
        content?_of_arrays (getElem?_modify_of_some ha _)⟩
  · rw [if_neg hindex]
    exact .inl ⟨_, rfl⟩

/-- A store to an argument slot changes this one and no other. -/
theorem Frame.argumentSlots_of_setArgument {f g : Frame} {i : Nat} {v : Value}
    (h : f.setArgument i v = .ok g) :
    i < f.argumentSlots.length ∧ g.argumentSlots = f.argumentSlots.set i v := by
  rcases setArgument_cases h with ⟨r, r', hr, rfl, rfl, rfl⟩ | ⟨j, hj, rfl, rfl⟩
  · simp [argumentSlots, hr]
  · cases hr : f.receiver with
    | none => simp [argumentSlots, hr, hj]
    | some r => simp [argumentSlots, hr, hj]

theorem Frame.locals_of_setArgument {f g : Frame} {i : Nat} {v : Value}
    (h : f.setArgument i v = .ok g) : g.locals = f.locals := by
  rcases setArgument_cases h with ⟨r, r', -, -, -, rfl⟩ | ⟨j, -, -, rfl⟩ <;> rfl

/-! ## The actions that write -/

namespace Exec

section
variable (p : Program) (s : Activation)

/-- A store to a variable comes last. -/
theorem onFrameNext_of_ok {f : Frame → Except Fault Frame} {g : Frame} (h : f s.frame = .ok g) :
    (do onFrame f; pure Flow.next : Exec Flow) s = .ok .next { s with frame := g } := by
  simp only [bind, EStateM.bind, onFrame, h]
  rfl

theorem onFrameNext_of_error {f : Frame → Except Fault Frame} {e : Fault}
    (h : f s.frame = .error e) : (do onFrame f; pure Flow.next : Exec Flow) s = .error e s := by
  simp only [bind, EStateM.bind, onFrame, h]

/-- A store to a cell comes last. -/
theorem onHeapNext_of_ok {f : HeapM Unit} {h' : Heap} (h : f s.heap = .ok () h') :
    (do onHeap f; pure Flow.next : Exec Flow) s = .ok .next { s with heap := h' } := by
  simp only [bind, EStateM.bind, onHeap, h]
  rfl

theorem onHeapNext_of_error {f : HeapM Unit} {e : Fault} (h : f s.heap = .error e s.heap) :
    (do onHeap f; pure Flow.next : Exec Flow) s = .error e s := by
  simp only [bind, EStateM.bind, onHeap, h]

/-- What has been done to the heap stays done, also if there is then no room for the result. -/
theorem surroundings_onHeap_push {α : Type} (f : HeapM α) (g : α → Value) :
    ((do let a ← onHeap f; push (g a); pure Flow.next : Exec Flow).leaves s).surroundings =
      Activation.surroundings { s with heap := f.leaves s.heap } := by
  cases h : f s.heap with
  | ok a h' =>
    have heq : (do let a ← onHeap f; push (g a); pure Flow.next : Exec Flow) s =
        (do push (g a); pure Flow.next : Exec Flow) { s with heap := h' } := by
      simp only [bind, EStateM.bind, onHeap, h]
    rw [EStateM.leaves_congr heq, EStateM.leaves_of_ok h]
    exact Spares.pushNext (g a) _
  | error e h' =>
    have heq : (do let a ← onHeap f; push (g a); pure Flow.next : Exec Flow) s =
        .error e { s with heap := h' } := by
      simp only [bind, EStateM.bind, onHeap, h]
    rw [EStateM.leaves_of_error heq, EStateM.leaves_of_error h]

theorem perform_storeLocal (i : Nat) :
    FailsEarly (perform p (.storeLocal i)) s ∨
    ∃ base v s', perform p (.storeLocal i) s = .ok .next s' ∧ s.operands = base ++ [v] ∧
      i < s.frame.locals.size ∧ s'.surroundings = s.surroundings.setLocal i v := by
  rcases Spares.pop.bind_cases _ s with h | ⟨v, s₁, hpop, heq⟩
  · exact .inl h
  · obtain ⟨base, hbase, rfl⟩ := pop_eq_ok hpop
    by_cases hi : i < s.frame.locals.size
    · have hset : (s.withOperands base).frame.setLocal i v = .ok _ := if_pos hi
      refine .inr ⟨base.toList, v, _, heq.trans (onFrameNext_of_ok _ hset),
        by simp [Activation.operands, hbase], hi, ?_⟩
      rw [Activation.surroundings, Array.toList_setIfInBounds]
      rfl
    · have hset : (s.withOperands base).frame.setLocal i v = .error _ := if_neg hi
      exact .inl ⟨_, _, heq.trans (onFrameNext_of_error _ hset), rfl⟩

theorem perform_storeArgument (i : Nat) :
    FailsEarly (perform p (.storeArgument i)) s ∨
    ∃ base v s', perform p (.storeArgument i) s = .ok .next s' ∧ s.operands = base ++ [v] ∧
      i < s.frame.argumentSlots.length ∧ s'.surroundings = s.surroundings.setArgument i v := by
  rcases Spares.pop.bind_cases _ s with h | ⟨v, s₁, hpop, heq⟩
  · exact .inl h
  · obtain ⟨base, hbase, rfl⟩ := pop_eq_ok hpop
    cases hset : (s.withOperands base).frame.setArgument i v with
    | error e => exact .inl ⟨e, _, heq.trans (onFrameNext_of_error _ hset), rfl⟩
    | ok f =>
      obtain ⟨hi, hslots⟩ := Frame.argumentSlots_of_setArgument hset
      have hlocals := Frame.locals_of_setArgument hset
      refine .inr ⟨base.toList, v, _, heq.trans (onFrameNext_of_ok _ hset),
        by simp [Activation.operands, hbase], hi, ?_⟩
      rw [Activation.surroundings, hslots, hlocals]
      rfl

theorem perform_storeField (name : String) :
    FailsEarly (perform p (.storeField name)) s ∨
    ∃ base r v o k s', perform p (.storeField name) s = .ok .next s' ∧
      s.operands = base ++ [.object r, v] ∧ s.heap.object? r = some o ∧
      o.cls.fieldSlot? name = some k ∧ Heap.setField r name v s.heap = .ok () s'.heap ∧
      s'.surroundings =
        s.surroundings.put (.object r) (.object { o with slots := o.slots.setIfInBounds k v }) := by
  rcases Spares.pop.bind_cases _ s with h | ⟨v, s₁, hpop, heq⟩
  · exact .inl h
  · obtain ⟨below, hbelow, rfl⟩ := pop_eq_ok hpop
    rcases (Spares.popObject .stFld).bind_cases _ (s.withOperands below) with
      ⟨e, s', he, hspared⟩ | ⟨⟨r, o⟩, s₂, hobject, heq'⟩
    · exact .inl ⟨e, s', heq.trans he, hspared⟩
    · obtain ⟨base, hbase, -, rfl⟩ := popObject_eq_ok hobject
      -- both operands are taken; nothing has been written yet
      have hsteps := heq.trans heq'
      rcases Heap.setField_cases r name v s.heap with ⟨e, hset⟩ | ⟨o', k, h', ho', hk, hset, hput⟩
      · exact .inl ⟨e, _, hsteps.trans (onHeapNext_of_error _ hset), rfl⟩
      · refine .inr ⟨base.toList, r, v, o', k, _, hsteps.trans (onHeapNext_of_ok _ hset), ?_,
          ho', hk, hset, hput.surroundings (s := s.withOperands base)⟩
        have hbase' : below = base.push (.object r) := hbase
        simp [Activation.operands, hbelow, hbase']

theorem perform_storeElement :
    FailsEarly (perform p .storeElement) s ∨
    ∃ base r index v elements, ∃ k : Nat, ∃ s', perform p .storeElement s = .ok .next s' ∧
      s.operands = base ++ [.array r, index, v] ∧ index.toIndex? = some (k : Int) ∧
      s.heap.arrays[r.index]? = some elements ∧ k < elements.size ∧
      Heap.setElement r k v s.heap = .ok () s'.heap ∧
      s'.surroundings =
        s.surroundings.put (.array r) (.array (elements.setIfInBounds k v)) := by
  rcases Spares.pop.bind_cases _ s with h | ⟨v, s₁, hpop, heq⟩
  · exact .inl h
  · obtain ⟨below, hbelow, rfl⟩ := pop_eq_ok hpop
    rcases (Spares.popIndex .stElem).bind_cases _ (s.withOperands below) with
      ⟨e, s', he, hspared⟩ | ⟨n, s₂, hindex, heq'⟩
    · exact .inl ⟨e, s', heq.trans he, hspared⟩
    · obtain ⟨middle, index, hmiddle, hn, rfl⟩ := popIndex_eq_ok hindex
      rcases (Spares.popArray .stElem).bind_cases _ (s.withOperands middle) with
        ⟨e, s', he, hspared⟩ | ⟨r, s₃, harray, heq''⟩
      · exact .inl ⟨e, s', (heq.trans heq').trans he, hspared⟩
      · obtain ⟨base, hbase, rfl⟩ := popArray_eq_ok harray
        have hsteps := (heq.trans heq').trans heq''
        rcases Heap.setElement_cases r n v s.heap with
          ⟨e, hset⟩ | ⟨elements, k, h', ha, rfl, hk, hset, hput⟩
        · exact .inl ⟨e, _, hsteps.trans (onHeapNext_of_error _ hset), rfl⟩
        · refine .inr ⟨base.toList, r, index, v, elements, k, _,
            hsteps.trans (onHeapNext_of_ok _ hset), ?_, hn, ha, hk, hset,
            hput.surroundings (s := s.withOperands base)⟩
          have hmiddle' : below = middle.push index := hmiddle
          have hbase' : middle = base.push (.array r) := hbase
          simp [Activation.operands, hbelow, hmiddle', hbase']

theorem leaves_create (c : Class) :
    ((perform p (.create c)).leaves s).surroundings =
      s.surroundings.put (.object ⟨s.heap.objects.size⟩) (.object (.create c)) :=
  (surroundings_onHeap_push s _ _).trans (Heap.put_newObject c s.heap).surroundings

theorem leaves_createArray :
    FailsEarly (perform p .createArray) s ∨
    ∃ base index, ∃ n : Nat, s.operands = base ++ [index] ∧ index.toIndex? = some (n : Int) ∧
      n ≤ p.limits.arrayLength ∧
      ((perform p .createArray).leaves s).surroundings =
        s.surroundings.put (.array ⟨s.heap.arrays.size⟩) (.array (Array.replicate n .null)) := by
  rcases (Spares.popIndex .newArr).bind_cases _ s with h | ⟨n, s₁, hindex, heq⟩
  · exact .inl h
  · obtain ⟨base, index, hbase, hn, rfl⟩ := popIndex_eq_ok hindex
    by_cases hlength : 0 ≤ n ∧ n ≤ p.limits.arrayLength
    · have hcheck : p.limits.checkLength n = .ok n.toNat := if_pos hlength
      refine .inr ⟨base.toList, index, n.toNat, by simp [Activation.operands, hbase], ?_, ?_, ?_⟩
      · rw [hn, Int.toNat_of_nonneg hlength.1]
      · omega
      · rw [hcheck] at heq
        have hleaves := (congrArg Activation.surroundings (EStateM.leaves_congr heq)).trans
          (surroundings_onHeap_push (s.withOperands base) (Heap.newArray n.toNat) Value.array)
        exact hleaves.trans (Heap.put_newArray n.toNat s.heap).surroundings
    · have hcheck : p.limits.checkLength n = .error _ := if_neg hlength
      rw [hcheck] at heq
      exact .inl ⟨_, s.withOperands base, heq, rfl⟩

/-- A call leaves the heap that the native body leaves, and nothing else changes. -/
theorem leaves_dispatch (c : Call) :
    ((dispatch p c).leaves s).surroundings =
      Activation.surroundings { s with heap := c.heapAfter p s.heap } := by
  unfold dispatch Call.heapAfter
  cases c.method.body with
  | native name => exact surroundings_onHeap_push s _ id
  | interpreted code => rfl

end

end Exec

/-! ## Calls -/

section
variable {p : Program} {s : Activation} {i : Instruction} {m : Method}

/-- No call is made without enough operands. -/
theorem Activation.callOf?_call_of_lt (hm : i.methodOperand p = .ok m)
    (h : s.frame.stack.depth < m.arity) : s.callOf? p i .call = none := by
  have hguard : guard (m.arity ≤ s.operands.length) = (none : Option Unit) :=
    if_neg (Nat.not_le.mpr h)
  unfold callOf?
  dsimp only
  rw [Instruction.addressed?_of_ok hm, Option.bind_eq_bind, Option.bind_some, hguard]
  rfl

theorem Activation.callOf?_callVirt_of_lt (hm : i.methodOperand p = .ok m)
    (h : s.frame.stack.depth < m.arity + 1) : s.callOf? p i .callVirt = none := by
  have hreceiver : s.operands.reverse[m.arity]? = none := by
    rw [List.getElem?_eq_none_iff, List.length_reverse]
    exact Nat.le_of_lt_succ h
  simp [callOf?, Instruction.addressed?, hm, Except.toOption, hreceiver]

theorem surroundings_call (hm : i.methodOperand p = .ok m) :
    ((Exec.perform p (.call m)).leaves s).surroundings =
      Activation.surroundings { s with heap := s.heapAfterCall p i .call } := by
  rw [Activation.heapAfterCall]
  rcases Nat.lt_or_ge s.frame.stack.depth m.arity with hlt | hge
  · rw [EStateM.leaves_of_error (perform_call_of_lt hlt), Activation.callOf?_call_of_lt hm hlt]
    rfl
  · obtain ⟨base, args, hsize, hstack⟩ := Stack.exists_arguments hge
    rw [EStateM.leaves_congr (perform_call hsize.symm hstack), Exec.leaves_dispatch,
      Activation.callOf?_call hm hsize.symm hstack]
    rfl

theorem surroundings_callVirtual (hm : i.methodOperand p = .ok m) :
    ((Exec.perform p (.callVirtual m)).leaves s).surroundings =
      Activation.surroundings { s with heap := s.heapAfterCall p i .callVirt } := by
  rw [Activation.heapAfterCall]
  rcases Nat.lt_or_ge s.frame.stack.depth (m.arity + 1) with hlt | hge
  · obtain ⟨slots, h⟩ := perform_callVirtual_of_lt (p := p) hlt
    rw [EStateM.leaves_of_error h, Activation.callOf?_callVirt_of_lt hm hlt]
    rfl
  · obtain ⟨base, v, args, hsize, hstack⟩ := Stack.exists_receiver hge
    have hcall := Activation.callOf?_callVirt hm hsize.symm hstack
    cases hfound : v.toObject?.bind s.heap.object? with
    | none =>
      have hnone : s.callOf? p i .callVirt = none := by
        rw [hcall, Option.bind_eq_bind, Option.bind_eq_none_iff]
        intro r hr
        rw [hr, Option.bind_some] at hfound
        rw [hfound]
        rfl
      rw [EStateM.leaves_of_error (perform_callVirtual_of_none hfound hsize.symm hstack), hnone]
      rfl
    | some o =>
      obtain ⟨r, hr, ho⟩ := Option.bind_eq_some_iff.mp hfound
      cases v <;> cases hr
      have hperform := perform_callVirtual (p := p) ho hsize.symm hstack
      simp only [Value.toObject?, ho, Option.bind_eq_bind, Option.bind_some] at hcall
      cases htarget : p.registry.resolve? o.cls m.name with
      | none =>
        rw [htarget] at hperform hcall
        rw [EStateM.leaves_of_error hperform, hcall]
        rfl
      | some target =>
        rw [htarget] at hperform hcall
        let c : Call := ⟨target, some r, args⟩
        rw [EStateM.leaves_congr (y := Exec.dispatch p c) hperform, Exec.leaves_dispatch, hcall]
        rfl

end

/-! ## The instruction -/

section
variable {p : Program} {s : Activation} {i : Instruction} {op : Opcode}

/-- The action of the instruction that is executed is performed, unless its operands cannot be
looked up. -/
theorem Activation.Executes.step_eq (h : s.Executes i op) (p : Program) :
    ∃ codeSize, step p s =
      match i.actionOf p codeSize op with
      | .ok a => Exec.perform p a s
      | .error e => .error e s := by
  obtain ⟨code, hb, hi, hop⟩ := h
  refine ⟨code.size, ?_⟩
  simp only [step, hb, hi, Instruction.action, hop]
  cases i.actionOf p code.size op <;> rfl

theorem Activation.Executes.step_of_actionOf (h : s.Executes i op) (p : Program) {a : Action}
    (ha : ∀ codeSize, i.actionOf p codeSize op = .ok a) : step p s = Exec.perform p a s := by
  obtain ⟨codeSize, hstep⟩ := h.step_eq p
  rw [hstep, ha codeSize]

/-- An instruction whose operand can be looked up performs the action with what was found. -/
theorem Activation.Executes.step_of_operand {α : Type} (h : s.Executes i op) (p : Program)
    (make : α → Action) {x : Except Fault α} {a : α}
    (hmake : ∀ codeSize, i.actionOf p codeSize op = make <$> x) (hx : x = .ok a) :
    step p s = Exec.perform p (make a) s := by
  refine h.step_of_actionOf p fun codeSize => ?_
  rw [hmake, hx]
  rfl

/-- An instruction fails early, or what follows from performing its action holds. -/
theorem Activation.Executes.failsEarly_or (h : s.Executes i op) (p : Program) {Q : Prop}
    (hq : ∀ codeSize a, i.actionOf p codeSize op = .ok a → step p s = Exec.perform p a s →
      Exec.FailsEarly (Exec.perform p a) s ∨ Q) :
    Exec.FailsEarly (step p) s ∨ Q := by
  obtain ⟨codeSize, hstep⟩ := h.step_eq p
  cases ha : i.actionOf p codeSize op with
  | error e =>
    rw [ha] at hstep
    exact .inl ⟨e, s, hstep, rfl⟩
  | ok a =>
    rw [ha] at hstep
    exact (hq codeSize a ha hstep).imp_left (.congr hstep)

/-- A call changes what the native body changes that it enters. -/
theorem surroundings_of_call (hcall : op.isCall = true) (h : s.Executes i op) :
    ((step p).leaves s).surroundings =
      Activation.surroundings { s with heap := s.heapAfterCall p i op } := by
  obtain ⟨codeSize, hstep⟩ := h.step_eq p
  cases hm : i.methodOperand p with
  | error e =>
    have hnone : i.addressed? p = none := by rw [Instruction.addressed?, hm]; rfl
    cases op <;> cases hcall
    all_goals
      simp only [Instruction.actionOf, hm] at hstep
      rw [EStateM.leaves_of_error hstep, Activation.heapAfterCall, Activation.callOf?, hnone]
      rfl
  | ok m =>
    cases op <;> cases hcall
    all_goals simp only [Instruction.actionOf, hm] at hstep
    · rw [EStateM.leaves_congr (y := Exec.perform p (.call m)) hstep, surroundings_call hm]
    · rw [EStateM.leaves_congr (y := Exec.perform p (.callVirtual m)) hstep,
        surroundings_callVirtual hm]

/-- An instruction that does not write spares the surroundings, and so does one that is none. -/
theorem surroundings_of_step (h : ∀ i op, s.Executes i op → op.writes = false) :
    ((step p).leaves s).surroundings = s.surroundings := by
  cases hb : s.frame.method.body with
  | native name => rw [EStateM.leaves_of_error (step_of_native hb)]
  | interpreted code =>
    cases hi : code[s.frame.pc]? with
    | none => rw [EStateM.leaves_of_ok (step_at_end hb hi)]
    | some i =>
      cases ha : i.action p code.size with
      | error e => rw [EStateM.leaves_of_error (step_of_lookup_error hb hi ha)]
      | ok a =>
        rw [EStateM.leaves_congr (step_of_action hb hi ha)]
        unfold Instruction.action at ha
        cases hop : i.opcode? with
        | none => rw [hop] at ha; cases ha
        | some op =>
          rw [hop] at ha
          have hwrites := h i op ⟨code, hb, hi, hop⟩
          exact Exec.Spares.perform p ((Instruction.writes_of_actionOf ha).trans hwrites) s

end

/-- **Every instruction changes only what it names.** A store fails and changes nothing, or it puts
the operand on top into the one variable, field or element that it names. A new object or array is a
cell that was not there before, full of nulls. A call changes what the native body changes that it
enters, and no other opcode changes anything but operands. -/
theorem step_frame_law (p : Program) (s : Activation) :
    let s' := (step p).leaves s
    (s'.frame.method = s.frame.method ∧ s'.frame.pc = s.frame.pc ∧
      s'.frame.stack.limit = s.frame.stack.limit ∧
      s'.frame.receiver.isSome = s.frame.receiver.isSome) ∧
    ((∀ i op, s.Executes i op → op.writes = false) → s'.surroundings = s.surroundings) ∧
    (∀ i, s.Executes i .stLoc → Exec.FailsEarly (step p) s ∨
      ∃ n base v, step p s = .ok .next s' ∧ i.operand 0 = .ok n ∧ s.operands = base ++ [v] ∧
        n < s.frame.locals.size ∧ s'.surroundings = s.surroundings.setLocal n v) ∧
    (∀ i, s.Executes i .stArg → Exec.FailsEarly (step p) s ∨
      ∃ n base v, step p s = .ok .next s' ∧ i.operand 0 = .ok n ∧ s.operands = base ++ [v] ∧
        n < s.frame.argumentCount ∧ s'.surroundings = s.surroundings.setArgument n v) ∧
    (∀ i, s.Executes i .stFld → Exec.FailsEarly (step p) s ∨
      ∃ name base r v o k, step p s = .ok .next s' ∧ i.stringOperand p = .ok name ∧
        s.operands = base ++ [.object r, v] ∧ s.heap.object? r = some o ∧
        o.cls.fieldSlot? name = some k ∧ (s.heap.Sound → k < o.slots.size) ∧
        s'.surroundings =
          s.surroundings.put (.object r) (.object ⟨o.cls, o.slots.setIfInBounds k v⟩)) ∧
    (∀ i, s.Executes i .stElem → Exec.FailsEarly (step p) s ∨
      ∃ base r index v elements, ∃ k : Nat, step p s = .ok .next s' ∧
        s.operands = base ++ [.array r, index, v] ∧ index.toIndex? = some (k : Int) ∧
        s.heap.arrays[r.index]? = some elements ∧ k < elements.size ∧
        s'.surroundings =
          s.surroundings.put (.array r) (.array (elements.setIfInBounds k v))) ∧
    (∀ i, s.Executes i .newObj → Exec.FailsEarly (step p) s ∨
      ∃ c r, i.classOperand p = .ok c ∧ s.heap.content? (.object r) = none ∧
        s'.surroundings =
          s.surroundings.put (.object r) (.object ⟨c, Array.replicate c.fieldCount .null⟩)) ∧
    (∀ i, s.Executes i .newArr → Exec.FailsEarly (step p) s ∨
      ∃ base index r, ∃ n : Nat, s.operands = base ++ [index] ∧
        index.toIndex? = some (n : Int) ∧ s.heap.content? (.array r) = none ∧
        s'.surroundings = s.surroundings.put (.array r) (.array (Array.replicate n .null))) ∧
    (∀ i op, op.isCall = true → s.Executes i op →
      s'.surroundings =
        { s.surroundings with cells := (s.heapAfterCall p i op).content? }) := by
  intro s'
  have hcontinues : s.frame.Continues s'.frame := step_keeps Frame.continues_law p s
  have hpc : s'.frame.pc = s.frame.pc := step_keeps Frame.pc_law p s
  -- the operands of the instruction are looked up first, then its action is performed; both stages
  -- may fail early
  refine ⟨⟨hcontinues.method, hpc, hcontinues.limit, hcontinues.receiver⟩, surroundings_of_step,
    fun i h => ?stLoc, fun i h => ?stArg, fun i h => ?stFld, fun i h => ?stElem,
    fun i h => ?newObj, fun i h => ?newArr, fun i op hcall h => ?calls⟩
  case stLoc =>
    refine h.failsEarly_or p fun codeSize a ha heq => ?_
    obtain ⟨n, hn, rfl⟩ := ok_of_map ha
    refine (Exec.perform_storeLocal p s n).imp_right ?_
    rintro ⟨base, v, t, hok, hops, hlt, hset⟩
    obtain rfl : t = s' := (EStateM.leaves_of_ok (heq.trans hok)).symm
    exact ⟨n, base, v, heq.trans hok, hn, hops, hlt, hset⟩
  case stArg =>
    refine h.failsEarly_or p fun codeSize a ha heq => ?_
    obtain ⟨n, hn, rfl⟩ := ok_of_map ha
    refine (Exec.perform_storeArgument p s n).imp_right ?_
    rintro ⟨base, v, t, hok, hops, hlt, hset⟩
    obtain rfl : t = s' := (EStateM.leaves_of_ok (heq.trans hok)).symm
    rw [← s.frame.argumentCount_eq] at hlt
    exact ⟨n, base, v, heq.trans hok, hn, hops, hlt, hset⟩
  case stFld =>
    refine h.failsEarly_or p fun codeSize a ha heq => ?_
    obtain ⟨name, hname, rfl⟩ := ok_of_map ha
    refine (Exec.perform_storeField p s name).imp_right ?_
    rintro ⟨base, r, v, o, k, t, hok, hops, ho, hk, -, hput⟩
    obtain rfl : t = s' := (EStateM.leaves_of_ok (heq.trans hok)).symm
    have hlt : s.heap.Sound → k < o.slots.size := fun hsound =>
      (hsound.object? ho).fieldSlot?_lt hk
    exact ⟨name, base, r, v, o, k, heq.trans hok, hname, hops, ho, hk, hlt, hput⟩
  case stElem =>
    refine h.failsEarly_or p fun codeSize a ha heq => ?_
    cases ha
    refine (Exec.perform_storeElement p s).imp_right ?_
    rintro ⟨base, r, index, v, elements, k, t, hok, hops, hk, ha, hlt, -, hput⟩
    obtain rfl : t = s' := (EStateM.leaves_of_ok (heq.trans hok)).symm
    exact ⟨base, r, index, v, elements, k, heq.trans hok, hops, hk, ha, hlt, hput⟩
  case newObj =>
    refine h.failsEarly_or p fun codeSize a ha heq => ?_
    obtain ⟨c, hc, rfl⟩ := ok_of_map ha
    have hput := Exec.leaves_create p s c
    rw [← EStateM.leaves_congr heq] at hput
    exact .inr ⟨c, ⟨s.heap.objects.size⟩, hc, by simp [Heap.content?, Heap.object?], hput⟩
  case newArr =>
    refine h.failsEarly_or p fun codeSize a ha heq => ?_
    cases ha
    refine (Exec.leaves_createArray p s).imp_right ?_
    rintro ⟨base, index, n, hops, hn, hle, hput⟩
    rw [← EStateM.leaves_congr heq] at hput
    exact ⟨base, index, ⟨s.heap.arrays.size⟩, n, hops, hn, by simp [Heap.content?], hput⟩
  case calls => exact surroundings_of_call hcall h

/-! A store to a field that hides another one, on an object that lies on the stack twice. -/

namespace Aliased

def field : Field := { name := "value", type := .primitive .int32 }

/-- The class whose field is hidden. -/
def outer : Class := .derive ⟨0⟩ (({ name := "Outer" } : ClassDecl).addField field) none

/-- The class whose field hides the other one. -/
def inner : Class := .derive ⟨1⟩ (({ name := "Inner" } : ClassDecl).addField field) (some outer)

def program : Program where
  strings := #["value"]
  host := .basic

def instruction : Instruction := .of .stFld [0]

/-- Two objects, the first of them twice on the stack, below the value. -/
def storing : Activation where
  frame :=
    { Frame.enter (.interpreted "Store" .void [] [] #[instruction] .everyone) none #[] 3
      with stack := ⟨#[.object ⟨0⟩, .object ⟨0⟩, .int32 7], 3⟩ }
  heap := { objects := #[.create inner, .create inner] }

end Aliased

theorem step_frame_law_aliased :
    ((step Aliased.program).leaves Aliased.storing).surroundings =
      Aliased.storing.surroundings.put (.object ⟨0⟩)
        (.object ⟨Aliased.inner, #[.null, .int32 7]⟩) := by
  have hexecutes : Aliased.storing.Executes Aliased.instruction .stFld := ⟨_, rfl, rfl, rfl⟩
  rcases (step_frame_law Aliased.program Aliased.storing).2.2.2.2.1 _ hexecutes with
    ⟨e, s', hfails, -⟩ | ⟨name, base, r, v, o, k, -, hname, hops, ho, hk, -, hput⟩
  · cases hfails
  · cases hname
    have hreverse := congrArg List.reverse hops
    simp only [List.reverse_append, List.reverse_cons, List.reverse_nil, List.nil_append,
      List.cons_append] at hreverse
    obtain ⟨rfl, hrest⟩ : Value.int32 7 = v ∧ _ := List.cons.inj hreverse
    obtain ⟨hr, -⟩ : Value.object ⟨0⟩ = .object r ∧ _ := List.cons.inj hrest
    cases hr
    obtain rfl : Instance.create Aliased.inner = o := Option.some.inj ho
    have hslot : (Instance.create Aliased.inner).cls.fieldSlot? "value" = some 1 := by decide
    obtain rfl : 1 = k := Option.some.inj (hslot.symm.trans hk)
    exact hput

end ObjectMachine
