import ObjectMachine.Proofs.Writes

/-!
# What a call hands over

The arguments of a call are pushed one after the other, the receiver of a virtual call before them.
The call takes them off the stack in one piece, so they stand in the frame of the callee in the
order in which they were pushed, however many there are. How many are taken is the arity of the
method that the instruction addresses, also where the receiver selects another method.

`Call.IsMade` says what becomes of a call, for interpreted and for native methods, and `Frame.Finds`
what the code of the callee finds in its frame. A frame has one row of argument slots, with the
receiver in front if there is one, so both cases of `Frame.Finds` come down to the row
(`Frame.argument_eq`).
-/

namespace ObjectMachine

/-- Puts values on the stack, one after the other. -/
def Exec.pushAll (values : List Value) : Exec Unit := values.forM push

/-- The current instruction of `s` makes a call, and `s₀` is left behind it. An interpreted method
is entered with a frame of its own, if the limits allow it, and `s₀` waits. A native body is given
the receiver and the arguments at once, and its result is put on the stack of `s₀`. -/
structure Call.IsMade (p : Program) (c : Call) (s s₀ : Activation) : Prop where
  interpreted : ∀ code, c.method.body = .interpreted code → step p s = .ok (.call c) s₀
  entered : ∀ code callers steps, c.method.body = .interpreted code →
    exhausted? p steps = none → callers.count + 1 < p.limits.callDepth →
      tick p ⟨s.frame, callers, s.heap, steps⟩ =
        .running ⟨.enter c.method c.receiver c.arguments p.limits.stackSize,
          callers.push s₀.frame, s₀.heap, steps + 1⟩
  native : ∀ name, c.method.body = .native name →
    step p s =
      match p.host.native name c.receiver c.arguments s₀.heap with
      | .error e h => .error e { s₀ with heap := h }
      | .ok v h =>
        if s₀.frame.stack.depth < s₀.room then
          .ok .next { s₀.withOperands (s₀.frame.stack.slots.push v) with heap := h }
        else .error .stackOverflow { s₀ with heap := h }

/-- What the code of a method finds in its frame, at any position and with any operands, as long as
it has not stored anything in the variables: the given values in the argument slots, nothing behind
them, and null in every local. -/
structure Frame.Finds (f : Frame) (slots : List Value) : Prop where
  argument : ∀ (p : Program) (s : Activation) (i : Instruction) (j : Nat) (v : Value),
    s.frame.argumentSlots = f.argumentSlots → s.Executes i .ldArg → i.operand 0 = .ok j →
    slots[j]? = some v → s.frame.stack.depth < s.room →
      step p s = .ok .next (s.withOperands (s.frame.stack.slots.push v))
  beyond : ∀ (p : Program) (s : Activation) (i : Instruction) (j : Nat),
    s.frame.argumentSlots = f.argumentSlots → s.Executes i .ldArg → i.operand 0 = .ok j →
    slots.length ≤ j →
      step p s = .error (.indexOutOfRange .arguments j slots.length) s
  locals : f.locals.size = f.method.locals.length ∧ ∀ v ∈ f.locals, v = .null
  localValue : ∀ (p : Program) (s : Activation) (i : Instruction) (j : Nat),
    s.frame.locals = f.locals → s.Executes i .ldLoc → i.operand 0 = .ok j →
    j < f.method.locals.length → s.frame.stack.depth < s.room →
      step p s = .ok .next (s.withOperands (s.frame.stack.slots.push .null))

/-! ## Pushing -/

/-- Values are pushed if there is room for them, and then they are on top in that order. -/
theorem Exec.pushAll_eq_ok_iff {values : List Value} {s₀ s : Activation} :
    pushAll values s₀ = .ok () s ↔
      (values = [] ∨ s₀.frame.stack.depth + values.length ≤ s₀.room) ∧
        s = s₀.withOperands (s₀.frame.stack.slots ++ values.toArray) := by
  induction values generalizing s₀ with
  | nil =>
    have hsame : s₀.withOperands (s₀.frame.stack.slots ++ [].toArray) = s₀ := by
      rw [Array.append_empty]
      rfl
    rw [hsame]
    constructor
    · rintro ⟨⟩
      exact ⟨.inl rfl, rfl⟩
    · rintro ⟨-, rfl⟩
      rfl
  | cons v rest ih =>
    have hstep : pushAll (v :: rest) = push v >>= fun _ => pushAll rest := rfl
    by_cases hroom : s₀.frame.stack.depth < s₀.frame.stack.limit
    · -- the rest goes on top of the first value
      have hpush : pushAll (v :: rest) s₀ =
          pushAll rest (s₀.withOperands (s₀.frame.stack.slots.push v)) := by
        simp only [hstep, bind, EStateM.bind, push_of_lt v hroom]
      have happend : s₀.frame.stack.slots.push v ++ rest.toArray =
          s₀.frame.stack.slots ++ (v :: rest).toArray := by simp
      have hdepth : (s₀.withOperands (s₀.frame.stack.slots.push v)).frame.stack.depth =
          s₀.frame.stack.depth + 1 := Array.size_push _
      rw [hpush, ih, hdepth]
      change (_ ∨ s₀.frame.stack.depth + 1 + rest.length ≤ s₀.room) ∧
        s = s₀.withOperands (s₀.frame.stack.slots.push v ++ rest.toArray) ↔ _
      rw [happend, List.length_cons]
      refine and_congr_left fun _ => ⟨fun h => .inr ?_, fun h => ?_⟩
      · change _ ≤ s₀.frame.stack.limit
        rcases h with rfl | h
        · exact hroom
        · change _ ≤ s₀.frame.stack.limit at h
          omega
      · rcases h with h | h
        · cases h
        · exact .inr (by omega)
    · have herror : pushAll (v :: rest) s₀ = .error .stackOverflow s₀ := by
        simp only [hstep, bind, EStateM.bind, push, onStack,
          Stack.push_of_le v (Nat.not_lt.mp hroom)]
      rw [herror]
      constructor
      · rintro ⟨⟩
      · rintro ⟨h, -⟩
        rcases h with h | h
        · cases h
        · change _ ≤ s₀.frame.stack.limit at h
          rw [List.length_cons] at h
          omega

/-! ## Argument slots and locals -/

/-- The argument slots are one row, and behind it there is nothing. -/
theorem Frame.argument_eq (f : Frame) (i : Nat) :
    f.argument i =
      match f.argumentSlots[i]? with
      | some v => .ok v
      | none => .error (f.noArgument i) := by
  cases hv : f.argumentSlots[i]? with
  | some v => exact argument_eq_ok_iff.mpr hv
  | none =>
    unfold argument argumentSlots at *
    cases hr : f.receiver with
    | none =>
      rw [hr] at hv
      simp_all
    | some r =>
      rw [hr] at hv
      cases i <;> simp_all

/-- An operand is a word. -/
theorem Instruction.operand_lt {i : Instruction} {n k : Nat} (h : i.operand n = .ok k) :
    k < UInt32.size := by
  unfold operand at h
  split at h
  · cases h
    exact UInt32.toNat_lt_size _
  · cases h

/-- An index that is a word is shown as it is. -/
theorem Fault.outOfRange_of_lt {index : Nat} (h : index < UInt32.size) (what : Indexed)
    (length : Nat) : outOfRange what index length = .indexOutOfRange what index length := by
  rw [UInt32.size] at h
  rw [outOfRange, Int.bmod_eq_of_le (by omega) (by omega)]

section
variable {p : Program} {s : Activation} {i : Instruction} {j : Nat} {v : Value}

theorem step_ldArg (hexecutes : s.Executes i .ldArg) (hj : i.operand 0 = .ok j)
    (hv : s.frame.argumentSlots[j]? = some v) (hroom : s.frame.stack.depth < s.room) :
    step p s = .ok .next (s.withOperands (s.frame.stack.slots.push v)) := by
  have hstep := hexecutes.step_of_operand p .loadArgument (fun _ => rfl) hj
  have hargument : s.frame.argument j = .ok v := Frame.argument_eq_ok_iff.mpr hv
  rw [hstep, ← Exec.pushNext_of_lt hroom]
  simp only [Exec.perform, bind, EStateM.bind, Exec.read, hargument]

theorem step_ldArg_of_le (hexecutes : s.Executes i .ldArg) (hj : i.operand 0 = .ok j)
    (hle : s.frame.argumentSlots.length ≤ j) :
    step p s = .error (.indexOutOfRange .arguments j s.frame.argumentSlots.length) s := by
  have hstep := hexecutes.step_of_operand p .loadArgument (fun _ => rfl) hj
  have hargument : s.frame.argument j = .error (s.frame.noArgument j) := by
    rw [Frame.argument_eq, List.getElem?_eq_none hle]
  rw [hstep, ← Fault.outOfRange_of_lt (Instruction.operand_lt hj),
    ← s.frame.argumentCount_eq]
  simp only [Exec.perform, bind, EStateM.bind, Exec.read, hargument]
  rfl

theorem step_ldLoc (hexecutes : s.Executes i .ldLoc) (hj : i.operand 0 = .ok j)
    (hv : s.frame.locals[j]? = some v) (hroom : s.frame.stack.depth < s.room) :
    step p s = .ok .next (s.withOperands (s.frame.stack.slots.push v)) := by
  have hstep := hexecutes.step_of_operand p .loadLocal (fun _ => rfl) hj
  have hlocal : s.frame.localValue j = .ok v := by rw [Frame.localValue, hv]
  rw [hstep, ← Exec.pushNext_of_lt hroom]
  simp only [Exec.perform, bind, EStateM.bind, Exec.read, hlocal]

end

/-- The frame in which a method begins has the receiver and the arguments of the call in its
argument slots. -/
theorem Frame.finds_enter (m : Method) (receiver : Option ObjectRef) (values : List Value)
    (stackLimit : Nat) :
    (enter m receiver values.toArray stackLimit).Finds
      ((receiver.map Value.object).toList ++ values) where
  argument p s i j v hslots hexecutes hj hv hroom := by
    refine step_ldArg hexecutes hj ?_ hroom
    rw [hslots]
    exact hv
  beyond p s i j hslots hexecutes hj hle := by
    have hlength : s.frame.argumentSlots.length =
        ((receiver.map Value.object).toList ++ values).length := by rw [hslots]; rfl
    rw [← hlength] at hle ⊢
    exact step_ldArg_of_le hexecutes hj hle
  locals := by simp [enter]
  localValue p s i j hlocals hexecutes hj hlt hroom := by
    refine step_ldLoc hexecutes hj ?_ hroom
    have hlt' : j < m.locals.length := hlt
    rw [hlocals]
    simp [enter, hlt']

/-! ## The call -/

theorem Exec.dispatch_of_interpreted (p : Program) {c : Call} {code : Array Instruction}
    (h : c.method.body = .interpreted code) (s : Activation) :
    dispatch p c s = .ok (.call c) s := by
  rw [dispatch, h]
  rfl

/-- A call that is dispatched is made. -/
theorem Call.isMade_of_dispatch {p : Program} {c : Call} {s s₀ : Activation}
    (h : step p s = Exec.dispatch p c s₀) : c.IsMade p s s₀ where
  interpreted code hb := by rw [h, Exec.dispatch_of_interpreted p hb]
  entered code callers steps hb hbudget hdepth := by
    rw [tick_of_not_exhausted hbudget, h, Exec.dispatch_of_interpreted p hb]
    exact enterCall_of_lt c s₀.frame s₀.heap (steps + 1) hdepth
  native name hb := by
    rw [h, Exec.dispatch, hb]
    simp only [bind, EStateM.bind, Exec.onHeap]
    cases p.host.native name c.receiver c.arguments s₀.heap with
    | error e heap => rfl
    | ok v heap =>
      dsimp only
      by_cases hroom : s₀.frame.stack.depth < s₀.room
      · rw [if_pos hroom]
        exact Exec.pushNext_of_lt (s := { s₀ with heap }) hroom v
      · rw [if_neg hroom, Exec.push, Exec.onStack, Stack.push_of_le v (Nat.not_lt.mp hroom)]

section
variable {p : Program} {i : Instruction} {k index : Nat} {m : Method} {values : List Value}
  {s₀ s : Activation}

theorem Instruction.methodOperand_eq (hk : i.operand 0 = .ok k) (hindex : i.operand 1 = .ok index)
    (hm : p.registry.methodAt index k = .ok m) : i.methodOperand p = .ok m := by
  rw [methodOperand, hk, hindex]
  exact hm

/-- A call takes what was pushed last and leaves the stack as it was before. -/
theorem step_call_of_pushAll (hm : i.methodOperand p = .ok m) (harity : m.arity = values.length)
    (hpush : Exec.pushAll values s₀ = .ok () s) (hexecutes : s.Executes i .call) :
    step p s = Exec.dispatch p ⟨m, none, values.toArray⟩ s₀ := by
  obtain ⟨-, rfl⟩ := Exec.pushAll_eq_ok_iff.mp hpush
  have hstep := hexecutes.step_of_operand p .call (fun _ => rfl) hm
  rw [hstep]
  exact perform_call harity rfl

/-- A virtual call also takes the receiver below the arguments, which selects the method. -/
theorem step_callVirt_of_pushAll {r : ObjectRef} {o : Instance} {target : Method}
    (hm : i.methodOperand p = .ok m) (harity : m.arity = values.length)
    (hpush : Exec.pushAll (.object r :: values) s₀ = .ok () s) (hexecutes : s.Executes i .callVirt)
    (ho : s₀.heap.object? r = some o) (htarget : p.registry.resolve? o.cls m.name = some target) :
    step p s = Exec.dispatch p ⟨target, some r, values.toArray⟩ s₀ := by
  obtain ⟨-, rfl⟩ := Exec.pushAll_eq_ok_iff.mp hpush
  have hstep := hexecutes.step_of_operand p .callVirtual (fun _ => rfl) hm
  have hstack : s₀.frame.stack.slots ++ (Value.object r :: values).toArray =
      s₀.frame.stack.slots.push (.object r) ++ values.toArray := by simp
  have hperform := perform_callVirtual (p := p)
    (s := s₀.withOperands (s₀.frame.stack.slots ++ (Value.object r :: values).toArray))
    (o := o) ho harity hstack
  rw [htarget] at hperform
  rw [hstep]
  exact hperform

end

/-- **Arguments arrive in the order in which they were pushed.** A call takes the values off the
stack and hands them over in this order; a virtual call hands over the object below them as the
receiver. In the frame with which an interpreted method begins, they are the arguments from 0 on,
with nothing behind them, and every local is null. -/
theorem arguments_arrive_in_order {p : Program} {i : Instruction} {k index : Nat} {m : Method}
    (values : List Value) (hk : i.operand 0 = .ok k) (hindex : i.operand 1 = .ok index)
    (hm : p.registry.methodAt index k = .ok m) (harity : m.arity = values.length) :
    (∀ pushed s₀, s₀.frame.stack.depth + pushed.length ≤ s₀.room →
      ∃ s, Exec.pushAll pushed s₀ = .ok () s) ∧
    (∀ s₀ s, Exec.pushAll values s₀ = .ok () s → s.Executes i .call →
      Call.IsMade p ⟨m, none, values.toArray⟩ s s₀ ∧
      ∀ limit, (Frame.enter m none values.toArray limit).Finds values) ∧
    (∀ s₀ s r o target, Exec.pushAll (.object r :: values) s₀ = .ok () s → s.Executes i .callVirt →
      s₀.heap.object? r = some o → p.registry.resolve? o.cls m.name = some target →
      Call.IsMade p ⟨target, some r, values.toArray⟩ s s₀ ∧
      ∀ limit, (Frame.enter target (some r) values.toArray limit).Finds (.object r :: values)) := by
  have hmethod := Instruction.methodOperand_eq hk hindex hm
  refine ⟨fun pushed s₀ hroom => ?_, fun s₀ s hpush hexecutes => ?_,
    fun s₀ s r o target hpush hexecutes ho htarget => ?_⟩
  · exact ⟨_, Exec.pushAll_eq_ok_iff.mpr ⟨.inr hroom, rfl⟩⟩
  · have hstep := step_call_of_pushAll hmethod harity hpush hexecutes
    exact ⟨Call.isMade_of_dispatch hstep, fun limit => Frame.finds_enter m none values limit⟩
  · have hstep := step_callVirt_of_pushAll hmethod harity hpush hexecutes ho htarget
    exact ⟨Call.isMade_of_dispatch hstep,
      fun limit => Frame.finds_enter target (some r) values limit⟩

/-! Three arguments, for a method that a subclass overrides with a method of one parameter. -/

namespace Handed

def parameters : List Variable :=
  [⟨"x", .primitive .int32⟩, ⟨"y", .primitive .int32⟩, ⟨"z", .primitive .int32⟩]

def middle : Method :=
  .interpreted "Pick" .void parameters [⟨"n", .primitive .int32⟩] #[.of .ldArg [1]] .everyone

def second : Method :=
  .interpreted "Pick" .void (parameters.take 1) [] #[.of .ldArg [3], .of .ldArg [4]] .everyone

def picker : Class := .derive ⟨0⟩ { name := "Picker", methods := .ofList [middle] } none

def chooser : Class :=
  .derive ⟨1⟩ { name := "Chooser", methods := .ofList [second] } (some picker)

def program : Program where
  registry := (({} : Registry).register picker).register chooser
  host := .basic

def values : List Value := [.int32 7, .int32 8, .bool true]

/-- A frame that makes a call, with an operand that is not part of it. -/
def before (op : Opcode) : Activation where
  frame :=
    { Frame.enter (.interpreted "Main" .void [] [] #[.of op [0, 0]] .everyone) none #[] 5
      with stack := ⟨#[.null], 5⟩ }
  heap := { objects := #[.create chooser] }

def inside (pc : Nat) : Activation where
  frame := (Frame.enter second (some ⟨0⟩) values.toArray 5).jump pc
  heap := (before .callVirt).heap

end Handed

theorem arguments_arrive_in_order_handed :
    (∃ s, Exec.pushAll Handed.values (Handed.before .call) = .ok () s ∧
      step Handed.program s =
        .ok (.call ⟨Handed.middle, none, Handed.values.toArray⟩) (Handed.before .call)) ∧
    (∃ s, Exec.pushAll (.object ⟨0⟩ :: Handed.values) (Handed.before .callVirt) = .ok () s ∧
      step Handed.program s =
        .ok (.call ⟨Handed.second, some ⟨0⟩, Handed.values.toArray⟩) (Handed.before .callVirt)) ∧
    step Handed.program (Handed.inside 0) =
      .ok .next ((Handed.inside 0).withOperands #[.bool true]) ∧
    step Handed.program (Handed.inside 1) =
      .error (.indexOutOfRange .arguments 4 4) (Handed.inside 1) := by
  obtain ⟨hroom, hstatic, -⟩ := arguments_arrive_in_order (p := Handed.program)
    (i := .of .call [0, 0]) Handed.values rfl rfl rfl rfl
  obtain ⟨-, -, hvirtual⟩ := arguments_arrive_in_order (p := Handed.program)
    (i := .of .callVirt [0, 0]) Handed.values rfl rfl rfl rfl
  obtain ⟨s, hs⟩ := hroom Handed.values (Handed.before .call) (by decide)
  obtain ⟨t, ht⟩ := hroom (.object ⟨0⟩ :: Handed.values) (Handed.before .callVirt) (by decide)
  have hs' : s.Executes (.of .call [0, 0]) .call := by
    obtain ⟨-, rfl⟩ := Exec.pushAll_eq_ok_iff.mp hs
    exact ⟨_, rfl, rfl, rfl⟩
  have ht' : t.Executes (.of .callVirt [0, 0]) .callVirt := by
    obtain ⟨-, rfl⟩ := Exec.pushAll_eq_ok_iff.mp ht
    exact ⟨_, rfl, rfl, rfl⟩
  obtain ⟨hcall, -⟩ := hstatic _ s hs hs'
  obtain ⟨hcallVirt, hfinds⟩ :=
    hvirtual _ t ⟨0⟩ (.create Handed.chooser) Handed.second ht ht' rfl rfl
  refine ⟨⟨s, hs, hcall.interpreted _ rfl⟩, ⟨t, ht, hcallVirt.interpreted _ rfl⟩, ?_, ?_⟩
  · exact (hfinds 5).argument Handed.program (Handed.inside 0) (.of .ldArg [3]) 3 _ rfl
      ⟨_, rfl, rfl, rfl⟩ rfl rfl (by decide)
  · exact (hfinds 5).beyond Handed.program (Handed.inside 1) (.of .ldArg [4]) 4 rfl
      ⟨_, rfl, rfl, rfl⟩ rfl (by decide)

end ObjectMachine
