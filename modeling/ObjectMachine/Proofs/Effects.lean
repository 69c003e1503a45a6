import ObjectMachine.Proofs.Operands

/-!
# What an instruction does to the operand stack

Every opcode but `ret` takes a fixed number of operands off the stack and puts a fixed number back:
`Opcode.effect?` is the table. Only calls need more than the opcode: the arity of the method that
they address, and whether the method that they enter is native, whose result is there at once.

The instruction that is executed keeps to the table (`step_stack_effect`): it leaves the operands
below those that it takes alone, it does not succeed with fewer operands than it takes, and it
blames the stack only if there are too few operands or no room for the result.
-/

namespace ObjectMachine

/-! ## The table -/

/-- The effect of an opcode. A call addresses a method of the given arity, and its result is put on
the stack at once if the method that it enters is native. A return takes what there is. -/
def Opcode.effect? (arity : Nat) (native : Bool) : Opcode → Option Effect
  | .nop | .br => some ⟨0, 0⟩
  | .ldArg | .ldLoc | .ldCon | .ldStr | .ldI4 | .ldI8 | .ldR4 | .ldR8 | .ldTrue | .ldFalse | .ldNull
  | .newObj => some ⟨0, 1⟩
  | .dup => some ⟨1, 2⟩
  | .pop | .stLoc | .stArg | .brTrue | .brFalse => some ⟨1, 0⟩
  | .ldFld | .neg | .castClass | .isInst | .newArr | .ldLen => some ⟨1, 1⟩
  | .stFld => some ⟨2, 0⟩
  | .add | .sub | .mul | .div | .rem | .ceq | .cne | .clt | .cle | .cgt | .cge | .ldElem =>
    some ⟨2, 1⟩
  | .stElem => some ⟨3, 0⟩
  | .call => some ⟨arity, native.toNat⟩
  | .callVirt => some ⟨arity + 1, native.toNat⟩
  | .ret => none

/-- The topmost operands, in the order in which they were pushed. -/
def Stack.topmost (s : Stack) (n : Nat) : Array Value := s.slots.extract (s.depth - n) s.depth

/-- The method that the operands of an instruction address. -/
def Instruction.addressed? (i : Instruction) (p : Program) : Option Method :=
  (i.methodOperand p).toOption

/-- The call that an instruction makes, with the topmost operands as its arguments: a call of the
method that it addresses or, if it is virtual, of the method of that name that the object below the
arguments selects. No call is made without enough operands. -/
def Activation.callOf? (s : Activation) (p : Program) (i : Instruction) : Opcode → Option Call
  | .call => do
    let m ← i.addressed? p
    guard (m.arity ≤ s.operands.length)
    return ⟨m, none, s.frame.stack.topmost m.arity⟩
  | .callVirt => do
    let m ← i.addressed? p
    let v ← s.operands.reverse[m.arity]?
    let r ← v.toObject?
    let o ← s.heap.object? r
    let target ← p.registry.resolve? o.cls m.name
    return ⟨target, some r, s.frame.stack.topmost m.arity⟩
  | _ => none

/-- The effect that the table gives for an instruction. -/
def Activation.effectOf? (s : Activation) (p : Program) (i : Instruction) (op : Opcode) :
    Option Effect :=
  op.effect? ((i.addressed? p).elim 0 Method.arity)
    ((s.callOf? p i op).any fun c => c.method.body.isNative)

/-- A native body fails when it is called. -/
def Call.FailsNatively (p : Program) (heap : Heap) (c : Call) (e : Fault) : Prop :=
  ∃ name heap', c.method.body = .native name ∧
    p.host.native name c.receiver c.arguments heap = .error e heap'

/-! ## Calls -/

namespace Exec

/-- A call whose arguments have been taken puts the result of a native body on the stack, unless the
body fails, and leaves the stack to the run otherwise. -/
theorem moved_dispatch (p : Program) (c : Call) (s : Activation) :
    (∃ e s', dispatch p c s = .error e s' ∧ c.FailsNatively p s.heap e) ∨
      Moved 0 c.method.body.isNative.toNat s (dispatch p c s) := by
  unfold dispatch
  cases hb : c.method.body with
  | interpreted code => exact .inr (Moves.of_takes (.pure _) s)
  | native name =>
    simp only [Bind.bind, EStateM.bind, onHeap]
    cases hn : p.host.native name c.receiver c.arguments s.heap with
    | error e heap => exact .inl ⟨e, _, rfl, name, heap, hb, hn⟩
    | ok v heap =>
      have hpush : Moved 0 1 ⟨s.frame, heap⟩ _ := Moves.pushNext v ⟨s.frame, heap⟩
      exact .inr (hpush.below (s := s) (k := 0) (l := 0) [] (List.append_nil _).symm rfl rfl)

end Exec

theorem Stack.topmost_of_append {s : Stack} {base args : Array Value} (h : s.slots = base ++ args) :
    s.topmost args.size = args := by
  simp [topmost, depth, h]

/-- A stack with enough values for a call, split at the arguments. -/
theorem Stack.exists_arguments {s : Stack} {n : Nat} (h : n ≤ s.depth) :
    ∃ base args, args.size = n ∧ s.slots = base ++ args := by
  refine ⟨s.slots.extract 0 (s.depth - n), s.slots.extract (s.depth - n) s.depth, ?_, ?_⟩
  · simp only [Array.size_extract, depth] at h ⊢
    omega
  · simp [depth]

/-- A stack with enough values for a virtual call, split at the receiver. -/
theorem Stack.exists_receiver {s : Stack} {n : Nat} (h : n + 1 ≤ s.depth) :
    ∃ (base : Array Value) (v : Value) (args : Array Value),
      args.size = n ∧ s.slots = base.push v ++ args := by
  obtain ⟨below, args, hsize, hstack⟩ := exists_arguments (Nat.le_of_succ_le h)
  cases hback : below.back? with
  | none =>
    rw [Array.back?_eq_none_iff] at hback
    rw [depth, hstack, hback, Array.empty_append, hsize] at h
    exact absurd h (Nat.not_succ_le_self _)
  | some v =>
    obtain ⟨base, rfl⟩ := Array.back?_eq_some_iff.mp hback
    exact ⟨base, v, args, hsize, hstack⟩

section
variable {p : Program} {s : Activation} {m : Method} {base args : Array Value}

theorem perform_call (hargs : m.arity = args.size) (hstack : s.frame.stack.slots = base ++ args) :
    Exec.perform p (.call m) s = Exec.dispatch p ⟨m, none, args⟩ (s.withOperands base) := by
  simp only [Exec.perform, bind, EStateM.bind, Exec.popMany_of_append hargs hstack]

theorem perform_call_of_lt (h : s.frame.stack.depth < m.arity) :
    Exec.perform p (.call m) s = .error .stackUnderflow s := by
  simp only [Exec.perform, bind, EStateM.bind, Exec.onStack, Stack.popMany_of_lt h]

/-- A virtual call on something that is no object. -/
theorem perform_callVirtual_of_none {v : Value} (hv : v.toObject?.bind s.heap.object? = none)
    (hargs : m.arity = args.size) (hstack : s.frame.stack.slots = base.push v ++ args) :
    Exec.perform p (.callVirtual m) s =
      .error (.typeMismatch (.receiver .callVirt v.kind)) (s.withOperands base) := by
  have hpop : Exec.pop (s.withOperands (base.push v)) = .ok v (s.withOperands base) :=
    Exec.pop_of_push rfl
  have hread : (v.toObject?.bind fun r =>
      ((s.withOperands base).heap.object? r).map (r, ·)) = none := by
    cases hr : v.toObject? with
    | none => rfl
    | some r =>
      rw [hr, Option.bind_some] at hv
      have hobject : (s.withOperands base).heap.object? r = none := hv
      rw [Option.bind_some, hobject, Option.map_none]
  simp only [Exec.perform, Exec.popObject, bind, EStateM.bind,
    Exec.popMany_of_append hargs hstack, hpop, Exec.read, hread]

theorem perform_callVirtual_of_lt (h : s.frame.stack.depth < m.arity + 1) :
    ∃ slots, Exec.perform p (.callVirtual m) s = .error .stackUnderflow (s.withOperands slots) := by
  rcases Nat.lt_or_ge s.frame.stack.depth m.arity with hlt | hge
  · refine ⟨s.frame.stack.slots, ?_⟩
    simp only [Exec.perform, bind, EStateM.bind, Exec.onStack, Stack.popMany_of_lt hlt]
    rfl
  · obtain ⟨base, args, hsize, hstack⟩ := Stack.exists_arguments hge
    have hbase : base = #[] := by
      rw [Stack.depth, hstack, Array.size_append] at h
      exact Array.eq_empty_of_size_eq_zero (by omega)
    subst hbase
    refine ⟨#[], ?_⟩
    simp only [Exec.perform, Exec.popObject, bind, EStateM.bind,
      Exec.popMany_of_append hsize.symm hstack]
    rfl

end

/-! ## The instruction -/

/-- Apart from calls, the effect of an opcode is that of the action. -/
theorem Instruction.effect?_of_actionOf {i : Instruction} {p : Program} {codeSize : Nat}
    {op : Opcode} {a : Action} (h : i.actionOf p codeSize op = .ok a) (hop : op.isCall = false)
    (arity : Nat) (native : Bool) : op.effect? arity native = a.effect? := by
  cases op with
  | ldArg | ldLoc | stLoc | stArg | ldFld | stFld | br | brTrue | brFalse | newObj | castClass
  | isInst =>
    obtain ⟨_, -, rfl⟩ := ok_of_map h
    rfl
  | ldCon =>
    obtain ⟨_, -, h⟩ := ok_of_bind h
    obtain ⟨_, -, h⟩ := ok_of_bind h
    cases h
    rfl
  | ldStr | ldI4 | ldI8 | ldR4 | ldR8 =>
    obtain ⟨_, -, h⟩ := ok_of_bind h
    cases h
    rfl
  | call | callVirt => cases hop
  | _ =>
    cases h
    rfl

section
variable {p : Program} {s : Activation} {m : Method} {base args : Array Value}

theorem Instruction.addressed?_of_ok {i : Instruction} (hm : i.methodOperand p = .ok m) :
    i.addressed? p = some m := by
  rw [addressed?, hm]
  rfl

/-- The call that is made when enough operands are there. -/
theorem Activation.callOf?_call {i : Instruction} (hm : i.methodOperand p = .ok m)
    (hargs : m.arity = args.size) (hstack : s.frame.stack.slots = base ++ args) :
    s.callOf? p i .call = some ⟨m, none, args⟩ := by
  have henough : m.arity ≤ s.operands.length := by simp [Activation.operands, hstack, hargs]
  have hguard : guard (m.arity ≤ s.operands.length) = some () := if_pos henough
  unfold callOf?
  dsimp only
  rw [Instruction.addressed?_of_ok hm, Option.bind_eq_bind, Option.bind_some, hguard, hargs,
    Stack.topmost_of_append hstack]
  rfl

theorem Activation.callOf?_callVirt {i : Instruction} {v : Value} (hm : i.methodOperand p = .ok m)
    (hargs : m.arity = args.size) (hstack : s.frame.stack.slots = base.push v ++ args) :
    s.callOf? p i .callVirt = do
      let r ← v.toObject?
      let o ← s.heap.object? r
      let target ← p.registry.resolve? o.cls m.name
      return ⟨target, some r, args⟩ := by
  have hreceiver : s.operands.reverse[args.size]? = some v := by
    simp [Activation.operands, hstack]
  simp [callOf?, Instruction.addressed?, hm, Except.toOption, hargs,
    Stack.topmost_of_append hstack, hreceiver]

/-- A call keeps to the table, unless it enters a native body that fails. -/
theorem moved_call {i : Instruction} (hm : i.methodOperand p = .ok m) :
    (∃ c e s', s.callOf? p i .call = some c ∧ Exec.perform p (.call m) s = .error e s' ∧
      c.FailsNatively p s.heap e) ∨
    Exec.Moved m.arity ((s.callOf? p i .call).any fun c => c.method.body.isNative).toNat s
      (Exec.perform p (.call m) s) := by
  rcases Nat.lt_or_ge s.frame.stack.depth m.arity with hlt | hge
  · rw [perform_call_of_lt hlt]
    exact .inr (.underflow hlt _ s)
  · obtain ⟨base, args, hsize, hstack⟩ := Stack.exists_arguments hge
    have hcall := Activation.callOf?_call hm hsize.symm hstack
    rw [perform_call hsize.symm hstack, hcall]
    rcases Exec.moved_dispatch p ⟨m, none, args⟩ (s.withOperands base) with
      ⟨e, s', h, hn⟩ | hmoved
    · exact .inl ⟨_, e, s', rfl, h, hn⟩
    · refine .inr (hmoved.below (s := s) (l := 0) args.toList ?_ hsize rfl)
      rw [Activation.operands, hstack, Array.toList_append]
      rfl

/-- A virtual call keeps to the table, unless it enters a native body that fails. -/
theorem moved_callVirtual {i : Instruction} (hm : i.methodOperand p = .ok m) :
    (∃ c e s', s.callOf? p i .callVirt = some c ∧
      Exec.perform p (.callVirtual m) s = .error e s' ∧ c.FailsNatively p s.heap e) ∨
    Exec.Moved (m.arity + 1)
      ((s.callOf? p i .callVirt).any fun c => c.method.body.isNative).toNat s
      (Exec.perform p (.callVirtual m) s) := by
  rcases Nat.lt_or_ge s.frame.stack.depth (m.arity + 1) with hlt | hge
  · obtain ⟨slots, h⟩ := perform_callVirtual_of_lt (p := p) hlt
    rw [h]
    exact .inr (.underflow hlt _ _)
  · obtain ⟨base, v, args, hsize, hstack⟩ := Stack.exists_receiver hge
    have hcall := Activation.callOf?_callVirt hm hsize.symm hstack
    cases hfound : v.toObject?.bind s.heap.object? with
    | none =>
      rw [perform_callVirtual_of_none hfound hsize.symm hstack]
      exact .inr (.quiet rfl _ _ _ _)
    | some o =>
      obtain ⟨r, hr, ho⟩ := Option.bind_eq_some_iff.mp hfound
      cases v <;> cases hr
      rw [perform_callVirtual ho hsize.symm hstack, hcall]
      cases htarget : p.registry.resolve? o.cls m.name with
      | none => exact .inr (.quiet rfl _ _ _ _)
      | some target =>
        simp only [Value.toObject?, ho, htarget, Option.bind_eq_bind, Option.bind_some,
          Option.pure_def, Option.any_some]
        rcases Exec.moved_dispatch p ⟨target, some r, args⟩ (s.withOperands base) with
          ⟨e, s', h, hn⟩ | hmoved
        · exact .inl ⟨_, e, s', rfl, h, hn⟩
        · refine .inr (hmoved.below (s := s) (l := 0) (.object r :: args.toList) ?_
            (congrArg (· + 1) hsize) rfl)
          rw [Activation.operands, hstack, Array.toList_append, Array.toList_push,
            List.append_assoc]
          rfl

end

/-- The instruction that is executed keeps to the table, unless it enters a native body that
fails. -/
theorem moved_step {p : Program} {s : Activation} {code : Array Instruction} {i : Instruction}
    {op : Opcode} (hb : s.frame.method.body = .interpreted code)
    (hi : code[s.frame.pc]? = some i) (hop : i.opcode? = some op) {k q : Nat}
    (heffect : s.effectOf? p i op = some ⟨k, q⟩) :
    (∃ c e s', s.callOf? p i op = some c ∧ step p s = .error e s' ∧ c.FailsNatively p s.heap e) ∨
      Exec.Moved k q s (step p s) := by
  have haction : i.action p code.size = i.actionOf p code.size op := by
    rw [Instruction.action, hop]
  cases ha : i.actionOf p code.size op with
  | error e =>
    have hquiet := Quiet.actionOf i p code.size op e ha
    rw [step_of_lookup_error hb hi (haction.trans ha)]
    exact .inr (.quiet hquiet _ _ _ _)
  | ok a =>
    rw [step_of_action hb hi (haction.trans ha)]
    cases hcall : op.isCall with
    | false =>
      rw [Activation.effectOf?, Instruction.effect?_of_actionOf ha hcall] at heffect
      exact .inr (Exec.Moves.perform p heffect s)
    | true =>
      cases op <;> cases hcall
      · obtain ⟨m, hm, rfl⟩ := ok_of_map ha
        simp only [Activation.effectOf?, Instruction.addressed?, hm, Except.toOption,
          Opcode.effect?, Option.elim_some, Option.some.injEq, Effect.mk.injEq] at heffect
        obtain ⟨rfl, rfl⟩ := heffect
        exact moved_call hm
      · obtain ⟨m, hm, rfl⟩ := ok_of_map ha
        simp only [Activation.effectOf?, Instruction.addressed?, hm, Except.toOption,
          Opcode.effect?, Option.elim_some, Option.some.injEq, Effect.mk.injEq] at heffect
        obtain ⟨rfl, rfl⟩ := heffect
        exact moved_callVirtual hm

/-- A return takes the operand on top, or has none to take, and never fails. -/
theorem step_ret {p : Program} {s : Activation} {code : Array Instruction} {i : Instruction}
    (hb : s.frame.method.body = .interpreted code) (hi : code[s.frame.pc]? = some i)
    (hop : i.opcode? = some .ret) :
    step p s =
      .ok (.ret (s.frame.stack.top?.getD .null)) (s.withOperands s.frame.stack.slots.pop) := by
  have ha : i.action p code.size = .ok .ret := by
    rw [Instruction.action, hop]
    rfl
  rw [step_of_action hb hi ha]
  obtain ⟨⟨m, receiver, as, ls, ⟨slots, limit⟩, pc⟩, heap⟩ := s
  have hget : ∀ s, (get : Exec Activation) s = .ok s s := fun _ => rfl
  simp only [Exec.perform, bind, EStateM.bind, hget, Stack.top?]
  cases hback : slots.back? with
  | none =>
    have hempty : slots = #[] := Array.back?_eq_none_iff.mp hback
    subst hempty
    rfl
  | some v =>
    simp only [Exec.pop, EStateM.bind, Exec.onStack, Stack.pop, hback]
    rfl

/-- Every opcode but the return has an effect. -/
theorem Activation.exists_effectOf? (s : Activation) (p : Program) (i : Instruction) {op : Opcode}
    (hop : op ≠ .ret) : ∃ k q, s.effectOf? p i op = some ⟨k, q⟩ := by
  cases op with
  | ret => exact absurd rfl hop
  | _ => exact ⟨_, _, rfl⟩

/-- **Every instruction keeps to the table of stack effects.** It takes `k` operands and puts `q`,
leaves those below alone, and never succeeds with fewer than `k`. It blames the stack only if there
are too few operands or no room for the result, unless a native body fails with such a fault. A
return never fails. -/
theorem step_stack_effect {p : Program} {s : Activation} {code : Array Instruction}
    {i : Instruction} (hb : s.frame.method.body = .interpreted code)
    (hi : code[s.frame.pc]? = some i) :
    (∀ op, i.opcode? = some op → op ≠ .ret →
      ∃ k q, s.effectOf? p i op = some ⟨k, q⟩ ∧
        (∀ flow s', step p s = .ok flow s' →
          ∃ base taken put, taken.length = k ∧ put.length = q ∧
            s.operands = base ++ taken ∧ s'.operands = base ++ put) ∧
        (s.operands.length < k → ∃ e s', step p s = .error e s') ∧
        (∀ e s', step p s = .error e s' →
          (∃ c, s.callOf? p i op = some c ∧ c.FailsNatively p s.heap e) ∨
          ((e = .stackUnderflow → s.operands.length < k) ∧
            (e = .stackOverflow →
              k ≤ s.operands.length ∧ s.room < s.operands.length - k + q)))) ∧
    (i.opcode? = some .ret →
      step p s =
        .ok (.ret (s.operands.getLast?.getD .null)) (s.withOperands s.frame.stack.slots.pop)) ∧
    (i.opcode? = none → step p s = .error (.unknownOpcode i.opcode) s) := by
  refine ⟨?_, ?_, ?_⟩
  · intro op hop hret
    obtain ⟨k, q, heffect⟩ := s.exists_effectOf? p i hret
    refine ⟨k, q, heffect, ?_⟩
    rcases moved_step hb hi hop heffect with ⟨c, e, s', hc, herror, hfails⟩ | hmoved
    · rw [herror]
      refine ⟨fun _ _ h => (nomatch h), fun _ => ⟨e, s', rfl⟩, fun e' s'' h => ?_⟩
      cases h
      exact .inl ⟨c, hc, hfails⟩
    · generalize step p s = r at hmoved ⊢
      cases hmoved with
      | ok a base taken put hk hq h h' =>
        refine ⟨fun flow s'' hs => ?_, fun hlt => ?_, fun _ _ h => (nomatch h)⟩
        · cases hs
          exact ⟨base, taken, put, hk, hq, h, h'⟩
        · rw [h, List.length_append] at hlt
          omega
      | error s' hunder hover =>
        refine ⟨fun _ _ h => (nomatch h), fun _ => ⟨_, s', rfl⟩, fun e' s'' h => ?_⟩
        cases h
        exact .inr ⟨hunder, hover⟩
  · intro hop
    rw [step_ret hb hi hop, Stack.top?, ← Array.getLast?_toList]
    rfl
  · intro hop
    refine step_of_lookup_error hb hi ?_
    rw [Instruction.action, hop]

/-! A virtual call that addresses an interpreted method and enters the native method that overrides
it. -/

namespace Overridden

def parameter : Variable := ⟨"n", .primitive .int32⟩

def chooser : Class :=
  .derive ⟨0⟩ (({ name := "Chooser" } : ClassDecl).addMethod
    (.interpreted "Choose" .void [parameter] [] #[] .everyone)) none

def picker : Class :=
  .derive ⟨1⟩ (({ name := "Picker" } : ClassDecl).addMethod
    (.native "Choose" .void [parameter] "last" .everyone)) (some chooser)

def program : Program where
  registry := (({} : Registry).register chooser).register picker
  host := .basic

def instruction : Instruction := .of .callVirt [0, 0]

/-- A full stack: an operand that stays, the receiver and the argument. -/
def calling : Activation where
  frame :=
    { Frame.enter (.interpreted "Caller" .void [] [] #[instruction] .everyone) none #[] 3
      with stack := ⟨#[.bool true, .object ⟨0⟩, .int32 7], 3⟩ }
  heap := { objects := #[.create picker] }

end Overridden

theorem step_stack_effect_overridden :
    Overridden.calling.effectOf? Overridden.program Overridden.instruction .callVirt =
      some ⟨2, 1⟩ ∧
    ∃ s', step Overridden.program Overridden.calling = .ok .next s' ∧
      ∃ base taken put, taken.length = 2 ∧ put.length = 1 ∧
        Overridden.calling.operands = base ++ taken ∧ s'.operands = base ++ put := by
  obtain ⟨k, q, heffect, hok, -⟩ :=
    (step_stack_effect (p := Overridden.program) (s := Overridden.calling)
      (i := Overridden.instruction) rfl rfl).1 .callVirt rfl (by decide)
  have htable : Overridden.calling.effectOf? Overridden.program Overridden.instruction .callVirt =
      some ⟨2, 1⟩ := by decide
  obtain ⟨rfl, rfl⟩ : 2 = k ∧ 1 = q := by simpa [htable] using heffect
  exact ⟨htable, _, rfl, hok _ _ rfl⟩

end ObjectMachine
