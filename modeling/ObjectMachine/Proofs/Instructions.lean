import ObjectMachine.Proofs.Actions

/-!
# What an instruction can do

A relation between an earlier and a later frame that every access to a frame respects is a
`FrameLaw`, and every instruction keeps it, whether it fails or not (`step_keeps`). `Exec.Yields`
says what a computation that does not fail can return; with it follows how a run can continue after
an instruction (`flow_of_step`): a jump stays within the code, a call comes from a call instruction
and is the call of an interpreted method.
-/

namespace ObjectMachine

/-! ## Laws of a frame -/

/-- A relation between an earlier and a later frame that every access to a frame respects. -/
structure FrameLaw (K : Frame → Frame → Prop) : Prop where
  refl : ∀ f, K f f
  trans : ∀ {f g h}, K f g → K g h → K f h
  pushed : ∀ f v, f.stack.depth < f.stack.limit →
    K f { f with stack := { f.stack with slots := f.stack.slots.push v } }
  popped : ∀ f, K f { f with stack := { f.stack with slots := f.stack.slots.pop } }
  shrunk : ∀ f n, K f { f with stack := { f.stack with slots := f.stack.slots.shrink n } }
  stored : ∀ {f g i v}, f.setArgument i v = .ok g → K f g
  assigned : ∀ {f g i v}, f.setLocal i v = .ok g → K f g

namespace FrameLaw

variable {K : Frame → Frame → Prop} (law : FrameLaw K)
include law

/-- What is related to the frame at some time is kept by every access. -/
theorem accesses (p : Program) (f₀ : Frame) :
    Exec.Accesses (fun _ Q x _ => Preserves (fun s => K f₀ s.frame) Q x)
      (fun s s' => s' = s ∧ K f₀ s.frame) (fun _ => True) (fun _ => True) p p := by
  have operands : OperandLaw fun s => K f₀ s.frame :=
    ⟨fun v hs h => law.trans hs (law.pushed _ v h), fun hs => law.trans hs (law.popped _),
      fun n hs => law.trans hs (law.shrunk _ n)⟩
  have heap : ∀ {α : Type} {f : HeapM α}, Preserves (fun s => K f₀ s.frame) (fun _ => True)
      (Exec.onHeap f) := fun {_ f} =>
    .onHeap (J := fun _ => True) (fun h _ => by cases f h <;> constructor <;> trivial)
      (fun _ _ => trivial) fun _ _ hs _ => hs
  exact
    { toReads := operands.reads
      popMany := operands.popMany
      setArgument := fun i v _ => .onFrame fun s g hs h => law.trans hs (law.stored h)
      setLocal := fun i v _ => .onFrame fun s g hs h => law.trans hs (law.assigned h)
      newObject := fun _ => heap
      newArray := fun _ => heap
      checkLength := fun n => (Preserves.composes _).lift fun _ _ => trivial
      setField := fun _ _ _ _ => heap
      setElement := fun _ _ _ _ => heap
      native := fun _ {_ _} _ => heap
      registry := rfl }

end FrameLaw

/-! ## The stages of an instruction -/

section
variable {p : Program} {s : Activation} {code : Array Instruction} {i : Instruction}

theorem step_of_native {name : String} (hb : s.frame.method.body = .native name) :
    step p s = .error (.typeMismatch (.noInstructions s.frame.method.name)) s := by
  simp only [step, hb]

theorem step_at_end (hb : s.frame.method.body = .interpreted code)
    (hi : code[s.frame.pc]? = none) : step p s = .ok (.ret .null) s := by
  simp only [step, hb, hi]

theorem step_of_lookup_error {e : Fault} (hb : s.frame.method.body = .interpreted code)
    (hi : code[s.frame.pc]? = some i) (ha : i.action p code.size = .error e) :
    step p s = .error e s := by
  simp only [step, hb, hi, ha]

theorem step_of_action {a : Action} (hb : s.frame.method.body = .interpreted code)
    (hi : code[s.frame.pc]? = some i) (ha : i.action p code.size = .ok a) :
    step p s = Exec.perform p a s := by
  simp only [step, hb, hi, ha]

end

/-- Every instruction keeps a law of the frame. -/
theorem step_keeps {K : Frame → Frame → Prop} (law : FrameLaw K) (p : Program) (s : Activation) :
    K s.frame ((step p).leaves s).frame :=
  have accesses := law.accesses p s.frame
  (accesses.step (fun _ _ => rfl) fun {_ _ a} _ => a.all_of_forall (fun _ => trivial) fun _ =>
    trivial).leaves (law.refl s.frame)

/-! ## How a run can continue -/

namespace Exec

variable {α β : Type} {Q : α → Prop}

/-- Whatever a computation returns satisfies a predicate. -/
def Yields (Q : α → Prop) (x : Exec α) : Prop := ∀ s a s', x s = .ok a s' → Q a

theorem Yields.pure {a : α} (h : Q a) : Yields Q (Pure.pure a : Exec α) := by
  intro s b s' hs
  cases hs; exact h

theorem Yields.throw (e : Fault) : Yields Q (throw e : Exec α) := by
  intro s b s' hs
  cases hs

theorem Yields.bind {x : Exec β} {f : β → Exec α} (hf : ∀ b, Yields Q (f b)) :
    Yields Q (x >>= f) := by
  intro s a s' hs
  simp only [Bind.bind, EStateM.bind] at hs
  split at hs
  · exact hf _ _ _ _ hs
  · cases hs

end Exec

/-- How a run can continue after an action that did not fail. -/
def Action.Allows : Action → Flow → Prop
  | .ret, flow => ∃ v, flow = .ret v
  | .branch none target, flow => flow = .jump target
  | .branch (some _) target, flow => flow = .next ∨ flow = .jump target
  | .call _, flow | .callVirtual _, flow =>
    flow = .next ∨ ∃ c code, flow = .call c ∧ c.method.body = .interpreted code
  | _, flow => flow = .next

namespace Exec

theorem Yields.dispatch (p : Program) (c : Call) :
    Yields (fun flow => flow = .next ∨ ∃ c code, flow = .call c ∧ c.method.body = .interpreted code)
      (dispatch p c) := by
  unfold Exec.dispatch
  split
  · exact .bind fun _ => .bind fun _ => .pure (.inl rfl)
  · rename_i code hbody
    exact .pure (.inr ⟨c, code, rfl, hbody⟩)

theorem perform_yields (p : Program) (a : Action) : Yields a.Allows (perform p a) := by
  cases a with
  | skip => exact .pure rfl
  | duplicate => exact .bind fun v => .bind fun _ => .pure rfl
  | discard => exact .bind fun _ => .pure rfl
  | push v => exact .bind fun _ => .pure rfl
  | loadArgument i => exact .bind fun v => .bind fun _ => .pure rfl
  | storeArgument i => exact .bind fun v => .bind fun _ => .pure rfl
  | loadLocal i => exact .bind fun v => .bind fun _ => .pure rfl
  | storeLocal i => exact .bind fun v => .bind fun _ => .pure rfl
  | arith op => exact .bind fun b => .bind fun a => .bind fun v => .bind fun _ => .pure rfl
  | negate => exact .bind fun a => .bind fun v => .bind fun _ => .pure rfl
  | compare op => exact .bind fun b => .bind fun a => .bind fun _ => .bind fun _ => .pure rfl
  | ret =>
    refine .bind fun s => ?_
    split
    · exact .pure ⟨_, rfl⟩
    · exact .bind fun v => .pure ⟨v, rfl⟩
  | branch condition target =>
    cases condition with
    | none => exact .pure rfl
    | some condition =>
      refine .bind fun v => .pure ?_
      split
      · exact .inr rfl
      · exact .inl rfl
  | create c => exact .bind fun _ => .bind fun _ => .pure rfl
  | loadField name => exact .bind fun _ => .bind fun v => .bind fun _ => .pure rfl
  | storeField name => exact .bind fun v => .bind fun _ => .bind fun _ => .pure rfl
  | call m => exact .bind fun _ => .dispatch p _
  | callVirtual m =>
    refine .bind fun arguments => .bind fun found => ?_
    dsimp only
    split
    · exact .dispatch p _
    · exact .throw _
  | cast c =>
    refine .bind fun v => .bind fun s => ?_
    dsimp only
    split
    · exact .bind fun _ => .pure rfl
    · exact .throw _
  | testClass c => exact .bind fun v => .bind fun s => .bind fun _ => .pure rfl
  | createArray => exact .bind fun n => .bind fun n => .bind fun r => .bind fun _ => .pure rfl
  | loadElement => exact .bind fun i => .bind fun r => .bind fun v => .bind fun _ => .pure rfl
  | storeElement => exact .bind fun v => .bind fun i => .bind fun r => .bind fun _ => .pure rfl
  | arrayLength => exact .bind fun r => .bind fun s => .bind fun _ => .pure rfl

end Exec

/-! ## Where actions come from -/

theorem Instruction.target_le {i : Instruction} {codeSize target : Nat}
    (h : i.target codeSize = .ok target) : target ≤ codeSize := by
  obtain ⟨t, -, h⟩ := ok_of_bind h
  split at h
  · cases h; assumption
  · cases h

/-- What an action tells about the instruction and the size of the code that it comes from. -/
def Action.Fits (i : Instruction) (codeSize : Nat) : Action → Prop
  | .branch _ target => target ≤ codeSize
  | .call _ | .callVirtual _ => i.opcode?.any Opcode.isCall = true
  | _ => True

theorem Instruction.action_fits {i : Instruction} {p : Program} {codeSize : Nat} {a : Action}
    (h : i.action p codeSize = .ok a) : a.Fits i codeSize := by
  unfold action at h
  cases hop : i.opcode? with
  | none => rw [hop] at h; cases h
  | some op =>
    rw [hop] at h
    change i.actionOf p codeSize op = .ok a at h
    cases op with
    | br | brTrue | brFalse =>
      obtain ⟨t, ht, rfl⟩ := ok_of_map h
      exact target_le ht
    | call | callVirt =>
      obtain ⟨m, -, rfl⟩ := ok_of_map h
      change i.opcode?.any Opcode.isCall = true
      rw [hop]; rfl
    | ldArg | ldLoc | ldFld | stLoc | stFld | stArg | newObj | castClass | isInst =>
      obtain ⟨x, -, rfl⟩ := ok_of_map h
      trivial
    | ldStr | ldI4 | ldI8 | ldR4 | ldR8 =>
      obtain ⟨x, -, h⟩ := ok_of_bind h
      cases h; trivial
    | ldCon =>
      obtain ⟨x, -, h⟩ := ok_of_bind h
      obtain ⟨v, -, h⟩ := ok_of_bind h
      cases h; trivial
    | _ => cases h; trivial

/-- How a run can continue after the instruction at a position of the code. -/
def Flow.From (code : Array Instruction) (pc : Nat) : Flow → Prop
  | .next => pc < code.size
  | .jump target => target ≤ code.size
  | .ret _ => True
  | .call c =>
    (∃ i, code[pc]? = some i ∧ i.opcode?.any Opcode.isCall = true) ∧
      ∃ body, c.method.body = .interpreted body

/-- An instruction that does not fail belongs to an interpreted method, and the run continues as
the code allows. -/
theorem flow_of_step {p : Program} {s s' : Activation} {flow : Flow}
    (h : step p s = .ok flow s') :
    ∃ code, s.frame.method.body = .interpreted code ∧ flow.From code s.frame.pc := by
  cases hb : s.frame.method.body with
  | native name => rw [step_of_native hb] at h; cases h
  | interpreted code =>
    refine ⟨code, rfl, ?_⟩
    cases hi : code[s.frame.pc]? with
    | none => rw [step_at_end hb hi] at h; cases h; trivial
    | some i =>
      cases ha : i.action p code.size with
      | error e => rw [step_of_lookup_error hb hi ha] at h; cases h
      | ok a =>
        rw [step_of_action hb hi ha] at h
        have hflow := Exec.perform_yields p a s flow s' h
        have hfits := Instruction.action_fits ha
        have hpc : s.frame.pc < code.size := (Array.getElem?_eq_some_iff.mp hi).1
        cases a with
        | ret => obtain ⟨v, rfl⟩ := hflow; trivial
        | branch condition target =>
          cases condition with
          | none => cases hflow; exact hfits
          | some condition =>
            rcases hflow with rfl | rfl
            · exact hpc
            · exact hfits
        | call m | callVirtual m =>
          rcases hflow with rfl | ⟨c, body, rfl, hc⟩
          · exact hpc
          · exact ⟨⟨i, hi, hfits⟩, body, hc⟩
        | _ => cases hflow; exact hpc

end ObjectMachine
