import ObjectMachine.Proofs.Dispatch
import ObjectMachine.Proofs.Reachable

/-!
# Taking operands and putting others back

Most actions first take operands off the stack, with checks in between, and then put one back.
`Exec.Takes` and `Exec.Moves` describe computations of these two sorts, with a rule for putting them
one after the other, so an action that neither calls nor returns has the effect that its parts add
up to (`Exec.Moves.perform`). Such a computation blames the stack only if there are too few operands
or no room for the new ones: everything else that can fail is `Quiet`.
-/

namespace ObjectMachine

/-- How many operands an instruction takes off the stack and how many it puts there. -/
structure Effect where
  pops : Nat
  pushes : Nat
deriving DecidableEq, Repr

/-- The operands on the stack, the bottom first. -/
def Activation.operands (s : Activation) : List Value := s.frame.stack.slots.toList

/-- How many operands there may be. -/
def Activation.room (s : Activation) : Nat := s.frame.stack.limit

/-! ## Faults that are not about the stack -/

/-- Whether a fault is about the depth of the stack. -/
def Fault.blamesStack : Fault → Bool
  | .stackUnderflow | .stackOverflow => true
  | _ => false

/-- Something that never fails because of the stack. -/
def Quiet {α : Type} (x : Except Fault α) : Prop := ∀ e, x = .error e → e.blamesStack = false

namespace Quiet

variable {α β : Type}

theorem ok (a : α) : Quiet (.ok a) := by
  intro e he
  cases he

theorem error {e : Fault} (h : e.blamesStack = false) : Quiet (.error e : Except Fault α) := by
  rintro _ ⟨⟩
  exact h

theorem bind {x : Except Fault α} {f : α → Except Fault β} (hx : Quiet x) (hf : ∀ a, Quiet (f a)) :
    Quiet (x >>= f) := by
  cases x with
  | ok a => exact hf a
  | error e => exact error (hx e rfl)

theorem map {x : Except Fault α} (hx : Quiet x) (f : α → β) : Quiet (f <$> x) := by
  cases x with
  | ok a => exact ok (f a)
  | error e => exact error (hx e rfl)

/-- Something is checked, and the check fails or not. -/
theorem check {c : Prop} [Decidable c] {x y : Except Fault α} (hx : Quiet x) (hy : Quiet y) :
    Quiet (if c then x else y) := by
  by_cases h : c
  · rwa [if_pos h]
  · rwa [if_neg h]

theorem argument (f : Frame) (i : Nat) : Quiet (f.argument i) := by
  unfold Frame.argument
  dsimp only
  split
  · exact ok _
  · exact error rfl

theorem localValue (f : Frame) (i : Nat) : Quiet (f.localValue i) := by
  unfold Frame.localValue
  split
  · exact ok _
  · exact error rfl

theorem setArgument (f : Frame) (i : Nat) (v : Value) : Quiet (f.setArgument i v) := by
  unfold Frame.setArgument
  dsimp only
  split
  · cases v.toObject? with
    | some r => exact ok _
    | none => exact error rfl
  · exact check (ok _) (error rfl)
  · exact check (ok _) (error rfl)

theorem setLocal (f : Frame) (i : Nat) (v : Value) : Quiet (f.setLocal i v) :=
  check (ok _) (error rfl)

theorem arith (op : ArithOp) (a b : Value) : Quiet (a.arith op b) := by
  have onInts : ∀ m n, Quiet (op.onInts m n) := by
    intro m n
    cases op with
    | add | sub | mul => exact ok _
    | div | rem => exact check (error rfl) (ok _)
  unfold Value.arith
  cases a.number? with
  | none => exact error rfl
  | some x =>
    cases b.number? with
    | none => exact error rfl
    | some y =>
      refine map ?_ Number.toValue
      cases x with
      | real v x => cases y <;> exact ok _
      | whole v m =>
        cases y with
        | real w y => exact ok _
        | whole w n => exact map (onInts m n) _

theorem neg (a : Value) : Quiet a.neg := by
  cases a with
  | int32 | int64 | float32 | float64 => exact ok _
  | _ => exact error rfl

theorem compare (op : CompareOp) (a b : Value) : Quiet (a.compare op b) := by
  unfold Value.compare
  split
  · exact ok _
  · exact ok _
  · split
    · exact ok _
    · exact error rfl

theorem slot (o : Instance) (field : String) : Quiet (o.slot field) := by
  unfold Instance.slot
  split
  · exact ok _
  · exact error rfl

theorem slotValue (o : Instance) (i : Nat) : Quiet (o.slotValue i) := by
  unfold Instance.slotValue
  split
  · exact ok _
  · exact error rfl

theorem get (o : Instance) (field : String) : Quiet (o.get field) :=
  bind (slot o field) fun i => slotValue o i

theorem elementIndex (n : Nat) (index : Int) : Quiet (Heap.elementIndex n index) :=
  check (ok _) (error rfl)

theorem getElement (h : Heap) (r : ArrayRef) (index : Int) : Quiet (h.getElement r index) :=
  bind (elementIndex _ _) fun _ => ok _

theorem checkLength (l : Limits) (n : Int) : Quiet (l.checkLength n) := check (ok _) (error rfl)

theorem stringAt (p : Program) (i : Nat) : Quiet (p.stringAt i) := by
  unfold Program.stringAt
  split
  · exact ok _
  · exact error rfl

theorem constantAt (p : Program) (i : Nat) : Quiet (p.constantAt i) := by
  unfold Program.constantAt
  split
  · exact ok _
  · exact error rfl

theorem classAt (r : Registry) (i : Nat) : Quiet (r.classAt i) := by
  unfold Registry.classAt
  split
  · exact ok _
  · exact error rfl

theorem methodAt (r : Registry) (c m : Nat) : Quiet (r.methodAt c m) := by
  have htable : Quiet (r.tableAt c) := by
    unfold Registry.tableAt
    split
    · exact ok _
    · exact error rfl
  refine bind htable fun table => ?_
  split
  · exact ok _
  · exact error rfl

theorem operand (i : Instruction) (n : Nat) : Quiet (i.operand n) := by
  unfold Instruction.operand
  split
  · exact ok _
  · exact error rfl

theorem stringOperand (i : Instruction) (p : Program) : Quiet (i.stringOperand p) :=
  bind (operand i 0) fun _ => stringAt p _

theorem classOperand (i : Instruction) (p : Program) : Quiet (i.classOperand p) :=
  bind (operand i 0) fun _ => classAt p.registry _

theorem methodOperand (i : Instruction) (p : Program) : Quiet (i.methodOperand p) :=
  bind (operand i 0) fun _ => bind (operand i 1) fun _ => methodAt p.registry _ _

theorem target (i : Instruction) (codeSize : Nat) : Quiet (i.target codeSize) :=
  bind (operand i 0) fun _ => check (ok _) (error rfl)

/-- Looking up the operands of an instruction never fails because of the stack. -/
theorem actionOf (i : Instruction) (p : Program) (codeSize : Nat) (op : Opcode) :
    Quiet (i.actionOf p codeSize op) := by
  cases op with
  | ldArg | ldLoc | stLoc | stArg => exact map (operand i 0) _
  | ldFld | stFld => exact map (stringOperand i p) _
  | ldStr => exact bind (stringOperand i p) fun _ => ok _
  | ldCon => exact bind (operand i 0) fun _ => bind (constantAt p _) fun _ => ok _
  | ldI4 | ldR4 => exact bind (operand i 0) fun _ => ok _
  | ldI8 | ldR8 => exact bind (bind (operand i 0) fun _ => ok _) fun _ => ok _
  | br | brTrue | brFalse => exact map (target i codeSize) _
  | newObj | castClass | isInst => exact map (classOperand i p) _
  | call | callVirt => exact map (methodOperand i p) _
  | _ => exact ok _

end Quiet

/-! ## Computations that take operands -/

namespace Exec

variable {α β : Type}

/-- A computation from `s` has taken `k` operands off the stack and has left the others alone. If it
has failed because of the stack, there were too few operands. -/
inductive Took (k : Nat) (s : Activation) : EStateM.Result Fault Activation α → Prop
  | ok (a : α) {s' : Activation} (taken : List Value) (hk : taken.length = k)
    (h : s.operands = s'.operands ++ taken) (hroom : s'.room = s.room) : Took k s (.ok a s')
  | error {e : Fault} (s' : Activation)
    (h : e.blamesStack = true → e = .stackUnderflow ∧ s.operands.length < k) :
    Took k s (.error e s')

/-- A computation that takes `k` operands off the stack. -/
def Takes (k : Nat) (x : Exec α) : Prop := ∀ s, Took k s (x s)

theorem Took.quiet {e : Fault} (he : e.blamesStack = false) (k : Nat) (s s' : Activation) :
    Took k s (.error e s' : EStateM.Result Fault Activation α) :=
  .error s' fun h => absurd h (by rw [he]; exact Bool.false_ne_true)

theorem Took.none (a : α) {s s' : Activation} (h : s'.frame.stack = s.frame.stack) :
    Took 0 s (.ok a s') :=
  .ok a [] rfl (by simp [Activation.operands, h]) (by simp [Activation.room, h])

namespace Takes

theorem pure (a : α) : Takes 0 (Pure.pure a : Exec α) := fun _ => .none a rfl

theorem throw {e : Fault} (h : e.blamesStack = false) (k : Nat) :
    Takes k (throw e : Exec α) := fun s => .quiet h k s s

theorem get : Takes 0 (get : Exec Activation) := fun s => .none s rfl

theorem read {f : Activation → Except Fault α} (hf : ∀ s, Quiet (f s)) : Takes 0 (read f) := by
  intro s
  unfold Exec.read
  cases h : f s with
  | ok a => exact .none a rfl
  | error e => exact .quiet (hf s e h) _ _ _

theorem lift {x : Except Fault α} (hx : Quiet x) : Takes 0 (lift x) := read fun _ => hx

theorem onHeap {f : HeapM α} (hf : ∀ h e h', f h = .error e h' → e.blamesStack = false) :
    Takes 0 (onHeap f) := by
  intro s
  unfold Exec.onHeap
  dsimp only
  cases h : f s.heap with
  | ok a heap => exact .none a rfl
  | error e heap => exact .quiet (hf _ _ _ h) _ _ _

theorem onFrame {f : Frame → Except Fault Frame} (hf : ∀ g, Quiet (f g))
    (hstack : ∀ g g', f g = .ok g' → g'.stack = g.stack) : Takes 0 (onFrame f) := by
  intro s
  unfold Exec.onFrame
  cases h : f s.frame with
  | ok g => exact .none () (hstack _ _ h)
  | error e => exact .quiet (hf _ _ h) _ _ _

theorem pop : Takes 1 pop := by
  intro s
  unfold Exec.pop onStack Stack.pop
  dsimp only
  cases h : s.frame.stack.slots.back? with
  | none => exact .error _ fun _ => ⟨rfl, by simp_all [Activation.operands]⟩
  | some v =>
    obtain ⟨rest, hrest⟩ := Array.back?_eq_some_iff.mp h
    exact .ok v [v] rfl (by simp [Activation.operands, hrest]) rfl

theorem bind {x : Exec α} {f : α → Exec β} {k l : Nat} (hx : Takes k x) (hf : ∀ a, Takes l (f a)) :
    Takes (k + l) (x >>= f) := by
  intro s
  have hs := hx s
  simp only [Bind.bind, EStateM.bind]
  generalize x s = r at hs ⊢
  cases hs with
  | @ok a s₁ taken hk h hroom =>
    have hs₁ := hf a s₁
    dsimp only
    generalize f a s₁ = r at hs₁ ⊢
    cases hs₁ with
    | ok b taken' hl h' hroom' =>
      refine .ok b (taken' ++ taken) ?_ ?_ (hroom'.trans hroom)
      · rw [List.length_append, hk, hl, Nat.add_comm]
      · rw [h, h', List.append_assoc]
    | error s' he =>
      refine .error s' fun hblame => ?_
      obtain ⟨hunder, hlt⟩ := he hblame
      refine ⟨hunder, ?_⟩
      rw [h, List.length_append, hk]
      omega
  | error s' he =>
    refine .error s' fun hblame => ?_
    obtain ⟨hunder, hlt⟩ := he hblame
    exact ⟨hunder, by omega⟩

theorem popObject (op : Opcode) : Takes 1 (popObject op) := by
  refine bind pop fun v => read fun s => ?_
  split
  · exact Quiet.ok _
  · exact Quiet.error rfl

theorem popAs {sort? : Value → Option α} {mismatch : Value → Fault}
    (h : ∀ v, (mismatch v).blamesStack = false) : Takes 1 (popAs sort? mismatch) := by
  refine bind (l := 0) pop fun v => ?_
  cases sort? v with
  | some a => exact pure a
  | none => exact throw (h v) 0

theorem popArray (op : Opcode) : Takes 1 (popArray op) := by
  rw [popArray_eq]
  exact popAs fun _ => rfl

theorem popIndex (op : Opcode) : Takes 1 (popIndex op) := by
  rw [popIndex_eq]
  exact popAs fun _ => rfl

theorem newObject (c : Class) : Takes 0 (Exec.onHeap (Heap.newObject c)) := by
  refine onHeap fun h e h' he => ?_
  cases he

theorem newArray (n : Nat) : Takes 0 (Exec.onHeap (Heap.newArray n)) := by
  refine onHeap fun h e h' he => ?_
  cases he

theorem setField (r : ObjectRef) (field : String) (v : Value) :
    Takes 0 (Exec.onHeap (Heap.setField r field v)) := by
  refine onHeap fun h e h' he => ?_
  unfold Heap.setField at he
  split at he
  · cases he
    rfl
  · split at he
    · rename_i hslot
      cases he
      exact Quiet.slot _ _ _ hslot
    · cases he

theorem setElement (r : ArrayRef) (index : Int) (v : Value) :
    Takes 0 (Exec.onHeap (Heap.setElement r index v)) := by
  refine onHeap fun h e h' he => ?_
  unfold Heap.setElement at he
  split at he
  · rename_i hindex
    cases he
    exact Quiet.elementIndex _ _ _ hindex
  · cases he

theorem setArgument (i : Nat) (v : Value) : Takes 0 (Exec.onFrame (·.setArgument i v)) := by
  refine onFrame (fun g => Quiet.setArgument g i v) fun g g' h => ?_
  rcases Frame.setArgument_cases h with ⟨r, r', -, -, -, rfl⟩ | ⟨j, -, -, rfl⟩ <;> rfl

theorem setLocal (i : Nat) (v : Value) : Takes 0 (Exec.onFrame (·.setLocal i v)) := by
  refine onFrame (fun g => Quiet.setLocal g i v) fun g g' h => ?_
  unfold Frame.setLocal at h
  split at h <;> cases h
  rfl

end Takes

/-! ## Computations that take operands and put others back -/

/-- A computation from `s` has taken `k` operands off the stack and has put `q` others there. If it
has failed because of the stack, there were too few operands or no room for the new ones. -/
inductive Moved (k q : Nat) (s : Activation) : EStateM.Result Fault Activation α → Prop
  | ok (a : α) {s' : Activation} (base taken put : List Value)
    (hk : taken.length = k) (hq : put.length = q) (h : s.operands = base ++ taken)
    (h' : s'.operands = base ++ put) : Moved k q s (.ok a s')
  | error {e : Fault} (s' : Activation) (hunder : e = .stackUnderflow → s.operands.length < k)
    (hover : e = .stackOverflow →
      k ≤ s.operands.length ∧ s.room < s.operands.length - k + q) : Moved k q s (.error e s')

/-- A computation that takes `k` operands off the stack and puts `q` others there. -/
def Moves (k q : Nat) (x : Exec α) : Prop := ∀ s, Moved k q s (x s)

theorem Moved.quiet {e : Fault} (he : e.blamesStack = false) (k q : Nat) (s s' : Activation) :
    Moved k q s (.error e s' : EStateM.Result Fault Activation α) := by
  refine .error s' ?_ ?_
  · rintro rfl
    cases he
  · rintro rfl
    cases he

theorem Moved.underflow {k : Nat} {s : Activation} (h : s.operands.length < k) (q : Nat)
    (s' : Activation) :
    Moved k q s (.error .stackUnderflow s' : EStateM.Result Fault Activation α) := by
  refine .error s' (fun _ => h) ?_
  intro he
  cases he

theorem Moved.overflow {k q : Nat} {s : Activation} (hk : k ≤ s.operands.length)
    (h : s.room < s.operands.length - k + q) (s' : Activation) :
    Moved k q s (.error .stackOverflow s' : EStateM.Result Fault Activation α) := by
  refine .error s' ?_ fun _ => ⟨hk, h⟩
  intro he
  cases he

theorem Took.moved {k : Nat} {s : Activation} {r : EStateM.Result Fault Activation α}
    (h : Took k s r) : Moved k 0 s r := by
  cases h with
  | ok a taken hk h hroom => exact .ok a _ taken [] hk rfl h (List.append_nil _).symm
  | error s' h =>
    refine .error s' ?_ ?_
    · rintro rfl
      exact (h rfl).2
    · rintro rfl
      cases (h rfl).1

/-- What is moved by a computation that finds only the operands below those that have been taken. -/
theorem Moved.below {k l q : Nat} {s s₁ : Activation} {r : EStateM.Result Fault Activation α}
    (hr : Moved l q s₁ r) (taken : List Value) (h : s.operands = s₁.operands ++ taken)
    (hk : taken.length = k) (hroom : s₁.room = s.room) : Moved (k + l) q s r := by
  have hlength : s.operands.length = s₁.operands.length + k := by rw [h, List.length_append, hk]
  cases hr with
  | ok b base taken' put hl hq h₁ h' =>
    refine .ok b base (taken' ++ taken) put ?_ hq ?_ h'
    · rw [List.length_append, hk, hl, Nat.add_comm]
    · rw [h, h₁, List.append_assoc]
  | error s' hunder hover =>
    refine .error s' (fun he => ?_) (fun he => ?_)
    · have := hunder he
      omega
    · have := hover he
      omega

namespace Moves

theorem of_takes {x : Exec α} {k : Nat} (h : Takes k x) : Moves k 0 x := fun s => (h s).moved

/-- Operands are taken, and then more of them are taken and others put back. -/
theorem bind {x : Exec α} {f : α → Exec β} {k l q : Nat} (hx : Takes k x)
    (hf : ∀ a, Moves l q (f a)) : Moves (k + l) q (x >>= f) := by
  intro s
  have hs := hx s
  simp only [Bind.bind, EStateM.bind]
  generalize x s = r at hs ⊢
  cases hs with
  | ok a taken hk h hroom => exact .below (hf a _) taken h hk hroom
  | error s' h =>
    refine .error s' ?_ ?_
    · rintro rfl
      have := (h rfl).2
      omega
    · rintro rfl
      cases (h rfl).1

/-- An operand is put on the stack and the run goes on. -/
theorem pushNext (v : Value) : Moves 0 1 (do push v; pure Flow.next) := by
  intro s
  simp only [Bind.bind, EStateM.bind, push, onStack]
  by_cases h : s.frame.stack.depth < s.frame.stack.limit
  · rw [Stack.push_of_lt v h]
    exact .ok _ _ [] [v] rfl rfl (List.append_nil _).symm Array.toList_push
  · rw [Stack.push_of_le v (Nat.not_lt.mp h)]
    exact .overflow (Nat.zero_le _) (Nat.lt_succ_of_le (Nat.not_lt.mp h)) _

/-- The operand on top is put there once more. -/
theorem duplicate : Moves 1 2 (do push (← onStack Stack.peek); pure Flow.next) := by
  intro s
  simp only [Bind.bind, EStateM.bind, push, onStack, Stack.peek]
  cases h : s.frame.stack.slots.back? with
  | none =>
    have hempty : s.operands.length < 1 := by
      simp [Activation.operands, Array.back?_eq_none_iff.mp h]
    exact .underflow hempty _ _
  | some v =>
    obtain ⟨rest, hrest⟩ := Array.back?_eq_some_iff.mp h
    dsimp only
    have hlength : s.operands.length = rest.size + 1 := by simp [Activation.operands, hrest]
    by_cases hroom : s.frame.stack.depth < s.frame.stack.limit
    · rw [Stack.push_of_lt v hroom]
      refine .ok _ (rest.toList) [v] [v, v] rfl rfl ?_ ?_
      · simp [Activation.operands, hrest]
      · simp [Activation.operands, hrest]
    · rw [Stack.push_of_le v (Nat.not_lt.mp hroom)]
      have hfull : s.room ≤ s.operands.length := Nat.not_lt.mp hroom
      exact .overflow (by omega) (by omega) _

/-- Something is computed from the activation and put on the stack. -/
theorem pushRead {f : Activation → Except Fault Value} (hf : ∀ s, Quiet (f s)) :
    Moves 0 1 (do push (← read f); pure Flow.next) :=
  bind (k := 0) (.read hf) fun v => pushNext v

end Moves

end Exec

/-- The effect of an action that neither calls nor returns. -/
def Action.effect? : Action → Option Effect
  | .skip | .branch none _ => some ⟨0, 0⟩
  | .push _ | .loadArgument _ | .loadLocal _ | .create _ => some ⟨0, 1⟩
  | .duplicate => some ⟨1, 2⟩
  | .discard | .storeArgument _ | .storeLocal _ | .branch (some _) _ => some ⟨1, 0⟩
  | .negate | .loadField _ | .cast _ | .testClass _ | .createArray | .arrayLength => some ⟨1, 1⟩
  | .storeField _ => some ⟨2, 0⟩
  | .arith _ | .compare _ | .loadElement => some ⟨2, 1⟩
  | .storeElement => some ⟨3, 0⟩
  | .call _ | .callVirtual _ | .ret => none

namespace Exec

/-- An action that neither calls nor returns has its effect. -/
theorem Moves.perform (p : Program) {a : Action} {k q : Nat} (h : a.effect? = some ⟨k, q⟩) :
    Moves k q (perform p a) := by
  cases a with
  | skip =>
    cases h
    exact of_takes (.pure _)
  | duplicate =>
    cases h
    exact duplicate
  | discard =>
    cases h
    exact of_takes (.bind (l := 0) .pop fun _ => .pure _)
  | push v =>
    cases h
    exact pushNext v
  | loadArgument i =>
    cases h
    exact pushRead fun s => Quiet.argument s.frame i
  | storeArgument i =>
    cases h
    exact of_takes (.bind (l := 0) .pop fun v => .bind (l := 0) (.setArgument i v) fun _ => .pure _)
  | loadLocal i =>
    cases h
    exact pushRead fun s => Quiet.localValue s.frame i
  | storeLocal i =>
    cases h
    exact of_takes (.bind (l := 0) .pop fun v => .bind (l := 0) (.setLocal i v) fun _ => .pure _)
  | arith op =>
    cases h
    exact bind (l := 1) .pop fun b => bind (l := 0) .pop fun a => pushRead fun _ => .arith op a b
  | negate =>
    cases h
    exact bind (l := 0) .pop fun a => pushRead fun _ => .neg a
  | compare op =>
    cases h
    exact bind (l := 1) .pop fun b => bind (l := 0) .pop fun a =>
      bind (l := 0) (.lift (.compare op a b)) fun c => pushNext (.bool c)
  | ret => cases h
  | branch condition target =>
    cases condition with
    | none =>
      cases h
      exact of_takes (.pure _)
    | some b =>
      cases h
      exact of_takes (.bind (l := 0) .pop fun v => .pure _)
  | create c =>
    cases h
    exact bind (l := 0) (.newObject c) fun r => pushNext (.object r)
  | loadField name =>
    cases h
    exact bind (l := 0) (.popObject .ldFld) fun found => pushRead fun _ => .get found.2 name
  | storeField name =>
    cases h
    exact of_takes (.bind (l := 1) .pop fun v => .bind (l := 0) (.popObject .stFld) fun found =>
      .bind (l := 0) (.setField found.1 name v) fun _ => .pure _)
  | call m => cases h
  | callVirtual m => cases h
  | cast c =>
    cases h
    refine bind (l := 0) .pop fun v => bind (l := 0) .get fun s => ?_
    dsimp only
    split
    · exact pushNext v
    · exact fun s => .quiet rfl _ _ _ s
  | testClass c =>
    cases h
    exact bind (l := 0) .pop fun v => bind (l := 0) .get fun s => pushNext _
  | createArray =>
    cases h
    exact bind (l := 0) (.popIndex .newArr) fun n =>
      bind (l := 0) (.lift (.checkLength p.limits n)) fun n =>
        bind (l := 0) (.newArray n) fun r => pushNext (.array r)
  | loadElement =>
    cases h
    exact bind (l := 1) (.popIndex .ldElem) fun i => bind (l := 0) (.popArray .ldElem) fun r =>
      pushRead fun s => .getElement s.heap r i
  | storeElement =>
    cases h
    exact of_takes (.bind (l := 2) .pop fun v => .bind (l := 1) (.popIndex .stElem) fun i =>
      .bind (l := 0) (.popArray .stElem) fun r => .bind (l := 0) (.setElement r i v) fun _ =>
        .pure _)
  | arrayLength =>
    cases h
    exact bind (l := 0) (.popArray .ldLen) fun r => bind (l := 0) .get fun s => pushNext _

end Exec

end ObjectMachine
