import ObjectMachine.Proofs.Cells
import ObjectMachine.Proofs.Reachable

/-!
# Runs keep to what they are given

A run can only come to the cells that are reached from its receiver, its arguments and the constants
of the program, and to those that it allocates. On two heaps that agree on these cells it does the
same, and the other cells stay as they are.

The invariant is `Config.Twins`: the same frames on twin heaps, with no reference to a cell outside
of the set. The accesses to the frame and to the heap keep it (`Exec.Confined.accesses`), hence
every instruction, every tick and every run (`run_twins`). Native bodies are confined by assumption
(`Native.Confined`).
-/

namespace ObjectMachine

/-! ## Native bodies -/

/-- A native body that keeps to the cells that are reached from its receiver and its arguments, and
to those that it allocates: what it does depends on no others, it changes no others, and neither
what it stores nor what it returns refers to others. -/
def Native.Confined (f : Native) : Prop :=
  ∀ (receiver : Option ObjectRef) (arguments : Array Value) (h h' : Heap),
    h.SameFrom (argumentValues receiver arguments) h' →
      Alike (Heap.Twins (h.Own (argumentValues receiver arguments)) h h')
        (Value.Within (h.Own (argumentValues receiver arguments)))
        (f receiver arguments h) (f receiver arguments h')

/-- A native body is confined exactly if it is indifferent on every set with its receiver and its
arguments. -/
theorem Native.confined_iff {f : Native} :
    f.Confined ↔ ∀ (K : Cell → Prop) (h₀ h₀' : Heap) (receiver : Option ObjectRef)
      (arguments : Array Value), (∀ v ∈ argumentValues receiver arguments, v.Within K) →
        Indifferent (Heap.Twins K h₀ h₀') (Value.Within K) (f receiver arguments) := by
  constructor
  · intro hf K h₀ h₀' receiver arguments hvalues h h' ht
    -- the set can be larger than what the body owns, but the body leaves the difference alone
    have hown := ht.own_le hvalues
    have hr := hf receiver arguments h h' (ht.sameFrom hvalues)
    generalize f receiver arguments h = r at hr ⊢
    generalize f receiver arguments h' = r' at hr ⊢
    cases hr with
    | ok hv hs => exact .ok (hv.mono hown) (ht.widen hown hs)
    | error e hs => exact .error e (ht.widen hown hs)
  · intro hf receiver arguments h h' hsame
    exact hf _ h h' receiver arguments (fun v hv cell hc => .inl (.root hv hc)) hsame.twins

namespace Host

variable {K : Cell → Prop} {h₀ h₀' : Heap}

theorem outcome_indifferent {α : Type} {Q : α → Prop} {x : Except Fault α}
    (hx : ∀ a, x = .ok a → Q a) : Indifferent (Heap.Twins K h₀ h₀') Q (outcome x) := by
  cases x with
  | ok a => exact .pure (hx a rfl)
  | error e => exact .throw e

theorem bump_indifferent {receiver : Option ObjectRef}
    (hreceiver : ∀ r, receiver = some r → (Value.object r).Within K) (arguments : Array Value) :
    Indifferent (Heap.Twins K h₀ h₀') (Value.Within K) (bump receiver arguments) := by
  unfold bump
  cases receiver with
  | none => exact .throw _
  | some r =>
    have hr := Value.within_object.mp (hreceiver r rfl)
    refine .get_bind fun h h' ht => ?_
    dsimp only
    rw [Heap.getField, Heap.getField, ht.object?_eq hr]
    refine .bind (Q := fun _ => True) (outcome_indifferent fun _ _ => trivial) fun old _ => ?_
    refine .bind (Q := Value.Within K) (outcome_indifferent fun v hv => Value.within_of_arith hv)
      fun new hnew => ?_
    exact (Agree.setField hr _ hnew).bind fun _ _ => .pure hnew

/-- The native bodies of the basic host are confined. -/
theorem confined_basic (name : String) : (basic.native name).Confined := by
  rw [Native.confined_iff]
  intro K h₀ h₀' receiver arguments hvalues
  obtain ⟨hreceiver, harguments⟩ := forall_argumentValues.mp hvalues
  simp only [basic]
  split
  · unfold sub
    split
    · exact outcome_indifferent fun v hv => Value.within_of_arith hv
    · exact .throw _
  · exact .pure (Value.within_ofInt _)
  · refine .pure ?_
    cases hlast : arguments.back? with
    | none => exact Value.within_null
    | some v => exact harguments v (Array.mem_of_back? hlast)
  · refine .pure ?_
    cases receiver with
    | none => exact Value.within_null
    | some r => exact hreceiver r rfl
  · exact .throw _
  · exact bump_indifferent hreceiver arguments
  · exact .throw _

end Host

/-! ## Frames -/

/-- A frame that refers to no cell outside of a set. -/
structure Frame.Within (K : Cell → Prop) (f : Frame) : Prop where
  arguments : ∀ v ∈ argumentValues f.receiver f.arguments, v.Within K
  locals : ∀ v ∈ f.locals, v.Within K
  operands : ∀ v ∈ f.stack.slots, v.Within K

namespace Frame.Within

variable {K : Cell → Prop} {f g : Frame} {v : Value} {i : Nat}

theorem of_argument (hf : f.Within K) (h : f.argument i = .ok v) : v.Within K :=
  hf.arguments v (List.mem_of_getElem? (argument_eq_ok_iff.mp h))

theorem of_local (hf : f.Within K) (h : f.localValue i = .ok v) : v.Within K := by
  unfold localValue at h
  split at h
  · rename_i w hw
    cases h
    exact hf.locals v (Array.mem_of_getElem? hw)
  · cases h

theorem setArgument (hf : f.Within K) (hv : v.Within K) (h : f.setArgument i v = .ok g) :
    g.Within K := by
  obtain ⟨hreceiver, harguments⟩ := forall_argumentValues.mp hf.arguments
  rcases setArgument_cases h with ⟨r, r', -, -, rfl, rfl⟩ | ⟨j, -, -, rfl⟩
  · refine { hf with arguments := forall_argumentValues.mpr ⟨?_, harguments⟩ }
    intro w hw
    cases hw
    exact hv
  · refine { hf with arguments := forall_argumentValues.mpr ⟨hreceiver, ?_⟩ }
    exact within_setIfInBounds j harguments hv

theorem setLocal (hf : f.Within K) (hv : v.Within K) (h : f.setLocal i v = .ok g) :
    g.Within K := by
  unfold Frame.setLocal at h
  split at h
  · cases h
    exact { hf with locals := within_setIfInBounds i hf.locals hv }
  · cases h

theorem enter {c : Call} (hc : c.All (Value.Within K)) (limit : Nat) :
    (Frame.enter c.method c.receiver c.arguments limit).Within K where
  arguments := hc
  locals := within_replicate _
  operands := by simp [Frame.enter, Stack.empty]

theorem jump (hf : f.Within K) (target : Nat) : (f.jump target).Within K :=
  ⟨hf.arguments, hf.locals, hf.operands⟩

theorem resume (hf : f.Within K) (hv : v.Within K) : (f.resume v).Within K where
  arguments := hf.arguments
  locals := hf.locals
  operands := within_push hf.operands hv

end Frame.Within

/-- Constants are the only references that an instruction can bring along. -/
theorem Instruction.action_within {K : Cell → Prop} {i : Instruction} {p : Program}
    {codeSize : Nat} {a : Action} (hp : ∀ v ∈ p.constants, v.Within K)
    (h : i.action p codeSize = .ok a) : a.All (Value.Within K) fun _ => True := by
  unfold action at h
  cases hop : i.opcode? with
  | none => rw [hop] at h; cases h
  | some op =>
    rw [hop] at h
    change i.actionOf p codeSize op = .ok a at h
    cases op with
    | ldCon =>
      obtain ⟨n, -, h⟩ := ok_of_bind h
      obtain ⟨v, hv, h⟩ := ok_of_bind h
      cases h
      unfold Program.constantAt at hv
      split at hv
      · rename_i w hw
        cases hv
        exact hp v (Array.mem_of_getElem? hw)
      · cases hv
    | ldStr | ldI4 | ldI8 | ldR4 | ldR8 =>
      obtain ⟨x, -, h⟩ := ok_of_bind h
      cases h
      exact Value.within_of_cell? rfl
    | ldTrue | ldFalse | ldNull =>
      cases h
      exact Value.within_of_cell? rfl
    | ldArg | ldLoc | ldFld | stLoc | stFld | stArg | newObj | castClass | isInst | br | brTrue
    | brFalse | call | callVirt =>
      obtain ⟨x, -, rfl⟩ := ok_of_map h
      trivial
    | _ => cases h; trivial

/-! ## Instructions -/

/-- The same frame on twin heaps, with no reference to a cell outside of the set. -/
structure Activation.Twins (K : Cell → Prop) (h₀ h₀' : Heap) (s s' : Activation) : Prop where
  frame : s'.frame = s.frame
  within : s.frame.Within K
  heap : Heap.Twins K h₀ h₀' s.heap s'.heap

/-- The same stack, with no reference to a cell outside of the set. -/
structure Stack.Same (K : Cell → Prop) (s s' : Stack) : Prop where
  eq : s' = s
  within : ∀ v ∈ s.slots, v.Within K

theorem mem_of_mem_extract {α : Type} {xs : Array α} {start stop : Nat} {x : α}
    (h : x ∈ xs.extract start stop) : x ∈ xs := by
  obtain ⟨i, hi, rfl⟩ := Array.mem_iff_getElem.mp h
  rw [Array.getElem_extract]
  exact Array.getElem_mem _

namespace Exec

/-- A computation that cannot tell twins apart and leaves twins behind. -/
abbrev Confined {α : Type} (K : Cell → Prop) (h₀ h₀' : Heap) (Q : α → Prop) (x : Exec α) : Prop :=
  Indifferent (Activation.Twins K h₀ h₀') Q x

namespace Confined

variable {α : Type} {K : Cell → Prop} {h₀ h₀' : Heap} {Q : α → Prop} {v : Value}

theorem composes : Composes (fun _ Q x y => Agree (Activation.Twins K h₀ h₀') Q x y)
    (Activation.Twins K h₀ h₀') where
  pure ha := .pure ha
  throw e := .throw e
  bind hx hf := hx.bind hf
  congr h s s' hs := by
    obtain ⟨x', y', hxy, hx, hy⟩ := h s s' hs
    rw [hx, hy]
    exact hxy hs

/-- An instruction finds the same in twins, and no reference to a cell outside of the set. -/
theorem agreement : Agreement (Activation.Twins K h₀ h₀') (Value.Within K) where
  plain h := Value.within_of_isPlain h
  method hs := by rw [hs.frame]
  pc hs := by rw [hs.frame]
  top hs := by rw [hs.frame]
  argument i hs := ⟨by rw [hs.frame], fun _ h => hs.within.of_argument h⟩
  localValue i hs := ⟨by rw [hs.frame], fun _ h => hs.within.of_local h⟩
  object hs hr := ⟨hs.heap.object?_eq (Value.within_object.mp hr),
    fun _ ho => hs.heap.within_slots (Value.within_object.mp hr) ho⟩
  elements hs hr := ⟨hs.heap.elements_eq (Value.within_array.mp hr),
    hs.heap.within_elements (Value.within_array.mp hr)⟩

theorem onStack {f : StackM α} (hf : Indifferent (Stack.Same K) Q f) :
    Confined K h₀ h₀' Q (onStack f) := by
  rintro ⟨frame, h⟩ ⟨frame', h'⟩ ⟨he, hw, hh⟩
  cases he
  have hr := hf ⟨rfl, hw.operands⟩
  simp only [Exec.onStack]
  generalize f frame.stack = r at hr ⊢
  cases hr with
  | ok ha hs => exact .ok ha ⟨rfl, { hw with operands := hs.within }, hh⟩
  | error e hs => exact .error e ⟨rfl, { hw with operands := hs.within }, hh⟩

theorem onHeap {f : HeapM α} (hf : Indifferent (Heap.Twins K h₀ h₀') Q f) :
    Confined K h₀ h₀' Q (onHeap f) := by
  rintro ⟨frame, h⟩ ⟨frame', h'⟩ ⟨he, hw, hh⟩
  cases he
  have hr := hf hh
  simp only [Exec.onHeap]
  generalize f h = r at hr ⊢
  generalize f h' = r' at hr ⊢
  cases hr with
  | ok ha hs => exact .ok ha ⟨rfl, hw, hs⟩
  | error e hs => exact .error e ⟨rfl, hw, hs⟩

theorem onFrame {f : Frame → Except Fault Frame}
    (hf : ∀ g g', g.Within K → f g = .ok g' → g'.Within K) :
    Confined K h₀ h₀' (fun _ => True) (onFrame f) := by
  rintro ⟨frame, h⟩ ⟨frame', h'⟩ ⟨he, hw, hh⟩
  cases he
  simp only [Exec.onFrame]
  cases hg : f frame with
  | ok g => exact .ok trivial ⟨rfl, hf frame g hw hg, hh⟩
  | error e => exact .error e ⟨rfl, hw, hh⟩

theorem push (hv : v.Within K) : Confined K h₀ h₀' (fun _ => True) (push v) := by
  refine onStack ?_
  rintro s _ ⟨rfl, hs⟩
  unfold Stack.push
  split
  · exact .ok trivial ⟨rfl, within_push hs hv⟩
  · exact .error _ ⟨rfl, hs⟩

theorem pop : Confined K h₀ h₀' (Value.Within K) pop := by
  refine onStack ?_
  rintro s _ ⟨rfl, hs⟩
  unfold Stack.pop
  split
  · rename_i v hv
    refine .ok (hs v (Array.mem_of_back? hv)) ⟨rfl, fun w hw => ?_⟩
    rw [← Array.extract_eq_pop rfl] at hw
    exact hs w (mem_of_mem_extract hw)
  · exact .error _ ⟨rfl, hs⟩

theorem peek : Confined K h₀ h₀' (Value.Within K) (Exec.onStack Stack.peek) := by
  refine onStack ?_
  rintro s _ ⟨rfl, hs⟩
  unfold Stack.peek
  split
  · rename_i v hv
    exact .ok (hs v (Array.mem_of_back? hv)) ⟨rfl, hs⟩
  · exact .error _ ⟨rfl, hs⟩

theorem popMany (n : Nat) : Confined K h₀ h₀' (fun vs : Array Value => ∀ v ∈ vs, v.Within K)
    (Exec.onStack (Stack.popMany n)) := by
  refine onStack ?_
  rintro s _ ⟨rfl, hs⟩
  unfold Stack.popMany
  split
  · exact .error _ ⟨rfl, hs⟩
  · refine .ok (fun v hv => hs v (mem_of_mem_extract hv)) ⟨rfl, fun w hw => ?_⟩
    rw [Array.shrink_eq_take] at hw
    exact hs w (mem_of_mem_extract hw)

theorem accesses {p : Program} (hp : ∀ name, (p.host.native name).Confined) :
    Accesses (fun _ Q x y => Agree (Activation.Twins K h₀ h₀') Q x y) (Activation.Twins K h₀ h₀')
      (Value.Within K) (fun _ => True) p p where
  toComposes := composes
  toAgreement := agreement
  push hv := push hv
  pop := pop
  peek := peek
  popMany := popMany
  setArgument _ _ hv := onFrame fun _ _ hg h => hg.setArgument hv h
  setLocal _ _ hv := onFrame fun _ _ hg h => hg.setLocal hv h
  newObject _ := onHeap (.newObject _)
  newArray n := onHeap (.newArray n)
  checkLength _ := composes.lift fun _ _ => trivial
  setField name _ hr hv := onHeap (.setField (Value.within_object.mp hr) name hv)
  setElement i _ hr hv := onHeap (.setElement (Value.within_array.mp hr) i hv)
  native name receiver arguments h :=
    onHeap (Native.confined_iff.mp (hp name) K h₀ h₀' receiver arguments h)
  registry := rfl

end Confined

end Exec

/-- Every instruction keeps to the set, if all native bodies are confined and the constants refer to
cells of the set. -/
theorem step_confined {K : Cell → Prop} {h₀ h₀' : Heap} {p : Program}
    (hp : ∀ name, (p.host.native name).Confined) (hconstants : ∀ v ∈ p.constants, v.Within K) :
    Exec.Confined K h₀ h₀' (Flow.All (Value.Within K)) (step p) :=
  (Exec.Confined.accesses hp).step (fun _ _ => rfl) (Instruction.action_within hconstants)

/-! ## Runs -/

/-- The same frames on twin heaps, after equally many instructions, with no reference to a cell
outside of the set. -/
inductive Config.Twins (K : Cell → Prop) (h₀ h₀' : Heap) : Config → Config → Prop
  | of {active : Frame} {callers : Callers} {h h' : Heap} (steps : Nat) (hactive : active.Within K)
    (hcallers : ∀ f ∈ callers.frames, f.Within K) (hheap : Heap.Twins K h₀ h₀' h h') :
    Twins K h₀ h₀' ⟨active, callers, h, steps⟩ ⟨active, callers, h', steps⟩

/-- The same result on twin heaps, after equally many instructions, and no reference to a cell
outside of the set. -/
inductive Outcome.Twins (K : Cell → Prop) (h₀ h₀' : Heap) : Outcome → Outcome → Prop
  | of {result : Except Fault Value} {h h' : Heap} (steps : Nat)
    (hresult : ∀ v, result = .ok v → v.Within K) (hheap : Heap.Twins K h₀ h₀' h h') :
    Twins K h₀ h₀' ⟨result, h, steps⟩ ⟨result, h', steps⟩

/-- Two runs after equally many ticks: both go on, or both have ended. -/
inductive Status.Twins (K : Cell → Prop) (h₀ h₀' : Heap) : Status → Status → Prop
  | running {c c' : Config} (h : c.Twins K h₀ h₀' c') : Twins K h₀ h₀' (.running c) (.running c')
  | finished {o o' : Outcome} (h : o.Twins K h₀ h₀' o') :
    Twins K h₀ h₀' (.finished o) (.finished o')

namespace Status.Twins

variable {K : Cell → Prop} {h₀ h₀' h h' : Heap} {callers : Callers}

theorem failed (e : Fault) (steps : Nat) (hheap : Heap.Twins K h₀ h₀' h h') :
    Twins K h₀ h₀' (.finished ⟨.error e, h, steps⟩) (.finished ⟨.error e, h', steps⟩) :=
  .finished (.of steps (fun _ hv => by cases hv) hheap)

theorem returnTo (hcallers : ∀ f ∈ callers.frames, f.Within K) {v : Value} (hv : v.Within K)
    (steps : Nat) (hheap : Heap.Twins K h₀ h₀' h h') :
    Twins K h₀ h₀' (returnTo callers v h steps) (returnTo callers v h' steps) := by
  rcases callers.empty_or_push with rfl | ⟨f, rest, rfl⟩
  · rw [returnTo_empty, returnTo_empty]
    refine .finished (.of steps (fun w hw => ?_) hheap)
    cases hw
    exact hv
  · rw [Callers.frames_push, List.forall_mem_cons] at hcallers
    by_cases hroom : f.stack.depth < f.stack.limit
    · rw [returnTo_push_of_lt rest v h steps hroom, returnTo_push_of_lt rest v h' steps hroom]
      exact .running (.of steps (hcallers.1.resume hv) hcallers.2 hheap)
    · have hfull := Nat.not_lt.mp hroom
      rw [returnTo_push_of_le rest v h steps hfull, returnTo_push_of_le rest v h' steps hfull]
      exact failed _ steps hheap

theorem enterCall (p : Program) {c : Call} (hc : c.All (Value.Within K)) {f : Frame}
    (hf : f.Within K) (hcallers : ∀ f ∈ callers.frames, f.Within K) (steps : Nat)
    (hheap : Heap.Twins K h₀ h₀' h h') :
    Twins K h₀ h₀' (enterCall p c f callers h steps) (enterCall p c f callers h' steps) := by
  by_cases hdepth : callers.count + 1 < p.limits.callDepth
  · rw [enterCall_of_lt c f h steps hdepth, enterCall_of_lt c f h' steps hdepth]
    refine .running (.of steps (.enter hc _) ?_ hheap)
    rw [Callers.frames_push, List.forall_mem_cons]
    exact ⟨hf, hcallers⟩
  · have hfull := Nat.not_lt.mp hdepth
    rw [enterCall_of_le c f h steps hfull, enterCall_of_le c f h' steps hfull]
    exact failed _ steps hheap

/-- What two results of an instruction that are alike mean for the chain of calls. -/
theorem proceed (p : Program) (hcallers : ∀ f ∈ callers.frames, f.Within K) (steps : Nat)
    {r r' : EStateM.Result Fault Activation Flow}
    (hr : Alike (Activation.Twins K h₀ h₀') (Flow.All (Value.Within K)) r r') :
    Twins K h₀ h₀' (proceed p callers steps r) (proceed p callers steps r') := by
  cases hr with
  | error e hs => exact failed e steps hs.heap
  | @ok flow hflow s s' hs =>
    obtain ⟨frame, h⟩ := s
    obtain ⟨frame', h'⟩ := s'
    obtain ⟨hframe, hwithin, hheap⟩ := hs
    obtain rfl : frame' = frame := hframe
    cases flow with
    | next => exact .running (.of steps (hwithin.jump _) hcallers hheap)
    | jump target => exact .running (.of steps (hwithin.jump target) hcallers hheap)
    | ret v => exact returnTo hcallers hflow steps hheap
    | call c => exact enterCall p hflow hwithin hcallers steps hheap

end Status.Twins

section
variable {K : Cell → Prop} {h₀ h₀' : Heap} {p : Program}
  (hp : ∀ name, (p.host.native name).Confined) (hconstants : ∀ v ∈ p.constants, v.Within K)
include hp hconstants

/-- One tick keeps twins. -/
theorem tick_twins {c c' : Config} (hc : c.Twins K h₀ h₀' c') :
    Status.Twins K h₀ h₀' (tick p c) (tick p c') := by
  obtain ⟨steps, hactive, hcallers, hheap⟩ := hc
  cases hb : exhausted? p steps with
  | some budget =>
    rw [tick_of_exhausted hb, tick_of_exhausted (c := ⟨_, _, _, steps⟩) hb]
    exact .failed _ steps hheap
  | none =>
    rw [tick_of_not_exhausted hb, tick_of_not_exhausted (c := ⟨_, _, _, steps⟩) hb]
    exact .proceed p hcallers (steps + 1) (step_confined hp hconstants ⟨rfl, hactive, hheap⟩)

/-- Runs of twins stay twins. -/
theorem run_twins (n : Nat) {c c' : Config} (hc : c.Twins K h₀ h₀' c') :
    Status.Twins K h₀ h₀' (run p n c) (run p n c') := by
  induction n generalizing c c' with
  | zero => exact .running hc
  | succ n ih =>
    have ht := tick_twins hp hconstants hc
    simp only [run]
    generalize tick p c = t at ht ⊢
    generalize tick p c' = t' at ht ⊢
    cases ht with
    | running hd => exact ih hd
    | finished ho => exact .finished ho

end

/-- **Runs keep to what they are given.** Let two heaps agree on all cells that are reached from the
receiver, the arguments and the constants, and let all native bodies be confined. Then the two runs
of a call are in lockstep, and in both of them every other cell keeps what was in it. -/
theorem execute_keeps_to_reached (p : Program) (hp : ∀ name, (p.host.native name).Confined)
    (c : Call) (h h' : Heap)
    (hsame : h.SameFrom (argumentValues c.receiver c.arguments ++ p.constants.toList) h') :
    let K := h.Own (argumentValues c.receiver c.arguments ++ p.constants.toList)
    (∀ n, Status.Twins K h h' (run p n (.start p c h)) (run p n (.start p c h'))) ∧
    ∀ patience,
      Option.Rel (Outcome.Twins K h h') (execute p patience c h) (execute p patience c h') := by
  intro K
  have hroots : ∀ v ∈ argumentValues c.receiver c.arguments ++ p.constants.toList, v.Within K :=
    fun v hv cell hc => .inl (.root hv hc)
  rw [List.forall_mem_append] at hroots
  obtain ⟨hcall, hconstants⟩ := hroots
  have hrun : ∀ n, Status.Twins K h h' (run p n (.start p c h)) (run p n (.start p c h')) := by
    intro n
    refine run_twins hp (fun v hv => hconstants v (Array.mem_toList_iff.mpr hv)) n ?_
    exact .of 0 (.enter hcall _) (fun f hf => by cases hf) hsame.twins
  refine ⟨hrun, fun patience => ?_⟩
  cases hb : c.method.body with
  | native name =>
    have hr := Native.confined_iff.mp (hp name) K h h' c.receiver c.arguments hcall hsame.twins
    simp only [execute, hb]
    generalize p.host.native name c.receiver c.arguments h = r at hr ⊢
    generalize p.host.native name c.receiver c.arguments h' = r' at hr ⊢
    cases hr with
    | ok hv hs => exact .some (.of 0 (fun w hw => by cases hw; exact hv) hs)
    | error e hs => exact .some (.of 0 (fun w hw => by cases hw) hs)
  | interpreted code =>
    rw [execute_interpreted hb, execute_interpreted hb]
    have ht := hrun patience
    generalize run p patience (.start p c h) = t at ht ⊢
    generalize run p patience (.start p c h') = t' at ht ⊢
    cases ht with
    | running hc => exact .none
    | finished ho => exact .some ho

/-! A method that counts its calls in a field of the receiver, with the help of a native body, and
then puts a new object into that field. The heap has a second object, which the method cannot
reach. -/

namespace Counting

def count : Method :=
  .interpreted "Count" .void [] []
    #[.of .ldArg [0], .of .callVirt [0, 0], .of .pop [], .of .ldArg [0], .of .newObj [0],
      .of .stFld [0], .of .ldArg [0], .of .ret []] .everyone

def counter : Class :=
  .derive ⟨0⟩
    (((({ name := "Counter" } : ClassDecl).addField
      { name := "count", type := .primitive .int32, access := .everyone }).addMethod
        (.native "Bump" .void [] "bump" .everyone)).addMethod count) none

def program : Program where
  registry := ({} : Registry).register counter
  strings := #["count"]
  host := .basic

/-- The receiver, and the second object with a number in it. -/
def heap (n : Int32) : Heap := { objects := #[.create counter, ⟨counter, #[.int32 n]⟩] }

def call : Call := ⟨count, some ⟨0⟩, #[]⟩

def roots : List Value :=
  argumentValues call.receiver call.arguments ++ program.constants.toList

/-- Only the receiver can be reached. -/
theorem eq_of_reaches {n : Int32} {cell : Cell} (h : (heap n).Reaches roots cell) :
    cell = .object ⟨0⟩ := by
  refine h.of_closed (K := (· = .object ⟨0⟩)) ?_ ?_
  · rintro _ content rfl hcontent
    cases hcontent
    exact within_replicate _
  · intro v hv
    obtain rfl : v = .object ⟨0⟩ := by simpa [roots, call, program, argumentValues] using hv
    exact Value.within_object.mpr rfl

theorem sameFrom (n k : Int32) : (heap n).SameFrom roots (heap k) where
  allocated cell := by
    cases cell with
    | object r => simp [Heap.content?, Heap.object?, heap]
    | array r => simp [Heap.content?, heap]
  reached cell h := by
    rw [eq_of_reaches h]
    rfl

theorem not_own (n : Int32) : ¬ (heap n).Own roots (.object ⟨1⟩) := by
  rintro (h | h)
  · exact absurd (eq_of_reaches h) (by decide)
  · cases h

end Counting

theorem execute_keeps_to_reached_counting :
    let K := (Counting.heap 1).Own Counting.roots
    ¬ K (.object ⟨1⟩) ∧
    (Counting.heap 1).SameFrom Counting.roots (Counting.heap 2) ∧
    (∀ n, Status.Twins K (Counting.heap 1) (Counting.heap 2)
      (run Counting.program n (.start Counting.program Counting.call (Counting.heap 1)))
      (run Counting.program n (.start Counting.program Counting.call (Counting.heap 2)))) ∧
    ∃ g g', execute Counting.program 8 Counting.call (Counting.heap 1) =
        some ⟨.ok (.object ⟨0⟩), g, 8⟩ ∧
      execute Counting.program 8 Counting.call (Counting.heap 2) =
        some ⟨.ok (.object ⟨0⟩), g', 8⟩ ∧
      Heap.Twins K (Counting.heap 1) (Counting.heap 2) g g' := by
  intro K
  have hsame := Counting.sameFrom 1 2
  obtain ⟨hrun, hexecute⟩ := execute_keeps_to_reached Counting.program Host.confined_basic
    Counting.call (Counting.heap 1) (Counting.heap 2) hsame
  refine ⟨Counting.not_own 1, hsame, hrun, ?_⟩
  obtain ⟨g, hg⟩ : ∃ g, execute Counting.program 8 Counting.call (Counting.heap 1) =
      some ⟨.ok (.object ⟨0⟩), g, 8⟩ := ⟨_, rfl⟩
  have hboth := hexecute 8
  rw [hg] at hboth ⊢
  generalize execute Counting.program 8 Counting.call (Counting.heap 2) = e at hboth ⊢
  cases hboth with
  | some ho =>
    obtain ⟨_, _, hheap⟩ := ho
    exact ⟨g, _, rfl, rfl, hheap⟩

end ObjectMachine
