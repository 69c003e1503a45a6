import ObjectMachine.Proofs.Instructions
import ObjectMachine.Proofs.Runs

/-!
# Limits stay out of sight

A program learns about its limits only from the faults that report them. A run under some limits and
a run under limits that allow more go through the same configurations, except that the frames of the
second one have more room for operands, until the first one ends with a fault that reports a limit.
So an outcome of any other kind is also the outcome under the higher limits.

The invariant is `Roomier`, for frames, activations, configurations and statuses. The accesses to
the frame and to the heap keep it (`Exec.UpToLimits.accesses`), hence every instruction, every tick
and every run (`run_roomier`).
-/

namespace ObjectMachine

/-- Limits that allow at least as much, with the same budget of instructions. -/
structure Limits.Raised (l l' : Limits) : Prop where
  callDepth : l.callDepth ≤ l'.callDepth
  stackSize : l.stackSize ≤ l'.stackSize
  arrayLength : l.arrayLength ≤ l'.arrayLength
  stepBudget : l'.stepBudget = l.stepBudget

/-- Whether a fault reports that the run has come to a limit: too many operands, too many calls, or
an array whose length is not allowed. -/
def Fault.reportsLimit : Fault → Bool
  | .stackOverflow | .recursionLimitExceeded _ | .indexOutOfRange .arrayLength _ _ => true
  | _ => false

/-! ## Frames with more room -/

def Frame.withRoom (f : Frame) (limit : Nat) : Frame := { f with stack := { f.stack with limit } }

/-- The same frame, but with no less room for operands. -/
inductive Frame.Roomier (f : Frame) : Frame → Prop
  | of (limit : Nat) (h : f.stack.limit ≤ limit) : Roomier f (f.withRoom limit)

/-- The same heap, and the same frame with no less room for operands. -/
inductive Activation.Roomier (s : Activation) : Activation → Prop
  | of (limit : Nat) (h : s.frame.stack.limit ≤ limit) : Roomier s ⟨s.frame.withRoom limit, s.heap⟩

theorem Frame.setArgument_withRoom (f : Frame) (limit i : Nat) (v : Value) :
    (f.withRoom limit).setArgument i v = (f.setArgument i v).map (·.withRoom limit) := by
  obtain ⟨m, r, as, ls, stack, pc⟩ := f
  cases r with
  | none =>
    by_cases h : i < as.size <;>
      simp [setArgument, noArgument, argumentCount, withRoom, h, Except.map]
  | some r =>
    cases i with
    | zero => cases v <;> rfl
    | succ j =>
      by_cases h : j < as.size <;>
        simp [setArgument, noArgument, argumentCount, withRoom, h, Except.map]

theorem Frame.setLocal_withRoom (f : Frame) (limit i : Nat) (v : Value) :
    (f.withRoom limit).setLocal i v = (f.setLocal i v).map (·.withRoom limit) := by
  by_cases h : i < f.locals.size <;> simp [setLocal, withRoom, h, Except.map]

/-! ## Instructions -/

namespace Exec

variable {α β : Type}

/-- Two results are the same but for the room for operands, or the first one is a fault that reports
a limit. -/
inductive InStep (Q : α → Prop) :
    EStateM.Result Fault Activation α → EStateM.Result Fault Activation α → Prop
  | ok {a : α} (ha : Q a) {s s' : Activation} (h : s.Roomier s') : InStep Q (.ok a s) (.ok a s')
  | error (e : Fault) {s s' : Activation} (h : s.Roomier s') : InStep Q (.error e s) (.error e s')
  | limited {e : Fault} (h : e.reportsLimit = true) (s : Activation)
    (r : EStateM.Result Fault Activation α) : InStep Q (.error e s) r

/-- With no less room for the second one, two computations come to the same, unless the first one
comes to a limit. -/
def UpToLimits (Q : α → Prop) (x y : Exec α) : Prop :=
  ∀ ⦃s s'⦄, s.Roomier s' → InStep Q (x s) (y s')

namespace UpToLimits

variable {Q : α → Prop}

theorem bind {P : β → Prop} {x y : Exec α} {f g : α → Exec β} (hx : UpToLimits Q x y)
    (hf : ∀ a, Q a → UpToLimits P (f a) (g a)) : UpToLimits P (x >>= f) (y >>= g) := by
  intro s s' h
  have hr := hx h
  simp only [Bind.bind, EStateM.bind]
  generalize x s = r at hr ⊢
  generalize y s' = r' at hr ⊢
  cases hr with
  | ok ha h' => exact hf _ ha h'
  | error e h' => exact .error e h'
  | limited he s₁ => exact .limited he s₁ _

theorem composes : Composes (fun _ Q x y => UpToLimits Q x y) Activation.Roomier where
  pure ha _ _ h := .ok ha h
  throw e _ _ h := .error e h
  bind := bind
  congr h s s' hs := by
    obtain ⟨x', y', hxy, hx, hy⟩ := h s s' hs
    rw [hx, hy]
    exact hxy hs

theorem push (v : Value) : UpToLimits (fun _ => True) (push v) (push v) := by
  rintro s _ ⟨limit, hlimit⟩
  simp only [Exec.push, onStack]
  by_cases h : s.frame.stack.depth < s.frame.stack.limit
  · rw [Stack.push_of_lt v h,
      Stack.push_of_lt (s := (s.frame.withRoom limit).stack) v (Nat.lt_of_lt_of_le h hlimit)]
    exact .ok trivial (.of limit hlimit)
  · rw [Stack.push_of_le v (Nat.not_lt.mp h)]
    exact .limited rfl _ _

theorem peek : UpToLimits (fun _ => True) (onStack Stack.peek) (onStack Stack.peek) := by
  rintro s _ ⟨limit, hlimit⟩
  simp only [onStack, Stack.peek, Frame.withRoom]
  cases s.frame.stack.slots.back? with
  | some v => exact .ok trivial (.of limit hlimit)
  | none => exact .error _ (.of limit hlimit)

theorem pop : UpToLimits (fun _ => True) pop pop := by
  rintro s _ ⟨limit, hlimit⟩
  simp only [Exec.pop, onStack, Stack.pop, Frame.withRoom]
  cases s.frame.stack.slots.back? with
  | some v => exact .ok trivial (.of limit hlimit)
  | none => exact .error _ (.of limit hlimit)

theorem popMany (n : Nat) : UpToLimits (fun vs : Array Value => ∀ v ∈ vs, True)
    (onStack (Stack.popMany n)) (onStack (Stack.popMany n)) := by
  rintro s _ ⟨limit, hlimit⟩
  simp only [onStack]
  by_cases h : s.frame.stack.depth < n
  · rw [Stack.popMany_of_lt h, Stack.popMany_of_lt (s := (s.frame.withRoom limit).stack) h]
    exact .error _ (.of limit hlimit)
  · have hle := Nat.not_lt.mp h
    rw [Stack.popMany_of_le hle, Stack.popMany_of_le (s := (s.frame.withRoom limit).stack) hle]
    exact .ok (fun _ _ => trivial) (.of limit hlimit)

theorem onHeap (f : HeapM α) : UpToLimits (fun _ => True) (onHeap f) (onHeap f) := by
  rintro s _ ⟨limit, hlimit⟩
  simp only [Exec.onHeap]
  cases f s.heap with
  | ok a heap => exact .ok trivial (.of limit hlimit)
  | error e heap => exact .error e (.of limit hlimit)

/-- A change to a frame that has nothing to do with the room for operands. -/
theorem onFrame {f : Frame → Except Fault Frame}
    (hf : ∀ g limit, f (g.withRoom limit) = (f g).map (·.withRoom limit)) :
    UpToLimits (fun _ => True) (onFrame f) (onFrame f) := by
  rintro s _ ⟨limit, hlimit⟩
  have hsame := hf s.frame s.frame.stack.limit
  simp only [Exec.onFrame, hf]
  cases h : f s.frame with
  | error e => exact .error e (.of limit hlimit)
  | ok g =>
    -- the change commutes with giving a frame the room that it has
    have hg : g.stack.limit = s.frame.stack.limit := by
      change f s.frame = _ at hsame
      rw [h] at hsame
      injection hsame with hsame
      rw [hsame]; rfl
    exact .ok trivial (.of limit (hg ▸ hlimit))

/-- A check of the length of an array has the same result under higher limits, or reports the
limit. -/
theorem checkLength {l l' : Limits} (hl : l.Raised l') (n : Int) :
    UpToLimits (fun _ => True) (lift (l.checkLength n)) (lift (l'.checkLength n)) := by
  have hle := hl.arrayLength
  intro s s' hs
  unfold Limits.checkLength lift read
  by_cases h : 0 ≤ n ∧ n ≤ l.arrayLength
  · rw [if_pos h, if_pos (by omega)]
    exact .ok trivial hs
  · rw [if_neg h]
    exact .limited rfl s _

/-- An instruction finds the same, however much room there is. -/
theorem agreement : Agreement Activation.Roomier fun _ => True where
  plain _ := trivial
  method := by rintro _ _ ⟨⟩; rfl
  pc := by rintro _ _ ⟨⟩; rfl
  top := by rintro _ _ ⟨⟩; rfl
  argument := by rintro _ _ i ⟨⟩; exact ⟨rfl, fun _ _ => trivial⟩
  localValue := by rintro _ _ i ⟨⟩; exact ⟨rfl, fun _ _ => trivial⟩
  object := by rintro _ _ r ⟨⟩ -; exact ⟨rfl, fun _ _ _ _ => trivial⟩
  elements := by rintro _ _ r ⟨⟩ -; exact ⟨rfl, fun _ _ => trivial⟩

theorem accesses (p : Program) {l l' : Limits} (hl : l.Raised l') :
    Accesses (fun _ Q x y => UpToLimits Q x y) Activation.Roomier (fun _ => True) (fun _ => True)
      (p.withLimits l) (p.withLimits l') where
  toComposes := composes
  toAgreement := agreement
  push _ := push _
  pop := pop
  peek := peek
  popMany := popMany
  setArgument i v _ := onFrame fun g limit => g.setArgument_withRoom limit i v
  setLocal i v _ := onFrame fun g limit => g.setLocal_withRoom limit i v
  newObject _ := onHeap _
  newArray _ := onHeap _
  checkLength := checkLength hl
  setField _ _ _ _ := onHeap _
  setElement _ _ _ _ := onHeap _
  native _ _ _ _ := onHeap _
  registry := rfl

end UpToLimits

end Exec

/-- Every instruction is the same under higher limits, until it reports a limit. -/
theorem step_upToLimits (p : Program) {l l' : Limits} (hl : l.Raised l') :
    Exec.UpToLimits (Flow.All fun _ => True) (step (p.withLimits l)) (step (p.withLimits l')) :=
  (Exec.UpToLimits.accesses p hl).step (fun _ _ => rfl) fun {_ _ a} _ =>
    a.all_of_forall (fun _ => trivial) fun _ => trivial

/-! ## Runs -/

/-- The same frames that wait, each with no less room for operands. -/
inductive Callers.Roomier : Callers → Callers → Prop
  | empty : Roomier .empty .empty
  | push {f f' : Frame} {cs cs' : Callers} (hf : f.Roomier f') (hcs : Roomier cs cs') :
    Roomier (cs.push f) (cs'.push f')

/-- The same configuration, with no less room for operands in every frame. -/
inductive Config.Roomier : Config → Config → Prop
  | of {f f' : Frame} {cs cs' : Callers} (hf : f.Roomier f') (hcs : cs.Roomier cs') (heap : Heap)
    (steps : Nat) : Roomier ⟨f, cs, heap, steps⟩ ⟨f', cs', heap, steps⟩

/-- Two runs after equally many ticks, unless the first one has come to a limit. -/
inductive Status.Roomier : Status → Status → Prop
  | running {c c' : Config} (h : c.Roomier c') : Roomier (.running c) (.running c')
  | finished (o : Outcome) : Roomier (.finished o) (.finished o)
  | limited {e : Fault} (he : e.reportsLimit = true) (heap : Heap) (steps : Nat) (t : Status) :
    Roomier (.finished ⟨.error e, heap, steps⟩) t

theorem Callers.Roomier.count {cs cs' : Callers} (h : cs.Roomier cs') : cs'.count = cs.count := by
  induction h with
  | empty => rfl
  | push hf hcs ih => rw [count_push, count_push, ih]

theorem returnTo_roomier {cs cs' : Callers} (h : cs.Roomier cs') (v : Value) (heap : Heap)
    (steps : Nat) : (returnTo cs v heap steps).Roomier (returnTo cs' v heap steps) := by
  cases h with
  | empty => exact .finished _
  | @push f f' cs cs' hf hcs =>
    obtain ⟨limit, hlimit⟩ := hf
    by_cases hroom : f.stack.depth < f.stack.limit
    · rw [returnTo_push_of_lt cs v heap steps hroom, returnTo_push_of_lt (f := f.withRoom limit) cs'
        v heap steps (Nat.lt_of_lt_of_le hroom hlimit)]
      exact .running (.of (.of (f := f.resume v) limit hlimit) hcs heap steps)
    · rw [returnTo_push_of_le cs v heap steps (Nat.not_lt.mp hroom)]
      exact .limited rfl heap steps _

section
variable (p : Program) {l l' : Limits} (hl : l.Raised l')
include hl

theorem enterCall_roomier (c : Call) {f f' : Frame} (hf : f.Roomier f') {cs cs' : Callers}
    (hcs : cs.Roomier cs') (heap : Heap) (steps : Nat) :
    (enterCall (p.withLimits l) c f cs heap steps).Roomier
      (enterCall (p.withLimits l') c f' cs' heap steps) := by
  -- both runs have the same number of calls in progress, so only the limit decides
  by_cases h : cs.count + 1 < l.callDepth
  · rw [enterCall_of_lt (p := p.withLimits l) c f heap steps h,
      enterCall_of_lt (p := p.withLimits l') c f' heap steps
        (hcs.count.symm ▸ Nat.lt_of_lt_of_le h hl.callDepth)]
    exact .running (.of (.of _ hl.stackSize) (.push hf hcs) heap steps)
  · rw [enterCall_of_le (p := p.withLimits l) c f heap steps (Nat.not_lt.mp h)]
    exact .limited rfl heap steps _

/-- What two results of an instruction that are alike mean for the chain of calls. -/
theorem proceed_roomier {cs cs' : Callers} (hcs : cs.Roomier cs') (steps : Nat)
    {r r' : EStateM.Result Fault Activation Flow}
    {Q : Flow → Prop} (h : Exec.InStep Q r r') :
    (proceed (p.withLimits l) cs steps r).Roomier (proceed (p.withLimits l') cs' steps r') := by
  cases h with
  | limited he s => exact .limited he s.heap steps _
  | error e h =>
    obtain ⟨limit, hlimit⟩ := h
    exact .finished _
  | @ok flow _ s _ h =>
    obtain ⟨limit, hlimit⟩ := h
    cases flow with
    | next =>
      exact .running (.of (.of (f := s.frame.advance) limit hlimit) hcs s.heap steps)
    | jump target =>
      exact .running (.of (.of (f := s.frame.jump target) limit hlimit) hcs s.heap steps)
    | ret v => exact returnTo_roomier hcs v s.heap steps
    | call c => exact enterCall_roomier p hl c (.of limit hlimit) hcs s.heap steps

/-- One tick is the same under higher limits, until it reports a limit. -/
theorem tick_roomier {c c' : Config} (h : c.Roomier c') :
    (tick (p.withLimits l) c).Roomier (tick (p.withLimits l') c') := by
  obtain ⟨hf, hcs, heap, steps⟩ := h
  have hbudget : exhausted? (p.withLimits l') steps = exhausted? (p.withLimits l) steps := by
    simp only [exhausted?, Program.withLimits, hl.stepBudget]
  cases hb : exhausted? (p.withLimits l) steps with
  | some budget =>
    rw [tick_of_exhausted hb, tick_of_exhausted (hbudget.trans hb)]
    exact .finished _
  | none =>
    rw [tick_of_not_exhausted hb, tick_of_not_exhausted (hbudget.trans hb)]
    obtain ⟨limit, hlimit⟩ := hf
    exact proceed_roomier p hl hcs (steps + 1)
      (step_upToLimits p hl (.of (s := ⟨_, heap⟩) limit hlimit))

/-- A run is the same under higher limits, until it reports a limit. -/
theorem run_roomier (n : Nat) {c c' : Config} (h : c.Roomier c') :
    (run (p.withLimits l) n c).Roomier (run (p.withLimits l') n c') := by
  induction n generalizing c c' with
  | zero => exact .running h
  | succ n ih =>
    have ht := tick_roomier p hl h
    simp only [run]
    generalize tick (p.withLimits l) c = t at ht ⊢
    generalize tick (p.withLimits l') c' = t' at ht ⊢
    cases ht with
    | running hc => exact ih hc
    | finished o => exact .finished o
    | limited he heap steps => exact .limited he heap steps _

end

/-- **Limits are transparent.** If a call comes to an outcome under some limits, and the outcome
does not report a limit, then under limits that allow more, with the same budget of instructions, it
comes to the same outcome: the same result, the same heap and the same number of instructions. -/
theorem execute_under_raised_limits (p : Program) (l l' : Limits) (hl : l.Raised l') (c : Call)
    (heap : Heap) (patience : Nat) (o : Outcome)
    (h : execute (p.withLimits l) patience c heap = some o)
    (ho : ∀ e, o.result = .error e → e.reportsLimit = false) :
    execute (p.withLimits l') patience c heap = some o := by
  cases hb : c.method.body with
  | native name =>
    rw [← h]
    simp only [execute, hb]
    rfl
  | interpreted code =>
    rw [execute_interpreted hb] at h ⊢
    have hstart :
        (Config.start (p.withLimits l) c heap).Roomier (Config.start (p.withLimits l') c heap) :=
      .of (.of _ hl.stackSize) .empty heap 0
    have hrun := run_roomier p hl patience hstart
    generalize run (p.withLimits l) patience _ = t at hrun h
    generalize run (p.withLimits l') patience _ = t' at hrun ⊢
    cases hrun with
    | running hc => cases h
    | finished o' => exact h
    | limited he heap' steps =>
      cases h
      exact absurd he (by rw [ho _ rfl]; decide)

theorem execute_under_raised_limits_relay :
    let tight : Limits := { callDepth := 2, stackSize := 1, arrayLength := 0 }
    tight.Raised {} ∧
    execute (Relay.program.withLimits tight) 4 Relay.call {} = some Relay.outcome ∧
    execute (Relay.program.withLimits {}) 4 Relay.call {} = some Relay.outcome := by
  intro tight
  have hl : tight.Raised {} := ⟨by decide, by decide, Nat.zero_le _, rfl⟩
  have h : execute (Relay.program.withLimits tight) 4 Relay.call {} = some Relay.outcome := by rfl
  have ho : ∀ e, Relay.outcome.result = .error e → e.reportsLimit = false := by
    intro e he
    cases he
  exact ⟨hl, h, execute_under_raised_limits Relay.program tight {} hl _ {} 4 _ h ho⟩

end ObjectMachine
