import ObjectMachine.Host
import ObjectMachine.Run

/-!
# Ticks and runs

What one tick can do is said once, as an equation for each case and as the relation `Advances`
between a configuration and the next one. From it follow the general laws of runs: a run of
`m + n` ticks is a run of `m` ticks and then one of `n`, an outcome once reached stays, and the
counter of instructions counts the ticks.

A call that comes to an end does so after a certain number of ticks, and `EndsAfter` states that
number as the least patience with which the call has an outcome.
-/

namespace ObjectMachine

def Status.outcome? : Status → Option Outcome
  | running _ => none
  | finished o => some o

/-- The frame that goes on after its call with the result on top of its operands. -/
def Frame.resume (f : Frame) (v : Value) : Frame :=
  { f with stack := { f.stack with slots := f.stack.slots.push v }, pc := f.pc + 1 }

/-! ## Returning and calling -/

@[simp]
theorem Callers.count_push (f : Frame) (cs : Callers) : (cs.push f).count = cs.count + 1 := rfl

/-- Either nobody waits, or there is an innermost frame that does. -/
theorem Callers.empty_or_push (cs : Callers) : cs = empty ∨ ∃ f rest, cs = push f rest := by
  obtain ⟨frames, n, hn⟩ := cs
  cases frames with
  | nil => exact .inl (eq_of_frames rfl)
  | cons f rest => exact .inr ⟨f, ofList rest, eq_of_frames rfl⟩

theorem returnTo_empty (v : Value) (heap : Heap) (steps : Nat) :
    returnTo .empty v heap steps = .finished ⟨.ok v, heap, steps⟩ := rfl

theorem returnTo_push_of_lt {f : Frame} (cs : Callers) (v : Value) (heap : Heap) (steps : Nat)
    (h : f.stack.depth < f.stack.limit) :
    returnTo (cs.push f) v heap steps = .running ⟨f.resume v, cs, heap, steps⟩ := by
  simp only [returnTo, Callers.pop?_push, Stack.push_of_lt v h, Frame.resume]

theorem returnTo_push_of_le {f : Frame} (cs : Callers) (v : Value) (heap : Heap) (steps : Nat)
    (h : f.stack.limit ≤ f.stack.depth) :
    returnTo (cs.push f) v heap steps = .finished ⟨.error .stackOverflow, heap, steps⟩ := by
  simp only [returnTo, Callers.pop?_push, Stack.push_of_le v h]

/-- A return into a frame that waits ends the run with an overflow, or resumes that frame. -/
theorem returnTo_push (f : Frame) (cs : Callers) (v : Value) (heap : Heap) (steps : Nat) :
    returnTo (cs.push f) v heap steps = .running ⟨f.resume v, cs, heap, steps⟩ ∨
      returnTo (cs.push f) v heap steps = .finished ⟨.error .stackOverflow, heap, steps⟩ := by
  by_cases h : f.stack.depth < f.stack.limit
  · exact .inl (returnTo_push_of_lt cs v heap steps h)
  · exact .inr (returnTo_push_of_le cs v heap steps (Nat.not_lt.mp h))

theorem enterCall_of_lt {p : Program} {cs : Callers} (c : Call) (f : Frame) (heap : Heap)
    (steps : Nat) (h : cs.count + 1 < p.limits.callDepth) :
    enterCall p c f cs heap steps =
      .running ⟨.enter c.method c.receiver c.arguments p.limits.stackSize, cs.push f, heap,
        steps⟩ := if_neg (Nat.not_le.mpr h)

theorem enterCall_of_le {p : Program} {cs : Callers} (c : Call) (f : Frame) (heap : Heap)
    (steps : Nat) (h : p.limits.callDepth ≤ cs.count + 1) :
    enterCall p c f cs heap steps =
      .finished ⟨.error (.recursionLimitExceeded p.limits.callDepth), heap, steps⟩ := if_pos h

/-! ## One tick -/

section
variable {p : Program} {c c' : Config}

theorem exhausted?_of_no_budget (h : p.limits.stepBudget = none) (steps : Nat) :
    exhausted? p steps = none := by
  rw [exhausted?, h, Option.filter_none]

theorem tick_of_exhausted {budget : Nat} (h : exhausted? p c.steps = some budget) :
    tick p c = .finished ⟨.error (.stepBudgetExceeded budget), c.heap, c.steps⟩ := by
  simp only [tick, h]

theorem tick_of_not_exhausted (h : exhausted? p c.steps = none) :
    tick p c = proceed p c.callers (c.steps + 1) (step p ⟨c.active, c.heap⟩) := by
  simp only [tick, h]

/-- All the ways in which a run that does not end gets from a configuration to the next one. -/
inductive Advances (p : Program) (c : Config) : Config → Prop
  | next {s : Activation} (hs : step p ⟨c.active, c.heap⟩ = .ok .next s) :
    Advances p c ⟨s.frame.advance, c.callers, s.heap, c.steps + 1⟩
  | jump {s : Activation} {target : Nat}
    (hs : step p ⟨c.active, c.heap⟩ = .ok (.jump target) s) :
    Advances p c ⟨s.frame.jump target, c.callers, s.heap, c.steps + 1⟩
  | ret {s : Activation} {v : Value} {caller : Frame} {rest : Callers}
    (hs : step p ⟨c.active, c.heap⟩ = .ok (.ret v) s) (hc : c.callers = rest.push caller)
    (hroom : caller.stack.depth < caller.stack.limit) :
    Advances p c ⟨caller.resume v, rest, s.heap, c.steps + 1⟩
  | call {s : Activation} {k : Call} (hs : step p ⟨c.active, c.heap⟩ = .ok (.call k) s)
    (hd : c.depth < p.limits.callDepth) :
    Advances p c ⟨.enter k.method k.receiver k.arguments p.limits.stackSize,
      c.callers.push s.frame, s.heap, c.steps + 1⟩

theorem not_exhausted_of_tick (h : tick p c = .running c') : exhausted? p c.steps = none := by
  cases hb : exhausted? p c.steps with
  | none => rfl
  | some budget => rw [tick_of_exhausted hb] at h; cases h

/-- A tick that does not end the run is one of the four kinds of advance. -/
theorem advances_of_tick (h : tick p c = .running c') : Advances p c c' := by
  rw [tick_of_not_exhausted (not_exhausted_of_tick h)] at h
  cases hs : step p ⟨c.active, c.heap⟩ with
  | error e s => rw [hs] at h; cases h
  | ok flow s =>
    rw [hs] at h
    cases flow with
    | next => cases h; exact .next hs
    | jump target => cases h; exact .jump hs
    | ret v =>
      change returnTo c.callers v s.heap (c.steps + 1) = .running c' at h
      rcases c.callers.empty_or_push with hc | ⟨caller, rest, hc⟩
      · rw [hc, returnTo_empty] at h; cases h
      · by_cases hroom : caller.stack.depth < caller.stack.limit
        · rw [hc, returnTo_push_of_lt rest v s.heap _ hroom] at h
          cases h; exact .ret hs hc hroom
        · rw [hc, returnTo_push_of_le rest v s.heap _ (Nat.not_lt.mp hroom)] at h; cases h
    | call k =>
      change enterCall p k s.frame c.callers s.heap (c.steps + 1) = .running c' at h
      by_cases hd : c.callers.count + 1 < p.limits.callDepth
      · rw [enterCall_of_lt k s.frame s.heap _ hd] at h
        cases h; exact .call hs hd
      · rw [enterCall_of_le k s.frame s.heap _ (Nat.not_lt.mp hd)] at h; cases h

theorem steps_of_tick (h : tick p c = .running c') : c'.steps = c.steps + 1 := by
  cases advances_of_tick h <;> rfl

theorem steps_of_proceed {cs : Callers} {steps : Nat} {r : EStateM.Result Fault Activation Flow}
    {o : Outcome} (h : proceed p cs steps r = .finished o) : o.steps = steps := by
  cases r with
  | error e s => cases h; rfl
  | ok flow s =>
    cases flow with
    | next => cases h
    | jump target => cases h
    | ret v =>
      change returnTo cs v s.heap steps = .finished o at h
      rcases cs.empty_or_push with rfl | ⟨caller, rest, rfl⟩
      · cases h; rfl
      · rcases returnTo_push caller rest v s.heap steps with hr | hr <;> rw [hr] at h <;> cases h
        rfl
    | call k =>
      change enterCall p k s.frame cs s.heap steps = .finished o at h
      unfold enterCall at h
      split at h <;> cases h
      rfl

/-- The tick that ends a run within its budget counts like any other. -/
theorem steps_of_tick_finished {o : Outcome} (hb : exhausted? p c.steps = none)
    (h : tick p c = .finished o) : o.steps = c.steps + 1 := by
  rw [tick_of_not_exhausted hb] at h
  exact steps_of_proceed h

end

/-! ## The same program under other limits -/

def Program.withLimits (p : Program) (l : Limits) : Program := { p with limits := l }

section
variable (p : Program) (l : Limits)

theorem Instruction.action_withLimits (i : Instruction) (codeSize : Nat) :
    i.action (p.withLimits l) codeSize = i.action p codeSize := rfl

/-- Of all limits, an instruction only sees the one on the length of arrays. -/
theorem step_withLimits (h : l.arrayLength = p.limits.arrayLength) :
    step (p.withLimits l) = step p := by
  have perform : ∀ a, Exec.perform (p.withLimits l) a = Exec.perform p a := by
    intro a
    cases a with
    | createArray => simp only [Exec.perform, Limits.checkLength, Program.withLimits, h]
    | branch condition target => cases condition <;> rfl
    | _ => rfl
  funext s
  simp only [step, Instruction.action_withLimits, perform]

end

/-! ## Many ticks -/

section
variable {p : Program} {c d : Config} {o : Outcome} {m n : Nat}

theorem run_succ_of_running (n : Nat) (h : tick p c = .running d) :
    run p (n + 1) c = run p n d := by
  simp only [run, h]

theorem run_succ_of_finished (n : Nat) (h : tick p c = .finished o) :
    run p (n + 1) c = .finished o := by
  simp only [run, h]

theorem run_add_of_running (n : Nat) (h : run p m c = .running d) :
    run p (m + n) c = run p n d := by
  induction m generalizing c with
  | zero => cases h; rw [Nat.zero_add]
  | succ m ih =>
    rw [Nat.add_right_comm]
    cases ht : tick p c with
    | running c' =>
      rw [run_succ_of_running _ ht] at h ⊢
      exact ih h
    | finished o => rw [run_succ_of_finished _ ht] at h; cases h

/-- An outcome once reached stays. -/
theorem run_of_finished (h : run p m c = .finished o) (hle : m ≤ n) : run p n c = .finished o := by
  induction m generalizing c n with
  | zero => cases h
  | succ m ih =>
    obtain ⟨n, rfl⟩ : ∃ k, n = k + 1 := ⟨n - 1, by omega⟩
    cases ht : tick p c with
    | running c' =>
      rw [run_succ_of_running _ ht] at h ⊢
      exact ih h (by omega)
    | finished o' =>
      rw [run_succ_of_finished _ ht] at h ⊢
      exact h

/-- A run that goes on after `n` ticks went on after fewer. -/
theorem running_of_le (h : run p n c = .running d) (hle : m ≤ n) :
    ∃ c', run p m c = .running c' := by
  cases hm : run p m c with
  | running c' => exact ⟨c', rfl⟩
  | finished o => rw [run_of_finished hm hle] at h; cases h

/-- The tick with which a run of one tick more ends. -/
theorem run_succ_of_last (h : run p n c = .running d) : run p (n + 1) c = tick p d := by
  rw [run_add_of_running 1 h, run]
  cases tick p d <;> rfl

/-- A run that has an outcome came to a last configuration that still went on. -/
theorem exists_last (h : run p n c = .finished o) :
    ∃ m d, m < n ∧ run p m c = .running d ∧ tick p d = .finished o := by
  induction n with
  | zero => cases h
  | succ n ih =>
    cases hn : run p n c with
    | running d =>
      rw [run_succ_of_last hn] at h
      exact ⟨n, d, Nat.lt_succ_self n, hn, h⟩
    | finished o' =>
      rw [run_of_finished hn (Nat.le_succ n)] at h
      cases h
      obtain ⟨m, d, hm, hrest⟩ := ih hn
      exact ⟨m, d, Nat.lt_succ_of_lt hm, hrest⟩

/-- The counter of instructions counts the ticks. -/
theorem steps_of_run (h : run p n c = .running d) : d.steps = c.steps + n := by
  induction n generalizing c with
  | zero => cases h; rfl
  | succ n ih =>
    cases ht : tick p c with
    | running c' =>
      rw [run_succ_of_running _ ht] at h
      rw [ih h, steps_of_tick ht]; omega
    | finished o => rw [run_succ_of_finished _ ht] at h; cases h

end

/-! ## Calls that come to an end -/

/-- A call ends with an outcome after exactly `n` ticks: so much patience and no less gives the
outcome, and more of it changes nothing. A native body takes no tick. -/
def EndsAfter (p : Program) (c : Call) (heap : Heap) (n : Nat) (o : Outcome) : Prop :=
  ∀ patience, execute p patience c heap = if n ≤ patience then some o else none

section
variable {p : Program} {c : Call} {heap : Heap} {n : Nat} {o : Outcome} {code : Array Instruction}

theorem execute_interpreted (h : c.method.body = .interpreted code) (patience : Nat) :
    execute p patience c heap = (run p patience (.start p c heap)).outcome? := by
  simp only [execute, h]
  cases run p patience (.start p c heap) <;> rfl

/-- For an interpreted method the number of ticks is where its run changes from going on to its
outcome. -/
theorem endsAfter_iff (h : c.method.body = .interpreted code) :
    EndsAfter p c heap (n + 1) o ↔
      ∃ d, run p n (.start p c heap) = .running d ∧ tick p d = .finished o := by
  constructor
  · intro hend
    have hn := hend n
    have hsucc := hend (n + 1)
    rw [execute_interpreted h, if_neg (Nat.not_succ_le_self n)] at hn
    rw [execute_interpreted h, if_pos (Nat.le_refl _)] at hsucc
    cases hr : run p n (.start p c heap) with
    | finished o' => rw [hr] at hn; cases hn
    | running d =>
      rw [run_succ_of_last hr] at hsucc
      refine ⟨d, rfl, ?_⟩
      cases ht : tick p d with
      | running d' => rw [ht] at hsucc; cases hsucc
      | finished o' => rw [ht] at hsucc; cases hsucc; rfl
  · rintro ⟨d, hd, ht⟩ patience
    rw [execute_interpreted h]
    by_cases hle : n + 1 ≤ patience
    · have hfin : run p (n + 1) (.start p c heap) = .finished o := by rw [run_succ_of_last hd, ht]
      rw [if_pos hle, run_of_finished hfin hle, Status.outcome?]
    · obtain ⟨d', hd'⟩ := running_of_le hd (m := patience) (by omega)
      rw [if_neg hle, hd', Status.outcome?]

theorem not_endsAfter_zero (h : c.method.body = .interpreted code) :
    ¬ EndsAfter p c heap 0 o := by
  intro hend
  have h0 := hend 0
  rw [execute_interpreted h, if_pos (Nat.le_refl 0)] at h0
  cases h0

/-- An interpreted method takes at least one tick. -/
theorem EndsAfter.last (hend : EndsAfter p c heap n o) (h : c.method.body = .interpreted code) :
    ∃ m d, n = m + 1 ∧ run p m (.start p c heap) = .running d ∧ tick p d = .finished o := by
  cases n with
  | zero => exact absurd hend (not_endsAfter_zero h)
  | succ m =>
    obtain ⟨d, hd, ht⟩ := (endsAfter_iff h).mp hend
    exact ⟨m, d, rfl, hd, ht⟩

/-- Whatever has an outcome ends after some number of ticks. -/
theorem exists_endsAfter {patience : Nat} (h : execute p patience c heap = some o) :
    ∃ n, n ≤ patience ∧ EndsAfter p c heap n o := by
  cases hb : c.method.body with
  | native name =>
    refine ⟨0, Nat.zero_le _, fun k => ?_⟩
    rw [if_pos (Nat.zero_le k), ← h]
    simp only [execute, hb]
  | interpreted code =>
    rw [execute_interpreted hb] at h
    cases hr : ObjectMachine.run p patience (.start p c heap) with
    | running d => rw [hr] at h; cases h
    | finished o' =>
      rw [hr] at h; cases h
      obtain ⟨m, d, hm, hd, ht⟩ := exists_last hr
      exact ⟨m + 1, hm, (endsAfter_iff hb).mpr ⟨d, hd, ht⟩⟩

end

/-! ## A small program

One method calls another and passes on what it returns. -/

namespace Relay

def answer : Method := .interpreted "Answer" .void [] [] #[.loadInt32 7, .of .ret []] .everyone

def relay : Method := .interpreted "Relay" .void [] [] #[.of .call [0, 0], .of .ret []] .everyone

def sample : ClassDecl := (({ name := "Sample" } : ClassDecl).addMethod answer).addMethod relay

/-- The program with this class, under limits that leave room for a single operand. -/
def program : Program where
  registry := ({} : Registry).register (.derive ⟨0⟩ sample none)
  limits := { callDepth := 3, stackSize := 1 }
  host := .basic

def call : Call := ⟨relay, none, #[]⟩

/-- What the call comes to: seven, after two instructions of each method. -/
def outcome : Outcome := ⟨.ok (.int32 7), {}, 4⟩

end Relay

end ObjectMachine
