import ObjectMachine.Proofs.Runs

/-!
# Calls within calls

The chain of calls is a list of frames, and a call in the middle of a run is executed on top of the
frames that wait for it. Here it is shown that those frames play no part: what happens above them is
the run that the call would have on its own, with a limit on the depth of calls that is lower by
their number. When the call on its own comes to an end, the run on top returns into the innermost of
the frames that wait; when it fails, so does the run on top; when it goes on for ever, so does the
run on top.

The invariant is `Nested`: a status of the call on its own and the status of the run on top, after
the same number of ticks. One tick keeps it (`tick_above`), hence any number of them
(`run_above`).
-/

namespace ObjectMachine

def Program.withDepth (p : Program) (depth : Nat) : Program :=
  p.withLimits { p.limits with callDepth := depth }

/-! ## Frames that wait behind others -/

/-- The frames that wait, with further ones that wait for them. -/
def Callers.above (cs : Callers) (base : List Frame) : Callers := ofList (cs.frames ++ base)

/-- The run on top of frames that wait, with `k` instructions already counted. -/
def Config.above (c : Config) (base : List Frame) (k : Nat) : Config :=
  { c with callers := c.callers.above base, steps := k + c.steps }

theorem Callers.above_push (cs : Callers) (f : Frame) (base : List Frame) :
    (cs.push f).above base = (cs.above base).push f := eq_of_frames rfl

theorem Callers.count_above (cs : Callers) (base : List Frame) :
    (cs.above base).count = cs.count + base.length := by
  rw [Callers.count_eq, Callers.count_eq]
  exact List.length_append

/-- The fault of a run with one limit on the depth of calls and of a run with another: the same one,
except that each reports its own limit. -/
inductive DepthFault (depth depth' : Nat) : Fault → Fault → Prop
  | same (e : Fault) : DepthFault depth depth' e e
  | limit : DepthFault depth depth' (.recursionLimitExceeded depth) (.recursionLimitExceeded depth')

/-- A call on its own, and the same call on top of frames that wait, after equally many ticks. -/
inductive Nested (depth depth' : Nat) (base : List Frame) (k : Nat) : Status → Status → Prop
  | running (c : Config) : Nested depth depth' base k (.running c) (.running (c.above base k))
  | returned (v : Value) (heap : Heap) (n : Nat) :
    Nested depth depth' base k (.finished ⟨.ok v, heap, n⟩)
      (returnTo (.ofList base) v heap (k + n))
  | failed {e e' : Fault} (he : DepthFault depth depth' e e') (heap : Heap) (n : Nat) :
    Nested depth depth' base k (.finished ⟨.error e, heap, n⟩) (.finished ⟨.error e', heap, k + n⟩)

/-! ## Lockstep -/

section
variable {p : Program} (base : List Frame)

theorem tick_withDepth (hb : p.limits.stepBudget = none) (depth : Nat) (c : Config) :
    tick (p.withDepth depth) c =
      proceed (p.withDepth depth) c.callers (c.steps + 1) (step p ⟨c.active, c.heap⟩) := by
  have hstep : step (p.withDepth depth) = step p := step_withLimits p _ rfl
  have hfresh : exhausted? (p.withDepth depth) c.steps = none := exhausted?_of_no_budget hb c.steps
  rw [tick_of_not_exhausted hfresh, hstep]

/-- One tick of a call on its own is one tick of the call on top of frames that wait. -/
theorem tick_above (hb : p.limits.stepBudget = none) (c : Config) (k : Nat) :
    Nested (p.limits.callDepth - base.length) p.limits.callDepth base k
      (tick (p.withDepth (p.limits.callDepth - base.length)) c) (tick p (c.above base k)) := by
  rw [tick_withDepth hb, tick_of_not_exhausted (exhausted?_of_no_budget hb _)]
  change Nested _ _ _ _ (proceed _ c.callers (c.steps + 1) (step p ⟨c.active, c.heap⟩))
    (proceed p (c.callers.above base) (k + c.steps + 1) (step p ⟨c.active, c.heap⟩))
  cases step p ⟨c.active, c.heap⟩ with
  | error e s => exact .failed (.same e) s.heap (c.steps + 1)
  | ok flow s =>
    cases flow with
    | next => exact .running ⟨s.frame.advance, c.callers, s.heap, c.steps + 1⟩
    | jump target => exact .running ⟨s.frame.jump target, c.callers, s.heap, c.steps + 1⟩
    | ret v =>
      change Nested _ _ _ _ (returnTo c.callers v s.heap (c.steps + 1))
        (returnTo (c.callers.above base) v s.heap (k + (c.steps + 1)))
      rcases c.callers.empty_or_push with hc | ⟨caller, rest, hc⟩
      · -- the call on its own is over, and the run on top returns into the frames that wait
        rw [hc, returnTo_empty]
        exact .returned v s.heap (c.steps + 1)
      · rw [hc, Callers.above_push]
        by_cases hroom : caller.stack.depth < caller.stack.limit
        · rw [returnTo_push_of_lt _ _ _ _ hroom, returnTo_push_of_lt _ _ _ _ hroom]
          exact .running ⟨caller.resume v, rest, s.heap, c.steps + 1⟩
        · rw [returnTo_push_of_le _ _ _ _ (Nat.not_lt.mp hroom),
            returnTo_push_of_le _ _ _ _ (Nat.not_lt.mp hroom)]
          exact .failed (.same _) s.heap (c.steps + 1)
    | call target =>
      change Nested _ _ _ _ (enterCall _ target s.frame c.callers s.heap (c.steps + 1))
        (enterCall p target s.frame (c.callers.above base) s.heap (k + (c.steps + 1)))
      have hcount := c.callers.count_above base
      by_cases hdeep : c.callers.count + 1 < p.limits.callDepth - base.length
      · rw [enterCall_of_lt (p := p.withDepth _) _ _ _ _ hdeep,
          enterCall_of_lt _ _ _ _ (by omega), ← Callers.above_push]
        exact .running ⟨.enter target.method target.receiver target.arguments p.limits.stackSize,
          c.callers.push s.frame, s.heap, c.steps + 1⟩
      · rw [enterCall_of_le (p := p.withDepth _) _ _ _ _ (Nat.not_lt.mp hdeep),
          enterCall_of_le _ _ _ _ (by omega)]
        exact .failed .limit s.heap (c.steps + 1)

/-- As long as the call on its own goes on, the run on top of frames that wait goes on in the same
way and leaves those frames alone. -/
theorem run_above (hb : p.limits.stepBudget = none) {c d : Config} {n : Nat} (k : Nat)
    (h : run (p.withDepth (p.limits.callDepth - base.length)) n c = .running d) :
    run p n (c.above base k) = .running (d.above base k) := by
  induction n generalizing c with
  | zero => cases h; rfl
  | succ n ih =>
    have hn := tick_above base hb c k
    cases ht : tick (p.withDepth (p.limits.callDepth - base.length)) c with
    | finished o => rw [run_succ_of_finished n ht] at h; cases h
    | running c' =>
      rw [run_succ_of_running n ht] at h
      rw [ht] at hn
      generalize htop : tick p (c.above base k) = top at hn
      cases hn
      rw [run_succ_of_running n htop]
      exact ih h

end

/-! ## A call in the middle of a run -/

/-- **The chain of calls refines recursive calling.** A call that is made while other frames wait
goes through the run that it has on its own, with the limit on the depth of calls lowered by their
number. If it returns, the innermost of them goes on with the value; if it fails, the run fails, and
only the number of a limit on the depth of calls can differ. Until then they stay as they are. -/
theorem run_on_top_of_callers (p : Program) (hb : p.limits.stepBudget = none) (caller : Frame)
    (rest : List Frame) (c : Call) (code : Array Instruction)
    (hc : c.method.body = .interpreted code) (heap : Heap) (steps : Nat) :
    let depth := p.limits.callDepth - (caller :: rest).length
    let nested : Config :=
      ⟨.enter c.method c.receiver c.arguments p.limits.stackSize, .ofList (caller :: rest), heap,
        steps⟩
    (∀ n o, EndsAfter (p.withDepth depth) c heap n o →
      o.steps = n ∧
      (∀ m < n, ∃ d above, run p m nested = .running d ∧
        d.callers.frames = above ++ caller :: rest) ∧
      match o.result with
      | .ok v =>
        (caller.stack.depth < caller.stack.limit →
          run p n nested = .running ⟨caller.resume v, .ofList rest, o.heap, steps + n⟩) ∧
        (caller.stack.limit ≤ caller.stack.depth →
          run p n nested = .finished ⟨.error .stackOverflow, o.heap, steps + n⟩)
      | .error e =>
        ∃ e', DepthFault depth p.limits.callDepth e e' ∧
          run p n nested = .finished ⟨.error e', o.heap, steps + n⟩) ∧
    ((∀ n o, ¬ EndsAfter (p.withDepth depth) c heap n o) →
      ∀ m, ∃ d above, run p m nested = .running d ∧
        d.callers.frames = above ++ caller :: rest) := by
  intro depth nested
  have going : ∀ {m d}, run (p.withDepth depth) m (.start (p.withDepth depth) c heap) = .running d →
      run p m nested = .running (d.above (caller :: rest) steps) :=
    fun h => run_above (caller :: rest) hb steps h
  have waiting : ∀ {n d},
      run (p.withDepth depth) n (.start (p.withDepth depth) c heap) = .running d →
      ∀ m ≤ n, ∃ d above, run p m nested = .running d ∧
        d.callers.frames = above ++ caller :: rest := by
    intro n d h m hm
    obtain ⟨d', hd'⟩ := running_of_le h hm
    exact ⟨_, d'.callers.frames, going hd', rfl⟩
  constructor
  · intro n o hend
    obtain ⟨m, d, rfl, hrun, ht⟩ := hend.last hc
    have hsteps : d.steps = m := by simpa [Config.start] using steps_of_run hrun
    have ho : o.steps = m + 1 := by
      rw [steps_of_tick_finished (p := p.withDepth depth) (exhausted?_of_no_budget hb _) ht, hsteps]
    refine ⟨ho, fun i hi => waiting hrun i (Nat.le_of_lt_succ hi), ?_⟩
    have hlast := run_succ_of_last (going hrun)
    have hn := tick_above (caller :: rest) hb d steps
    rw [ht, ← hlast] at hn
    generalize run p (m + 1) nested = top at hn
    cases hn with
    | returned v heap' n =>
      cases ho
      exact ⟨fun hroom => returnTo_push_of_lt (.ofList rest) _ _ _ hroom,
        fun hfull => returnTo_push_of_le (.ofList rest) _ _ _ hfull⟩
    | failed he heap' n =>
      cases ho
      exact ⟨_, he, rfl⟩
  · intro hnever m
    cases hrun : run (p.withDepth depth) m (.start (p.withDepth depth) c heap) with
    | running d => exact waiting hrun m (Nat.le_refl m)
    | finished o =>
      have hex : execute (p.withDepth depth) m c heap = some o := by
        rw [execute_interpreted hc, hrun]; rfl
      obtain ⟨n, -, hend⟩ := exists_endsAfter hex
      exact absurd hend (hnever n o)

theorem run_on_top_of_callers_relay :
    let waiting : Frame := .enter Relay.relay none #[] 1
    EndsAfter (Relay.program.withDepth 2) Relay.call {} 4 Relay.outcome ∧
    run Relay.program 4 ⟨.enter Relay.relay none #[] 1, .ofList [waiting], {}, 5⟩ =
      .running ⟨waiting.resume (.int32 7), .ofList [], {}, 9⟩ := by
  intro waiting
  have hend : EndsAfter (Relay.program.withDepth 2) Relay.call {} 4 Relay.outcome :=
    (endsAfter_iff rfl).mpr ⟨_, rfl, rfl⟩
  have h := run_on_top_of_callers Relay.program rfl waiting [] Relay.call _ rfl {} 5
  exact ⟨hend, (h.1 4 _ hend).2.2.1 (by decide)⟩

end ObjectMachine
