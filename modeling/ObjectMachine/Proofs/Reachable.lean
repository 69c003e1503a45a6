import ObjectMachine.Proofs.Instructions
import ObjectMachine.Proofs.Runs

/-!
# Reachable configurations

What holds of a run at every moment, whatever the program does. An activation keeps the shape with
which it began (`Frame.Continues`), and a configuration that a call can reach is `Config.Sound`: the
depth of calls is within its limit, every frame is at a position of its own interpreted code and has
the room on its stack that the limits give, every frame but the active one waits at a call, and the
counter of instructions is within the budget.

A chain of calls is never empty: that is built into `Config`. The last part shows what this is worth
for a loop over a plain list of frames, which would have to ask whether the list is empty.
-/

namespace ObjectMachine

/-! ## One activation -/

/-- An earlier and a later stage of one activation: everything that the method or the call has fixed
is still the same, and the stack is still within its limit. -/
structure Frame.Continues (f f' : Frame) : Prop where
  method : f'.method = f.method
  receiver : f'.receiver.isSome = f.receiver.isSome
  arguments : f'.arguments.size = f.arguments.size
  locals : f'.locals.size = f.locals.size
  limit : f'.stack.limit = f.stack.limit
  depth : f.stack.depth ≤ f.stack.limit → f'.stack.depth ≤ f'.stack.limit

namespace Frame

theorem Continues.refl (f : Frame) : f.Continues f := ⟨rfl, rfl, rfl, rfl, rfl, id⟩

theorem Continues.trans {f g h : Frame} (a : f.Continues g) (b : g.Continues h) : f.Continues h :=
  ⟨b.method.trans a.method, b.receiver.trans a.receiver, b.arguments.trans a.arguments,
    b.locals.trans a.locals, b.limit.trans a.limit, fun hd => b.depth (a.depth hd)⟩

/-- A store to an argument slot changes the receiver into another one or replaces an argument. -/
theorem setArgument_cases {f g : Frame} {i : Nat} {v : Value} (h : f.setArgument i v = .ok g) :
    (∃ r r', f.receiver = some r ∧ i = 0 ∧ v = .object r' ∧ g = { f with receiver := some r' }) ∨
    ∃ j, j < f.arguments.size ∧ i = j + (if f.receiver.isSome then 1 else 0) ∧
      g = { f with arguments := f.arguments.setIfInBounds j v } := by
  obtain ⟨m, receiver, as, ls, st, pc⟩ := f
  unfold setArgument at h
  cases receiver with
  | none =>
    dsimp only at h
    split at h <;> cases h
    exact .inr ⟨i, ‹_›, rfl, rfl⟩
  | some r =>
    cases i with
    | zero =>
      cases v <;> cases h
      exact .inl ⟨r, _, rfl, rfl, rfl, rfl⟩
    | succ j =>
      dsimp only at h
      split at h <;> cases h
      exact .inr ⟨j, ‹_›, rfl, rfl⟩

theorem continues_of_setArgument {f g : Frame} {i : Nat} {v : Value}
    (h : f.setArgument i v = .ok g) : f.Continues g := by
  rcases setArgument_cases h with ⟨r, r', hr, -, -, rfl⟩ | ⟨j, -, -, rfl⟩
  · exact ⟨rfl, by rw [hr]; rfl, rfl, rfl, rfl, id⟩
  · exact ⟨rfl, rfl, Array.size_setIfInBounds, rfl, rfl, id⟩

theorem continues_of_setLocal {f g : Frame} {i : Nat} {v : Value} (h : f.setLocal i v = .ok g) :
    f.Continues g := by
  unfold setLocal at h
  split at h <;> cases h
  exact ⟨rfl, rfl, rfl, Array.size_setIfInBounds, rfl, id⟩

theorem pc_of_setArgument {f g : Frame} {i : Nat} {v : Value} (h : f.setArgument i v = .ok g) :
    g.pc = f.pc := by
  rcases setArgument_cases h with ⟨r, r', -, -, -, rfl⟩ | ⟨j, -, -, rfl⟩ <;> rfl

theorem pc_of_setLocal {f g : Frame} {i : Nat} {v : Value} (h : f.setLocal i v = .ok g) :
    g.pc = f.pc := by
  unfold setLocal at h
  split at h <;> cases h
  rfl

theorem continues_law : FrameLaw Continues where
  refl := Continues.refl
  trans := Continues.trans
  pushed f v h := ⟨rfl, rfl, rfl, rfl, rfl, fun _ => by
    simp only [Stack.depth, Array.size_push] at h ⊢; omega⟩
  popped f := ⟨rfl, rfl, rfl, rfl, rfl, fun h => by
    simp only [Stack.depth, Array.size_pop] at h ⊢; omega⟩
  shrunk f n := ⟨rfl, rfl, rfl, rfl, rfl, fun h => by
    simp only [Stack.depth, Array.size_shrink] at h ⊢; omega⟩
  stored := continues_of_setArgument
  assigned := continues_of_setLocal

theorem pc_law : FrameLaw fun f f' => f'.pc = f.pc where
  refl _ := rfl
  trans a b := b.trans a
  pushed _ _ _ := rfl
  popped _ := rfl
  shrunk _ _ := rfl
  stored := pc_of_setArgument
  assigned := pc_of_setLocal

theorem Continues.jump {f g : Frame} (h : f.Continues g) (target : Nat) :
    f.Continues (g.jump target) := ⟨h.method, h.receiver, h.arguments, h.locals, h.limit, h.depth⟩

theorem continues_resume (f : Frame) (v : Value) (h : f.stack.depth < f.stack.limit) :
    f.Continues (f.resume v) :=
  (continues_law.pushed f v h).jump (f.pc + 1)

end Frame

section
variable {p : Program} {s s' : Activation} {flow : Flow}

theorem continues_of_step (h : step p s = .ok flow s') : s.frame.Continues s'.frame := by
  have hk := step_keeps Frame.continues_law p s
  rwa [EStateM.leaves_of_ok h] at hk

theorem pc_of_step (h : step p s = .ok flow s') : s'.frame.pc = s.frame.pc := by
  have hk := step_keeps Frame.pc_law p s
  rwa [EStateM.leaves_of_ok h] at hk

end

/-! ## The invariant -/

/-- A frame at a position of its own code, within the limits of the program. -/
structure Frame.Sound (l : Limits) (f : Frame) : Prop where
  code : ∃ code, f.method.body = .interpreted code ∧ f.pc ≤ code.size
  limit : f.stack.limit = l.stackSize
  depth : f.stack.depth ≤ l.stackSize
  locals : f.locals.size = f.method.locals.length

/-- A frame whose position is that of a call instruction. -/
def Frame.AtCall (f : Frame) : Prop :=
  ∃ code i, f.method.body = .interpreted code ∧ code[f.pc]? = some i ∧
    i.opcode?.any Opcode.isCall = true

/-- All calls in progress, the innermost first. -/
def Config.frames (c : Config) : List Frame := c.active :: c.callers.frames

/-- What holds of a run at every moment. -/
structure Config.Sound (p : Program) (c : Config) : Prop where
  /-- There is at least one frame, and beyond the first only as many as the limit allows. -/
  depth : 1 ≤ c.frames.length ∧ c.frames.length ≤ max 1 p.limits.callDepth
  frames : ∀ f ∈ c.frames, f.Sound p.limits
  /-- Every frame that is not active waits at its call. -/
  waiting : ∀ f ∈ c.callers.frames, f.AtCall
  budget : ∀ b, p.limits.stepBudget = some b → c.steps ≤ b

theorem Frame.sound_enter {l : Limits} {k : Call} {code : Array Instruction}
    (hk : k.method.body = .interpreted code) :
    (Frame.enter k.method k.receiver k.arguments l.stackSize).Sound l :=
  ⟨⟨code, hk, Nat.zero_le _⟩, rfl, Nat.zero_le _, Array.size_replicate⟩

/-- A later stage of a sound frame is sound if its position is one of the code. -/
theorem Frame.Sound.continue {l : Limits} {f g : Frame} (hf : f.Sound l) (h : f.Continues g)
    {code : Array Instruction} (hb : f.method.body = .interpreted code) (hpc : g.pc ≤ code.size) :
    g.Sound l := by
  refine ⟨⟨code, by rw [h.method, hb], hpc⟩, h.limit.trans hf.limit, ?_, ?_⟩
  · have hd := h.depth (by rw [hf.limit]; exact hf.depth)
    rwa [h.limit, hf.limit] at hd
  · rw [h.locals, hf.locals, h.method]

theorem Config.sound_start {p : Program} {c : Call} {code : Array Instruction}
    (hc : c.method.body = .interpreted code) (heap : Heap) : (Config.start p c heap).Sound p where
  depth := ⟨Nat.le_refl 1, Nat.le_max_left 1 _⟩
  frames f hf := by
    cases List.mem_singleton.mp hf
    exact Frame.sound_enter hc
  waiting f hf := by cases hf
  budget b _ := Nat.zero_le b

theorem steps_lt_of_not_exhausted {p : Program} {steps b : Nat} (h : exhausted? p steps = none)
    (hb : p.limits.stepBudget = some b) : steps < b := by
  rw [exhausted?, hb] at h
  simpa [Option.filter] using h

/-- One tick keeps the invariant. -/
theorem Config.Sound.tick {p : Program} {c c' : Config} (hc : c.Sound p)
    (h : tick p c = .running c') : c'.Sound p := by
  have hactive : c.active.Sound p.limits := hc.frames _ List.mem_cons_self
  have hcallers : ∀ f ∈ c.callers.frames, f.Sound p.limits :=
    fun f hf => hc.frames f (List.mem_cons_of_mem _ hf)
  have hbudget : ∀ b, p.limits.stepBudget = some b → c.steps + 1 ≤ b :=
    fun b hb => steps_lt_of_not_exhausted (not_exhausted_of_tick h) hb
  have hdepth := hc.depth
  cases advances_of_tick h with
  | next hs =>
    obtain ⟨code, hb, hpc⟩ := flow_of_step hs
    have hcont := continues_of_step hs
    refine ⟨hdepth, ?_, hc.waiting, hbudget⟩
    rintro f (_ | ⟨_, hf⟩)
    · refine hactive.continue (hcont.jump _) hb ?_
      change _ + 1 ≤ _
      rw [pc_of_step hs]; exact hpc
    · exact hcallers f hf
  | jump hs =>
    obtain ⟨code, hb, htarget⟩ := flow_of_step hs
    refine ⟨hdepth, ?_, hc.waiting, hbudget⟩
    rintro f (_ | ⟨_, hf⟩)
    · exact hactive.continue ((continues_of_step hs).jump _) hb htarget
    · exact hcallers f hf
  | ret hs hcs hroom =>
    rename_i s v caller rest
    have hmem : caller ∈ c.callers.frames := by rw [hcs]; exact List.mem_cons_self
    have hsub : ∀ f ∈ rest.frames, f ∈ c.callers.frames := by
      intro f hf; rw [hcs]; exact List.mem_cons_of_mem _ hf
    obtain ⟨code, i, hb, hi, -⟩ := hc.waiting caller hmem
    refine ⟨⟨Nat.le_add_left 1 _, ?_⟩, ?_, fun f hf => hc.waiting f (hsub f hf), hbudget⟩
    · have := hdepth.2
      simp only [Config.frames, hcs, Callers.frames_push, List.length_cons] at this ⊢
      omega
    · rintro f (_ | ⟨_, hf⟩)
      · -- the caller waited at a call, so there is a position after it
        have hlt : caller.pc < code.size := (Array.getElem?_eq_some_iff.mp hi).1
        exact (hcallers caller hmem).continue (caller.continues_resume v hroom) hb hlt
      · exact hcallers f (hsub f hf)
  | call hs hd =>
    rename_i s k
    obtain ⟨code, hb, ⟨i, hi, hcall⟩, body, hk⟩ := flow_of_step hs
    have hcont := continues_of_step hs
    have hpc := pc_of_step hs
    refine ⟨⟨Nat.le_add_left 1 _, ?_⟩, ?_, ?_, hbudget⟩
    · simp only [Config.depth, Callers.count_eq] at hd
      simp only [Config.frames, Callers.frames_push, List.length_cons]
      omega
    · rintro f (_ | ⟨_, hf⟩)
      · exact Frame.sound_enter hk
      · rcases List.mem_cons.mp hf with rfl | hf
        · refine hactive.continue hcont hb ?_
          rw [hpc]; exact Nat.le_of_lt (Array.getElem?_eq_some_iff.mp hi).1
        · exact hcallers f hf
    · intro f hf
      rcases List.mem_cons.mp hf with rfl | hf
      · exact ⟨code, i, by rw [hcont.method, hb], by rw [hpc]; exact hi, hcall⟩
      · exact hc.waiting f hf

/-- Any number of ticks keeps the invariant. -/
theorem Config.Sound.run {p : Program} {c d : Config} {n : Nat} (hc : c.Sound p)
    (h : run p n c = .running d) : d.Sound p := by
  induction n generalizing c with
  | zero => cases h; exact hc
  | succ n ih =>
    cases ht : ObjectMachine.tick p c with
    | finished o => rw [run_succ_of_finished n ht] at h; cases h
    | running c' =>
      rw [run_succ_of_running n ht] at h
      exact ih (hc.tick ht) h

/-! ## Where activations come from -/

theorem getElem?_concat_eq_some {α : Type} {l : List α} {a x : α} {i : Nat} :
    (l ++ [a])[i]? = some x ↔ l[i]? = some x ∨ i = l.length ∧ x = a := by
  rw [List.getElem?_append]
  by_cases h : i < l.length
  · simp [h]; omega
  · rw [if_neg h, List.getElem?_eq_none (Nat.not_lt.mp h)]
    by_cases he : i = l.length
    · simp [he, eq_comm]
    · have : [a][i - l.length]? = none := List.getElem?_eq_none (by simp; omega)
      simp [this, he]

/-- The call in progress at a height of the chain; the outermost one is at height 0. -/
def Config.atHeight (c : Config) (height : Nat) : Option Frame := c.frames.reverse[height]?

theorem Config.atHeight_eq_some {c : Config} {i : Nat} {f : Frame} :
    c.atHeight i = some f ↔
      c.callers.frames.reverse[i]? = some f ∨ i = c.callers.count ∧ f = c.active := by
  rw [atHeight, frames, List.reverse_cons, getElem?_concat_eq_some, List.length_reverse,
    c.callers.count_eq]

theorem Config.lt_depth_of_atHeight {c : Config} {i : Nat} {f : Frame}
    (h : c.atHeight i = some f) : i < c.depth := by
  have hlt := (List.getElem?_eq_some_iff.mp h).1
  rw [List.length_reverse] at hlt
  rwa [depth, c.callers.count_eq]

theorem Callers.reverse_push {cs rest : Callers} {f : Frame} (h : cs = rest.push f) :
    cs.frames.reverse = rest.frames.reverse ++ [f] := by
  rw [h, frames_push, List.reverse_cons]

/-- After a tick there stands at each height what stood there before, or what the tick has
entered. -/
theorem lineage_of_tick {p : Program} {c c' : Config} (h : tick p c = .running c') {i : Nat}
    {f' : Frame} (hf : c'.atHeight i = some f') :
    (∃ f, c.atHeight i = some f ∧ f.Continues f') ∨
    (i = c.depth ∧ c'.depth = i + 1 ∧
      ∃ k : Call, c'.active = .enter k.method k.receiver k.arguments p.limits.stackSize ∧
        f' = c'.active) := by
  have below : ∀ {g}, c.callers.frames.reverse[i]? = some g →
      ∃ f, c.atHeight i = some f ∧ f.Continues g :=
    fun hg => ⟨_, Config.atHeight_eq_some.mpr (.inl hg), .refl _⟩
  have top : i = c.callers.count → c.atHeight i = some c.active :=
    fun hi => Config.atHeight_eq_some.mpr (.inr ⟨hi, rfl⟩)
  rw [Config.atHeight_eq_some] at hf
  cases advances_of_tick h with
  | next hs =>
    rcases hf with hf | ⟨hi, rfl⟩
    · exact .inl (below hf)
    · exact .inl ⟨_, top hi, (continues_of_step hs).jump _⟩
  | jump hs =>
    rcases hf with hf | ⟨hi, rfl⟩
    · exact .inl (below hf)
    · exact .inl ⟨_, top hi, (continues_of_step hs).jump _⟩
  | ret hs hc hroom =>
    rename_i s v caller rest
    have hrev := Callers.reverse_push hc
    rcases hf with hf | ⟨hi, rfl⟩
    · exact .inl (below (by rw [hrev]; exact getElem?_concat_eq_some.mpr (.inl hf)))
    · refine .inl ⟨caller, Config.atHeight_eq_some.mpr (.inl ?_), caller.continues_resume v hroom⟩
      rw [hrev]
      exact getElem?_concat_eq_some.mpr (.inr ⟨by rw [hi, List.length_reverse, rest.count_eq], rfl⟩)
  | call hs hd =>
    rename_i s k
    rcases hf with hf | ⟨hi, rfl⟩
    · rw [Callers.reverse_push rfl, getElem?_concat_eq_some] at hf
      rcases hf with hf | ⟨hi, rfl⟩
      · exact .inl (below hf)
      · refine .inl ⟨_, top ?_, continues_of_step hs⟩
        rw [hi, List.length_reverse, c.callers.count_eq]
    · exact .inr ⟨hi, by rw [hi]; rfl, k, rfl, rfl⟩

/-- The activation at a height of the chain after `n` ticks began with a certain call: after `j`
ticks the chain had just grown to that height by the frame in which the call begins, and it has not
been shorter since. -/
def BegunBy (p : Program) (c₀ : Config) (n height : Nat) (k : Call) : Prop :=
  ∃ j ≤ n,
    (∃ d, run p j c₀ = .running d ∧ d.depth = height + 1 ∧
      d.active = .enter k.method k.receiver k.arguments p.limits.stackSize) ∧
    (∀ i, j = i + 1 → ∃ d, run p i c₀ = .running d ∧ d.depth = height) ∧
    ∀ m, j ≤ m → m ≤ n → ∃ d, run p m c₀ = .running d ∧ height < d.depth

theorem BegunBy.succ {p : Program} {c₀ d : Config} {n height : Nat} {k : Call}
    (h : BegunBy p c₀ n height k) (hd : run p (n + 1) c₀ = .running d) (hlt : height < d.depth) :
    BegunBy p c₀ (n + 1) height k := by
  obtain ⟨j, hj, hbegin, hbefore, hsince⟩ := h
  refine ⟨j, Nat.le_succ_of_le hj, hbegin, hbefore, fun m hjm hm => ?_⟩
  rcases Nat.lt_or_eq_of_le hm with hlt' | rfl
  · exact hsince m hjm (Nat.le_of_lt_succ hlt')
  · exact ⟨d, hd, hlt⟩

/-- Every activation keeps the method, the number of argument slots and the presence of a receiver
with which it began. -/
theorem begunBy_of_run {p : Program} {c : Call} {heap : Heap} {n : Nat} {d : Config}
    (h : run p n (.start p c heap) = .running d) {i : Nat} {f : Frame}
    (hf : d.atHeight i = some f) :
    ∃ k, BegunBy p (.start p c heap) n i k ∧ f.method = k.method ∧
      f.arguments.size = k.arguments.size ∧ f.receiver.isSome = k.receiver.isSome := by
  induction n generalizing d f i with
  | zero =>
    cases h
    rcases Config.atHeight_eq_some.mp hf with hf | ⟨rfl, rfl⟩
    · cases hf
    · refine ⟨c, ⟨0, Nat.le_refl 0, ⟨_, rfl, rfl, rfl⟩, ?_, ?_⟩, rfl, rfl, rfl⟩
      · intro i hi
        cases hi
      intro m _ hm
      cases Nat.le_zero.mp hm
      exact ⟨_, rfl, Nat.zero_lt_one⟩
  | succ n ih =>
    obtain ⟨b, hb⟩ := running_of_le h (Nat.le_succ n)
    have ht : tick p b = .running d := by rw [← run_succ_of_last hb, h]
    rcases lineage_of_tick ht hf with ⟨g, hg, hcont⟩ | ⟨hi, hdepth, k, hk, rfl⟩
    · obtain ⟨k, hbegun, hm, ha, hr⟩ := ih hb hg
      exact ⟨k, hbegun.succ h (Config.lt_depth_of_atHeight hf), hcont.method.trans hm,
        hcont.arguments.trans ha, hcont.receiver.trans hr⟩
    · refine ⟨k, ⟨n + 1, Nat.le_refl _, ⟨d, h, hdepth, hk⟩, ?_, ?_⟩, by rw [hk]; rfl,
        by rw [hk]; rfl, by rw [hk]; rfl⟩
      · intro m hm
        cases hm
        exact ⟨b, hb, hi.symm⟩
      · intro m hm hm'
        cases Nat.le_antisymm hm hm'
        exact ⟨d, h, by omega⟩

/-! ## A loop over a list of frames -/

/-- A run whose calls in progress are a plain list, the innermost first. Nothing in the type keeps
the list from being empty. -/
structure Loop where
  frames : List Frame
  heap : Heap
  steps : Nat

/-- What one turn of the loop comes to. -/
inductive Turn where
  | again (l : Loop)
  | ended (o : Outcome)
  /-- There was no frame to execute. -/
  | noFrame
  /-- A frame returned a value and there was no frame to take off the list. -/
  | noCallee (v : Value)

namespace Loop

/-- The run after the innermost frame has returned a value: it is taken off the list, and the next
one goes on with the value. -/
def leave (v : Value) (heap : Heap) (steps : Nat) : List Frame → Turn
  | [] => .noCallee v
  | [_] => .ended ⟨.ok v, heap, steps⟩
  | _ :: caller :: rest =>
    match Stack.push v caller.stack with
    | .ok _ stack => .again ⟨{ caller with stack, pc := caller.pc + 1 } :: rest, heap, steps⟩
    | .error e _ => .ended ⟨.error e, heap, steps⟩

/-- The run after the innermost frame has made a call. -/
def enter (p : Program) (k : Call) (heap : Heap) (steps : Nat) (frames : List Frame) : Turn :=
  if p.limits.callDepth ≤ frames.length then
    .ended ⟨.error (.recursionLimitExceeded p.limits.callDepth), heap, steps⟩
  else
    .again ⟨.enter k.method k.receiver k.arguments p.limits.stackSize :: frames, heap, steps⟩

/-- The run after an instruction of the innermost frame. -/
def follow (p : Program) (rest : List Frame) (steps : Nat) :
    EStateM.Result Fault Activation Flow → Turn
  | .error e s => .ended ⟨.error e, s.heap, steps⟩
  | .ok .next s => .again ⟨s.frame.advance :: rest, s.heap, steps⟩
  | .ok (.jump target) s => .again ⟨s.frame.jump target :: rest, s.heap, steps⟩
  | .ok (.ret v) s => leave v s.heap steps (s.frame :: rest)
  | .ok (.call k) s => enter p k s.heap steps (s.frame :: rest)

/-- One turn: executes an instruction of the innermost frame, unless the budget is used up. -/
def turn (p : Program) : Loop → Turn
  | ⟨[], _, _⟩ => .noFrame
  | ⟨active :: rest, heap, steps⟩ =>
    match exhausted? p steps with
    | some budget => .ended ⟨.error (.stepBudgetExceeded budget), heap, steps⟩
    | none => follow p rest (steps + 1) (step p ⟨active, heap⟩)

/-- Up to a number of turns. -/
def turns (p : Program) : Nat → Loop → Turn
  | 0, l => .again l
  | n + 1, l =>
    match turn p l with
    | .again l => turns p n l
    | other => other

end Loop

/-- The configuration with its frames in one list. -/
def Config.toLoop (c : Config) : Loop := ⟨c.frames, c.heap, c.steps⟩

/-- The status with its frames in one list. -/
def Status.toTurn : Status → Turn
  | running c => .again c.toLoop
  | finished o => .ended o

/-- A turn of the loop is a tick. -/
theorem Loop.turn_toLoop (p : Program) (c : Config) : turn p c.toLoop = (tick p c).toTurn := by
  simp only [Config.toLoop, Config.frames, turn]
  cases hb : exhausted? p c.steps with
  | some budget => rw [tick_of_exhausted hb]; rfl
  | none =>
    rw [tick_of_not_exhausted hb]
    dsimp only
    cases step p ⟨c.active, c.heap⟩ with
    | error e s => rfl
    | ok flow s =>
      cases flow with
      | next => rfl
      | jump target => rfl
      | ret v =>
        change leave v s.heap (c.steps + 1) (s.frame :: c.callers.frames) =
          (returnTo c.callers v s.heap (c.steps + 1)).toTurn
        rcases c.callers.empty_or_push with hc | ⟨caller, rest, hc⟩ <;> rw [hc]
        · rfl
        · by_cases hroom : caller.stack.depth < caller.stack.limit
          · rw [returnTo_push_of_lt rest v s.heap _ hroom, Callers.frames_push, leave,
              Stack.push_of_lt v hroom]
            rfl
          · rw [returnTo_push_of_le rest v s.heap _ (Nat.not_lt.mp hroom), Callers.frames_push,
              leave, Stack.push_of_le v (Nat.not_lt.mp hroom)]
            rfl
      | call k =>
        change enter p k s.heap (c.steps + 1) (s.frame :: c.callers.frames) =
          (enterCall p k s.frame c.callers s.heap (c.steps + 1)).toTurn
        rw [enter, enterCall, List.length_cons, ← c.callers.count_eq]
        split <;> rfl

theorem Loop.turns_toLoop (p : Program) (n : Nat) (c : Config) :
    turns p n c.toLoop = (run p n c).toTurn := by
  induction n generalizing c with
  | zero => rfl
  | succ n ih =>
    rw [turns, turn_toLoop]
    cases ht : tick p c with
    | finished o => rw [run_succ_of_finished n ht]; rfl
    | running c' => rw [run_succ_of_running n ht, ← ih]; rfl

/-! ## What holds of every reachable configuration -/

/-- **The invariant of execution.** After any number of ticks that do not end a call, the depth of
calls, the operands and the counter are within their limits, every frame is at a position of its
code and holds as many variables as it was entered with, and frames that wait are at a call. So the
loop over a list of frames never comes to what it takes for impossible. -/
theorem reachable_sound (p : Program) (c : Call) (code : Array Instruction)
    (hc : c.method.body = .interpreted code) (heap : Heap) (n : Nat) (d : Config)
    (h : run p n (.start p c heap) = .running d) :
    d.Sound p ∧
    (∀ height f, d.atHeight height = some f →
      ∃ k, BegunBy p (.start p c heap) n height k ∧ f.method = k.method ∧
        f.arguments.size = k.arguments.size ∧ f.receiver.isSome = k.receiver.isSome) ∧
    Loop.turns p n ⟨[.enter c.method c.receiver c.arguments p.limits.stackSize], heap, 0⟩ =
      .again ⟨d.frames, d.heap, d.steps⟩ ∧
    Loop.turn p ⟨d.frames, d.heap, d.steps⟩ ≠ .noFrame ∧
    (∀ v, Loop.turn p ⟨d.frames, d.heap, d.steps⟩ ≠ .noCallee v) ∧
    ∀ name, d.active.method.body ≠ .native name := by
  have hsound : d.Sound p := (Config.sound_start hc heap).run h
  have hturn : Loop.turn p ⟨d.frames, d.heap, d.steps⟩ = (tick p d).toTurn := Loop.turn_toLoop p d
  refine ⟨hsound, fun height f hf => begunBy_of_run h hf, ?_, ?_, ?_, ?_⟩
  · exact (Loop.turns_toLoop p n (.start p c heap)).trans (by rw [h]; rfl)
  · rw [hturn]; cases tick p d <;> exact nofun
  · intro v
    rw [hturn]; cases tick p d <;> exact nofun
  · intro name hname
    obtain ⟨body, hbody, -⟩ := (hsound.frames d.active List.mem_cons_self).code
    rw [hbody] at hname; cases hname

theorem reachable_sound_relay :
    ∃ d, run Relay.program 2 (.start Relay.program Relay.call {}) = .running d ∧
      d.frames.length = 2 ∧ d.Sound Relay.program :=
  ⟨_, rfl, rfl, (reachable_sound Relay.program Relay.call _ rfl {} 2 _ rfl).1⟩

end ObjectMachine
