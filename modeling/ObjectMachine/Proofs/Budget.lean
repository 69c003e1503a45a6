import ObjectMachine.Proofs.Runs

/-!
# The step budget

A budget changes nothing about a run but where it is cut off: as long as the counter is below the
budget, a tick does what it would do without one, and at the budget the run ends. So a call either
ends within its budget exactly as it would have ended anyway, or it ends with the budget used up and
the heap that the run without a budget has at that moment.
-/

namespace ObjectMachine

/-- The program under another step budget. -/
def Program.withBudget (p : Program) (budget : Option Nat) : Program :=
  p.withLimits { p.limits with stepBudget := budget }

section
variable {p : Program} {c : Config} {b n : Nat}

theorem exhausted?_withBudget_of_lt (h : n < b) : exhausted? (p.withBudget (some b)) n = none := by
  simp [exhausted?, Program.withBudget, Program.withLimits, Option.filter, h]

theorem exhausted?_withBudget_of_le (h : b ≤ n) :
    exhausted? (p.withBudget (some b)) n = some b := by
  simp [exhausted?, Program.withBudget, Program.withLimits, Option.filter, h]

theorem step_withBudget (p : Program) (budget : Option Nat) : step (p.withBudget budget) = step p :=
  step_withLimits p _ rfl

theorem proceed_withBudget (p : Program) (budget : Option Nat) (cs : Callers) (steps : Nat)
    (r : EStateM.Result Fault Activation Flow) :
    proceed (p.withBudget budget) cs steps r = proceed p cs steps r := rfl

/-- Below the budget a tick does what it does without one. -/
theorem tick_withBudget_of_lt (h : c.steps < b) :
    tick (p.withBudget (some b)) c = tick (p.withBudget none) c := by
  rw [tick_of_not_exhausted (exhausted?_withBudget_of_lt h), tick_of_not_exhausted rfl,
    step_withBudget, step_withBudget, proceed_withBudget, proceed_withBudget]

theorem tick_withBudget_of_le (h : b ≤ c.steps) :
    tick (p.withBudget (some b)) c =
      .finished ⟨.error (.stepBudgetExceeded b), c.heap, c.steps⟩ :=
  tick_of_exhausted (exhausted?_withBudget_of_le h)

/-- A run that stays within the budget is the run without one. -/
theorem run_withBudget (h : c.steps + n ≤ b) :
    run (p.withBudget (some b)) n c = run (p.withBudget none) n c := by
  induction n generalizing c with
  | zero => rfl
  | succ n ih =>
    have htick := tick_withBudget_of_lt (p := p) (c := c) (b := b) (by omega)
    cases ht : tick (p.withBudget none) c with
    | finished o =>
      rw [run_succ_of_finished n ht, run_succ_of_finished n (htick.trans ht)]
    | running d =>
      rw [run_succ_of_running n ht, run_succ_of_running n (htick.trans ht)]
      have hsteps := steps_of_tick ht
      exact ih (by omega)

end

/-! ## Calls under a budget -/

section
variable {p : Program} {c : Call} {heap : Heap} {b n : Nat} {o : Outcome}

/-- Without a budget the outcome reports the number of ticks. -/
theorem EndsAfter.steps_eq (h : EndsAfter (p.withBudget none) c heap n o) : o.steps = n := by
  cases hb : c.method.body with
  | native name =>
    -- the outcome is there at patience 0 already, so no tick was needed
    have h0 := h 0
    by_cases hn : n ≤ 0
    · rw [if_pos hn] at h0
      simp only [execute, hb] at h0
      split at h0 <;> cases h0 <;> exact (Nat.le_zero.mp hn).symm
    · rw [if_neg hn] at h0
      simp only [execute, hb] at h0
      split at h0 <;> cases h0
  | interpreted code =>
    obtain ⟨m, d, rfl, hd, ht⟩ := h.last hb
    have hm := steps_of_run hd
    rw [steps_of_tick_finished rfl ht, hm]
    simp [Config.start]

/-- A call that ends in time ends in the same way under the budget. -/
theorem EndsAfter.withBudget (h : EndsAfter (p.withBudget none) c heap n o) (hle : n ≤ b) :
    EndsAfter (p.withBudget (some b)) c heap n o := by
  cases hb : c.method.body with
  | native name =>
    intro patience
    rw [← h patience]
    simp only [execute, hb]
    rfl
  | interpreted code =>
    obtain ⟨m, d, rfl, hd, ht⟩ := h.last hb
    have hm := steps_of_run hd
    refine (endsAfter_iff hb).mpr ⟨d, ?_, ?_⟩
    · exact (run_withBudget (by simp [Config.start]; omega)).trans hd
    · exact (tick_withBudget_of_lt (by simp [hm, Config.start]; omega)).trans ht

/-- A call that does not end in time is cut off at the budget. -/
theorem endsAfter_budget (h : ¬ ∃ n o, n ≤ b ∧ EndsAfter (p.withBudget none) c heap n o) :
    ∃ d, run (p.withBudget none) b (.start (p.withBudget none) c heap) = .running d ∧
      EndsAfter (p.withBudget (some b)) c heap (b + 1)
        ⟨.error (.stepBudgetExceeded b), d.heap, b⟩ := by
  cases hex : execute (p.withBudget none) b c heap with
  | some o =>
    obtain ⟨n, hn, hend⟩ := exists_endsAfter hex
    exact absurd ⟨n, o, hn, hend⟩ h
  | none =>
    cases hb : c.method.body with
    | native name =>
      simp only [execute, hb] at hex
      split at hex <;> cases hex
    | interpreted code =>
      rw [execute_interpreted hb] at hex
      cases hr : run (p.withBudget none) b (.start (p.withBudget none) c heap) with
      | finished o => rw [hr] at hex; cases hex
      | running d =>
        have hsteps : d.steps = b := by simpa [Config.start] using steps_of_run hr
        refine ⟨d, rfl, (endsAfter_iff hb).mpr ⟨d, ?_, ?_⟩⟩
        · exact (run_withBudget (by simp [Config.start])).trans hr
        · rw [tick_withBudget_of_le (Nat.le_of_eq hsteps.symm), hsteps]

/-- **The step budget is exact and transparent.** A call that ends after no more than `b` ticks
without a budget ends in the same way under the budget `b`. Any other call is cut off after `b`
instructions, with the heap that it has then. So with a budget every call has an outcome. -/
theorem execute_under_budget (p : Program) (c : Call) (heap : Heap) (b : Nat) :
    (∀ n o, n ≤ b → EndsAfter (p.withBudget none) c heap n o →
      o.steps = n ∧ EndsAfter (p.withBudget (some b)) c heap n o) ∧
    ((¬ ∃ n o, n ≤ b ∧ EndsAfter (p.withBudget none) c heap n o) →
      ∃ d, run (p.withBudget none) b (.start (p.withBudget none) c heap) = .running d ∧
        EndsAfter (p.withBudget (some b)) c heap (b + 1)
          ⟨.error (.stepBudgetExceeded b), d.heap, b⟩) ∧
    (∀ patience, b < patience →
      ∃ o, execute (p.withBudget (some b)) patience c heap = some o) := by
  refine ⟨fun n o hle h => ⟨h.steps_eq, h.withBudget hle⟩, endsAfter_budget, ?_⟩
  intro patience hlt
  by_cases h : ∃ n o, n ≤ b ∧ EndsAfter (p.withBudget none) c heap n o
  · obtain ⟨n, o, hle, hend⟩ := h
    exact ⟨o, by rw [hend.withBudget hle patience, if_pos (by omega)]⟩
  · obtain ⟨d, -, hend⟩ := endsAfter_budget h
    exact ⟨_, by rw [hend patience, if_pos (by omega)]⟩

end

theorem execute_under_budget_relay :
    EndsAfter (Relay.program.withBudget none) Relay.call {} 4 Relay.outcome ∧
    EndsAfter (Relay.program.withBudget (some 4)) Relay.call {} 4 Relay.outcome ∧
    EndsAfter (Relay.program.withBudget (some 3)) Relay.call {} 4
      ⟨.error (.stepBudgetExceeded 3), {}, 3⟩ := by
  have hend : EndsAfter (Relay.program.withBudget none) Relay.call {} 4 Relay.outcome :=
    (endsAfter_iff rfl).mpr ⟨_, rfl, rfl⟩
  have hlate : ¬ ∃ n o, n ≤ 3 ∧ EndsAfter (Relay.program.withBudget none) Relay.call {} n o := by
    rintro ⟨n, o, hle, h⟩
    have h3 := h 3
    rw [if_pos hle] at h3
    cases h3
  refine ⟨hend, ((execute_under_budget Relay.program _ {} 4).1 4 _ (Nat.le_refl 4) hend).2, ?_⟩
  obtain ⟨d, hd, hcut⟩ := (execute_under_budget Relay.program _ {} 3).2.1 hlate
  cases hd
  exact hcut

end ObjectMachine
