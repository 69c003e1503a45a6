import ObjectMachine.Fault

/-!
# Computations with a state

What the machine does is computed by functions that change a state and may fail. This holds for the
heap, for the operand stack, for an activation and for a builder alike, so it is said once for all
states: which state a computation leaves behind (`EStateM.leaves`), when two runs of a computation
cannot be told apart (`Indifferent`), and when a computation keeps an invariant (`Preserves`).
-/

/-! ## The state that is left behind -/

namespace EStateM

variable {ε σ α β : Type} {x : EStateM ε σ α} {f : α → EStateM ε σ β} {s s' : σ} {a : α} {e : ε}

/-- The state that a computation leaves behind, whether it fails or not. -/
def leaves (x : EStateM ε σ α) (s : σ) : σ :=
  match x s with
  | .ok _ s => s
  | .error _ s => s

theorem leaves_of_ok (h : x s = .ok a s') : x.leaves s = s' := by rw [leaves, h]

theorem leaves_of_error (h : x s = .error e s') : x.leaves s = s' := by rw [leaves, h]

theorem leaves_congr {y : EStateM ε σ α} {t : σ} (h : x s = y t) : x.leaves s = y.leaves t := by
  rw [leaves, leaves, h]

theorem leaves_map (f : α → β) (x : EStateM ε σ α) (s : σ) : (f <$> x).leaves s = x.leaves s := by
  simp only [leaves, Functor.map, EStateM.map]
  cases x s <;> rfl

theorem leaves_andThen (x : EStateM ε σ α) (b : β) (s : σ) :
    (do let _ ← x; return b : EStateM ε σ β).leaves s = x.leaves s := by
  simp only [leaves, Bind.bind, EStateM.bind]
  cases x s <;> rfl

theorem bind_of_ok (h : x s = .ok a s') : (x >>= f) s = f a s' := by
  simp only [Bind.bind, EStateM.bind, h]

theorem bind_of_error (h : x s = .error e s') : (x >>= f) s = .error e s' := by
  simp only [Bind.bind, EStateM.bind, h]

end EStateM

namespace ObjectMachine

theorem ok_of_map {ε α β : Type} {x : Except ε α} {f : α → β} {b : β} (h : f <$> x = .ok b) :
    ∃ a, x = .ok a ∧ f a = b := by
  cases x with
  | error e => cases h
  | ok a => cases h; exact ⟨a, rfl, rfl⟩

theorem ok_of_bind {ε α β : Type} {x : Except ε α} {f : α → Except ε β} {b : β}
    (h : x >>= f = .ok b) : ∃ a, x = .ok a ∧ f a = .ok b := by
  cases x with
  | error e => cases h
  | ok a => exact ⟨a, rfl, h⟩

/-! ## Computations that cannot tell related states apart -/

/-- Two results are the same but for the states that are left behind, which are related. -/
inductive Alike {ε σ α : Type} (R : σ → σ → Prop) (Q : α → Prop) :
    EStateM.Result ε σ α → EStateM.Result ε σ α → Prop
  | ok {a : α} (ha : Q a) {s s' : σ} (hs : R s s') : Alike R Q (.ok a s) (.ok a s')
  | error (e : ε) {s s' : σ} (hs : R s s') : Alike R Q (.error e s) (.error e s')

/-- From related states two computations come to results that are alike; what they return satisfies
a predicate. -/
def Agree {ε σ α : Type} (R : σ → σ → Prop) (Q : α → Prop) (x y : EStateM ε σ α) : Prop :=
  ∀ ⦃s s'⦄, R s s' → Alike R Q (x s) (y s')

/-- A computation that agrees with itself: it cannot tell related states apart. -/
abbrev Indifferent {ε σ α : Type} (R : σ → σ → Prop) (Q : α → Prop) (x : EStateM ε σ α) : Prop :=
  Agree R Q x x

namespace Agree

variable {ε σ α β : Type} {R : σ → σ → Prop} {Q : α → Prop} {P : β → Prop}

theorem pure {a : α} (ha : Q a) : Agree R Q (Pure.pure a : EStateM ε σ α) (Pure.pure a) :=
  fun _ _ hs => .ok ha hs

theorem throw (e : ε) : Agree R Q (throw e : EStateM ε σ α) (throw e) :=
  fun _ _ hs => .error e hs

theorem bind {x y : EStateM ε σ α} {f g : α → EStateM ε σ β} (hx : Agree R Q x y)
    (hf : ∀ a, Q a → Agree R P (f a) (g a)) : Agree R P (x >>= f) (y >>= g) := by
  intro s s' hs
  have hr := hx hs
  simp only [Bind.bind, EStateM.bind]
  generalize x s = r at hr ⊢
  generalize y s' = r' at hr ⊢
  cases hr with
  | ok ha h => exact hf _ ha h
  | error e h => exact .error e h

/-- What is done with the state may depend on it, as long as it agrees. -/
theorem get_bind {f g : σ → EStateM ε σ α} (hf : ∀ s s', R s s' → Agree R Q (f s) (g s')) :
    Agree R Q (get >>= f) (get >>= g) :=
  fun s s' hs => hf s s' hs hs

end Agree

/-! ## Computations that keep an invariant -/

section
variable {σ α β : Type} {I : σ → Prop} {Q : α → Prop} {P : β → Prop}

/-- An invariant holds of the state that is left behind, and a returned value satisfies a
predicate. -/
inductive Kept (I : σ → Prop) (Q : α → Prop) : EStateM.Result Fault σ α → Prop
  | ok {a : α} (ha : Q a) {s : σ} (hs : I s) : Kept I Q (.ok a s)
  | error (e : Fault) {s : σ} (hs : I s) : Kept I Q (.error e s)

/-- A computation that keeps an invariant, whether it fails or not. -/
def Preserves (I : σ → Prop) (Q : α → Prop) (x : EStateM Fault σ α) : Prop :=
  ∀ s, I s → Kept I Q (x s)

namespace Preserves

theorem pure {a : α} (ha : Q a) : Preserves I Q (Pure.pure a : EStateM Fault σ α) :=
  fun _ hs => .ok ha hs

theorem throw (e : Fault) : Preserves I Q (throw e : EStateM Fault σ α) := fun _ hs => .error e hs

theorem get : Preserves I I (get : EStateM Fault σ σ) := fun _ hs => .ok hs hs

theorem bind {x : EStateM Fault σ α} {f : α → EStateM Fault σ β} (hx : Preserves I Q x)
    (hf : ∀ a, Q a → Preserves I P (f a)) : Preserves I P (x >>= f) := by
  intro s hs
  have hr := hx s hs
  simp only [Bind.bind, EStateM.bind]
  generalize x s = r at hr ⊢
  cases hr with
  | ok ha hs => exact hf _ ha _ hs
  | error e hs => exact .error e hs

theorem map {x : EStateM Fault σ α} (hx : Preserves I Q x) {f : α → β} (hf : ∀ a, Q a → P (f a)) :
    Preserves I P (f <$> x) := by
  rw [map_eq_pure_bind]
  exact hx.bind fun a ha => .pure (hf a ha)

theorem leaves {x : EStateM Fault σ α} (hx : Preserves I Q x) {s : σ} (hs : I s) :
    I (x.leaves s) := by
  have hkept := hx s hs
  unfold EStateM.leaves
  generalize x s = r at hkept ⊢
  cases hkept <;> assumption

end Preserves

end

end ObjectMachine
