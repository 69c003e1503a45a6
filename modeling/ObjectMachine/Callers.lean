import ObjectMachine.Frame

/-!
# Waiting frames

The frames that wait for the result of a call, together with their number, so that comparing the
depth of calls with a limit takes the same time at every depth. The number is part of the type: it
is always the length of the list (`count_eq`), and the list alone determines the rest
(`eq_of_frames`).
-/

namespace ObjectMachine

/-- The frames that wait for a result, the innermost first, and how many there are. -/
structure Callers where
  frames : List Frame
  count : Nat
  count_eq : count = frames.length
deriving DecidableEq, Repr

namespace Callers

/-- The given frames, the innermost first. -/
def ofList (frames : List Frame) : Callers := ⟨frames, frames.length, rfl⟩

def empty : Callers := ofList []

/-- One more frame waits, for the result of a call that it makes. -/
def push (f : Frame) (cs : Callers) : Callers :=
  ⟨f :: cs.frames, cs.count + 1, by rw [List.length_cons, cs.count_eq]⟩

/-- The innermost frame, and those that wait for it. -/
def pop? : Callers → Option (Frame × Callers)
  | ⟨[], _, _⟩ => none
  | ⟨f :: rest, n, h⟩ => some (f, ⟨rest, n - 1, by rw [h, List.length_cons, Nat.add_sub_cancel]⟩)

/-! ## Laws -/

theorem eq_of_frames {a b : Callers} (h : a.frames = b.frames) : a = b := by
  obtain ⟨frames, n, hn⟩ := a
  obtain ⟨_, k, hk⟩ := b
  subst h hn hk
  rfl

@[simp]
theorem frames_push (f : Frame) (cs : Callers) : (cs.push f).frames = f :: cs.frames := rfl

theorem pop?_push (f : Frame) (cs : Callers) : (cs.push f).pop? = some (f, cs) := rfl

end Callers

end ObjectMachine
