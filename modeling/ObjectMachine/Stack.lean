import ObjectMachine.Fault
import ObjectMachine.Text.Quoted

/-!
# Operand stacks

A stack of values with a limit on its depth. An operation that fails leaves the stack as it was.
-/

namespace ObjectMachine

/-- Values, the bottom first, and how many there may be. -/
structure Stack where
  slots : Array Value
  limit : Nat
deriving DecidableEq, Repr

/-- An operation on a stack that may fail. -/
abbrev StackM := EStateM Fault Stack

namespace Stack

/-- The limit of a stack for which none is given. -/
def defaultLimit : Nat := 65536

def empty (limit : Nat) : Stack := ⟨#[], limit⟩

def depth (s : Stack) : Nat := s.slots.size

/-- The value on top. -/
def top? (s : Stack) : Option Value := s.slots.back?

def push (v : Value) : StackM Unit := fun s =>
  if s.slots.size < s.limit then .ok () { s with slots := s.slots.push v }
  else .error .stackOverflow s

/-- The value on top, which stays there. -/
def peek : StackM Value := fun s =>
  match s.slots.back? with
  | some v => .ok v s
  | none => .error .stackUnderflow s

def pop : StackM Value := fun s =>
  match s.slots.back? with
  | some v => .ok v { s with slots := s.slots.pop }
  | none => .error .stackUnderflow s

/-- Takes `n` values from the top, in the order in which they were pushed. -/
def popMany (n : Nat) : StackM (Array Value) := fun s =>
  if s.slots.size < n then .error .stackUnderflow s
  else
    let rest := s.slots.size - n
    .ok (s.slots.extract rest s.slots.size) { s with slots := s.slots.shrink rest }

/-! ## Laws -/

theorem push_of_lt {s : Stack} (v : Value) (h : s.depth < s.limit) :
    push v s = .ok () { s with slots := s.slots.push v } := if_pos h

theorem push_of_le {s : Stack} (v : Value) (h : s.limit ≤ s.depth) :
    push v s = .error .stackOverflow s := if_neg (Nat.not_lt.mpr h)

theorem popMany_of_lt {s : Stack} {n : Nat} (h : s.depth < n) :
    popMany n s = .error .stackUnderflow s := if_pos h

theorem popMany_of_le {s : Stack} {n : Nat} (h : n ≤ s.depth) :
    popMany n s = .ok (s.slots.extract (s.depth - n) s.depth)
      { s with slots := s.slots.shrink (s.depth - n) } := if_neg (Nat.not_lt.mpr h)

/-- What was pushed last is popped first. -/
theorem pop_push (slots : Array Value) (limit : Nat) (v : Value) :
    pop ⟨slots.push v, limit⟩ = .ok v ⟨slots, limit⟩ := by
  simp [pop]

/-- The topmost values come back in the order in which they were pushed. -/
theorem popMany_append (base values : Array Value) (limit : Nat) :
    popMany values.size ⟨base ++ values, limit⟩ = .ok values ⟨base, limit⟩ := by
  simp [popMany]

end Stack

end ObjectMachine
