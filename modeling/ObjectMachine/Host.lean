import ObjectMachine.Program
import ObjectMachine.Value.Arithmetic

/-!
# A host with a few native bodies

Small native bodies that show what a host can do: compute with the arguments, look at the receiver,
change a field of it, or fail.
-/

namespace ObjectMachine

namespace Host

/-- Fails with words of its own. -/
def refuse {α : Type} (message : String) : HeapM α := throw (.typeMismatch (.native message))

/-- The outcome of a computation without effects. -/
def outcome {α : Type} : Except Fault α → HeapM α
  | .ok a => pure a
  | .error e => throw e

/-- The difference of the first two arguments. -/
def sub : Native := fun _ arguments =>
  match arguments[0]?, arguments[1]? with
  | some a, some b => outcome (a.arith .sub b)
  | _, _ => refuse "sub needs two arguments"

/-- The number of arguments. -/
def count : Native := fun _ arguments => pure (.ofInt arguments.size)

def last : Native := fun _ arguments => pure (arguments.back?.getD .null)

def receiver : Native := fun r _ => pure ((r.map Value.object).getD .null)

def fail : Native := fun _ _ => refuse "native failure"

/-- Adds the first argument, or one, to the field `count` of the receiver, where null counts as
zero; the answer is the sum. -/
def bump : Native := fun r arguments => do
  match r with
  | none => refuse "no receiver"
  | some r =>
    let field := "count"
    let old ← outcome ((← get).getField r field)
    let old := if old = .null then .ofInt 0 else old
    let new ← outcome (old.arith .add (arguments[0]?.getD (.ofInt 1)))
    Heap.setField r field new
    return new

/-- The host with these bodies; any other name fails. -/
def basic : Host where
  native
    | "sub" => sub
    | "count" => count
    | "last" => last
    | "receiver" => receiver
    | "fail" => fail
    | "bump" => bump
    | name => fun _ _ => refuse ("no native body " ++ name)

end Host

end ObjectMachine
