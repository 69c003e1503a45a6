import ObjectMachine.Image.Fault
import ObjectMachine.Text.Utf8

/-!
# Reading bytes

A cursor is a position in a byte sequence together with the bytes from there on. Each read takes the
bytes it needs or fails; the position after a failed read is where the bytes ran out.
-/

namespace ObjectMachine

/-- A position and the bytes from there on. -/
structure Cursor where
  position : Nat
  rest : List UInt8
deriving DecidableEq, Repr

/-- A read that may fail. -/
abbrev Read := EStateM ReadFault Cursor

namespace Cursor

/-- The beginning of a byte sequence. -/
def start (bytes : List UInt8) : Cursor := ⟨0, bytes⟩

/-- How many bytes are left. -/
def remaining (c : Cursor) : Nat := c.rest.length

def hasMore (c : Cursor) : Bool := !c.rest.isEmpty

/-- The cursor after some of the bytes. -/
def skip (c : Cursor) (n : Nat) : Cursor := ⟨c.position + n, c.rest.drop n⟩

end Cursor

namespace Read

def bytes (n : Nat) : Read (List UInt8) := fun c =>
  let taken := c.rest.take n
  if taken.length = n then .ok taken (c.skip n)
  else .error (.unexpectedEnd c.position n c.remaining) c

theorem bytes_append (position : Nat) (taken rest : List UInt8) :
    bytes taken.length ⟨position, taken ++ rest⟩
      = .ok taken ⟨position + taken.length, rest⟩ := by
  simp [bytes, Cursor.skip]

def byte : Read UInt8 := fun c =>
  match c.rest with
  | b :: _ => .ok b (c.skip 1)
  | [] => .error (.unexpectedEnd c.position 1 c.remaining) c

/-- The number that a byte sequence spells, the lowest byte first. -/
def littleEndian : List UInt8 → Nat
  | [] => 0
  | b :: rest => b.toNat + 256 * littleEndian rest

/-- A 32-bit word, the lowest byte first. -/
def word : Read UInt32 := do return .ofNat (littleEndian (← bytes 4))

/-- A text: a word with the number of its bytes, and the bytes. -/
def text : Read String := do
  let n ← word
  return Text.ofBytes (← bytes n.toNat)

/-- A text that ends with a NUL byte. -/
def terminated : Read String := fun c =>
  match c.rest.dropWhile (· != 0) with
  | [] => .error (.unterminated c.position) c
  | _ :: rest =>
    let taken := c.rest.takeWhile (· != 0)
    .ok (Text.ofBytes taken) ⟨c.position + taken.length + 1, rest⟩

/-- The same read a number of times. -/
def times {α : Type} (r : Read α) : Nat → Read (List α)
  | 0 => pure []
  | n + 1 => do
    let a ← r
    let as ← times r n
    return a :: as

/-- A word with a number of records, and the records. -/
def counted {α : Type} (r : Read α) : Read (List α) := do
  let n ← word
  times r n.toNat

end Read

end ObjectMachine
