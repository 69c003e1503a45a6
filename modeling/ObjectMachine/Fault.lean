import ObjectMachine.Image.Fault
import ObjectMachine.Opcode
import ObjectMachine.Value.Basic

/-!
# Faults

Every way in which an operation of the machine can fail, as a cause with the facts that belong to
it. The wording is in one place, `Fault.message`.
-/

namespace ObjectMachine

/-- What an index that is out of range was meant to select. -/
inductive Indexed where
  | classes | methods | strings | constants | operands | arguments | locals
  | branchTarget | arrayElement | arrayLength | fieldSlot
deriving DecidableEq, Repr

def Indexed.label : Indexed → String
  | classes => "class" | methods => "method" | strings => "string" | constants => "constant"
  | operands => "operand" | arguments => "argument" | locals => "local"
  | branchTarget => "branch target" | arrayElement => "array element"
  | arrayLength => "array length" | fieldSlot => "field slot"

/-- A call of the class builder that does not fit the work in progress. -/
inductive Misuse where
  | noClass | noMethod | classOpen | methodOpen | hasNativeBody | hasInstructions | methodUnfinished
deriving DecidableEq, Repr

def Misuse.message : Misuse → String
  | noClass => "no class in progress"
  | noMethod => "no method in progress"
  | classOpen => "previous class not ended"
  | methodOpen => "previous method not ended"
  | hasNativeBody => "method already has a native body"
  | hasInstructions => "method already has instructions"
  | methodUnfinished => "method not ended"

/-- An operation applied to something of the wrong kind. -/
inductive Mismatch where
  | operands (op : ArithOp) (left right : Kind)
  | negation (operand : Kind)
  | ordering (left right : Kind)
  /-- A method with a native body was to be executed instruction by instruction. -/
  | noInstructions (method : String)
  | receiver (op : Opcode) (found : Kind)
  | array (op : Opcode) (found : Kind)
  | index (op : Opcode) (found : Kind)
  /-- A value, named by its class or by its kind, is no instance of the target class. -/
  | cast (found target : String)
  | receiverStore (found : Kind)
  | builder (cause : Misuse)
  /-- A native body refused its arguments, in its own words. -/
  | native (message : String)
deriving DecidableEq, Repr

def Mismatch.message : Mismatch → String
  | operands op left right =>
    "cannot apply '" ++ op.symbol ++ "' to " ++ left.name ++ " and " ++ right.name
  | negation operand => "cannot negate " ++ operand.name
  | ordering left right => "cannot order " ++ left.name ++ " and " ++ right.name
  | noInstructions method => "native method " ++ method ++ " has no instructions"
  | receiver op found => op.name ++ " expects an object receiver, got " ++ found.name
  | array op found => op.name ++ " expects an array, got " ++ found.name
  | index op found => op.name ++ " expects an integer index, got " ++ found.name
  | cast found target => "cannot cast " ++ found ++ " to " ++ target
  | receiverStore found => "cannot store " ++ found.name ++ " into receiver"
  | builder cause => "class builder: " ++ cause.message
  | native message => message

/-- Why an operation of the machine failed. -/
inductive Fault where
  | load (cause : LoadFault)
  | unknownOpcode (byte : UInt8)
  | stackUnderflow
  | stackOverflow
  | classNotFound (name : String)
  | methodNotFound (className method : String)
  | fieldNotFound (className field : String)
  | indexOutOfRange (what : Indexed) (index : Int) (length : Nat)
  | typeMismatch (cause : Mismatch)
  | divideByZero
  | recursionLimitExceeded (depth : Nat)
  | stepBudgetExceeded (budget : Nat)
deriving DecidableEq, Repr

/-- A byte as two hexadecimal digits. -/
def hexByte (byte : UInt8) : String :=
  String.ofList [Nat.digitChar (byte.toNat / 16), Nat.digitChar (byte.toNat % 16)]

namespace Fault

/-- The fault of an index beyond a table. An index is shown as a signed 64-bit word. -/
def outOfRange (what : Indexed) (index length : Nat) : Fault :=
  .indexOutOfRange what (Int.bmod index 18446744073709551616) length

def message : Fault → String
  | load cause => cause.message
  | unknownOpcode byte => "Unknown opcode: 0x" ++ hexByte byte
  | stackUnderflow => "Stack underflow"
  | stackOverflow => "Stack overflow"
  | classNotFound name => "Class not found: " ++ name
  | methodNotFound className method => "Method not found: " ++ className ++ "." ++ method
  | fieldNotFound className field => "Field not found: " ++ className ++ "." ++ field
  | indexOutOfRange what index length =>
    "Index out of range: " ++ what.label ++ s!" {index} (length {length})"
  | typeMismatch cause => "Type mismatch: " ++ cause.message
  | divideByZero => "Division by zero"
  | recursionLimitExceeded depth => s!"Recursion limit exceeded (max call depth {depth})"
  | stepBudgetExceeded budget => s!"Step budget exhausted after {budget} instructions"

end Fault

end ObjectMachine
