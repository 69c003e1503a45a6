import ObjectMachine.Floating.Arithmetic
import ObjectMachine.Opcode

/-!
# Instructions

An instruction is an opcode byte with operand words. The byte stays as it is stored, because a
byte that is no opcode is a fault of the program that executes it, not of the image that holds it.

A 64-bit immediate is stored as two operands, the low word first; a single operand stands for the
number with that word as its sign-extended low half (`wideBits`).
-/

namespace ObjectMachine

open Floating (Single Double)

/-- An opcode byte and its operands. -/
structure Instruction where
  opcode : UInt8
  operands : List UInt32
deriving DecidableEq, Repr

namespace Instruction

/-- The instruction with a known opcode. -/
def of (op : Opcode) (operands : List UInt32) : Instruction := ⟨op.toByte, operands⟩

/-- The known opcode, if the byte is one. -/
def opcode? (i : Instruction) : Option Opcode := Opcode.ofByte? i.opcode

/-- The two operands of a 64-bit immediate. -/
def wideOperands (bits : UInt64) : List UInt32 := [bits.toUInt32, (bits >>> 32).toUInt32]

/-- The 64-bit immediate of one or two operands. -/
def wideBits (low : UInt32) : Option UInt32 → UInt64
  | some high => (high.toUInt64 <<< 32) ||| low.toUInt64
  | none => low.toInt32.toInt64.toUInt64

def loadInt32 (n : Int32) : Instruction := of .ldI4 [n.toUInt32]

def loadInt64 (n : Int64) : Instruction := of .ldI8 (wideOperands n.toUInt64)

def loadSingle (x : Single) : Instruction := of .ldR4 [x.bits]

def loadDouble (x : Double) : Instruction := of .ldR8 (wideOperands x.bits)

end Instruction

end ObjectMachine
