/-!
# Opcodes and operators

The forty-three operations of the instruction set. Their bytes run from 0 upwards in the order of
`Opcode.all`; a byte beyond the last one is no opcode. The binary operators stand here apart from
the values that they apply to.
-/

namespace ObjectMachine

/-- The operation that an instruction names. -/
inductive Opcode where
  | nop | dup | pop
  | ldArg | ldLoc | ldFld | ldCon | ldStr
  | ldI4 | ldI8 | ldR4 | ldR8
  | ldTrue | ldFalse | ldNull
  | stLoc | stFld | stArg
  | add | sub | mul | div | rem | neg
  | ceq | cne | clt | cle | cgt | cge
  | ret | br | brTrue | brFalse
  | newObj | call | callVirt | castClass | isInst
  | newArr | ldElem | stElem | ldLen
deriving DecidableEq, Repr

namespace Opcode

/-- All opcodes, in the order of their bytes. -/
def all : Array Opcode :=
  #[nop, dup, pop, ldArg, ldLoc, ldFld, ldCon, ldStr, ldI4, ldI8, ldR4, ldR8, ldTrue, ldFalse,
    ldNull, stLoc, stFld, stArg, add, sub, mul, div, rem, neg, ceq, cne, clt, cle, cgt, cge, ret,
    br, brTrue, brFalse, newObj, call, callVirt, castClass, isInst, newArr, ldElem, stElem, ldLen]

/-- The opcode that a byte encodes. -/
def ofByte? (byte : UInt8) : Option Opcode := all[byte.toNat]?

def toByte : Opcode → UInt8
  | nop => 0 | dup => 1 | pop => 2
  | ldArg => 3 | ldLoc => 4 | ldFld => 5 | ldCon => 6 | ldStr => 7
  | ldI4 => 8 | ldI8 => 9 | ldR4 => 10 | ldR8 => 11
  | ldTrue => 12 | ldFalse => 13 | ldNull => 14
  | stLoc => 15 | stFld => 16 | stArg => 17
  | add => 18 | sub => 19 | mul => 20 | div => 21 | rem => 22 | neg => 23
  | ceq => 24 | cne => 25 | clt => 26 | cle => 27 | cgt => 28 | cge => 29
  | ret => 30 | br => 31 | brTrue => 32 | brFalse => 33
  | newObj => 34 | call => 35 | callVirt => 36 | castClass => 37 | isInst => 38
  | newArr => 39 | ldElem => 40 | stElem => 41 | ldLen => 42

def name : Opcode → String
  | nop => "nop" | dup => "dup" | pop => "pop"
  | ldArg => "ldarg" | ldLoc => "ldloc" | ldFld => "ldfld" | ldCon => "ldcon" | ldStr => "ldstr"
  | ldI4 => "ldc.i4" | ldI8 => "ldc.i8" | ldR4 => "ldc.r4" | ldR8 => "ldc.r8"
  | ldTrue => "ldtrue" | ldFalse => "ldfalse" | ldNull => "ldnull"
  | stLoc => "stloc" | stFld => "stfld" | stArg => "starg"
  | add => "add" | sub => "sub" | mul => "mul" | div => "div" | rem => "rem" | neg => "neg"
  | ceq => "ceq" | cne => "cne" | clt => "clt" | cle => "cle" | cgt => "cgt" | cge => "cge"
  | ret => "ret" | br => "br" | brTrue => "brtrue" | brFalse => "brfalse"
  | newObj => "newobj" | call => "call" | callVirt => "callvirt"
  | castClass => "castclass" | isInst => "isinst"
  | newArr => "newarr" | ldElem => "ldelem" | stElem => "stelem" | ldLen => "ldlen"

/-- An opcode that may continue at its operand instead of the next instruction. -/
def isBranch : Opcode → Bool
  | br | brTrue | brFalse => true
  | _ => false

/-- An opcode that calls a method. -/
def isCall : Opcode → Bool
  | call | callVirt => true
  | _ => false

end Opcode

/-! ## Binary operators -/

inductive ArithOp where
  | add | sub | mul | div | rem
deriving DecidableEq, Repr

def ArithOp.symbol : ArithOp → String
  | add => "+" | sub => "-" | mul => "*" | div => "/" | rem => "%"

inductive CompareOp where
  | eq | ne | lt | le | gt | ge
deriving DecidableEq, Repr

/-- Whether an order of the operands satisfies the comparison. -/
def CompareOp.holds : CompareOp → Ordering → Bool
  | eq, o => o.isEq
  | ne, o => !o.isEq
  | lt, o => o.isLT
  | le, o => o.isLE
  | gt, o => o.isGT
  | ge, o => o.isGE

end ObjectMachine
