import ObjectMachine.Program

/-!
# What an instruction does

An instruction is executed in two stages. First its operands are looked up in the program, which
gives an action that no longer contains numbers to look up; every fault of this stage leaves the
frame alone. Then the action is performed. The forty-three opcodes come down to two dozen actions:
all loads of constants, for instance, push a known value.
-/

namespace ObjectMachine

/-- An instruction whose operands have been looked up. -/
inductive Action where
  | skip
  | duplicate
  | discard
  | push (v : Value)
  | loadArgument (i : Nat)
  | storeArgument (i : Nat)
  | loadLocal (i : Nat)
  | storeLocal (i : Nat)
  | arith (op : ArithOp)
  | negate
  | compare (op : CompareOp)
  | ret
  /-- Continues at the target: always, or if the top value counts as the given truth value. -/
  | branch (condition : Option Bool) (target : Nat)
  | create (c : Class)
  | loadField (name : String)
  | storeField (name : String)
  | call (m : Method)
  | callVirtual (m : Method)
  | cast (c : Class)
  | testClass (c : Class)
  | createArray
  | loadElement
  | storeElement
  | arrayLength
deriving DecidableEq, Repr

namespace Instruction

/-- An operand, which has to exist. -/
def operand (i : Instruction) (n : Nat) : Except Fault Nat :=
  match i.operands[n]? with
  | some w => .ok w.toNat
  | none => .error (.outOfRange .operands n i.operands.length)

/-- The 64-bit immediate. -/
def wideOperand (i : Instruction) : Except Fault UInt64 := do
  let low ← i.operand 0
  pure (wideBits (.ofNat low) i.operands[1]?)

/-- The target of a branch, which has to be a position in the code or its end. -/
def target (i : Instruction) (codeSize : Nat) : Except Fault Nat := do
  let t ← i.operand 0
  if t ≤ codeSize then pure t else .error (.outOfRange .branchTarget t codeSize)

def classOperand (i : Instruction) (p : Program) : Except Fault Class := do
  p.registry.classAt (← i.operand 0)

def stringOperand (i : Instruction) (p : Program) : Except Fault String := do
  p.stringAt (← i.operand 0)

/-- The method that the two operands name: its place in the method table of a class. -/
def methodOperand (i : Instruction) (p : Program) : Except Fault Method := do
  let m ← i.operand 0
  let c ← i.operand 1
  p.registry.methodAt c m

/-- The action of an instruction with a known opcode in code of a given size. -/
def actionOf (i : Instruction) (p : Program) (codeSize : Nat) : Opcode → Except Fault Action
  | .nop => pure .skip
  | .dup => pure .duplicate
  | .pop => pure .discard
  | .ldArg => .loadArgument <$> i.operand 0
  | .ldLoc => .loadLocal <$> i.operand 0
  | .ldFld => .loadField <$> i.stringOperand p
  | .ldCon => do return .push (← p.constantAt (← i.operand 0))
  | .ldStr => do return .push (.string (← i.stringOperand p))
  | .ldI4 => do return .push (.int32 (UInt32.ofNat (← i.operand 0)).toInt32)
  | .ldI8 => do return .push (.int64 (← i.wideOperand).toInt64)
  | .ldR4 => do return .push (.float32 ⟨.ofNat (← i.operand 0)⟩)
  | .ldR8 => do return .push (.float64 ⟨← i.wideOperand⟩)
  | .ldTrue => pure (.push (.bool true))
  | .ldFalse => pure (.push (.bool false))
  | .ldNull => pure (.push .null)
  | .stLoc => .storeLocal <$> i.operand 0
  | .stFld => .storeField <$> i.stringOperand p
  | .stArg => .storeArgument <$> i.operand 0
  | .add => pure (.arith .add)
  | .sub => pure (.arith .sub)
  | .mul => pure (.arith .mul)
  | .div => pure (.arith .div)
  | .rem => pure (.arith .rem)
  | .neg => pure .negate
  | .ceq => pure (.compare .eq)
  | .cne => pure (.compare .ne)
  | .clt => pure (.compare .lt)
  | .cle => pure (.compare .le)
  | .cgt => pure (.compare .gt)
  | .cge => pure (.compare .ge)
  | .ret => pure .ret
  | .br => .branch none <$> i.target codeSize
  | .brTrue => .branch (some true) <$> i.target codeSize
  | .brFalse => .branch (some false) <$> i.target codeSize
  | .newObj => .create <$> i.classOperand p
  | .call => .call <$> i.methodOperand p
  | .callVirt => .callVirtual <$> i.methodOperand p
  | .castClass => .cast <$> i.classOperand p
  | .isInst => .testClass <$> i.classOperand p
  | .newArr => pure .createArray
  | .ldElem => pure .loadElement
  | .stElem => pure .storeElement
  | .ldLen => pure .arrayLength

/-- The action of an instruction. -/
def action (i : Instruction) (p : Program) (codeSize : Nat) : Except Fault Action :=
  match i.opcode? with
  | some op => i.actionOf p codeSize op
  | none => .error (.unknownOpcode i.opcode)

end Instruction

end ObjectMachine
