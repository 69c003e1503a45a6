import ObjectMachine.Fault

/-!
# Arithmetic and comparison of values

Two numbers are combined at the wider of their kinds: integers below floating-point numbers, 32 bits
below 64. Integers are combined exactly and the result is brought into range; floating-point
operands are widened to 64 bits, combined, and narrowed again if both were narrow or whole.

Numbers are compared by their value across kinds, everything else only with its own kind: null with
null, truth values, strings by content, references by what they refer to. A floating-point word that
denotes no number is neither equal to, nor below, nor above anything.
-/

namespace ObjectMachine

open Floating (Double)

/-- The two widths of each sort of number. -/
inductive Width where
  | narrow | wide
deriving DecidableEq, Repr

def Width.max : Width → Width → Width
  | narrow, narrow => narrow
  | _, _ => wide

/-- A number, without the limits of the kind it came from. -/
inductive Number where
  | whole (width : Width) (n : Int)
  | real (width : Width) (x : Double)
deriving DecidableEq, Repr

namespace Number

/-- The number as a 64-bit floating-point word. -/
def toDouble : Number → Double
  | whole _ n => .ofInt n
  | real _ x => x

/-- The number as a value of its kind: integers are brought into range, floating-point numbers are
rounded. -/
def toValue : Number → Value
  | whole .narrow n => .int32 (saturate32 n)
  | whole .wide n => .int64 (saturate64 n)
  | real .narrow x => .float32 x.toSingle
  | real .wide x => .float64 x

end Number

def Value.number? : Value → Option Number
  | .int32 n => some (.whole .narrow n.toInt)
  | .int64 n => some (.whole .wide n.toInt)
  | .float32 x => some (.real .narrow (.ofSingle x))
  | .float64 x => some (.real .wide x)
  | _ => none

namespace ArithOp

/-- The exact result on whole numbers; a quotient is truncated toward zero. -/
def onInts : ArithOp → Int → Int → Except Fault Int
  | add, a, b => .ok (a + b)
  | sub, a, b => .ok (a - b)
  | mul, a, b => .ok (a * b)
  | div, a, b => if b = 0 then .error .divideByZero else .ok (a.tdiv b)
  | rem, a, b => if b = 0 then .error .divideByZero else .ok (a.tmod b)

/-- The rounded result on floating-point numbers. -/
def onDoubles : ArithOp → Double → Double → Double
  | add => Double.add
  | sub => Double.sub
  | mul => Double.mul
  | div => Double.div
  | rem => Double.rem

/-- The result on numbers, at the wider of their kinds. -/
def onNumbers (op : ArithOp) : Number → Number → Except Fault Number
  | .whole v a, .whole w b => (op.onInts a b).map (.whole (v.max w))
  | .real v x, .real w y => .ok (.real (v.max w) (op.onDoubles x y))
  | .real v x, b => .ok (.real v (op.onDoubles x b.toDouble))
  | a, .real w y => .ok (.real w (op.onDoubles a.toDouble y))

end ArithOp

namespace Value

/-- The result of a binary operator. -/
def arith (op : ArithOp) (a b : Value) : Except Fault Value :=
  match a.number?, b.number? with
  | some x, some y => (op.onNumbers x y).map Number.toValue
  | _, _ => .error (.typeMismatch (.operands op a.kind b.kind))

/-- The number with the other sign, brought into range. -/
def neg : Value → Except Fault Value
  | int32 n => .ok (.int32 (saturate32 (-n.toInt)))
  | int64 n => .ok (.int64 (saturate64 (-n.toInt)))
  | float32 x => .ok (.float32 x.neg)
  | float64 x => .ok (.float64 x.neg)
  | other => .error (.typeMismatch (.negation other.kind))

/-- Any number as a 64-bit floating-point word. -/
def toDouble? (v : Value) : Option Double := v.number?.map Number.toDouble

end Value

/-! ## Comparison -/

/-- The order of two numbers: whole numbers exactly, otherwise as 64-bit floating-point words. -/
def Number.compare? : Number → Number → Option Ordering
  | .whole _ a, .whole _ b => some (Ord.compare a b)
  | a, b => a.toDouble.compare? b.toDouble

namespace Value

/-- Equality as programs see it. -/
def looseEq (a b : Value) : Bool :=
  match a.number?, b.number? with
  | some x, some y => x.compare? y == some .eq
  | _, _ =>
    match a, b with
    | null, null => true
    | bool p, bool q => p == q
    | string s, string t => s == t
    | object r, object s => r == s
    | array r, array s => r == s
    | _, _ => false

/-- Equality of values of the same kind. -/
def strictEq (a b : Value) : Bool := a.kind == b.kind && a.looseEq b

/-- Whether a comparison holds; only numbers have an order. -/
def compare (op : CompareOp) (a b : Value) : Except Fault Bool :=
  match op with
  | .eq => .ok (a.looseEq b)
  | .ne => .ok (!a.looseEq b)
  | _ =>
    match a.number?, b.number? with
    | some x, some y => .ok ((x.compare? y).elim false op.holds)
    | _, _ => .error (.typeMismatch (.ordering a.kind b.kind))

end Value

end ObjectMachine
