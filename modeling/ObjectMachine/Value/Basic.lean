import ObjectMachine.Floating.Arithmetic

/-!
# Values

What a variable, a field or an array element can hold. Numbers, truth values and strings are values
themselves; objects and arrays live in a heap and a value only refers to them, so two references are
equal exactly if they refer to the same object or array.
-/

namespace ObjectMachine

open Floating (Single Double)

/-- The place of an object in the heap. -/
structure ObjectRef where
  index : Nat
deriving DecidableEq, Repr

/-- The place of an array in the heap. -/
structure ArrayRef where
  index : Nat
deriving DecidableEq, Repr

/-- A value of the machine. -/
inductive Value where
  | null
  | int32 (n : Int32)
  | int64 (n : Int64)
  | float32 (x : Single)
  | float64 (x : Double)
  | bool (b : Bool)
  | string (s : String)
  | object (r : ObjectRef)
  | array (r : ArrayRef)
deriving DecidableEq, Repr

instance : Inhabited Value := ⟨.null⟩

inductive Kind where
  | null | int32 | int64 | float32 | float64 | bool | string | object | array
deriving DecidableEq, Repr

def Kind.name : Kind → String
  | null => "null" | int32 => "int32" | int64 => "int64" | float32 => "float32"
  | float64 => "float64" | bool => "bool" | string => "string" | object => "object"
  | array => "array"

/-- The least whole number that 32 signed bits hold. -/
def least32 : Int := -2147483648

def greatest32 : Int := 2147483647

def least64 : Int := -9223372036854775808

def greatest64 : Int := 9223372036854775807

/-- The whole number nearest to `n` that 32 signed bits hold. -/
def saturate32 (n : Int) : Int32 := Int32.ofInt (max least32 (min greatest32 n))

def saturate64 (n : Int) : Int64 := Int64.ofInt (max least64 (min greatest64 n))

namespace Value

def kind : Value → Kind
  | null => .null
  | int32 _ => .int32
  | int64 _ => .int64
  | float32 _ => .float32
  | float64 _ => .float64
  | bool _ => .bool
  | string _ => .string
  | object _ => .object
  | array _ => .array

/-- The 32-bit integer nearest to a whole number. -/
def ofInt (n : Int) : Value := .int32 (saturate32 n)

/-- The 32-bit integer nearest to the whole part of a floating-point number. -/
def ofDouble (x : Double) : Value :=
  .int32 (Int32.ofInt (x.truncateInto least32 greatest32))

/-- Whether a conditional branch counts the value as true. Null and the numbers equal to zero do
not count as true. -/
def isTruthy : Value → Bool
  | null => false
  | int32 n => n != 0
  | int64 n => n != 0
  | float32 x => x.isNonzero
  | float64 x => x.isNonzero
  | bool b => b
  | string _ | object _ | array _ => true

/-- An integer as an index or a length. -/
def toIndex? : Value → Option Int
  | int32 n => some n.toInt
  | int64 n => some n.toInt
  | _ => none

def toObject? : Value → Option ObjectRef
  | object r => some r
  | _ => none

def toArray? : Value → Option ArrayRef
  | array r => some r
  | _ => none

end Value

end ObjectMachine
