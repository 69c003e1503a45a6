import ObjectMachine.Instruction
import ObjectMachine.Text.Utf8

/-!
# Images

An image describes classes, strings and constants by records of bytes and words. The records refer
to strings and to classes by index; what the indices mean is settled when the image is linked.
-/

namespace ObjectMachine

/-- A field: indices of its name and of the name of its type. -/
structure FieldRecord where
  name : UInt32
  type : UInt32
  access : UInt8
  flags : UInt8
deriving DecidableEq, Repr

/-- A parameter or a local variable. -/
structure VariableRecord where
  name : UInt32
  type : UInt32
deriving DecidableEq, Repr

structure MethodRecord where
  name : UInt32
  returns : UInt32
  access : UInt8
  flags : UInt8
  parameters : List VariableRecord
  locals : List VariableRecord
  code : List Instruction
deriving DecidableEq, Repr

/-- A class. -/
structure TypeRecord where
  kind : UInt8
  name : UInt32
  space : UInt32
  access : UInt8
  flags : UInt8
  base : UInt32
  interfaces : List UInt32
  fields : List FieldRecord
  methods : List MethodRecord
deriving DecidableEq, Repr

/-- The index of the base class; the least and the greatest word mean that there is none. -/
def TypeRecord.base? (t : TypeRecord) : Option UInt32 :=
  if t.base = 0 ∨ t.base = 0xffffffff then none else some t.base

/-- A constant: a tag for its kind, and its spelling. -/
structure ConstantRecord where
  tag : UInt8
  bytes : List UInt8
deriving DecidableEq, Repr

def ConstantRecord.text (c : ConstantRecord) : String := Text.ofBytes c.bytes

/-- What an image says about itself. -/
structure Header where
  forkName : String
  fileSize : UInt32
  entryPoint : UInt32
deriving DecidableEq, Repr

/-- A decoded image. -/
structure Image where
  header : Header
  strings : List String := []
  types : List TypeRecord := []
  constants : List ConstantRecord := []
deriving DecidableEq, Repr

end ObjectMachine
