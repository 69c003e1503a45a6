import ObjectMachine.Class.Members
import ObjectMachine.Instruction
import ObjectMachine.Signature

/-!
# Fields and methods

The declarations that make up a class. A method either consists of instructions or has a native
body, which the host of the machine provides under a name.
-/

namespace ObjectMachine

structure Field where
  name : String
  type : TypeRef
  access : Access := .everyone
deriving DecidableEq, Repr

/-- A declared parameter or local variable. -/
structure Variable where
  name : String
  type : TypeRef
deriving DecidableEq, Repr

/-- What a method does. -/
inductive Body where
  | interpreted (code : Array Instruction)
  | native (name : String)
deriving DecidableEq, Repr

namespace Body

def isNative : Body → Bool
  | native _ => true
  | interpreted _ => false

def inspect : Body → String
  | native _ => "Native(..)"
  | interpreted code => "Interpreted(" ++ toString code.size ++ " instructions)"

end Body

structure Method where
  name : String
  returns : TypeRef := .void
  parameters : List Variable := []
  locals : List Variable := []
  body : Body
  access : Access := .everyone
deriving DecidableEq, Repr

namespace Method

/-- How many arguments a call passes, the receiver apart. -/
def arity (m : Method) : Nat := m.parameters.length

/-- The method that runs instructions. -/
def interpreted (name : String) (returns : TypeRef) (parameters locals : List Variable)
    (code : Array Instruction) (access : Access) : Method :=
  { name, returns, parameters, locals, body := .interpreted code, access }

/-- The method that the host provides; it needs no local variables. -/
def native (name : String) (returns : TypeRef) (parameters : List Variable) (body : String)
    (access : Access) : Method :=
  { name, returns, parameters, body := .native body, access }

end Method

instance : Named Field := ⟨Field.name⟩

instance : Named Method := ⟨Method.name⟩

end ObjectMachine
