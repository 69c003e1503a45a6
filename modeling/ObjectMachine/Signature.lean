/-!
# Declared types

What a field, a parameter, a local variable or a result is declared to hold, and who may use a
declaration. Types are declared by name: the name of a primitive, the name of a class that is
already known, or a name that nothing answers to yet.
-/

namespace ObjectMachine

/-- The built-in types. -/
inductive Primitive where
  | int32 | int64 | float32 | float64 | bool | void | string | uint8
deriving DecidableEq, Repr

namespace Primitive

def all : List Primitive := [int32, int64, float32, float64, bool, void, string, uint8]

/-- The canonical name. -/
def name : Primitive → String
  | int32 => "int32" | int64 => "int64" | float32 => "float32" | float64 => "float64"
  | bool => "bool" | void => "void" | string => "string" | uint8 => "uint8"

/-- Every name that means the type, the canonical one first. -/
def spellings (p : Primitive) : List String :=
  p.name :: match p with
    | int32 => ["int", "System.Int32"]
    | int64 => ["long", "System.Int64"]
    | float32 => ["float", "System.Single"]
    | float64 => ["double", "System.Double"]
    | bool => ["System.Boolean"]
    | void => ["System.Void"]
    | string => ["System.String"]
    | uint8 => ["byte", "System.Byte"]

/-- The built-in type that a name means. -/
def ofName? (name : String) : Option Primitive := all.find? fun p => p.spellings.contains name

end Primitive

/-- The identity of a class: two classes are the same exactly if they have the same identity,
whatever their names are. -/
structure ClassId where
  stamp : Nat
deriving DecidableEq, Repr

/-- A class as other declarations mention it: its identity and its name. -/
structure ClassRef where
  id : ClassId
  name : String
deriving DecidableEq, Repr

/-- A declared type. -/
inductive TypeRef where
  | primitive (p : Primitive)
  | known (c : ClassRef)
  /-- A name that no class had when the declaration was made. -/
  | unresolved (name : String)
deriving DecidableEq, Repr

namespace TypeRef

/-- The type of a method without a result. -/
def void : TypeRef := .primitive .void

/-- The type that a name means when no class is known. -/
def named (name : String) : TypeRef :=
  match Primitive.ofName? name with
  | some p => .primitive p
  | none => .unresolved name

def name : TypeRef → String
  | .primitive p => p.name
  | .known c => c.name
  | .unresolved name => name

def isVoid : TypeRef → Bool
  | .primitive .void => true
  | _ => false

/-- Whether two declared types are the same; classes are compared by identity. -/
def same : TypeRef → TypeRef → Bool
  | .primitive p, .primitive q => p == q
  | .known c, .known d => c.id == d.id
  | .unresolved a, .unresolved b => a == b
  | _, _ => false

/-- The text that tells the three kinds of declared type apart. -/
def inspect : TypeRef → String
  | .primitive p => p.name
  | .known c => "class " ++ c.name
  | .unresolved name => "class " ++ name ++ " (unresolved)"

end TypeRef

/-- Who may use a declaration. -/
inductive Access where
  | everyone | declaringType | subclasses | sameModule
deriving DecidableEq, Repr

namespace Access

/-- The access that a byte encodes; an unknown byte grants access to everyone. -/
def ofByte (byte : UInt8) : Access :=
  if byte = 1 then declaringType
  else if byte = 2 then subclasses
  else if byte = 3 then sameModule
  else everyone

def label : Access → String
  | everyone => "Public" | declaringType => "Private"
  | subclasses => "Protected" | sameModule => "Internal"

end Access

/-- What a type declaration declares. -/
inductive TypeKind where
  | classType | interfaceType | structType | enumType
deriving DecidableEq, Repr

namespace TypeKind

/-- The kind that a byte encodes; an unknown byte means a class. -/
def ofByte (byte : UInt8) : TypeKind :=
  if byte = 1 then interfaceType
  else if byte = 2 then structType
  else if byte = 3 then enumType
  else classType

def label : TypeKind → String
  | classType => "Class" | interfaceType => "Interface"
  | structType => "Struct" | enumType => "Enum"

end TypeKind

end ObjectMachine
