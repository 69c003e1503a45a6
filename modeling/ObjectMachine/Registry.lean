import ObjectMachine.Class.Basic
import ObjectMachine.Fault

/-!
# Registered classes

Classes are registered one after the other and keep their index. Registration also lays down the
method table of the class, the enumeration of all its methods, which instructions address by number.
A name means the class that was registered under it last; a class may be registered several times.
-/

namespace ObjectMachine

/-- Classes by index and by name, with their method tables. -/
structure Registry where
  classes : Array Class := #[]
  tables : Array (Array Method) := #[]
  names : NameIndex := {}
deriving DecidableEq, Repr

namespace Registry

/-- How many registrations there were. -/
def size (r : Registry) : Nat := r.classes.size

/-- Registers a class under the next index. -/
def register (r : Registry) (c : Class) : Registry where
  classes := r.classes.push c
  tables := r.tables.push c.allMethods.toArray
  names := r.names.insert c.name r.classes.size

def class? (r : Registry) (index : Nat) : Option Class := r.classes[index]?

/-- The index that a name means. -/
def indexOf? (r : Registry) (name : String) : Option Nat := r.names.get? name

/-- The class that a name means. -/
def named? (r : Registry) (name : String) : Option Class := (r.indexOf? name).bind r.class?

/-- An index under which the very class is registered: the one that its name means if that is the
class itself, otherwise the first one. -/
def idOf? (r : Registry) (c : Class) : Option Nat :=
  let first := r.classes.findIdx? fun d => d.id == c.id
  match r.indexOf? c.name with
  | some i => if (r.class? i).any fun d => d.id == c.id then some i else first
  | none => first

/-- The class with an index, which has to exist. -/
def classAt (r : Registry) (index : Nat) : Except Fault Class :=
  match r.class? index with
  | some c => .ok c
  | none => .error (.outOfRange .classes index r.size)

def table? (r : Registry) (index : Nat) : Option (Array Method) := r.tables[index]?

/-- The method table of a class that has to exist. -/
def tableAt (r : Registry) (index : Nat) : Except Fault (Array Method) :=
  match r.table? index with
  | some table => .ok table
  | none => .error (.outOfRange .classes index r.size)

/-- An entry of the method table of a class; both have to exist. -/
def methodAt (r : Registry) (classIndex methodIndex : Nat) : Except Fault Method := do
  let table ← r.tableAt classIndex
  match table[methodIndex]? with
  | some m => pure m
  | none => .error (.outOfRange .methods methodIndex table.size)

/-- The method that a virtual call selects on an object of the class. The last entry of the method
table is the most derived one; a class without a table is searched itself. -/
def resolve? (r : Registry) (c : Class) (name : String) : Option Method :=
  match r.idOf? c with
  | some i => ((r.table? i).getD #[]).toList.reverse.find? fun m => m.name == name
  | none => c.method? name

/-- The type that a name means: a primitive, else the class registered under it, else a name that
stays unresolved. -/
def typeNamed (r : Registry) (name : String) : TypeRef :=
  match Primitive.ofName? name with
  | some p => .primitive p
  | none =>
    match r.named? name with
    | some c => .known c.ref
    | none => .unresolved name

end Registry

end ObjectMachine
