import ObjectMachine.Class.Method
import ObjectMachine.Text.Quoted

/-!
# Classes

A class is a declaration with an identity, together with the declarations of all its bases, the
nearest first. Looking up a member walks this chain from the class itself towards the root, so a
declaration of a subclass hides one of the same name further up. Enumerating members goes the other
way, from the root down, and leaves nothing out: that is the order of the slots of an object and of
the entries of a method table.
-/

namespace ObjectMachine

/-- What a class declares itself. -/
structure ClassDecl where
  name : String
  space : Option String := none
  kind : TypeKind := .classType
  access : Access := .everyone
  interfaces : List ClassRef := []
  fields : Members Field := {}
  methods : Members Method := {}
deriving DecidableEq, Repr

namespace ClassDecl

def addField (d : ClassDecl) (f : Field) : ClassDecl := { d with fields := d.fields.add f }

def addMethod (d : ClassDecl) (m : Method) : ClassDecl := { d with methods := d.methods.add m }

end ClassDecl

/-- A declaration with its identity: one link of an inheritance chain. -/
structure Link where
  id : ClassId
  decl : ClassDecl
deriving DecidableEq, Repr

/-- A class with all its bases, the nearest first. -/
structure Class where
  own : Link
  bases : List Link := []
deriving DecidableEq, Repr

namespace Class

def id (c : Class) : ClassId := c.own.id

def name (c : Class) : String := c.own.decl.name

/-- The class as other declarations mention it. -/
def ref (c : Class) : ClassRef := ⟨c.id, c.name⟩

/-- The chain from the class itself to its root. -/
def links (c : Class) : List Link := c.own :: c.bases

def base? (c : Class) : Option Class :=
  match c.bases with
  | [] => none
  | own :: bases => some ⟨own, bases⟩

/-- The class with the given declaration and identity that derives from a class, or from none. -/
def derive (id : ClassId) (decl : ClassDecl) (base : Option Class) : Class :=
  ⟨⟨id, decl⟩, base.elim [] links⟩

/-- Whether a class is the other one or derives from it, by identity. -/
def isSubclassOf (c other : Class) : Bool := c.links.any fun l => l.id == other.id

end Class

/-! ## Members along a chain -/

namespace Link

/-- All fields of a chain, those of the root first. -/
def fieldsOf (chain : List Link) : List Field :=
  chain.reverse.flatMap fun l => l.decl.fields.items.toList

/-- All methods of a chain, those of the root first. -/
def methodsOf (chain : List Link) : List Method :=
  chain.reverse.flatMap fun l => l.decl.methods.items.toList

/-- How many fields a chain declares. -/
def fieldCount : List Link → Nat
  | [] => 0
  | l :: rest => l.decl.fields.size + fieldCount rest

/-- The slot of the field that answers to a name: the fields of the bases come before a link's own
ones. -/
def fieldSlot? (name : String) : List Link → Option Nat
  | [] => none
  | l :: rest =>
    match l.decl.fields.slot? name with
    | some i => some (fieldCount rest + i)
    | none => fieldSlot? name rest

/-- The field that answers to a name. -/
def field? (name : String) (chain : List Link) : Option Field :=
  chain.findSome? fun l => l.decl.fields.find? name

/-- The method that answers to a name. -/
def method? (name : String) (chain : List Link) : Option Method :=
  chain.findSome? fun l => l.decl.methods.find? name

end Link

namespace Class

/-- All fields, those of the root first. -/
def allFields (c : Class) : List Field := Link.fieldsOf c.links

/-- All methods, those of the root first. -/
def allMethods (c : Class) : List Method := Link.methodsOf c.links

/-- How many slots an object of the class has. -/
def fieldCount (c : Class) : Nat := Link.fieldCount c.links

def fieldSlot? (c : Class) (name : String) : Option Nat := Link.fieldSlot? name c.links

def field? (c : Class) (name : String) : Option Field := Link.field? name c.links

def method? (c : Class) (name : String) : Option Method := Link.method? name c.links

/-- A short text of the class: its name, its base and the sizes of its own declarations. -/
def inspect (c : Class) : String :=
  let base :=
    match c.base? with
    | some b => "Some(" ++ Text.quoted b.name ++ ")"
    | none => "None"
  "Class \x7b name: " ++ Text.quoted c.name ++ ", base: " ++ base ++ ", fields: "
    ++ toString c.own.decl.fields.size ++ ", methods: " ++ toString c.own.decl.methods.size
    ++ " \x7d"

end Class

end ObjectMachine
