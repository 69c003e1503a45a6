import ObjectMachine.Image.Decode
import ObjectMachine.Machine.Basic
import ObjectMachine.Text.Numeral

/-!
# Linking an image

The types of an image become classes in the order of the image. A type can only derive from one that
stands before it, and a type name means a primitive, a class that stands before, or nothing yet.
Every index of a string has to be in range, except that of a namespace; interfaces that are not
there yet are left out.

The constants of an image are spelled as text with a tag for the kind. Blanks around the text do not
count, except in a string. A spelling that does not fit its tag, or an unknown tag, stands for null.
-/

namespace ObjectMachine

/-! ## Constants -/

namespace ConstantRecord

/-- The 64-bit integer that a text spells; none if it is out of range. -/
def int64? (text : List Char) : Option Int64 :=
  (Text.readInt? text).bind fun n =>
    if least64 ≤ n ∧ n ≤ greatest64 then some (.ofInt n) else none

/-- The 32-bit integer nearest to what a text spells, be it a whole number or a decimal. -/
def int32? (text : List Char) : Option Value :=
  match int64? text with
  | some n => some (.ofInt n.toInt)
  | none => (Floating.Double.read? text).map .ofDouble

/-- The truth value that a text spells. -/
def bool? (text : List Char) : Option Bool :=
  let word := String.ofList text
  if word = "1" ∨ word = "true" ∨ word = "True" then some true
  else if word = "0" ∨ word = "false" ∨ word = "False" then some false
  else none

/-- The value that a constant record stands for. -/
def value (c : ConstantRecord) : Value :=
  let text := Text.trim c.text.toList
  let found : Option Value :=
    if c.tag = 1 then int32? text
    else if c.tag = 2 then (int64? text).map .int64
    else if c.tag = 3 then (Floating.Single.read? text).map .float32
    else if c.tag = 4 then (Floating.Double.read? text).map .float64
    else if c.tag = 5 then (bool? text).map .bool
    else if c.tag = 6 then some (.string c.text)
    else none
  found.getD .null

end ConstantRecord

/-! ## Types -/

namespace Program

/-- The string that an index of an image means. -/
def nameAt (p : Program) (index : UInt32) : Except Fault String := p.stringAt index.toNat

/-- The type whose name an index of an image means. -/
def typeAt (p : Program) (index : UInt32) : Except Fault TypeRef := do
  return p.registry.typeNamed (← p.nameAt index)

def linkField (p : Program) (r : FieldRecord) : Except Fault Field := do
  let name ← p.nameAt r.name
  let type ← p.typeAt r.type
  return { name, type, access := .ofByte r.access }

def linkVariable (p : Program) (r : VariableRecord) : Except Fault Variable := do
  let name ← p.nameAt r.name
  let type ← p.typeAt r.type
  return { name, type }

def linkMethod (p : Program) (r : MethodRecord) : Except Fault Method := do
  let name ← p.nameAt r.name
  let returns ← p.typeAt r.returns
  let parameters ← r.parameters.mapM p.linkVariable
  let locals ← r.locals.mapM p.linkVariable
  return .interpreted name returns parameters locals r.code.toArray (.ofByte r.access)

def linkBase (p : Program) (r : TypeRecord) : Except Fault (Option Class) :=
  match r.base? with
  | some index => some <$> p.registry.classAt index.toNat
  | none => pure none

def linkSpace (p : Program) (r : TypeRecord) : Option String :=
  p.strings[r.space.toNat]?.filter (· != "")

def linkInterfaces (p : Program) (r : TypeRecord) : List ClassRef :=
  r.interfaces.filterMap fun index => (p.registry.class? index.toNat).map Class.ref

/-- The declaration and the base class of a record. -/
def linkType (p : Program) (r : TypeRecord) : Except Fault (ClassDecl × Option Class) := do
  let name ← p.nameAt r.name
  let base ← p.linkBase r
  let fields ← r.fields.mapM p.linkField
  let methods ← r.methods.mapM p.linkMethod
  return (
    { name, space := p.linkSpace r, kind := .ofByte r.kind, access := .ofByte r.access,
      interfaces := p.linkInterfaces r, fields := .ofList fields, methods := .ofList methods },
    base)

end Program

namespace Machine

/-- Registers the class of a type record. -/
def linkType (m : Machine) (r : TypeRecord) : Except Fault Machine := do
  let (decl, base) ← m.program.linkType r
  return (m.install decl base).2

/-- Fills a machine with the strings, classes and constants of an image. The entry point counts only
if it is a class of the image. -/
def link (m : Machine) (image : Image) : Except Fault Machine := do
  let m := { m with program := { m.program with strings := image.strings.toArray } }
  let m ← image.types.foldlM linkType m
  let entry := image.header.entryPoint.toNat
  return { m with
    program := { m.program with
      constants := (image.constants.map ConstantRecord.value).toArray }
    entryPoint := if entry < m.registry.size then some entry else none }

/-- The machine of an image. -/
def ofImage (image : Image) (limits : Limits) (host : Host) : Except Fault Machine :=
  (empty limits host).link image

/-- The machine of an encoded image. -/
def load (data : List UInt8) (limits : Limits) (host : Host) : Except Fault Machine := do
  match Image.decode data with
  | .ok image => ofImage image limits host
  | .error e => throw (.load e)

end Machine

end ObjectMachine
