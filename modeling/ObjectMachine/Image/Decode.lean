import ObjectMachine.Image.Cursor
import ObjectMachine.Image.Record

/-!
# Decoding images

An image is a header and a table of sections, each with a name, a size and as many bytes. The header
gives the size of the table. The table ends there, at the end of the bytes, or at a section without
a name. Sections with strings, types and constants add to what earlier ones said; sections of any
other name are skipped, and so are bytes of a section after its records.

Whether the first bytes belong to an image at all is decided before the table is read, so after the
header the only fault is that bytes run out.
-/

namespace ObjectMachine

namespace Read

def field : Read FieldRecord := do
  let name ← word
  let type ← word
  let access ← byte
  let flags ← byte
  return { name, type, access, flags }

def variableRecord : Read VariableRecord := do
  let name ← word
  let type ← word
  return { name, type }

/-- An instruction: its opcode, the number of its operands and the operands. -/
def instruction : Read Instruction := do
  let opcode ← byte
  let n ← byte
  let operands ← times word n.toNat
  return { opcode, operands }

def method : Read MethodRecord := do
  let name ← word
  let returns ← word
  let access ← byte
  let flags ← byte
  let parameters ← counted variableRecord
  let locals ← counted variableRecord
  let code ← counted instruction
  return { name, returns, access, flags, parameters, locals, code }

def typeRecord : Read TypeRecord := do
  let kind ← byte
  let name ← word
  let space ← word
  let access ← byte
  let flags ← byte
  let base ← word
  let interfaces ← counted word
  let fields ← counted field
  let methods ← counted method
  return { kind, name, space, access, flags, base, interfaces, fields, methods }

def constant : Read ConstantRecord := do
  let tag ← byte
  let n ← word
  return { tag, bytes := ← bytes n.toNat }

/-- Reads something from a byte sequence of its own, whose positions count from its beginning. -/
def within {α : Type} (payload : List UInt8) (r : Read α) : Read α := fun c =>
  match r (.start payload) with
  | .ok a _ => .ok a c
  | .error e _ => .error e c

end Read

namespace Image

open Read

/-- Adds the records of a section to an image. -/
def addSection (image : Image) (name : String) (payload : List UInt8) : Read Image := do
  if name = ".strings" then
    let records ← within payload (counted Read.text)
    return { image with strings := image.strings ++ records }
  else if name = ".types" then
    let records ← within payload (counted typeRecord)
    return { image with types := image.types ++ records }
  else if name = ".constants" then
    let records ← within payload (counted constant)
    return { image with constants := image.constants ++ records }
  else return image

/-- Reads at most `n` sections that begin before the end of the table. -/
def sections (tableEnd : Nat) : Nat → Image → Read Image
  | 0, image => pure image
  | n + 1, image => do
    let c ← get
    if c.position < tableEnd ∧ c.hasMore then
      let name ← terminated
      if name = "" then return image
      else
        let size ← word
        let payload ← bytes size.toNat
        sections tableEnd n (← addSection image name payload)
    else return image

/-- A read whose failure means that the image is cut off. -/
def cutOff {α : Type} (r : Read α) : EStateM LoadFault Cursor α := r.adaptExcept .truncated

/-- Reads the header, which says whether this is an image at all. -/
def readHeader : EStateM LoadFault Cursor Header := do
  let found ← cutOff (bytes magic.length)
  if found ≠ magic then throw (.format (.magic found))
  let n ← cutOff byte
  let name := Text.ofBytes (← cutOff (bytes n.toNat))
  if name ≠ forkName then throw (.format (.forkName name))
  let fileSize ← cutOff word
  let entryPoint ← cutOff word
  return { forkName := name, fileSize, entryPoint }

/-- Reads an image. A section takes at least one byte, so there are no more sections than bytes. -/
def read : EStateM LoadFault Cursor Image := do
  let h ← readHeader
  let c ← get
  cutOff (sections (c.position + h.fileSize.toNat) c.remaining { header := h })

/-- The image that a byte sequence holds. -/
def decode (data : List UInt8) : Except LoadFault Image :=
  match read (.start data) with
  | .ok image _ => .ok image
  | .error e _ => .error e

end Image

end ObjectMachine
