import ObjectMachine.Image.Cursor
import ObjectMachine.Image.Record

/-!
# Encoding images

Writes an image the way it is decoded: the header with the size of the section table, then one
section each for strings, types and constants. Numbers of records and lengths are words, so an image
can be written faithfully as long as they fit.
-/

namespace ObjectMachine

namespace Write

/-- The lowest `n` bytes of a number, the lowest one first. -/
def littleEndian : Nat → Nat → List UInt8
  | 0, _ => []
  | n + 1, k => UInt8.ofNat (k % 256) :: littleEndian n (k / 256)

@[simp]
theorem length_littleEndian (n k : Nat) : (littleEndian n k).length = n := by
  induction n generalizing k with
  | zero => rfl
  | succ n ih => simp [littleEndian, ih]

/-- A number that fits is read back from its bytes. -/
theorem littleEndian_littleEndian {n k : Nat} (h : k < Nat.pow 256 n) :
    Read.littleEndian (littleEndian n k) = k := by
  induction n generalizing k with
  | zero =>
    have : k = 0 := Nat.lt_one_iff.mp h
    simp [littleEndian, Read.littleEndian, this]
  | succ n ih =>
    have h : k < 256 * Nat.pow 256 n := by
      rw [Nat.mul_comm]
      exact h
    have := ih (Nat.div_lt_of_lt_mul h)
    simp only [littleEndian, Read.littleEndian, this, UInt8.toNat_ofNat']
    omega

/-- A number that fits in a word. -/
def size (n : Nat) : List UInt8 := littleEndian 4 n

def word (w : UInt32) : List UInt8 := size w.toNat

/-- Records after their number. -/
def counted {α : Type} (write : α → List UInt8) (records : List α) : List UInt8 :=
  size records.length ++ records.flatMap write

/-- Bytes after their number. -/
def sized (bytes : List UInt8) : List UInt8 := size bytes.length ++ bytes

def text (s : String) : List UInt8 := sized (Text.toBytes s)

def field (f : FieldRecord) : List UInt8 := word f.name ++ word f.type ++ [f.access, f.flags]

def variableRecord (v : VariableRecord) : List UInt8 := word v.name ++ word v.type

def instruction (i : Instruction) : List UInt8 :=
  [i.opcode, .ofNat i.operands.length] ++ i.operands.flatMap word

def method (m : MethodRecord) : List UInt8 :=
  word m.name ++ word m.returns ++ [m.access, m.flags] ++ counted variableRecord m.parameters
    ++ counted variableRecord m.locals ++ counted instruction m.code

def typeRecord (t : TypeRecord) : List UInt8 :=
  [t.kind] ++ word t.name ++ word t.space ++ [t.access, t.flags] ++ word t.base
    ++ counted word t.interfaces ++ counted field t.fields ++ counted method t.methods

def constant (c : ConstantRecord) : List UInt8 := [c.tag] ++ sized c.bytes

/-- A section: its name, its size and its bytes. -/
def tableSection (name : String) (payload : List UInt8) : List UInt8 :=
  Text.toBytes name ++ [0] ++ sized payload

end Write

namespace Image

open Write

/-- The section table of an image. -/
def table (image : Image) : List UInt8 :=
  tableSection ".strings" (counted Write.text image.strings)
    ++ tableSection ".types" (counted typeRecord image.types)
    ++ tableSection ".constants" (counted constant image.constants)

/-- The header of an image with a section table of the given size. -/
def headerBytes (tableSize : Nat) (entryPoint : UInt32) : List UInt8 :=
  let name := Text.toBytes forkName
  magic ++ [.ofNat name.length] ++ name ++ size tableSize ++ word entryPoint

/-- The bytes of an image. -/
def encode (image : Image) : List UInt8 :=
  headerBytes image.table.length image.header.entryPoint ++ image.table

end Image

end ObjectMachine
