import ObjectMachine.Text.Quoted

/-!
# Why an image cannot be read

Bytes run out (`ReadFault`), or the first bytes say that this is no image of ours (`FormatFault`).
-/

namespace ObjectMachine

/-- A read that the remaining bytes cannot satisfy. -/
inductive ReadFault where
  /-- Fewer than `needed` bytes stand at `offset`. -/
  | unexpectedEnd (offset needed remaining : Nat)
  /-- No NUL byte ends the text that begins at the offset. -/
  | unterminated (offset : Nat)
deriving DecidableEq, Repr

def ReadFault.message : ReadFault → String
  | unexpectedEnd offset needed remaining =>
    s!"Unexpected end of data at offset {offset}: needed {needed} bytes, {remaining} remaining"
  | unterminated offset => s!"Unterminated string at offset {offset}"

namespace Image

/-- The three bytes that every image begins with. -/
def magic : List UInt8 := [70, 79, 66]

/-- The name that every image carries after them. -/
def forkName : String := "OBJECTIR,FOB"

end Image

/-- Bytes that are no image. -/
inductive FormatFault where
  | magic (found : List UInt8)
  | forkName (found : String)
deriving DecidableEq, Repr

/-- Bytes in decimal, between brackets. -/
def showBytes (bytes : List UInt8) : String :=
  "[" ++ String.intercalate ", " (bytes.map fun b => toString b.toNat) ++ "]"

def FormatFault.message : FormatFault → String
  | magic found =>
    "invalid magic: expected " ++ showBytes Image.magic ++ ", got " ++ showBytes found
  | forkName found =>
    "invalid fork name: expected " ++ Text.quoted Image.forkName ++ ", got " ++ Text.quoted found

/-- Why an image cannot be decoded. -/
inductive LoadFault where
  | format (cause : FormatFault)
  | truncated (cause : ReadFault)
deriving DecidableEq, Repr

def LoadFault.message : LoadFault → String
  | format cause => "Format error: " ++ cause.message
  | truncated cause => "Truncated module: " ++ cause.message

end ObjectMachine
