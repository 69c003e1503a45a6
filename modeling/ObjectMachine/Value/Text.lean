import ObjectMachine.Floating.Shortest
import ObjectMachine.Heap
import ObjectMachine.Stack

/-!
# Values as text

`display` is the text of a value for its reader, `inspect` the text that also tells its kind.
References are shown by what they refer to.
-/

namespace ObjectMachine

/-- The text of a truth value. -/
def showBool (b : Bool) : String := if b then "true" else "false"

namespace Heap

def className (h : Heap) (r : ObjectRef) : String :=
  match h.object? r with
  | some o => o.cls.name
  | none => ""

/-- The text of a value for its reader. -/
def display (h : Heap) : Value → String
  | .null => "null"
  | .int32 n => toString n.toInt
  | .int64 n => toString n.toInt
  | .float32 x => x.text
  | .float64 x => x.text
  | .bool b => showBool b
  | .string s => s
  | .object r => "[" ++ h.className r ++ "]"
  | .array r => "[array; " ++ toString (h.length r) ++ "]"

/-- The text of a value with its kind. -/
def inspect (h : Heap) : Value → String
  | .null => "null"
  | .int32 n => "int32(" ++ toString n.toInt ++ ")"
  | .int64 n => "int64(" ++ toString n.toInt ++ ")"
  | .float32 x => "float32(" ++ x.text ++ ")"
  | .float64 x => "float64(" ++ x.text ++ ")"
  | .bool b => "bool(" ++ showBool b ++ ")"
  | .string s => "string(" ++ Text.quoted s ++ ")"
  | .object r => h.className r
  | .array r => "array[" ++ toString (h.length r) ++ "]"

/-- The text of a stack: its values, the bottom first, and its limit. -/
def inspectStack (h : Heap) (s : Stack) : String :=
  "Stack \x7b slots: [" ++ String.intercalate ", " (s.slots.toList.map h.inspect)
    ++ "], max_size: " ++ toString s.limit ++ " \x7d"

end Heap

end ObjectMachine
