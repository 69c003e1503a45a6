/-!
# Members with a name index

The fields or the methods that one class declares, in the order of their declaration, with an index
from names to positions. A name may be declared more than once; the last declaration answers to it.
-/

namespace ObjectMachine

/-- Positions by name. The newest entry stands first, so it hides older ones of the same name. -/
structure NameIndex where
  entries : List (String × Nat) := []
deriving DecidableEq, Repr

namespace NameIndex

/-- The position that a name stands for. -/
def get? (ix : NameIndex) (name : String) : Option Nat := ix.entries.lookup name

/-- The index in which a name stands for a new position. -/
def insert (ix : NameIndex) (name : String) (position : Nat) : NameIndex :=
  ⟨(name, position) :: ix.entries⟩

@[simp]
theorem get?_insert_self (ix : NameIndex) (name : String) (position : Nat) :
    (ix.insert name position).get? name = some position := by
  simp [get?, insert]

theorem get?_insert_of_ne (ix : NameIndex) {name other : String} (position : Nat)
    (h : name ≠ other) : (ix.insert other position).get? name = ix.get? name := by
  have : (name == other) = false := by simpa using h
  simp [get?, insert, List.lookup_cons, this]

end NameIndex

/-- Something that is declared under a name. -/
class Named (α : Type) where
  name : α → String

/-- Declared members and the index of their names. -/
structure Members (α : Type) where
  items : Array α := #[]
  index : NameIndex := {}
deriving DecidableEq, Repr

namespace Members

variable {α : Type}

def add [Named α] (ms : Members α) (item : α) : Members α :=
  ⟨ms.items.push item, ms.index.insert (Named.name item) ms.items.size⟩

def size (ms : Members α) : Nat := ms.items.size

/-- The position of the member that answers to a name. -/
def slot? (ms : Members α) (name : String) : Option Nat := ms.index.get? name

def find? (ms : Members α) (name : String) : Option α := (ms.slot? name).bind (ms.items[·]?)

/-- The members declared one after the other. -/
def ofList [Named α] (items : List α) : Members α := items.foldl add {}

end Members

end ObjectMachine
