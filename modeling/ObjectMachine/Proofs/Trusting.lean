import ObjectMachine.Proofs.Layout
import ObjectMachine.Proofs.Reachable
import ObjectMachine.Proofs.Sessions

/-!
# Operations that trust their place

Most look-ups of the machine say what happens when there is nothing at a place. Some places need no
such answer, because they were counted before or come from an index of names: the slot of a field,
the position of a member, the index of a class, an argument behind the receiver. A trusting
operation goes to such a place at once, and `none` stands for what must not happen: there is no such
place, a difference is below zero, a divisor is zero, or a case is reached that was excluded before.

Whether a trusting operation succeeds depends on what the rest of the machine has built up: members
that were declared one after the other (`Class.Tidy`), objects with one slot for each field
(`Heap.Sound`), tables in step with the classes (`Registry.Lawful`). Under these invariants every
trusting operation has a result, that of the operation of the machine. `Trusting.Sure` says so of
whole computations, and it carries over to whatever is put together from them.
-/

namespace ObjectMachine

/-! ## Members of a class -/

/-- The position of a member that answers to a name is one of a member. -/
theorem Members.Declared.slot_lt {α : Type} [Named α] {ms : Members α} (h : ms.Declared)
    {name : String} {i : Nat} (hi : ms.slot? name = some i) : i < ms.size := by
  rw [h.slot?_eq, lastNamed?_eq_some_iff] at hi
  obtain ⟨⟨a, ha, -⟩, -⟩ := hi
  exact (List.getElem?_eq_some_iff.mp ha).1

/-- The slot of a field is one of the slots of an object. -/
theorem Class.FieldsDeclared.fieldSlot?_lt {c : Class} (h : c.FieldsDeclared) {name : String}
    {i : Nat} (hi : c.fieldSlot? name = some i) : i < c.fieldCount := by
  obtain ⟨⟨f, hf, -⟩, -⟩ := h.fieldSlot?_eq_some_iff.mp hi
  rw [c.fieldCount_eq]
  exact (List.getElem?_eq_some_iff.mp hf).1

theorem Class.Tidy.fieldsDeclared {c : Class} (h : c.Tidy) : c.FieldsDeclared :=
  fun l hl => (h l hl).fields

/-- An object has one slot for each field of a tidy class. -/
structure Instance.Sound (o : Instance) : Prop where
  tidy : o.cls.Tidy
  size : o.slots.size = o.cls.fieldCount

/-- All objects are sound. -/
def Heap.Sound (h : Heap) : Prop := ∀ o ∈ h.objects, o.Sound

theorem Heap.Sound.object? {h : Heap} (hs : h.Sound) {r : ObjectRef} {o : Instance}
    (ho : h.object? r = some o) : o.Sound := hs o (Array.mem_of_getElem? ho)

theorem Instance.Sound.fieldSlot?_lt {o : Instance} (h : o.Sound) {field : String} {i : Nat}
    (hi : o.cls.fieldSlot? field = some i) : i < o.slots.size := by
  rw [h.size]
  exact h.tidy.fieldsDeclared.fieldSlot?_lt hi

theorem Instance.Sound.slot_lt {o : Instance} (h : o.Sound) {field : String} {i : Nat}
    (hi : o.slot field = .ok i) : i < o.slots.size := by
  unfold slot at hi
  split at hi
  · cases hi
    exact h.fieldSlot?_lt ‹_›
  · cases hi

namespace Trusting

/-- The member that answers to a name, at the position that the index of names gives. -/
def member {α : Type} (members : ClassDecl → Members α) (name : String) :
    List Link → Option (Option α)
  | [] => some none
  | l :: rest =>
    match (members l.decl).slot? name with
    | some i => (members l.decl).items[i]?.map some
    | none => member members name rest

def field (c : Class) (name : String) : Option (Option Field) := member (·.fields) name c.links

def method (c : Class) (name : String) : Option (Option Method) := member (·.methods) name c.links

theorem member_eq {α : Type} [Named α] {members : ClassDecl → Members α} {chain : List Link}
    (h : ∀ l ∈ chain, (members l.decl).Declared) (name : String) :
    member members name chain = some (chain.findSome? fun l => (members l.decl).find? name) := by
  induction chain with
  | nil => rfl
  | cons l rest ih =>
    rw [member, List.findSome?_cons, Members.find?]
    cases hslot : (members l.decl).slot? name with
    | none => exact ih fun l hl => h l (List.mem_cons_of_mem _ hl)
    | some i =>
      have hlt : i < (members l.decl).items.size := (h l List.mem_cons_self).slot_lt hslot
      simp only [Option.bind_some, Array.getElem?_eq_getElem hlt, Option.map_some]

theorem field_eq {c : Class} (h : c.Tidy) (name : String) : field c name = some (c.field? name) :=
  member_eq (fun l hl => (h l hl).fields) name

theorem method_eq {c : Class} (h : c.Tidy) (name : String) :
    method c name = some (c.method? name) := member_eq (fun l hl => (h l hl).methods) name

/-! ## Registered classes -/

def idOf (r : Registry) (c : Class) : Option (Option Nat) :=
  let first := r.classes.findIdx? fun d => d.id == c.id
  match r.indexOf? c.name with
  | some i => (r.class? i).map fun d => if d.id == c.id then some i else first
  | none => some first

def resolve (r : Registry) (c : Class) (name : String) : Option (Option Method) := do
  match ← idOf r c with
  | some i => return (← r.table? i).toList.reverse.find? fun m => m.name == name
  | none => method c name

end Trusting

/-- What a name means is an index of a class and of a table. -/
theorem Registry.Lawful.index_lt {r : Registry} (h : r.Lawful) {name : String} {i : Nat}
    (hi : r.indexOf? name = some i) : i < r.classes.size ∧ i < r.tables.size := by
  rw [h.names, lastNamed?_eq_some_iff] at hi
  obtain ⟨⟨c, hc, -⟩, -⟩ := hi
  have hlt : i < r.classes.size := (List.getElem?_eq_some_iff.mp hc).1
  refine ⟨hlt, ?_⟩
  rw [h.tables, Array.size_map]
  exact hlt

namespace Trusting

theorem idOf_eq {r : Registry} (h : r.Lawful) (c : Class) : idOf r c = some (r.idOf? c) := by
  unfold idOf Registry.idOf?
  dsimp only
  cases hi : r.indexOf? c.name with
  | none => rfl
  | some i =>
    have hlt := (h.index_lt hi).1
    simp [Registry.class?, Array.getElem?_eq_getElem hlt]

theorem resolve_eq {r : Registry} (h : r.Lawful) {c : Class} (hc : c.Tidy) (name : String) :
    resolve r c name = some (r.resolve? c name) := by
  unfold resolve Registry.resolve?
  rw [idOf_eq h]
  cases hi : r.idOf? c with
  | none => exact method_eq hc name
  | some i =>
    obtain ⟨d, hd, -⟩ := Registry.class?_of_idOf? hi
    have htable : r.table? i = some d.allMethods.toArray := by rw [h.table?_eq, hd]; rfl
    simp [htable]

/-! ## Arguments -/

/-- A difference that is not below zero. -/
def minus (a b : Nat) : Option Nat := if b ≤ a then some (a - b) else none

/-- The value in an argument slot. The arguments of the call stand one slot behind a receiver. -/
def argument (f : Frame) (i : Nat) : Option (Except Fault Value) := do
  let found ←
    match f.receiver with
    | some r => if i = 0 then some (some (Value.object r)) else (minus i 1).map (f.arguments[·]?)
    | none => some f.arguments[i]?
  return match found with
    | some v => .ok v
    | none => .error (f.noArgument i)

def setArgument (f : Frame) (i : Nat) (v : Value) : Option (Except Fault Frame) :=
  let offset := if f.receiver.isSome then 1 else 0
  if offset = 1 ∧ i = 0 then
    match v.toObject? with
    | some r => some (.ok { f with receiver := some r })
    | none => some (.error (.typeMismatch (.receiverStore v.kind)))
  else
    (minus i offset).map fun j =>
      if j < f.arguments.size then .ok { f with arguments := f.arguments.setIfInBounds j v }
      else .error (f.noArgument i)

theorem argument_eq (f : Frame) (i : Nat) : argument f i = some (f.argument i) := by
  unfold argument Frame.argument
  cases hr : f.receiver with
  | none => rfl
  | some r =>
    cases i with
    | zero => rfl
    | succ i => rfl

theorem setArgument_eq (f : Frame) (i : Nat) (v : Value) :
    setArgument f i v = some (f.setArgument i v) := by
  unfold setArgument Frame.setArgument
  cases hr : f.receiver with
  | none => simp [minus]
  | some r =>
    cases i with
    | zero => cases v <;> rfl
    | succ i => simp [minus]

/-! ## Numbers -/

/-- A quotient or a remainder; there is none by zero. -/
def divided (f : Int → Int → Int) (a b : Int) : Option Int := if b = 0 then none else some (f a b)

/-- The exact result on whole numbers. -/
def onInts : ArithOp → Int → Int → Option (Except Fault Int)
  | .div, a, b => if b = 0 then some (.error .divideByZero) else (divided Int.tdiv a b).map .ok
  | .rem, a, b => if b = 0 then some (.error .divideByZero) else (divided Int.tmod a b).map .ok
  | op, a, b => some (op.onInts a b)

def arith (op : ArithOp) (a b : Value) : Option (Except Fault Value) :=
  match a.number?, b.number? with
  | some (.whole v m), some (.whole w n) =>
    (onInts op m n).map fun result => result.map fun k => (Number.whole (v.max w) k).toValue
  | _, _ => some (a.arith op b)

theorem onInts_eq (op : ArithOp) (a b : Int) : onInts op a b = some (op.onInts a b) := by
  cases op with
  | add | sub | mul => rfl
  | div | rem =>
    by_cases hb : b = 0
    · simp [onInts, ArithOp.onInts, hb]
    · simp [onInts, ArithOp.onInts, hb, divided]

theorem arith_eq (op : ArithOp) (a b : Value) : arith op a b = some (a.arith op b) := by
  unfold arith
  split
  · rename_i v m w n ha hb
    simp only [onInts_eq, Value.arith, ha, hb, ArithOp.onNumbers]
    cases op.onInts m n <;> rfl
  · rfl

/-- Whether an order satisfies a comparison by order; equality has been answered before. -/
def ordered : CompareOp → Ordering → Option Bool
  | .lt, o => some o.isLT
  | .le, o => some o.isLE
  | .gt, o => some o.isGT
  | .ge, o => some o.isGE
  | .eq, _ | .ne, _ => none

/-- Whether a comparison holds. -/
def compare (op : CompareOp) (a b : Value) : Option (Except Fault Bool) :=
  match op with
  | .eq => some (.ok (a.looseEq b))
  | .ne => some (.ok (!a.looseEq b))
  | _ =>
    match a.number?, b.number? with
    | some x, some y =>
      match x.compare? y with
      | none => some (.ok false)
      | some o => (ordered op o).map .ok
    | _, _ => some (.error (.typeMismatch (.ordering a.kind b.kind)))

theorem compare_eq (op : CompareOp) (a b : Value) : compare op a b = some (a.compare op b) := by
  cases op with
  | eq | ne => rfl
  | lt | le | gt | ge =>
    unfold compare Value.compare
    dsimp only
    cases a.number? with
    | none => rfl
    | some x =>
      cases b.number? with
      | none => rfl
      | some y =>
        dsimp only
        cases x.compare? y <;> rfl

end Trusting

/-! ## Sound heaps -/

/-- A position in an array is below its length. -/
theorem Heap.lt_of_elementIndex {n : Nat} {index : Int} {i : Nat}
    (h : elementIndex n index = .ok i) : i < n := by
  unfold elementIndex at h
  split at h
  · cases h
    omega
  · cases h

theorem Instance.sound_create {c : Class} (h : c.Tidy) : (create c).Sound :=
  ⟨h, Array.size_replicate⟩

namespace Preserves

theorem newObject {c : Class} (hc : c.Tidy) :
    Preserves Heap.Sound (fun _ => True) (Heap.newObject c) := by
  intro h hh
  refine .ok trivial fun o ho => ?_
  rcases Array.mem_push.mp ho with ho | rfl
  · exact hh o ho
  · exact Instance.sound_create hc

theorem newArray (n : Nat) : Preserves Heap.Sound (fun _ => True) (Heap.newArray n) :=
  fun _ hh => .ok trivial hh

/-- Changing a field changes neither the class of an object nor the number of its slots. -/
theorem setField (r : ObjectRef) (field : String) (v : Value) :
    Preserves Heap.Sound (fun _ => True) (Heap.setField r field v) := by
  intro h hh
  unfold Heap.setField
  split
  · exact .error _ hh
  · split
    · exact .error _ hh
    · refine .ok trivial fun o ho => ?_
      obtain ⟨i, hi⟩ := Array.mem_iff_getElem?.mp ho
      rw [Array.getElem?_modify] at hi
      split at hi
      · obtain ⟨o', ho', rfl⟩ := Option.map_eq_some_iff.mp hi
        have hsound := hh o' (Array.mem_of_getElem? ho')
        exact ⟨hsound.tidy, by rw [Array.size_setIfInBounds, hsound.size]⟩
      · exact hh o (Array.mem_of_getElem? hi)

theorem setElement (r : ArrayRef) (index : Int) (v : Value) :
    Preserves Heap.Sound (fun _ => True) (Heap.setElement r index v) := by
  intro h hh
  unfold Heap.setElement
  split
  · exact .error _ hh
  · exact .ok trivial hh

end Preserves

/-! ## Trusting computations -/

/-- A computation on a state that goes to some places without looking; `none` if one of them is not
there. -/
def Trusting (σ α : Type) : Type := σ → Option (EStateM.Result Fault σ α)

namespace Trusting

section
variable {σ α β : Type} {I : σ → Prop} {Q : α → Prop} {P : β → Prop}

instance : Monad (Trusting σ) where
  pure a := fun s => some (.ok a s)
  bind x f := fun s =>
    match x s with
    | some (.ok a s) => f a s
    | some (.error e s) => some (.error e s)
    | none => none

/-- A computation that checks every place. -/
def lift (x : EStateM Fault σ α) : Trusting σ α := fun s => some (x s)

/-- Under an invariant, a trusting computation has the result of a computation that keeps it. -/
structure Sure (I : σ → Prop) (Q : α → Prop) (x : Trusting σ α) (y : EStateM Fault σ α) : Prop where
  preserves : Preserves I Q y
  result : ∀ s, I s → x s = some (y s)

namespace Sure

theorem lift {y : EStateM Fault σ α} (h : Preserves I Q y) : Sure I Q (lift y) y :=
  ⟨h, fun _ _ => rfl⟩

theorem pure {a : α} (ha : Q a) : Sure I Q (Pure.pure a : Trusting σ α) (Pure.pure a) :=
  ⟨.pure ha, fun _ _ => rfl⟩

theorem bind {x : Trusting σ α} {y : EStateM Fault σ α} {f : α → Trusting σ β}
    {g : α → EStateM Fault σ β} (hx : Sure I Q x y) (hf : ∀ a, Q a → Sure I P (f a) (g a)) :
    Sure I P (x >>= f) (y >>= g) where
  preserves := hx.preserves.bind fun a ha => (hf a ha).preserves
  result s hs := by
    -- what is known of the second computation needs the invariant after the first one
    have hkept := hx.preserves s hs
    simp only [Bind.bind, EStateM.bind, hx.result s hs]
    generalize y s = r at hkept ⊢
    cases hkept with
    | ok ha hs => exact (hf _ ha).result _ hs
    | error e hs => rfl

end Sure

end

/-! ## Operand stacks and heaps -/

/-- Takes `n` values from the top: the stack is split at the difference. -/
def popMany (n : Nat) : Trusting Stack (Array Value) := fun s =>
  if s.slots.size < n then some (.error .stackUnderflow s)
  else do
    let rest ← minus s.slots.size n
    if rest ≤ s.slots.size then
      some (.ok (s.slots.extract rest s.slots.size) { s with slots := s.slots.shrink rest })
    else none

def setField (r : ObjectRef) (field : String) (v : Value) : Trusting Heap Unit := fun h =>
  match h.object? r with
  | none => some (.error (.fieldNotFound "" field) h)
  | some o =>
    match o.slot field with
    | .error e => some (.error e h)
    | .ok i =>
      if i < o.slots.size then
        some (.ok () { h with
          objects := h.objects.modify r.index fun o =>
            { o with slots := o.slots.setIfInBounds i v } })
      else none

def getElement (h : Heap) (r : ArrayRef) (index : Int) : Option (Except Fault Value) :=
  match Heap.elementIndex (h.length r) index with
  | .error e => some (.error e)
  | .ok i => (h.elements r)[i]?.map .ok

def setElement (r : ArrayRef) (index : Int) (v : Value) : Trusting Heap Unit := fun h =>
  match Heap.elementIndex (h.length r) index with
  | .error e => some (.error e h)
  | .ok i =>
    if i < h.length r then
      some (.ok () { h with arrays := h.arrays.modify r.index (·.setIfInBounds i v) })
    else none

theorem popMany_eq (n : Nat) (s : Stack) : popMany n s = some (Stack.popMany n s) := by
  unfold popMany Stack.popMany
  by_cases h : s.slots.size < n
  · rw [if_pos h, if_pos h]
  · rw [if_neg h, if_neg h]
    simp [minus, Nat.not_lt.mp h]

theorem setField_eq {h : Heap} (hh : h.Sound) (r : ObjectRef) (field : String) (v : Value) :
    setField r field v h = some (Heap.setField r field v h) := by
  unfold setField Heap.setField
  cases ho : h.object? r with
  | none => rfl
  | some o =>
    dsimp only
    cases hi : o.slot field with
    | error e => rfl
    | ok i => exact if_pos ((hh.object? ho).slot_lt hi)

theorem getElement_eq (h : Heap) (r : ArrayRef) (index : Int) :
    getElement h r index = some (h.getElement r index) := by
  unfold getElement Heap.getElement
  cases hi : Heap.elementIndex (h.length r) index with
  | error e => rfl
  | ok i =>
    have hlt : i < (h.elements r).size := Heap.lt_of_elementIndex hi
    simp [Array.getD, hlt]

theorem setElement_eq (r : ArrayRef) (index : Int) (v : Value) (h : Heap) :
    setElement r index v h = some (Heap.setElement r index v h) := by
  unfold setElement Heap.setElement
  cases hi : Heap.elementIndex (h.length r) index with
  | error e => rfl
  | ok i => exact if_pos (Heap.lt_of_elementIndex hi)

end Trusting

end ObjectMachine
