import ObjectMachine.Host
import ObjectMachine.Proofs.Actions

/-!
# What a computation can see of the heap

The objects and the arrays of a heap are its cells. A computation that is given some values can come
to the cells that are reached from them through slots and elements, and to those that it allocates
itself. `Heap.Own` is the set of these cells.

`Heap.Twins` relates two heaps that are the same on a set of cells and that have kept, outside of
it, what two earlier heaps had there. The set is closed: what is in its cells refers to its cells
only. A computation that cannot tell twins apart, and leaves twins behind, is `Indifferent`. The
operations on the heap are, as long as they are used on cells of the set.
-/

namespace ObjectMachine

/-! ## Cells -/

/-- A place in the heap: that of an object or that of an array. -/
inductive Cell where
  | object (r : ObjectRef)
  | array (r : ArrayRef)
deriving DecidableEq, Repr

/-- What there is in a cell. -/
inductive Content where
  | object (o : Instance)
  | array (elements : Array Value)
deriving DecidableEq, Repr

/-- The values in a cell: the slots of an object or the elements of an array. -/
def Content.values : Content → Array Value
  | object o => o.slots
  | array elements => elements

/-- The cell that a value refers to. -/
def Value.cell? : Value → Option Cell
  | object r => some (.object r)
  | array r => some (.array r)
  | _ => none

/-- What there is in a cell, if it is allocated. -/
def Heap.content? (h : Heap) : Cell → Option Content
  | .object r => (h.object? r).map .object
  | .array r => h.arrays[r.index]?.map .array

/-- A value that refers to no cell outside of a set. -/
def Value.Within (K : Cell → Prop) (v : Value) : Prop := ∀ cell, v.cell? = some cell → K cell

namespace Value

variable {K : Cell → Prop}

@[simp]
theorem within_object {r : ObjectRef} : (object r).Within K ↔ K (.object r) := by
  simp [Within, cell?]

@[simp]
theorem within_array {r : ArrayRef} : (array r).Within K ↔ K (.array r) := by
  simp [Within, cell?]

theorem within_of_cell? {v : Value} (h : v.cell? = none) : v.Within K := by
  intro cell hc
  rw [h] at hc
  cases hc

@[simp]
theorem within_null : null.Within K := within_of_cell? rfl

theorem within_ofInt (n : Int) : (ofInt n).Within K := within_of_cell? rfl

theorem within_of_isPlain {v : Value} (h : v.IsPlain) : v.Within K := by
  refine within_of_cell? ?_
  cases v with
  | object r => cases h.1
  | array r => cases h.2
  | _ => rfl

/-- Arithmetic gives numbers, never references. -/
theorem within_of_arith {op : ArithOp} {a b v : Value} (h : a.arith op b = .ok v) : v.Within K :=
  within_of_isPlain (isPlain_of_arith h)

theorem Within.mono {A : Cell → Prop} {v : Value} (h : v.Within A) (hA : ∀ cell, A cell → K cell) :
    v.Within K := fun cell hc => hA cell (h cell hc)

end Value

/-! ## Cells that can be reached -/

/-- The cells that are reached from some values through slots and elements. -/
inductive Heap.Reaches (h : Heap) (roots : List Value) : Cell → Prop
  | root {v : Value} {cell : Cell} (hv : v ∈ roots) (hc : v.cell? = some cell) :
    Reaches h roots cell
  | inside {cell next : Cell} {content : Content} {v : Value} (hr : Reaches h roots cell)
    (hcontent : h.content? cell = some content) (hv : v ∈ content.values)
    (hc : v.cell? = some next) : Reaches h roots next

/-- The cells that can be reached, and those that are yet to be allocated. -/
def Heap.Own (h : Heap) (roots : List Value) (cell : Cell) : Prop :=
  h.Reaches roots cell ∨ h.content? cell = none

/-- Two heaps with the same cells that agree on those that can be reached. -/
structure Heap.SameFrom (roots : List Value) (h h' : Heap) : Prop where
  allocated : ∀ cell, h'.content? cell = none ↔ h.content? cell = none
  reached : ∀ cell, h.Reaches roots cell → h'.content? cell = h.content? cell

/-- A set with which come all cells that its cells refer to. -/
def Heap.Closed (h : Heap) (K : Cell → Prop) : Prop :=
  ∀ cell content, K cell → h.content? cell = some content → ∀ v ∈ content.values, v.Within K

theorem Heap.Reaches.of_closed {h : Heap} {K : Cell → Prop} {roots : List Value} {cell : Cell}
    (hr : h.Reaches roots cell) (hclosed : h.Closed K) (hroots : ∀ v ∈ roots, v.Within K) :
    K cell := by
  induction hr with
  | root hv hc => exact hroots _ hv _ hc
  | inside hr hcontent hv hc ih => exact hclosed _ _ ih hcontent _ hv _ hc

theorem Heap.closed_own (h : Heap) (roots : List Value) : h.Closed (h.Own roots) := by
  intro cell content hown hcontent v hv next hc
  rcases hown with hr | hnone
  · exact .inl (.inside hr hcontent hv hc)
  · rw [hnone] at hcontent
    cases hcontent

/-! ## Twins -/

/-- Two heaps, `h` and `h'`, that have the same cells and are the same on a set of them. The set is
closed and has all cells that are yet to be allocated. Outside of it `h` is as `h₀` was, and `h'` is
as `h₀'` was. -/
structure Heap.Twins (K : Cell → Prop) (h₀ h₀' h h' : Heap) : Prop where
  allocated : ∀ cell, h'.content? cell = none ↔ h.content? cell = none
  agree : ∀ cell, K cell → h'.content? cell = h.content? cell
  closed : h.Closed K
  fresh : ∀ cell, h.content? cell = none → K cell
  untouched : ∀ cell, ¬ K cell →
    h.content? cell = h₀.content? cell ∧ h'.content? cell = h₀'.content? cell

/-- Heaps that agree on what can be reached are twins on it. -/
theorem Heap.SameFrom.twins {roots : List Value} {h h' : Heap} (hsame : h.SameFrom roots h') :
    Twins (h.Own roots) h h' h h' where
  allocated := hsame.allocated
  agree cell hown := by
    rcases hown with hr | hnone
    · exact hsame.reached cell hr
    · rw [hnone, (hsame.allocated cell).mpr hnone]
  closed := h.closed_own roots
  fresh _ hnone := .inr hnone
  untouched _ _ := ⟨rfl, rfl⟩

namespace Heap.Twins

variable {K : Cell → Prop} {h₀ h₀' h h' g g' : Heap}

/-- What can be reached from values of the set is in the set. -/
theorem own_le (ht : Twins K h₀ h₀' h h') {roots : List Value} (hroots : ∀ v ∈ roots, v.Within K)
    (cell : Cell) (hown : h.Own roots cell) : K cell := by
  rcases hown with hr | hnone
  · exact hr.of_closed ht.closed hroots
  · exact ht.fresh cell hnone

theorem sameFrom (ht : Twins K h₀ h₀' h h') {roots : List Value}
    (hroots : ∀ v ∈ roots, v.Within K) : h.SameFrom roots h' where
  allocated := ht.allocated
  reached cell hr := ht.agree cell (ht.own_le hroots cell (.inl hr))

/-- A computation that keeps to a part of the set leaves the rest of it as it was. -/
theorem widen (ht : Twins K h₀ h₀' h h') {A : Cell → Prop} (hA : ∀ cell, A cell → K cell)
    (ha : Twins A h h' g g') : Twins K h₀ h₀' g g' where
  allocated := ha.allocated
  agree cell hcell := by
    by_cases hin : A cell
    · exact ha.agree cell hin
    · rw [(ha.untouched cell hin).1, (ha.untouched cell hin).2, ht.agree cell hcell]
  closed cell content hcell hcontent v hv := by
    by_cases hin : A cell
    · exact (ha.closed cell content hin hcontent v hv).mono hA
    · rw [(ha.untouched cell hin).1] at hcontent
      exact ht.closed cell content hcell hcontent v hv
  fresh cell hnone := hA cell (ha.fresh cell hnone)
  untouched cell hout := by
    have hin : ¬ A cell := fun hin => hout (hA cell hin)
    rw [(ha.untouched cell hin).1, (ha.untouched cell hin).2]
    exact ht.untouched cell hout

/-- Twins stay twins when a cell of the set gets the same new content in both. -/
theorem write (ht : Twins K h₀ h₀' h h') {target : Cell} (htarget : K target) (content : Content)
    (hvalues : ∀ v ∈ content.values, v.Within K)
    (hg : ∀ cell, g.content? cell = if cell = target then some content else h.content? cell)
    (hg' : ∀ cell, g'.content? cell = if cell = target then some content else h'.content? cell) :
    Twins K h₀ h₀' g g' where
  allocated cell := by
    rw [hg, hg']
    by_cases he : cell = target
    · rw [if_pos he, if_pos he]
    · rw [if_neg he, if_neg he]
      exact ht.allocated cell
  agree cell hcell := by
    rw [hg, hg', ht.agree cell hcell]
  closed cell old hcell hold v hv := by
    rw [hg] at hold
    by_cases he : cell = target
    · rw [if_pos he, Option.some.injEq] at hold
      exact hvalues v (hold ▸ hv)
    · rw [if_neg he] at hold
      exact ht.closed cell old hcell hold v hv
  fresh cell hnone := by
    rw [hg] at hnone
    by_cases he : cell = target
    · exact he ▸ htarget
    · rw [if_neg he] at hnone
      exact ht.fresh cell hnone
  untouched cell hout := by
    have he : cell ≠ target := fun he => hout (he ▸ htarget)
    rw [hg, hg', if_neg he, if_neg he]
    exact ht.untouched cell hout

/-- Twins refer to the same object with a reference of the set. -/
theorem object?_eq (ht : Twins K h₀ h₀' h h') {r : ObjectRef} (hr : K (.object r)) :
    h'.object? r = h.object? r := by
  have hagree := ht.agree _ hr
  exact Option.map_injective (fun _ _ he => Content.object.inj he) hagree

theorem array?_eq (ht : Twins K h₀ h₀' h h') {r : ArrayRef} (hr : K (.array r)) :
    h'.arrays[r.index]? = h.arrays[r.index]? := by
  have hagree := ht.agree _ hr
  exact Option.map_injective (fun _ _ he => Content.array.inj he) hagree

theorem elements_eq (ht : Twins K h₀ h₀' h h') {r : ArrayRef} (hr : K (.array r)) :
    h'.elements r = h.elements r := by
  rw [elements, elements, ht.array?_eq hr]

theorem within_slots (ht : Twins K h₀ h₀' h h') {r : ObjectRef} (hr : K (.object r)) {o : Instance}
    (ho : h.object? r = some o) : ∀ v ∈ o.slots, v.Within K :=
  ht.closed _ (.object o) hr (by rw [content?, ho]; rfl)

theorem within_elements (ht : Twins K h₀ h₀' h h') {r : ArrayRef} (hr : K (.array r)) :
    ∀ v ∈ h.elements r, v.Within K := by
  intro v hv
  unfold elements at hv
  cases ha : h.arrays[r.index]? with
  | none => rw [ha] at hv; simp at hv
  | some elements =>
    rw [ha] at hv
    exact ht.closed _ (.array elements) hr (by rw [content?, ha]; rfl) v hv

theorem objects_size (ht : Twins K h₀ h₀' h h') : h'.objects.size = h.objects.size := by
  have hiff : ∀ i, h'.objects.size ≤ i ↔ h.objects.size ≤ i := by
    intro i
    simpa [content?, object?] using ht.allocated (.object ⟨i⟩)
  exact Nat.le_antisymm ((hiff _).mpr (Nat.le_refl _)) ((hiff _).mp (Nat.le_refl _))

theorem arrays_size (ht : Twins K h₀ h₀' h h') : h'.arrays.size = h.arrays.size := by
  have hiff : ∀ i, h'.arrays.size ≤ i ↔ h.arrays.size ≤ i := by
    intro i
    simpa [content?] using ht.allocated (.array ⟨i⟩)
  exact Nat.le_antisymm ((hiff _).mpr (Nat.le_refl _)) ((hiff _).mp (Nat.le_refl _))

end Heap.Twins

/-! ## Operations on the heap -/

namespace Heap

/-- One object is new or has changed. -/
theorem content?_of_objects {h : Heap} {objects : Array Instance} {i : Nat} {o : Instance}
    (ho : ∀ j, objects[j]? = if j = i then some o else h.objects[j]?) (cell : Cell) :
    content? { h with objects } cell =
      if cell = .object ⟨i⟩ then some (.object o) else h.content? cell := by
  cases cell with
  | object r =>
    obtain ⟨j⟩ := r
    rw [content?, object?, ho]
    by_cases he : j = i
    · rw [if_pos he, if_pos (by rw [he])]
      rfl
    · rw [if_neg he, if_neg (fun hc => he (by cases hc; rfl))]
      rfl
  | array r => rfl

/-- One array is new or has changed. -/
theorem content?_of_arrays {h : Heap} {arrays : Array (Array Value)} {i : Nat}
    {elements : Array Value}
    (ha : ∀ j, arrays[j]? = if j = i then some elements else h.arrays[j]?) (cell : Cell) :
    content? { h with arrays } cell =
      if cell = .array ⟨i⟩ then some (.array elements) else h.content? cell := by
  cases cell with
  | object r => rfl
  | array r =>
    obtain ⟨j⟩ := r
    rw [content?, ha]
    by_cases he : j = i
    · rw [if_pos he, if_pos (by rw [he])]
      rfl
    · rw [if_neg he, if_neg (fun hc => he (by cases hc; rfl))]
      rfl

end Heap

theorem getElem?_modify_of_some {α : Type} {xs : Array α} {i : Nat} {x : α} (h : xs[i]? = some x)
    (f : α → α) (j : Nat) : (xs.modify i f)[j]? = if j = i then some (f x) else xs[j]? := by
  rw [Array.getElem?_modify]
  by_cases he : i = j
  · rw [if_pos he, if_pos he.symm, ← he, h]
    rfl
  · rw [if_neg he, if_neg (Ne.symm he)]

/-- A value that is put in the place of another one. -/
theorem within_setIfInBounds {K : Cell → Prop} {values : Array Value} {v : Value} (i : Nat)
    (hvalues : ∀ w ∈ values, w.Within K) (hv : v.Within K) :
    ∀ w ∈ values.setIfInBounds i v, w.Within K := by
  intro w hw
  rcases Array.mem_or_eq_of_mem_setIfInBounds hw with hold | rfl
  · exact hvalues w hold
  · exact hv

theorem within_push {K : Cell → Prop} {values : Array Value} {v : Value}
    (hvalues : ∀ w ∈ values, w.Within K) (hv : v.Within K) : ∀ w ∈ values.push v, w.Within K := by
  intro w hw
  rcases Array.mem_push.mp hw with hold | rfl
  · exact hvalues w hold
  · exact hv

theorem within_replicate {K : Cell → Prop} (n : Nat) :
    ∀ v ∈ Array.replicate n Value.null, v.Within K := by
  intro v hv
  rw [Array.eq_of_mem_replicate hv]
  exact Value.within_null

namespace Agree

variable {K : Cell → Prop} {h₀ h₀' : Heap}

theorem newObject (c : Class) :
    Indifferent (Heap.Twins K h₀ h₀') (fun r => (Value.object r).Within K)
      (Heap.newObject c) := by
  intro h h' ht
  have hnew : K (.object ⟨h.objects.size⟩) := ht.fresh _ (by simp [Heap.content?, Heap.object?])
  have hsize := ht.objects_size
  unfold Heap.newObject
  rw [hsize]
  refine .ok (Q := fun r => (Value.object r).Within K) (Value.within_object.mpr hnew)
    (ht.write hnew (.object (.create c)) (within_replicate _) ?_ ?_)
  · exact Heap.content?_of_objects fun j => Array.getElem?_push
  · exact Heap.content?_of_objects fun j => hsize ▸ Array.getElem?_push

theorem newArray (n : Nat) :
    Indifferent (Heap.Twins K h₀ h₀') (fun r => (Value.array r).Within K)
      (Heap.newArray n) := by
  intro h h' ht
  have hnew : K (.array ⟨h.arrays.size⟩) := ht.fresh _ (by simp [Heap.content?])
  have hsize := ht.arrays_size
  unfold Heap.newArray
  rw [hsize]
  refine .ok (Q := fun r => (Value.array r).Within K) (Value.within_array.mpr hnew)
    (ht.write hnew (.array (Array.replicate n .null)) (within_replicate _) ?_ ?_)
  · exact Heap.content?_of_arrays fun j => Array.getElem?_push
  · exact Heap.content?_of_arrays fun j => hsize ▸ Array.getElem?_push

theorem setField {r : ObjectRef} (hr : K (.object r)) (field : String) {v : Value}
    (hv : v.Within K) :
    Indifferent (Heap.Twins K h₀ h₀') (fun _ => True) (Heap.setField r field v) := by
  intro h h' ht
  have he := ht.object?_eq hr
  unfold Heap.setField
  cases ho : h.object? r with
  | none =>
    rw [ho] at he
    simp only [he]
    exact .error _ ht
  | some o =>
    rw [ho] at he
    simp only [he]
    cases o.slot field with
    | error e => exact .error e ht
    | ok i =>
      have hslots := within_setIfInBounds i (ht.within_slots hr ho) hv
      exact .ok trivial (ht.write hr (.object { o with slots := _ }) hslots
        (Heap.content?_of_objects (getElem?_modify_of_some ho _))
        (Heap.content?_of_objects (getElem?_modify_of_some he _)))

theorem setElement {r : ArrayRef} (hr : K (.array r)) (index : Int) {v : Value}
    (hv : v.Within K) :
    Indifferent (Heap.Twins K h₀ h₀') (fun _ => True) (Heap.setElement r index v) := by
  intro h h' ht
  have he := ht.array?_eq hr
  unfold Heap.setElement
  rw [Heap.length, Heap.length, ht.elements_eq hr]
  cases hi : Heap.elementIndex (h.elements r).size index with
  | error e => exact .error e ht
  | ok i =>
    cases ha : h.arrays[r.index]? with
    | none =>
      -- what is not allocated has no elements
      rw [Heap.elements, ha, Heap.elementIndex, if_neg (by simp)] at hi
      cases hi
    | some elements =>
      rw [ha] at he
      have hvalues := within_setIfInBounds i (ht.within_elements hr) hv
      rw [Heap.elements, ha] at hvalues
      exact .ok trivial (ht.write hr (.array _) hvalues
        (Heap.content?_of_arrays (getElem?_modify_of_some ha _))
        (Heap.content?_of_arrays (getElem?_modify_of_some he _)))

end Agree

end ObjectMachine
