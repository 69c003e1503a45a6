import ObjectMachine.Proofs.Histories

/-!
# Objects as stores

An object of a class is a store with the names of the fields for keys. A name that was declared
several times stands for the slot of the last declaration; the slots of the others stay out of reach
of the name, and no two names stand for one slot (`Class.FieldsDeclared.eq_of_fieldSlot?`). So a
value that is stored under a name is what is then read under it, and nothing else has changed.

`Heap.StoreLaw` says all this of an object in a heap, for accesses by the host and for the two
instructions on fields. It needs no more than that the object has one slot for each field, and that
is what every history leaves alone (`object_store_law`).
-/

namespace ObjectMachine

/-- An object is a store: its class and its slots are these, a name that no field has can neither be
read nor be written, and any other name stands for one of the slots, which is what is read under it
and all that is changed under it. The instructions on fields do what the accesses do. -/
structure Heap.StoreLaw (h : Heap) (r : ObjectRef) (c : Class) (slots : Array Value) : Prop where
  object : h.object? r = some ⟨c, slots⟩
  size : slots.size = c.allFields.length
  missing : ∀ name, (∀ f ∈ c.allFields, f.name ≠ name) →
    h.getField r name = .error (.fieldNotFound c.name name) ∧
    ∀ v, setField r name v h = .error (.fieldNotFound c.name name) h
  present : ∀ name, (∃ f ∈ c.allFields, f.name = name) →
    ∃ k old, c.fieldSlot? name = some k ∧ slots[k]? = some old ∧ h.getField r name = .ok old ∧
      ∀ v, ∃ h', setField r name v h = .ok () h' ∧ h'.getField r name = .ok v ∧
        (∀ other, other ≠ name → h'.getField r other = h.getField r other) ∧
        h'.object? r = some ⟨c, slots.setIfInBounds k v⟩ ∧
        ∀ cell, cell ≠ .object r → h'.content? cell = h.content? cell
  load : ∀ (p : Program) (s : Activation) (i : Instruction) (name : String) (base : Array Value),
    s.heap = h → s.Executes i .ldFld → i.stringOperand p = .ok name →
    s.frame.stack.slots = base.push (.object r) → base.size < s.room →
      step p s =
        match h.getField r name with
        | .ok v => .ok .next (s.withOperands (base.push v))
        | .error e => .error e (s.withOperands base)
  store : ∀ (p : Program) (s : Activation) (i : Instruction) (name : String) (base : Array Value)
    (v : Value), s.heap = h → s.Executes i .stFld → i.stringOperand p = .ok name →
    s.frame.stack.slots = (base.push (.object r)).push v →
      step p s =
        match setField r name v h with
        | .ok _ h' => .ok .next { s.withOperands base with heap := h' }
        | .error e h' => .error e { s.withOperands base with heap := h' }

/-! ## Names and slots -/

/-- Two names never stand for one slot. -/
theorem Class.FieldsDeclared.eq_of_fieldSlot? {c : Class} (hc : c.FieldsDeclared)
    {name other : String} {k : Nat} (hname : c.fieldSlot? name = some k)
    (hother : c.fieldSlot? other = some k) : name = other := by
  obtain ⟨⟨f, hf, rfl⟩, -⟩ := hc.fieldSlot?_eq_some_iff.mp hname
  obtain ⟨⟨g, hg, rfl⟩, -⟩ := hc.fieldSlot?_eq_some_iff.mp hother
  rw [Option.some.inj (hf.symm.trans hg)]

theorem Class.FieldsDeclared.exists_fieldSlot? {c : Class} (hc : c.FieldsDeclared) {name : String}
    (h : ∃ f ∈ c.allFields, f.name = name) : ∃ k, c.fieldSlot? name = some k := by
  obtain ⟨f, hf, hname⟩ := h
  cases hk : c.fieldSlot? name with
  | some k => exact ⟨k, rfl⟩
  | none => exact absurd hname (hc.fieldSlot?_eq_none_iff.mp hk f hf)

namespace Instance

variable {o : Instance} {name : String}

theorem get_of_none (h : o.cls.fieldSlot? name = none) :
    o.get name = .error (.fieldNotFound o.cls.name name) := by
  simp only [get, slot, h]
  rfl

theorem get_of_slot {k : Nat} {v : Value} (hk : o.cls.fieldSlot? name = some k)
    (hv : o.slots[k]? = some v) : o.get name = .ok v := by
  simp only [get, slot, hk]
  change o.slotValue k = .ok v
  simp only [slotValue, hv]

/-- A field is only affected by a change to its own slot. -/
theorem get_setIfInBounds_of_ne {k : Nat} (h : o.cls.fieldSlot? name ≠ some k) (v : Value) :
    ({ o with slots := o.slots.setIfInBounds k v } : Instance).get name = o.get name := by
  cases hj : o.cls.fieldSlot? name with
  | none =>
    have hj' : ({ o with slots := o.slots.setIfInBounds k v } : Instance).cls.fieldSlot? name =
        none := hj
    rw [get_of_none hj, get_of_none hj']
  | some j =>
    have hne : k ≠ j := by
      rintro rfl
      exact h hj
    simp only [get, slot, hj]
    change slotValue _ j = slotValue _ j
    simp only [slotValue, Array.getElem?_setIfInBounds_ne hne, Array.size_setIfInBounds]

end Instance

/-! ## The law -/

namespace Heap

variable {h : Heap} {r : ObjectRef} {o : Instance}

theorem getField_of_some (ho : h.object? r = some o) (name : String) :
    h.getField r name = o.get name := by
  rw [getField, ho]

theorem setField_of_missing (ho : h.object? r = some o) {name : String}
    (hk : o.cls.fieldSlot? name = none) (v : Value) :
    setField r name v h = .error (.fieldNotFound o.cls.name name) h := by
  simp only [setField, ho, Instance.slot, hk]

end Heap

section
variable {p : Program} {s : Activation} {i : Instruction} {name : String} {base : Array Value}
  {r : ObjectRef} {o : Instance}

theorem step_ldFld (hexecutes : s.Executes i .ldFld) (hname : i.stringOperand p = .ok name)
    (hstack : s.frame.stack.slots = base.push (.object r)) (hroom : base.size < s.room)
    (ho : s.heap.object? r = some o) :
    step p s =
      match s.heap.getField r name with
      | .ok v => .ok .next (s.withOperands (base.push v))
      | .error e => .error e (s.withOperands base) := by
  rw [hexecutes.step_of_operand p .loadField (fun _ => rfl) hname, Heap.getField_of_some ho]
  have hobject := Exec.popObject_of_push .ldFld hstack ho
  simp only [Exec.perform, bind, EStateM.bind, hobject, Exec.lift, Exec.read]
  cases o.get name with
  | error e => rfl
  | ok v => exact Exec.pushNext_of_lt (s := s.withOperands base) hroom v

theorem step_stFld {v : Value} (hexecutes : s.Executes i .stFld)
    (hname : i.stringOperand p = .ok name)
    (hstack : s.frame.stack.slots = (base.push (.object r)).push v)
    (ho : s.heap.object? r = some o) :
    step p s =
      match Heap.setField r name v s.heap with
      | .ok _ h => .ok .next { s.withOperands base with heap := h }
      | .error e h => .error e { s.withOperands base with heap := h } := by
  rw [hexecutes.step_of_operand p .storeField (fun _ => rfl) hname]
  have hpop := Exec.pop_of_push hstack
  have hobject : Exec.popObject .stFld (s.withOperands (base.push (.object r))) =
      .ok (r, o) (s.withOperands base) := Exec.popObject_of_push .stFld rfl ho
  have hsteps : Exec.perform p (.storeField name) s =
      (do Exec.onHeap (Heap.setField r name v); pure Flow.next : Exec Flow)
        (s.withOperands base) := by
    simp only [Exec.perform, bind, EStateM.bind, hpop, hobject]
  rw [hsteps]
  rcases Heap.setField_cases r name v s.heap with ⟨e, hset⟩ | ⟨o', k, h', -, -, hset, -⟩
  · rw [hset]
    exact Exec.onHeapNext_of_error _ hset
  · rw [hset]
    exact Exec.onHeapNext_of_ok _ hset

end

/-- An object with one slot for each field is a store. -/
theorem Heap.storeLaw {h : Heap} {r : ObjectRef} {c : Class} {slots : Array Value}
    (hc : c.FieldsDeclared) (ho : h.object? r = some ⟨c, slots⟩)
    (hsize : slots.size = c.allFields.length) : h.StoreLaw r c slots where
  object := ho
  size := hsize
  missing name hnone := by
    have hk : c.fieldSlot? name = none := hc.fieldSlot?_eq_none_iff.mpr hnone
    rw [getField_of_some ho]
    exact ⟨Instance.get_of_none hk, setField_of_missing ho hk⟩
  present name hsome := by
    obtain ⟨k, hk⟩ := hc.exists_fieldSlot? hsome
    have hlt : k < slots.size := by
      rw [hsize, ← c.fieldCount_eq]
      exact hc.fieldSlot?_lt hk
    refine ⟨k, slots[k], hk, Array.getElem?_eq_getElem hlt, ?_, fun v => ?_⟩
    · rw [getField_of_some ho]
      exact Instance.get_of_slot hk (Array.getElem?_eq_getElem hlt)
    · obtain ⟨h', hset, hput⟩ := setField_of_slot ho hk v
      have ho' : h'.object? r = some ⟨c, slots.setIfInBounds k v⟩ :=
        content?_object_eq_some_iff.mp ((hput (.object r)).trans (if_pos rfl))
      refine ⟨h', hset, ?_, fun other hother => ?_, ho', fun cell hcell => ?_⟩
      · rw [getField_of_some ho']
        exact Instance.get_of_slot hk (Array.getElem?_setIfInBounds_self_of_lt hlt)
      · rw [getField_of_some ho', getField_of_some ho]
        -- another name stands for another slot, or for none
        have hslot : c.fieldSlot? other ≠ some k := fun hk' =>
          hother (hc.eq_of_fieldSlot? hk' hk)
        exact Instance.get_setIfInBounds_of_ne (o := ⟨c, slots⟩) hslot v
      · rw [hput cell, if_neg hcell]
  load p s i name base hs hexecutes hname hstack hroom := by
    rw [← hs] at ho ⊢
    exact step_ldFld hexecutes hname hstack hroom ho
  store p s i name base v hs hexecutes hname hstack := by
    rw [← hs] at ho ⊢
    exact step_stFld hexecutes hname hstack ho

/-- **Objects are stores, for good.** Take any history of a heap, as there is one in every session
and while code runs in it. An object begins with null in every slot and keeps its class. Under a
name that no field has it can neither be read nor written; under any other one, what is stored is
what is then read, and nothing else changes. The instructions on fields do the same. -/
theorem object_store_law :
    (∀ h r o, Heap.Evolves Class.Tidy {} h → h.object? r = some o →
      (∃ born, Heap.Evolves Class.Tidy {} born ∧
        born.object? r = some ⟨o.cls, Array.replicate o.cls.allFields.length .null⟩ ∧
        Heap.Evolves Class.Tidy born h) ∧
      ∀ later, Heap.Evolves Class.Tidy h later → ∃ slots, later.StoreLaw r o.cls slots) ∧
    (∀ w₀ cs w, World.Opened w₀ → Session w₀ cs w →
      w₀.machine.program.host.Accesses Class.Tidy →
      Heap.Evolves Class.Tidy {} w.machine.heap ∧
      (∀ n c, c.heap = w.machine.heap →
        Heap.Evolves Class.Tidy w.machine.heap (run w.machine.program n c).heap) ∧
      ∀ ds w', Session w ds w' →
        Heap.Evolves Class.Tidy w.machine.heap w'.machine.heap) := by
  refine ⟨fun h r o hist ho => ?_, fun w₀ cs w hopened hsession hhost => ?_⟩
  · obtain ⟨htidy, born, hfirst, hcreate, hrest⟩ := hist.object?_of_none rfl ho
    rw [Instance.create, o.cls.fieldCount_eq] at hcreate
    refine ⟨⟨born, hfirst, hcreate, hrest⟩, fun later hlater => ?_⟩
    -- the whole life of the object, from its beginning on
    have hafter : Heap.Evolves Class.Tidy born later := hrest.trans hlater
    obtain ⟨slots, hslots, hsize⟩ := hafter.object?_of_some hcreate
    rw [Array.size_replicate] at hsize
    exact ⟨slots, Heap.storeLaw htidy.fieldsDeclared hslots hsize⟩
  · have hsound := hsession.sound hopened.sound
    rw [← hsession.host_eq hopened.sound] at hhost
    refine ⟨?_, fun n c hc => ?_, fun ds w' hlater => ?_⟩
    · rw [← hopened.heap_eq]
      exact hsession.evolves hopened.sound hsound.tidy hhost
    · rw [← hc]
      exact Heap.evolves_of_run (hsound.within hsound.tidy hhost) n c
    · rw [← hlater.host_eq hsound] at hhost
      exact hlater.evolves hsound (hlater.sound hsound).tidy hhost

/-! An object with hidden fields is created by the host and changed by an instruction. -/

namespace Tagged

def program : Program where
  strings := #["tag"]
  host := .basic

def storing : Frame :=
  { Frame.enter (.interpreted "Tag" .void [] [] #[.of .stFld [0]] .everyone) none #[] 2
    with stack := ⟨#[.object ⟨0⟩, .int32 7], 2⟩ }

def heap : Heap where
  objects := #[⟨Hidden.polygon, #[.null, .null, .null, .null, .int32 7]⟩]

theorem tidy : Hidden.polygon.Tidy := by
  have hshape : Hidden.shape.Tidy :=
    Class.tidy_derive ⟨0⟩ ⟨Members.declared_ofList _, .none⟩ (by simp)
  have hempty : ({ name := "Polygon" } : ClassDecl).Tidy := ⟨.none, .none⟩
  refine Class.tidy_derive ⟨1⟩ ((hempty.addField _).addField _) ?_
  rintro b ⟨⟩
  exact hshape

theorem history : Heap.Evolves Class.Tidy {} heap := by
  have hwithin : program.Within Class.Tidy :=
    ⟨by simp [program, Registry.class?], Host.accesses_basic _⟩
  have hcreated : Heap.Event Class.Tidy {} { objects := #[.create Hidden.polygon] } :=
    .access (.newObject Hidden.polygon) tidy
  have hstored : Heap.Event Class.Tidy { objects := #[.create Hidden.polygon] } heap :=
    .instruction hwithin storing
  exact (Relation.ReflTransGen.single hcreated).tail hstored

end Tagged

theorem object_store_law_tagged :
    (∃ born, Heap.Evolves Class.Tidy {} born ∧
      born.object? ⟨0⟩ = some ⟨Hidden.polygon, Array.replicate 5 .null⟩ ∧
      Heap.Evolves Class.Tidy born Tagged.heap) ∧
    ∃ h', Heap.setField ⟨0⟩ "tag" .null Tagged.heap = .ok () h' ∧
      h'.getField ⟨0⟩ "tag" = .ok .null ∧
      h'.getField ⟨0⟩ "size" = Tagged.heap.getField ⟨0⟩ "size" := by
  obtain ⟨hborn, hlater⟩ := object_store_law.1 Tagged.heap ⟨0⟩ _ Tagged.history rfl
  obtain ⟨slots, hlaw⟩ := hlater Tagged.heap .refl
  have htag : ∃ f ∈ Hidden.polygon.allFields, f.name = "tag" := by decide
  obtain ⟨k, old, -, -, -, hset⟩ := hlaw.present "tag" htag
  obtain ⟨h', hok, hread, hothers, -⟩ := hset .null
  exact ⟨hborn, h', hok, hread, hothers "size" (by decide)⟩

end ObjectMachine
