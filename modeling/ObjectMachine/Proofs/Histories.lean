import Mathlib.Logic.Relation
import ObjectMachine.Proofs.Safety
import ObjectMachine.Proofs.Writes

/-!
# What can have happened to a heap

Objects and arrays are accessed by requests, by instructions and by native bodies, in any order and
by any number of programs that share the heap. `Heap.Event` is one of these, `Heap.Evolves` a
history of them; the objects that come into being are of classes from a given set.

An instruction makes at most one access or enters one native body (`Heap.accessed_of_step`), and a
native body is taken to work on the heap through accesses only (`Host.Accesses`). So every history
comes down to accesses (`Heap.Evolves.accessed`), and what one access does to an object decides what
becomes of it: an object keeps its class and the number of its slots, and a new one has nulls in all
of them. The requests of a session make up a history as well (`Session.evolves`).
-/

namespace ObjectMachine

open Relation (ReflTransGen)

/-! ## Histories -/

/-- An access that creates no object of a class outside of a set. -/
def HeapCall.Within (K : Class → Prop) : HeapCall → Prop
  | newObject c => K c
  | _ => True

/-- One access leads from a heap to another one. -/
def Heap.Access (K : Class → Prop) (h h' : Heap) : Prop :=
  ∃ call : HeapCall, call.Within K ∧ call.make.leaves h = h'

/-- Any number of accesses lead from a heap to another one. -/
def Heap.Accessed (K : Class → Prop) : Heap → Heap → Prop := ReflTransGen (Access K)

/-- Native bodies that work on the heap through accesses only. -/
def Host.Accesses (K : Class → Prop) (host : Host) : Prop :=
  ∀ name receiver arguments h, Heap.Accessed K h ((host.native name receiver arguments).leaves h)

/-- A program whose code creates no object of a class outside of a set. -/
structure Program.Within (K : Class → Prop) (p : Program) : Prop where
  classes : ∀ i c, p.registry.class? i = some c → K c
  host : p.host.Accesses K

/-- Something happens to a heap: an access, an instruction of a program on any frame, or a native
body. Each of them may fail. -/
inductive Heap.Event (K : Class → Prop) (h : Heap) : Heap → Prop
  | access (call : HeapCall) (hcall : call.Within K) : Event K h (call.make.leaves h)
  | instruction {p : Program} (hp : p.Within K) (frame : Frame) :
    Event K h ((step p).leaves ⟨frame, h⟩).heap
  | native {host : Host} (hhost : host.Accesses K) (name : String) (receiver : Option ObjectRef)
    (arguments : Array Value) : Event K h ((host.native name receiver arguments).leaves h)

/-- One thing after the other happens to a heap. -/
def Heap.Evolves (K : Class → Prop) : Heap → Heap → Prop := ReflTransGen (Event K)

/-! ## What an access changes -/

/-- The cell that an access is about to change, and what will be there. -/
inductive HeapCall.Changes (h : Heap) : HeapCall → Cell → Content → Prop
  | newObject (c : Class) :
    Changes h (.newObject c) (.object ⟨h.objects.size⟩) (.object (.create c))
  | newArray (n : Nat) :
    Changes h (.newArray n) (.array ⟨h.arrays.size⟩) (.array (Array.replicate n .null))
  | setField {r : ObjectRef} {o : Instance} {field : String} {k : Nat} (v : Value)
    (ho : h.object? r = some o) (hk : o.cls.fieldSlot? field = some k) :
    Changes h (.setField r field v) (.object r)
      (.object { o with slots := o.slots.setIfInBounds k v })
  | setElement {r : ArrayRef} {elements : Array Value} {k : Nat} (v : Value)
    (ha : h.arrays[r.index]? = some elements) (hk : k < elements.size) :
    Changes h (.setElement r k v) (.array r) (.array (elements.setIfInBounds k v))

/-- An access changes nothing, or one cell. -/
theorem HeapCall.leaves_cases (call : HeapCall) (h : Heap) :
    call.make.leaves h = h ∨
    ∃ target content, call.Changes h target content ∧
      Heap.Put target content h (call.make.leaves h) := by
  cases call with
  | newObject c =>
    rw [make, EStateM.leaves_map]
    exact .inr ⟨_, _, .newObject c, Heap.put_newObject c h⟩
  | newArray n =>
    rw [make, EStateM.leaves_map]
    exact .inr ⟨_, _, .newArray n, Heap.put_newArray n h⟩
  | getField r field =>
    left
    simp only [EStateM.leaves, make]
    cases h.getField r field <;> rfl
  | setField r field v =>
    rw [make, EStateM.leaves_andThen]
    rcases Heap.setField_cases r field v h with ⟨e, hset⟩ | ⟨o, k, h', ho, hk, hset, hput⟩
    · exact .inl (EStateM.leaves_of_error hset)
    · rw [EStateM.leaves_of_ok hset]
      exact .inr ⟨_, _, .setField v ho hk, hput⟩
  | getElement r index =>
    left
    simp only [EStateM.leaves, make]
    cases h.getElement r index <;> rfl
  | setElement r index v =>
    rw [make, EStateM.leaves_andThen]
    rcases Heap.setElement_cases r index v h with
      ⟨e, hset⟩ | ⟨elements, k, h', ha, rfl, hk, hset, hput⟩
    · exact .inl (EStateM.leaves_of_error hset)
    · rw [EStateM.leaves_of_ok hset]
      exact .inr ⟨_, _, .setElement v ha hk, hput⟩

/-! ## What an instruction does to the heap -/

/-- The cells are all that there is to a heap. -/
theorem Heap.eq_of_content? {h h' : Heap} (hc : h.content? = h'.content?) : h = h' := by
  have hobjects : h.objects = h'.objects := by
    refine Array.ext_getElem? fun i => ?_
    have hcell : (h.objects[i]?).map Content.object = (h'.objects[i]?).map .object :=
      congrFun hc (.object ⟨i⟩)
    exact Option.map_injective (fun _ _ => Content.object.inj) hcell
  have harrays : h.arrays = h'.arrays := by
    refine Array.ext_getElem? fun i => ?_
    have hcell : (h.arrays[i]?).map Content.array = (h'.arrays[i]?).map .array :=
      congrFun hc (.array ⟨i⟩)
    exact Option.map_injective (fun _ _ => Content.array.inj) hcell
  cases h
  cases h'
  cases hobjects
  cases harrays
  rfl

theorem Activation.heap_of_surroundings {s s' : Activation}
    (h : s'.surroundings.cells = s.surroundings.cells) : s'.heap = s.heap := Heap.eq_of_content? h

theorem Heap.Put.heap_eq {target : Cell} {content : Content} {s s' : Activation} {h : Heap}
    (hput : Put target content s.heap h)
    (hs : s'.surroundings = s.surroundings.put target content) : s'.heap = h := by
  refine eq_of_content? (funext fun cell => ?_)
  rw [hput cell]
  exact congrFun (congrArg Surroundings.cells hs) cell

namespace Heap

variable {K : Class → Prop} {h h' : Heap} {p : Program}

theorem Accessed.single (call : HeapCall) (hcall : call.Within K) :
    Accessed K h (call.make.leaves h) := ReflTransGen.single ⟨call, hcall, rfl⟩

theorem Accessed.setField (r : ObjectRef) (field : String) (v : Value) :
    Accessed K h ((Heap.setField r field v).leaves h) := by
  have hmake : (HeapCall.setField r field v).make.leaves h = _ := EStateM.leaves_andThen _ _ _
  rw [← hmake]
  exact .single _ trivial

theorem Accessed.setElement (r : ArrayRef) (index : Int) (v : Value) :
    Accessed K h ((Heap.setElement r index v).leaves h) := by
  have hmake : (HeapCall.setElement r index v).make.leaves h = _ := EStateM.leaves_andThen _ _ _
  rw [← hmake]
  exact .single _ trivial

theorem Accessed.newObject {c : Class} (hc : K c) :
    Accessed K h ((Heap.newObject c).leaves h) := by
  have hmake : (HeapCall.newObject c).make.leaves h = _ := EStateM.leaves_map _ _ _
  rw [← hmake]
  exact .single _ hc

theorem Accessed.newArray (n : Nat) : Accessed K h ((Heap.newArray n).leaves h) := by
  have hmake : (HeapCall.newArray n).make.leaves h = _ := EStateM.leaves_map _ _ _
  rw [← hmake]
  exact .single _ trivial

theorem Accessed.heapAfterCall (hp : p.Within K) (s : Activation) (i : Instruction) (op : Opcode) :
    Accessed K s.heap (s.heapAfterCall p i op) := by
  unfold Activation.heapAfterCall
  cases s.callOf? p i op with
  | none => exact .refl
  | some c =>
    dsimp only [Option.elim_some, Call.heapAfter]
    cases c.method.body with
    | native name => exact hp.host name c.receiver c.arguments s.heap
    | interpreted code => exact .refl

/-- An instruction that stores or creates something makes one access, unless it fails before. -/
theorem accessed_of_store (hp : p.Within K) {s : Activation} {i : Instruction} {op : Opcode}
    (hexecutes : s.Executes i op) (hwrites : op.writes = true) (hcall : op.isCall = false) :
    Exec.FailsEarly (step p) s ∨ Accessed K s.heap ((step p).leaves s).heap := by
  refine hexecutes.failsEarly_or p fun codeSize a ha heq => ?_
  rw [EStateM.leaves_congr heq]
  cases op with
  | stLoc =>
    obtain ⟨n, -, rfl⟩ := ok_of_map ha
    refine (Exec.perform_storeLocal p s n).imp_right ?_
    rintro ⟨base, v, s', hok, -, -, hset⟩
    have hcells : s'.surroundings.cells = s.surroundings.cells := by rw [hset]; rfl
    rw [EStateM.leaves_of_ok hok, Activation.heap_of_surroundings hcells]
    exact .refl
  | stArg =>
    obtain ⟨n, -, rfl⟩ := ok_of_map ha
    refine (Exec.perform_storeArgument p s n).imp_right ?_
    rintro ⟨base, v, s', hok, -, -, hset⟩
    have hcells : s'.surroundings.cells = s.surroundings.cells := by rw [hset]; rfl
    rw [EStateM.leaves_of_ok hok, Activation.heap_of_surroundings hcells]
    exact .refl
  | stFld =>
    obtain ⟨name, -, rfl⟩ := ok_of_map ha
    refine (Exec.perform_storeField p s name).imp_right ?_
    rintro ⟨base, r, v, o, k, s', hok, -, -, -, hset, -⟩
    rw [EStateM.leaves_of_ok hok, ← EStateM.leaves_of_ok hset]
    exact .setField r name v
  | stElem =>
    cases ha
    refine (Exec.perform_storeElement p s).imp_right ?_
    rintro ⟨base, r, index, v, elements, k, s', hok, -, -, -, -, hset, -⟩
    rw [EStateM.leaves_of_ok hok, ← EStateM.leaves_of_ok hset]
    exact .setElement r k v
  | newObj =>
    obtain ⟨c, hc, rfl⟩ := ok_of_map ha
    obtain ⟨index, -, hc⟩ := ok_of_bind hc
    have hclass := classAt_eq_ok_iff.mp hc
    rw [Array.getElem?_toList] at hclass
    right
    rw [(put_newObject c s.heap).heap_eq (Exec.leaves_create p s c)]
    exact .newObject (hp.classes index c hclass)
  | newArr =>
    cases ha
    refine (Exec.leaves_createArray p s).imp_right ?_
    rintro ⟨base, index, n, -, -, -, hput⟩
    rw [(put_newArray n s.heap).heap_eq hput]
    exact .newArray n
  | call | callVirt => cases hcall
  | _ => cases hwrites

/-- An instruction makes at most one access, or enters a native body. -/
theorem accessed_of_step (hp : p.Within K) (s : Activation) :
    Accessed K s.heap ((step p).leaves s).heap := by
  -- what writes is a call or a store; everything else spares the heap
  by_cases hwrites : ∃ i op, s.Executes i op ∧ op.writes = true
  · obtain ⟨i, op, hexecutes, hop⟩ := hwrites
    cases hcall : op.isCall with
    | true =>
      have hcells := congrArg Surroundings.cells (surroundings_of_call (p := p) hcall hexecutes)
      rw [Activation.heap_of_surroundings hcells]
      exact .heapAfterCall hp s i op
    | false =>
      rcases accessed_of_store hp hexecutes hop hcall with ⟨e, s', he, hspared⟩ | haccessed
      · rw [EStateM.leaves_of_error he,
          Activation.heap_of_surroundings (congrArg Surroundings.cells hspared)]
        exact .refl
      · exact haccessed
  · have hspared : ((step p).leaves s).surroundings = s.surroundings := by
      refine surroundings_of_step fun i op hexecutes => ?_
      rw [← Bool.not_eq_true]
      exact fun hop => hwrites ⟨i, op, hexecutes, hop⟩
    rw [Activation.heap_of_surroundings (congrArg Surroundings.cells hspared)]
    exact .refl

/-- Every history comes down to accesses. -/
theorem Evolves.accessed (hist : Evolves K h h') : Accessed K h h' := by
  induction hist with
  | refl => exact .refl
  | tail hist hevent ih =>
    refine ih.trans ?_
    cases hevent with
    | access call hcall => exact Accessed.single call hcall
    | instruction hp frame => exact accessed_of_step hp ⟨frame, _⟩
    | native hhost name receiver arguments => exact hhost name receiver arguments _

/-- Accesses are a history. -/
theorem Accessed.evolves (haccessed : Accessed K h h') : Evolves K h h' := by
  refine ReflTransGen.mono (r := Access K) ?_ _ _ haccessed
  rintro h _ ⟨call, hcall, rfl⟩
  exact .access call hcall

end Heap

/-! ## Objects along a history -/

namespace Heap

variable {K : Class → Prop} {h h' : Heap} {r : ObjectRef} {o : Instance}

theorem content?_object_eq_some_iff : h.content? (.object r) = some (.object o) ↔
    h.object? r = some o := by
  simp [content?]

theorem object?_of_content? (hc : h'.content? (.object r) = h.content? (.object r)) :
    h'.object? r = h.object? r := Option.map_injective (fun _ _ => Content.object.inj) hc

/-- An access leaves an object its class and the number of its slots. -/
theorem Access.object?_of_some (ha : Access K h h') (ho : h.object? r = some o) :
    ∃ slots, h'.object? r = some ⟨o.cls, slots⟩ ∧ slots.size = o.slots.size := by
  obtain ⟨call, -, rfl⟩ := ha
  rcases call.leaves_cases h with heq | ⟨target, content, hchanges, hput⟩
  · rw [heq]
    exact ⟨o.slots, ho, rfl⟩
  · have hcell := hput (.object r)
    by_cases htarget : .object r = target
    · rw [if_pos htarget] at hcell
      cases hchanges with
      | newObject c =>
        -- the place of a new object was not taken
        cases htarget
        simp [object?] at ho
      | newArray n => cases htarget
      | setField v ho' hk =>
        cases htarget
        obtain rfl := Option.some.inj (ho.symm.trans ho')
        exact ⟨_, content?_object_eq_some_iff.mp hcell, Array.size_setIfInBounds⟩
      | setElement v ha hk => cases htarget
    · rw [if_neg htarget] at hcell
      exact ⟨o.slots, (object?_of_content? hcell).trans ho, rfl⟩

/-- An object that an access creates has nulls in all slots. -/
theorem Access.object?_of_none (ha : Access K h h') (hnone : h.object? r = none)
    (ho : h'.object? r = some o) : K o.cls ∧ o = .create o.cls := by
  obtain ⟨call, hcall, rfl⟩ := ha
  rcases call.leaves_cases h with heq | ⟨target, content, hchanges, hput⟩
  · rw [heq, hnone] at ho
    cases ho
  · have hcell := hput (.object r)
    by_cases htarget : .object r = target
    · rw [if_pos htarget] at hcell
      cases hchanges with
      | newObject c =>
        cases htarget
        obtain rfl : Instance.create c = o :=
          Option.some.inj ((content?_object_eq_some_iff.mp hcell).symm.trans ho)
        exact ⟨hcall, rfl⟩
      | newArray n => cases htarget
      | setField v ho' hk =>
        cases htarget
        cases hnone.symm.trans ho'
      | setElement v ha hk => cases htarget
    · rw [if_neg htarget] at hcell
      cases (hnone.symm.trans (object?_of_content? hcell).symm).trans ho

theorem Accessed.object?_of_some (haccessed : Accessed K h h') (ho : h.object? r = some o) :
    ∃ slots, h'.object? r = some ⟨o.cls, slots⟩ ∧ slots.size = o.slots.size := by
  induction haccessed with
  | refl => exact ⟨o.slots, ho, rfl⟩
  | tail _ haccess ih =>
    obtain ⟨slots, hslots, hsize⟩ := ih
    obtain ⟨slots', hslots', hsize'⟩ := haccess.object?_of_some hslots
    exact ⟨slots', hslots', hsize'.trans hsize⟩

theorem Accessed.object?_of_none (haccessed : Accessed K h h') (hnone : h.object? r = none)
    (ho : h'.object? r = some o) :
    K o.cls ∧ ∃ h₁, Accessed K h h₁ ∧ h₁.object? r = some (.create o.cls) ∧ Accessed K h₁ h' := by
  induction haccessed generalizing o with
  | refl => cases hnone.symm.trans ho
  | @tail h₂ h₃ hbefore haccess ih =>
    cases ho₂ : h₂.object? r with
    | none =>
      -- this access creates the object
      obtain ⟨hK, hcreate⟩ := haccess.object?_of_none ho₂ ho
      exact ⟨hK, h₃, hbefore.tail haccess, by rw [ho, ← hcreate], .refl⟩
    | some o₂ =>
      obtain ⟨slots, hslots, -⟩ := haccess.object?_of_some ho₂
      obtain rfl := Option.some.inj (hslots.symm.trans ho)
      obtain ⟨hK, h₁, hfirst, hcreate, hrest⟩ := ih ho₂
      exact ⟨hK, h₁, hfirst, hcreate, hrest.tail haccess⟩

/-- An object keeps its class and the number of its slots for good. -/
theorem Evolves.object?_of_some (hist : Evolves K h h') (ho : h.object? r = some o) :
    ∃ slots, h'.object? r = some ⟨o.cls, slots⟩ ∧ slots.size = o.slots.size :=
  hist.accessed.object?_of_some ho

/-- An object that has come into being had nulls in all slots then. -/
theorem Evolves.object?_of_none (hist : Evolves K h h') (hnone : h.object? r = none)
    (ho : h'.object? r = some o) :
    K o.cls ∧ ∃ h₁, Evolves K h h₁ ∧ h₁.object? r = some (.create o.cls) ∧ Evolves K h₁ h' := by
  obtain ⟨hK, h₁, hfirst, hcreate, hrest⟩ := hist.accessed.object?_of_none hnone ho
  exact ⟨hK, h₁, hfirst.evolves, hcreate, hrest.evolves⟩

end Heap

/-! ## Runs -/

section
variable {K : Class → Prop} {p : Program}

theorem Heap.evolves_of_tick (hp : p.Within K) (c : Config) : Evolves K c.heap (tick p c).heap := by
  cases hb : exhausted? p c.steps with
  | some budget =>
    rw [tick_of_exhausted hb]
    exact .refl
  | none =>
    have hevent : Event K c.heap ((step p).leaves ⟨c.active, c.heap⟩).heap :=
      .instruction hp c.active
    rw [tick_of_not_exhausted hb, Status.heap_proceed]
    unfold EStateM.leaves at hevent
    cases hs : step p ⟨c.active, c.heap⟩ <;> rw [hs] at hevent <;> exact .single hevent

theorem Heap.evolves_of_run (hp : p.Within K) (n : Nat) (c : Config) :
    Evolves K c.heap (run p n c).heap := by
  induction n generalizing c with
  | zero => exact .refl
  | succ n ih =>
    have htick := evolves_of_tick hp c
    cases h : tick p c with
    | finished o =>
      rw [run_succ_of_finished n h, ← h]
      exact htick
    | running d =>
      rw [h] at htick
      rw [run_succ_of_running n h]
      exact htick.trans (ih d)

theorem Heap.evolves_of_native {host : Host} (hhost : host.Accesses K) (name : String)
    (receiver : Option ObjectRef) (arguments : Array Value) (h : Heap) :
    Evolves K h ((host.native name receiver arguments).leaves h) :=
  .single (.native hhost name receiver arguments)

theorem Heap.evolves_of_execute (hp : p.Within K) {patience : Nat} {c : Call} {heap : Heap}
    {o : Outcome} (h : execute p patience c heap = some o) : Evolves K heap o.heap := by
  unfold execute at h
  cases hb : c.method.body with
  | native name =>
    have hnative := evolves_of_native hp.host name c.receiver c.arguments heap
    rw [hb] at h
    unfold EStateM.leaves at hnative
    cases hbody : p.host.native name c.receiver c.arguments heap <;>
      simp only [hbody] at h hnative <;> cases h <;> exact hnative
  | interpreted code =>
    have hrun := evolves_of_run hp patience (.start p c heap)
    rw [hb] at h
    cases hstatus : run p patience (.start p c heap) with
    | running d => simp [hstatus] at h
    | finished o' =>
      rw [hstatus] at hrun
      simp only [hstatus, Option.some.injEq] at h
      rw [← h]
      exact hrun

end

/-! ## Sessions -/

section
variable {K : Class → Prop} {w w' : World}

/-- The code of a world creates objects of classes that exist in it. -/
theorem World.Sound.within (hw : w.Sound) (hK : ∀ c ∈ w.classes, K c)
    (hhost : w.machine.program.host.Accesses K) : w.machine.program.Within K where
  classes _ c hc := hK c (hw.grown.mem_of_class? hc)
  host := hhost

/-- Whatever a request does to the heap is part of a history. -/
theorem World.Sound.heapLaw (hw : w.Sound) (hK : ∀ c ∈ w.classes, K c)
    (hhost : w.machine.program.host.Accesses K) : w.HeapLaw (Heap.Evolves K w.machine.heap) where
  unchanged := .refl
  accessed call hcall := by
    have hwithin : call.Within K := by
      cases call with
      | newObject c => exact hK c hcall
      | _ => trivial
    exact .single (.access call hwithin)
  native name receiver arguments := Heap.evolves_of_native hhost name receiver arguments _
  executed patience c o ho := Heap.evolves_of_execute (hw.within hK hhost) ho

theorem Session.host_eq {cs : List Class} (h : Session w cs w') (hw : w.Sound) :
    w'.machine.program.host = w.machine.program.host := by
  induction h with
  | none => rfl
  | serve h r hr hs ih =>
    have hsound := h.sound hw
    rw [World.host_of_serve hsound.builder hsound.frames hs, ih]

/-- The requests of a session make up a history. -/
theorem Session.evolves {cs : List Class} (h : Session w cs w') (hw : w.Sound)
    (hK : ∀ c ∈ w'.classes, K c) (hhost : w'.machine.program.host.Accesses K) :
    Heap.Evolves K w.machine.heap w'.machine.heap := by
  induction h with
  | none => exact .refl
  | serve h r hr hs ih =>
    have hsound := h.sound hw
    have hK₁ := fun c hc => hK c (World.mem_classes_of_serve hsound.frames hs hc)
    rw [World.host_of_serve hsound.builder hsound.frames hs] at hhost
    exact (ih hK₁ hhost).trans ((hsound.heapLaw hK₁ hhost).serve hsound hr hs)

end

/-- The native bodies of the basic host work on the heap through accesses only. -/
theorem Host.accesses_basic (K : Class → Prop) : basic.Accesses K := by
  intro name receiver arguments h
  have hset : ∀ r field v, Preserves (Heap.Accessed K h) (fun _ => True)
      (Heap.setField r field v) := by
    intro r field v h' hh'
    have hafter := hh'.trans (Heap.Accessed.setField r field v)
    unfold EStateM.leaves at hafter
    cases hr : Heap.setField r field v h' <;> rw [hr] at hafter
    · exact .ok trivial hafter
    · exact .error _ hafter
  exact (basic_preserves hset name receiver arguments).leaves .refl

end ObjectMachine
