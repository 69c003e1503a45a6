import ObjectMachine.Proofs.Handlers
import ObjectMachine.Proofs.Scanning

/-!
# Every trusted place exists

A machine that goes to the places it trusts without looking answers the requests of a session as the
machine does (`trusted_places_exist`). That it never goes to a place that is not there is a matter
of what a session has built up before: `World.Safe` is the invariant, `World.Safe.serve` the step,
`Session.safe` the whole session.
-/

namespace ObjectMachine

/-! ## Requests -/

namespace Trusting

/-- The call of the method of a class that answers to a name, which has to exist. -/
def callNamed (c : Class) (name : String) (receiver : Option ObjectRef) (arguments : Array Value) :
    Option (Except Fault Call) :=
  (method c name).map fun
    | some m => .ok ⟨m, receiver, arguments⟩
    | none => .error (.methodNotFound c.name name)

def find (m : Machine) : Target → Option (Except Fault Call)
  | .static className name arguments =>
    match m.classNamed className with
    | .ok c => callNamed c name none arguments
    | .error e => some (.error e)
  | .onObject r name arguments =>
    match m.heap.object? r with
    | some o => callNamed o.cls name (some r) arguments
    | none => some (.error (.methodNotFound "" name))
  | .entry =>
    match m.entryPoint with
    | none => some (.error (.methodNotFound missingEntry mainMethod))
    | some index =>
      match m.registry.classAt index with
      | .ok c => callNamed c mainMethod none #[]
      | .error e => some (.error e)
  | target => some (target.find m)

def access : HeapCall → Trusting Heap Value
  | .setField r field v => do
    setField r field v
    return .null
  | .getElement r index => fun h =>
    (getElement h r index).map fun
      | .ok v => .ok v h
      | .error e => .error e h
  | .setElement r index v => do
    setElement r index v
    return .null
  | call => lift call.make

def serve (w : World) : Request → Option (Option (Except Fault Reply × World))
  | .heap call =>
    (access call w.machine.heap).map fun
      | .ok v heap => some (.ok (.value v), w.withMachine { w.machine with heap })
      | .error e heap => some (.error e, w.withMachine { w.machine with heap })
  | .invoke patience target => do
    match ← find w.machine target with
    | .error e => some (some (.error e, w))
    | .ok c =>
      let o ← execute w.machine.program patience c w.machine.heap
      some (o.map fun o => (.value <$> o.result,
        w.settle o.heap o.steps (if c.method.body.isNative then w.frames else [])))
  | .begin r name arguments => do
    match ← find w.machine (.onObject r name arguments) with
    | .error e => some (some (.error e, w))
    | .ok c =>
      match c.method.body with
      | .native body =>
        match w.machine.program.host.native body (some r) arguments w.machine.heap with
        | .ok v heap => some (some (.ok (.value v), w.withMachine { w.machine with heap }))
        | .error e heap => some (some (.error e, w.withMachine { w.machine with heap }))
      | .interpreted _ => some (some (.ok (.pending ⟨c.method, r, arguments⟩), w))
  | r => some (w.serve r)

def load (data : List UInt8) (limits : Limits) (host : Host) : Option (Except Fault Machine) :=
  (Scan.decode data).map fun
    | .ok image => Machine.ofImage image limits host
    | .error e => .error (.load e)

theorem load_eq (data : List UInt8) (limits : Limits) (host : Host) :
    load data limits host = some (Machine.load data limits host) := by
  unfold load Machine.load
  rw [Scan.decode_eq]
  cases Image.decode data <;> rfl

theorem callNamed_eq {c : Class} (hc : c.Tidy) (name : String) (receiver : Option ObjectRef)
    (arguments : Array Value) :
    callNamed c name receiver arguments =
      some (do return ⟨← c.methodNamed name, receiver, arguments⟩) := by
  unfold callNamed Class.methodNamed
  rw [method_eq hc]
  cases c.method? name <;> rfl

end Trusting

/-- What holds of a world in a session: beside the classes, the objects are sound, and so are the
native bodies. -/
structure World.Safe (w : World) : Prop where
  sound : w.Sound
  heap : w.machine.heap.Sound
  host : w.machine.program.host.Sound

/-- The class in progress is tidy. -/
theorem World.Sound.tidy_inProgress {w : World} (h : w.Sound) {c : Class}
    (hc : w.builder.inProgress? = some c) : c.Tidy := by
  obtain ⟨d, hd, rfl⟩ := Option.map_eq_some_iff.mp hc
  obtain ⟨hdecl, hbase⟩ := h.draft d hd
  exact Class.tidy_derive _ hdecl fun b hb => h.tidy b (hbase b hb)

namespace World.Safe

variable {w w' : World} {r : Request} {answer : Except Fault Reply}

theorem tidy (h : w.Safe) {i : Nat} {c : Class} (hc : w.registry.class? i = some c) : c.Tidy :=
  h.sound.tidy c (h.sound.grown.mem_of_class? hc)

theorem program (h : w.Safe) : w.machine.program.Sound where
  lawful := h.sound.grown.lawful
  tidy c hc := by
    obtain ⟨i, hi⟩ := List.mem_iff_getElem?.mp hc
    rw [Array.getElem?_toList] at hi
    exact h.tidy hi
  host := h.host

theorem find_eq (h : w.Safe) (target : Target) :
    Trusting.find w.machine target = some (target.find w.machine) := by
  cases target with
  | static className name arguments =>
    dsimp only [Trusting.find, Target.find, Machine.staticCall]
    cases hc : w.machine.classNamed className with
    | error e => rfl
    | ok c =>
      obtain ⟨i, hi⟩ := Machine.exists_of_classNamed hc
      exact Trusting.callNamed_eq (h.tidy hi) name none arguments
  | onObject r name arguments =>
    dsimp only [Trusting.find, Target.find, Machine.objectCall]
    cases ho : w.machine.heap.object? r with
    | none => rfl
    | some o => exact Trusting.callNamed_eq (h.heap.object? ho).tidy name (some r) arguments
  | entry =>
    dsimp only [Trusting.find, Target.find, Machine.entryCall]
    cases w.machine.entryPoint with
    | none => rfl
    | some index =>
      dsimp only
      cases hc : w.machine.registry.classAt index with
      | error e => rfl
      | ok c =>
        have hi : w.registry.class? index = some c := by
          rw [Registry.class?, ← Array.getElem?_toList]
          exact classAt_eq_ok_iff.mp hc
        exact Trusting.callNamed_eq (h.tidy hi) mainMethod none #[]
  | _ => rfl

theorem access_sure (h : w.Safe) {call : HeapCall} (hcall : w.Allows (.heap call)) :
    Trusting.Sure Heap.Sound (fun _ => True) (Trusting.access call) call.make := by
  cases call with
  | newObject c =>
    exact .lift ((Preserves.newObject (h.sound.tidy c hcall)).map fun _ _ => trivial)
  | newArray length => exact .lift ((Preserves.newArray length).map fun _ _ => trivial)
  | getField r field =>
    refine .lift fun heap hh => ?_
    dsimp only [HeapCall.make]
    cases heap.getField r field with
    | ok v => exact .ok trivial hh
    | error e => exact .error e hh
  | setField r field v =>
    exact (Trusting.Sure.setField r field v).bind fun _ _ => .pure trivial
  | getElement r index =>
    refine ⟨fun heap hh => ?_, fun heap _ => ?_⟩
    · dsimp only [HeapCall.make]
      cases heap.getElement r index with
      | ok v => exact .ok trivial hh
      | error e => exact .error e hh
    · dsimp only [Trusting.access, HeapCall.make]
      rw [Trusting.getElement_eq]
      cases heap.getElement r index <;> rfl
  | setElement r index v =>
    exact (Trusting.Sure.setElement r index v).bind fun _ _ => .pure trivial

/-- A trusting request is the request. -/
theorem serve_eq (h : w.Safe) (hr : w.Allows r) : Trusting.serve w r = some (w.serve r) := by
  cases r with
  | heap call =>
    dsimp only [Trusting.serve, World.serve]
    rw [(h.access_sure hr).result _ h.heap, Option.map_some, Machine.onHeap]
    cases call.make w.machine.heap <;> rfl
  | invoke patience target =>
    dsimp only [Trusting.serve, World.serve]
    rw [h.find_eq target]
    cases target.find w.machine with
    | error e => rfl
    | ok c =>
      dsimp only [Option.bind_eq_bind, Option.bind_some]
      rw [(Trusting.execute_eq h.program patience c h.heap).1, World.execute_eq, Machine.execute]
      cases ObjectMachine.execute w.machine.program patience c w.machine.heap <;> rfl
  | begin receiver name arguments =>
    dsimp only [Trusting.serve, World.serve, Machine.begin]
    rw [h.find_eq (.onObject receiver name arguments)]
    dsimp only [Target.find]
    cases Machine.objectCall w.machine.heap receiver name arguments with
    | error e => rfl
    | ok c =>
      dsimp only [Option.bind_eq_bind, Option.bind_some]
      cases c.method.body with
      | interpreted code => rfl
      | native body =>
        dsimp only [Machine.onHeap, Functor.map, EStateM.map]
        cases w.machine.program.host.native body (some receiver) arguments w.machine.heap <;> rfl
  | _ => rfl

/-- The objects stay sound, whatever is done with the heap. -/
theorem heapLaw (h : w.Safe) : w.HeapLaw Heap.Sound where
  unchanged := h.heap
  accessed _ hcall := (h.access_sure hcall).preserves.leaves h.heap
  native name receiver arguments := Preserves.leaves (h.host name receiver arguments) h.heap
  executed patience c o ho := (Trusting.execute_eq h.program patience c h.heap).2 o ho

/-- Every request keeps what has to hold. -/
theorem serve (h : w.Safe) (hr : w.Allows r) (hs : w.serve r = some (answer, w')) : w'.Safe where
  sound := h.sound.serve hr hs
  heap := h.heapLaw.serve h.sound hr hs
  host := by
    rw [World.host_of_serve h.sound.builder h.sound.frames hs]
    exact h.host

end World.Safe

/-- There is no object yet when a session begins. -/
theorem World.Opened.heap_eq {w : World} (h : w.Opened) : w.machine.heap = {} := by
  have himage : ∀ {image limits host m}, Machine.ofImage image limits host = .ok m →
      m.heap = {} := by
    intro image limits host m hm
    obtain ⟨m₁, hm₁, rfl⟩ := ofImage_eq_ok_iff.mp hm
    change m₁.heap = {}
    rw [(linked_nil.foldlM hm₁).rest]
  cases h with
  | new limits host => rfl
  | loaded h =>
    obtain ⟨image, hm⟩ := Machine.ofImage_of_load h
    exact himage hm
  | linked h => exact himage h

theorem World.Opened.safe {w : World} (h : w.Opened) (hhost : w.machine.program.host.Sound) :
    w.Safe where
  sound := h.sound
  heap := by
    rw [h.heap_eq]
    simp [Heap.Sound]
  host := hhost

theorem Session.safe {w w' : World} {cs : List Class} (h : Session w cs w') (hw : w.Safe) :
    w'.Safe := by
  induction h with
  | none => exact hw
  | serve h r hr hs ih => exact ih.serve hr hs

/-- **No place is missing.** In any session, with native bodies that leave sound objects behind, a
machine that goes to the positions of members, the slots of fields, the indices of names and the
bytes of a buffer without looking answers every request as the machine does, whatever code it
executes. -/
theorem trusted_places_exist {w₀ w : World} {cs : List Class} (h₀ : w₀.Opened)
    (hhost : w₀.machine.program.host.Sound) (h : Session w₀ cs w) :
    (∀ data, Scan.decode data = some (Image.decode data)) ∧
    (∀ buffer calls,
      ReadCall.scanAll buffer calls 0 = some (ReadCall.readAll calls (.start buffer))) ∧
    (∀ data limits host, Trusting.load data limits host = some (Machine.load data limits host)) ∧
    (∀ c ∈ w.builder.inProgress?.toList ++ w.classes,
      (∀ l ∈ c.links, ∀ name i,
        (l.decl.fields.slot? name = some i → i < l.decl.fields.size) ∧
        (l.decl.methods.slot? name = some i → i < l.decl.methods.size)) ∧
      ∀ name, Trusting.field c name = some (c.field? name) ∧
        Trusting.method c name = some (c.method? name) ∧
        Trusting.resolve w.registry c name = some (w.registry.resolve? c name)) ∧
    (∀ o ∈ w.machine.heap.objects, ∀ field i, o.slot field = .ok i → i < o.slots.size) ∧
    (∀ name i, w.registry.indexOf? name = some i →
      i < w.registry.classes.size ∧ i < w.registry.tables.size) ∧
    (∀ c, Trusting.idOf w.registry c = some (w.registry.idOf? c)) ∧
    (∀ f i v, Trusting.argument f i = some (f.argument i) ∧
      Trusting.setArgument f i v = some (f.setArgument i v)) ∧
    (∀ op a b, Trusting.arith op a b = some (a.arith op b)) ∧
    (∀ op a b, Trusting.compare op a b = some (a.compare op b)) ∧
    (∀ i p codeSize op,
      (Handler.of op).action i p codeSize op = some <$> i.actionOf p codeSize op) ∧
    ∀ r, w.Allows r → Trusting.serve w r = some (w.serve r) := by
  have hsafe := h.safe (h₀.safe hhost)
  have hlawful := hsafe.program.lawful
  have htidy : ∀ c ∈ w.builder.inProgress?.toList ++ w.classes, c.Tidy := by
    intro c hc
    rcases List.mem_append.mp hc with hc | hc
    · exact hsafe.sound.tidy_inProgress (Option.mem_toList.mp hc)
    · exact hsafe.sound.tidy c hc
  refine ⟨Scan.decode_eq, fun buffer calls => ReadCall.scanAll_eq buffer calls (Nat.zero_le _),
    Trusting.load_eq, ?_, ?_, ?_, Trusting.idOf_eq hlawful, ?_, Trusting.arith_eq,
    Trusting.compare_eq, Handler.action_of, fun r hr => hsafe.serve_eq hr⟩
  · intro c hc
    have htidy := htidy c hc
    refine ⟨fun l hl name i => ⟨(htidy l hl).fields.slot_lt, (htidy l hl).methods.slot_lt⟩, ?_⟩
    exact fun name => ⟨Trusting.field_eq htidy name, Trusting.method_eq htidy name,
      Trusting.resolve_eq hlawful htidy name⟩
  · exact fun o ho field i hi => (hsafe.heap o ho).slot_lt hi
  · exact fun name i hi => hlawful.index_lt hi
  · exact fun f i v => ⟨Trusting.argument_eq f i, Trusting.setArgument_eq f i v⟩

/-! A counter is bumped by a native body, through a virtual call, and its field is changed after
that. -/

namespace Counted

def bump : Method := .native "Bump" .void [] "bump" .everyone

def poke : Method :=
  .interpreted "Poke" .void [] [] #[.of .ldArg [0], .of .callVirt [0, 0], .of .ret []] .everyone

def count : Field := { name := "count", type := .primitive .int32 }

def counter : Class :=
  .derive ⟨0⟩ { name := "Counter", fields := .ofList [count], methods := .ofList [bump, poke] } none

def opening : World := .opening (.empty {} .basic)

def final : World where
  builder :=
    { machine :=
        { program :=
            { registry := ({} : Registry).register counter
              limits := {}
              host := .basic }
          heap := { objects := #[⟨counter, #[.int32 1]⟩] }
          steps := 3
          nextStamp := 1 } }
  classes := [counter]

theorem session : Session opening [counter] final := by
  have h₁ := Session.none.serve (w := opening)
    (.define { name := "Counter" } [count] [bump, poke] none) (by simp [World.Allows]) rfl
  have h₂ := h₁.serve (.register counter) (List.mem_singleton.mpr rfl) rfl
  have h₃ := h₂.serve (.newObject "Counter") trivial rfl
  exact h₃.serve (.invoke 9 (.onObject ⟨0⟩ "Poke" #[])) trivial rfl

end Counted

theorem trusted_places_exist_counted :
    Session Counted.opening [Counted.counter] Counted.final ∧
    Counted.final.machine.program.host.Sound ∧
    (⟨Counted.counter, #[.int32 1]⟩ : Instance).slot "count" = .ok 0 ∧
    0 < (⟨Counted.counter, #[.int32 1]⟩ : Instance).slots.size ∧
    Trusting.serve Counted.final (.heap (.setField ⟨0⟩ "count" .null)) =
      some (Counted.final.serve (.heap (.setField ⟨0⟩ "count" .null))) := by
  obtain ⟨-, -, -, -, hslots, -, -, -, -, -, -, hserve⟩ :=
    trusted_places_exist (.new {} .basic) Host.sound_basic Counted.session
  have hslot : (⟨Counted.counter, #[.int32 1]⟩ : Instance).slot "count" = .ok 0 := rfl
  have hobject : ⟨Counted.counter, #[.int32 1]⟩ ∈ Counted.final.machine.heap.objects := by
    simp [Counted.final, World.machine]
  exact ⟨Counted.session, Host.sound_basic, hslot, hslots _ hobject _ _ hslot, hserve _ trivial⟩

end ObjectMachine
