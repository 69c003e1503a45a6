import ObjectMachine.Proofs.Requests

/-!
# What holds of a world in a session

`World.Sound` is the invariant of sessions. Its core is `Machine.Grown`, by which the identity of a
class decides among all classes that exist. It holds where a session begins (`World.Opened.sound`),
on a new machine as on a loaded one, and every request keeps it (`World.Sound.serve`). What holds of
the heap is a matter of the few requests that work on it (`World.HeapLaw.serve`).
-/

namespace ObjectMachine

/-! ## Classes whose members were declared one after the other -/

/-- The index of names is that of the members, for fields and for methods. -/
structure ClassDecl.Tidy (d : ClassDecl) : Prop where
  fields : d.fields.Declared
  methods : d.methods.Declared

/-- All declarations along the chain are tidy. -/
def Class.Tidy (c : Class) : Prop := ∀ l ∈ c.links, l.decl.Tidy

theorem Class.tidy_derive (id : ClassId) {decl : ClassDecl} {base : Option Class}
    (hdecl : decl.Tidy) (hbase : ∀ b ∈ base, b.Tidy) : (derive id decl base).Tidy := by
  intro l hl
  rcases List.mem_cons.mp hl with rfl | hl
  · exact hdecl
  · cases base with
    | none => cases hl
    | some b => exact hbase b rfl l hl

theorem ClassDecl.Tidy.addField {d : ClassDecl} (h : d.Tidy) (f : Field) : (d.addField f).Tidy :=
  ⟨h.fields.add f, h.methods⟩

theorem ClassDecl.Tidy.addMethod {d : ClassDecl} (h : d.Tidy) (m : Method) :
    (d.addMethod m).Tidy := ⟨h.fields, h.methods.add m⟩

theorem ClassDecl.tidy_ofList (d : ClassDecl) (fields : List Field) (methods : List Method) :
    ClassDecl.Tidy { d with fields := .ofList fields, methods := .ofList methods } :=
  ⟨Members.declared_ofList fields, Members.declared_ofList methods⟩

/-! ## The invariant of sessions -/

namespace World

variable {w w' : World} {r : Request} {answer : Except Fault Reply}

/-- What holds of a world in a session: the identity decides among its classes, their members were
declared one after the other, the class in progress derives from a class that exists, and there is
no frame. -/
structure Sound (w : World) : Prop where
  grown : w.machine.Grown w.classes
  tidy : ∀ c ∈ w.classes, c.Tidy
  builder : w.builder.Sound
  draft : ∀ d ∈ w.builder.draft, d.decl.Tidy ∧ ∀ c ∈ d.base, c ∈ w.classes
  frames : w.frames = []

theorem Sound.settle (h : w.Sound) (heap : Heap) (steps : Nat) :
    (w.settle heap steps []).Sound where
  grown := h.grown.other rfl rfl
  tidy := h.tidy
  builder := h.builder
  draft := h.draft
  frames := rfl

/-- What the class in progress has to satisfy is a law of drafts. -/
theorem Sound.draftLaw (h : w.Sound) :
    Builder.DraftLaw w.machine fun d => d.decl.Tidy ∧ ∀ c ∈ d.base, c ∈ w.classes where
  begun name base hbase := by
    refine ⟨⟨.none, .none⟩, fun c hc => ?_⟩
    obtain ⟨i, hi⟩ := hbase c hc
    exact h.grown.mem_of_class? hi
  field d f hd := ⟨hd.1.addField f, hd.2⟩
  method d m hd := ⟨hd.1.addMethod m, hd.2⟩

/-- A builder call keeps the invariant. -/
theorem Sound.build (h : w.Sound) {call : BuilderCall} {index : Option Nat} {b : Builder}
    (hmake : call.make w.builder = .ok index b) :
    Sound { w with builder := b, classes := w.registers (.build call) ++ w.classes } := by
  have hsound := h.builder.make hmake
  have hdraft := h.draftLaw.make h.builder h.draft hmake
  by_cases hcall : call = .endClass
  · subst hcall
    have hmade := Builder.make_spec h.builder .endClass
    rw [hmake] at hmade
    cases hmade with
    | @registered c hm hc =>
      obtain ⟨hdecl, hbase⟩ := h.draft c hc
      have hregisters : w.registers (.build .endClass) =
          [(w.machine.define c.decl c.base).1] := by
        simp [registers, added?, hm, Builder.inProgress?, hc]
        rfl
      have hgrown := h.grown.define c.decl c.base hbase
      rw [hregisters]
      refine ⟨hgrown.register List.mem_cons_self, ?_, hsound, by simp, h.frames⟩
      intro d hd
      rcases List.mem_cons.mp hd with rfl | hd
      · exact Class.tidy_derive _ hdecl fun b hb => h.tidy b (hbase b hb)
      · exact h.tidy d hd
  · have hmachine := Builder.machine_of_make h.builder hmake hcall
    have hregisters : w.registers (.build call) = [] := by
      cases call with
      | endClass => exact absurd rfl hcall
      | _ => rfl
    rw [hregisters, List.nil_append]
    exact ⟨h.grown.other (congrArg Machine.registry hmachine) (congrArg Machine.nextStamp hmachine),
      h.tidy, hsound, hdraft, h.frames⟩

/-- Every request keeps the invariant. -/
theorem Sound.serve (h : w.Sound) (hr : w.Allows r) (hs : w.serve r = some (answer, w')) :
    w'.Sound := by
  cases haccess : r.isAccess with
  | true =>
    obtain ⟨heap, steps, rfl⟩ := settle_of_serve haccess h.frames hs
    exact h.settle heap steps
  | false =>
    cases r with
    | define decl fields methods base =>
      cases hs
      refine ⟨h.grown.define _ base hr, ?_, h.builder, ?_, h.frames⟩
      · intro c hc
        rcases List.mem_cons.mp hc with rfl | hc
        · exact Class.tidy_derive _ (decl.tidy_ofList fields methods) fun b hb => h.tidy b (hr b hb)
        · exact h.tidy c hc
      · intro d hd
        obtain ⟨hdecl, hbase⟩ := h.draft d hd
        exact ⟨hdecl, fun c hc => List.mem_cons_of_mem _ (hbase c hc)⟩
    | register c =>
      cases hs
      exact ⟨h.grown.register hr, h.tidy, h.builder, h.draft, h.frames⟩
    | addString s =>
      cases hs
      exact ⟨h.grown.other rfl rfl, h.tidy, h.builder, h.draft, h.frames⟩
    | addConstant v =>
      cases hs
      exact ⟨h.grown.other rfl rfl, h.tidy, h.builder, h.draft, h.frames⟩
    | newBuilder =>
      cases hs
      exact ⟨h.grown, h.tidy, Builder.sound_start _, by simp [Builder.start], h.frames⟩
    | build call =>
      unfold World.serve at hs
      dsimp only at hs
      split at hs
      · rename_i heq
        cases hs
        exact h.build heq
      · rename_i heq
        cases hs
        rw [Builder.eq_of_make_error h.builder heq]
        exact ⟨h.grown, h.tidy, h.builder, h.draft, h.frames⟩
    | _ => cases haccess

/-- Something that holds of the heap, and of what an access, a native body or an execution leaves of
it. -/
structure HeapLaw (w : World) (P : Heap → Prop) : Prop where
  unchanged : P w.machine.heap
  accessed : ∀ call, w.Allows (.heap call) → P (call.make.leaves w.machine.heap)
  native : ∀ name receiver arguments,
    P ((w.machine.program.host.native name receiver arguments).leaves w.machine.heap)
  executed : ∀ patience c o,
    ObjectMachine.execute w.machine.program patience c w.machine.heap = some o → P o.heap

/-- A builder call leaves the heap alone. -/
theorem heap_of_make (hb : w.builder.Sound) {call : BuilderCall} {index : Option Nat} {b : Builder}
    (hmake : call.make w.builder = .ok index b) : b.machine.heap = w.machine.heap := by
  by_cases hcall : call = .endClass
  · subst hcall
    obtain ⟨d, -, -, hmachine⟩ := Builder.machine_of_endClass hb hmake
    rw [hmachine]
    rfl
  · rw [Builder.machine_of_make hb hmake hcall]
    rfl

/-- A law of the heap holds after every request. -/
theorem HeapLaw.serve {P : Heap → Prop} (law : w.HeapLaw P) (hw : w.Sound) (hr : w.Allows r)
    (hs : w.serve r = some (answer, w')) : P w'.machine.heap := by
  cases r with
  | define | register | addString | addConstant | newBuilder =>
    cases hs
    exact law.unchanged
  | build call =>
    dsimp only [World.serve] at hs
    split at hs
    · rename_i index b hmake
      cases hs
      change P b.machine.heap
      rw [heap_of_make hw.builder hmake]
      exact law.unchanged
    · rename_i hmake
      cases hs
      rw [Builder.eq_of_make_error hw.builder hmake]
      exact law.unchanged
  | newObject className =>
    cases hs
    change P (w.machine.newObject className).2.heap
    unfold Machine.newObject
    split
    · rename_i c hc
      obtain ⟨i, hi⟩ := Machine.exists_of_classNamed hc
      have hnew := law.accessed (.newObject c) (hw.grown.mem_of_class? hi)
      rw [HeapCall.make, EStateM.leaves_map] at hnew
      rw [Machine.heap_onHeap]
      exact hnew
    · exact law.unchanged
  | heap call =>
    cases hs
    change P (w.machine.onHeap call.make).2.heap
    rw [Machine.heap_onHeap]
    exact law.accessed call hr
  | invoke patience target =>
    dsimp only [World.serve] at hs
    split at hs
    · rename_i c _
      rw [execute_eq, Machine.execute] at hs
      cases ho : ObjectMachine.execute w.machine.program patience c w.machine.heap with
      | none => rw [ho] at hs; cases hs
      | some o =>
        rw [ho] at hs
        cases hs
        exact law.executed patience c o ho
    · cases hs
      exact law.unchanged
  | begin receiver name arguments =>
    cases hs
    change P (w.machine.begin receiver name arguments).2.heap
    unfold Machine.begin
    split
    · exact law.unchanged
    · split
      · rw [Machine.heap_onHeap, EStateM.leaves_map]
        exact law.native _ _ _
      · exact law.unchanged

end World

/-! ## Where a session begins -/

/-- The classes of a machine, the newest first. -/
def Machine.known (m : Machine) : List Class := m.registry.classes.toList.reverse

/-- The members of a linked type are tidy, and its base is a class of the machine. -/
theorem Machine.tidy_of_linkType {m : Machine} {t : TypeRecord} {decl : ClassDecl}
    {base : Option Class} (h : m.program.linkType t = .ok (decl, base)) :
    decl.Tidy ∧ ∀ b ∈ base, b ∈ m.known := by
  obtain ⟨name, -, h⟩ := ok_of_bind h
  obtain ⟨base', hbase, h⟩ := ok_of_bind h
  obtain ⟨fields, -, h⟩ := ok_of_bind h
  obtain ⟨methods, -, h⟩ := ok_of_bind h
  cases h
  refine ⟨⟨Members.declared_ofList fields, Members.declared_ofList methods⟩, ?_⟩
  have hderives := linkBase_eq_ok_iff.mp hbase
  cases hderives with
  | root => simp
  | base _ hb =>
    rintro _ ⟨⟩
    exact List.mem_reverse.mpr (List.mem_of_getElem? hb)

/-- A machine beside which there are exactly the classes that it has registered. -/
structure Machine.Closed (m : Machine) : Prop where
  grown : m.Grown m.known
  tidy : ∀ c ∈ m.known, c.Tidy

namespace Machine.Closed

theorem empty (limits : Limits) (host : Host) : (Machine.empty limits host).Closed :=
  ⟨.empty limits host, by simp [Machine.known, Machine.empty, Machine.registry]⟩

/-- What else is done with the machine does not matter. -/
theorem other {m m' : Machine} (h : m.Closed) (hr : m'.registry = m.registry)
    (hs : m'.nextStamp = m.nextStamp) : m'.Closed := by
  have hknown : m'.known = m.known := by rw [Machine.known, hr, Machine.known]
  exact ⟨by rw [hknown]; exact h.grown.other hr hs, by rw [hknown]; exact h.tidy⟩

theorem linkType {m m' : Machine} {t : TypeRecord} (h : m.Closed) (ht : m.linkType t = .ok m') :
    m'.Closed := by
  obtain ⟨⟨decl, base⟩, hlink, hm'⟩ := ok_of_bind ht
  obtain ⟨hdecl, hbase⟩ := tidy_of_linkType hlink
  cases hm'
  have hknown : (m.install decl base).2.known = (m.define decl base).1 :: m.known := by
    change (m.registry.classes.push _).toList.reverse = _
    rw [Array.toList_push, List.reverse_append]
    rfl
  refine ⟨?_, ?_⟩
  · rw [hknown]
    exact (h.grown.define decl base hbase).register List.mem_cons_self
  · intro c hc
    rw [hknown] at hc
    rcases List.mem_cons.mp hc with rfl | hc
    · exact Class.tidy_derive _ hdecl fun b hb => h.tidy b (hbase b hb)
    · exact h.tidy c hc

theorem foldlM {m m' : Machine} {types : List TypeRecord} (h : m.Closed)
    (hm : types.foldlM Machine.linkType m = .ok m') : m'.Closed := by
  induction types generalizing m with
  | nil =>
    cases hm
    exact h
  | cons t types ih =>
    rw [List.foldlM_cons] at hm
    obtain ⟨m₁, ht, hm⟩ := ok_of_bind hm
    exact ih (h.linkType ht) hm

theorem ofImage {image : Image} {limits : Limits} {host : Host} {m : Machine}
    (h : Machine.ofImage image limits host = .ok m) : m.Closed := by
  obtain ⟨m₁, hm₁, rfl⟩ := ofImage_eq_ok_iff.mp h
  have hstrings : Machine.Closed
      { Machine.empty limits host with
        program := { (Machine.empty limits host).program with
          strings := image.strings.toArray } } := (empty limits host).other rfl rfl
  exact (hstrings.foldlM hm₁).other rfl rfl

end Machine.Closed

theorem Machine.ofImage_of_load {data : List UInt8} {limits : Limits} {host : Host} {m : Machine}
    (h : load data limits host = .ok m) : ∃ image, ofImage image limits host = .ok m := by
  unfold load at h
  split at h
  · exact ⟨_, h⟩
  · cases h

namespace World

theorem sound_opening {m : Machine} (h : m.Closed) : (opening m).Sound where
  grown := h.grown
  tidy := h.tidy
  builder := Builder.sound_start m
  draft := by simp [opening, Builder.start]
  frames := rfl

theorem Opened.sound {w : World} (h : w.Opened) : w.Sound := by
  cases h with
  | new limits host => exact sound_opening (.empty limits host)
  | loaded h =>
    obtain ⟨image, himage⟩ := Machine.ofImage_of_load h
    exact sound_opening (.ofImage himage)
  | linked h => exact sound_opening (.ofImage h)

end World

end ObjectMachine
