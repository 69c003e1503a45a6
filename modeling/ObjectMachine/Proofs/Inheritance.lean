import ObjectMachine.Proofs.Histories

/-!
# Subclasses extend their bases

A class is a subclass of another one by identity: the identity of the other one occurs along its
chain. Among the classes that exist this means that the chain of the other one is the end of its
chain (`Machine.Grown.isSubclassOf_iff`), because a class derives from a class that exists and the
identity decides. The members of the root come first in every enumeration, so all members of the
base are there in the subclass, at the same places, and a method that can be called on the base can
be called on the subclass (`subclass_layouts`).
-/

namespace ObjectMachine

/-! ## Chains -/

namespace Machine.Grown

variable {m : Machine} {cs : List Class}

/-- The classes along the chain of a class that exists do exist. -/
theorem mem_of_suffix (h : m.Grown cs) {c b : Class} (hc : c ∈ cs) (hb : b.links <:+ c.links) :
    b ∈ cs := by
  induction h generalizing c with
  | empty limits host => cases hc
  | @define m cs h decl base hbase ih =>
    rcases List.mem_cons.mp hc with rfl | hc
    · -- the chain of the new class is its own declaration and the chain of its base
      rcases List.suffix_cons_iff.mp hb with heq | hb
      · obtain ⟨own, bases⟩ := b
        obtain ⟨rfl, rfl⟩ := List.cons.inj heq
        exact List.mem_cons_self
      · cases base with
        | none => cases List.suffix_nil.mp hb
        | some d => exact List.mem_cons_of_mem _ (ih (hbase d rfl) hb)
    · exact List.mem_cons_of_mem _ (ih hc hb)
  | register h hd ih => exact ih hc hb
  | other h hr hs ih => exact ih hc hb

/-- A subclass is one whose chain ends with the chain of the base. -/
theorem isSubclassOf_iff (h : m.Grown cs) {d b : Class} (hd : d ∈ cs) (hb : b ∈ cs) :
    d.isSubclassOf b = true ↔ b.links <:+ d.links := by
  constructor
  · intro hsub
    obtain ⟨l, hl, hid⟩ := List.any_eq_true.mp hsub
    obtain ⟨front, rest, hlinks⟩ := List.append_of_mem hl
    have hsuffix : (⟨l, rest⟩ : Class).links <:+ d.links := ⟨front, hlinks.symm⟩
    have hid' : (⟨l, rest⟩ : Class).id = b.id := eq_of_beq hid
    rw [← h.eq_of_id _ (h.mem_of_suffix hd hsuffix) b hb hid']
    exact hsuffix
  · intro hsuffix
    refine List.any_eq_true.mpr ⟨b.own, ?_, by simp [Class.id]⟩
    exact hsuffix.subset List.mem_cons_self

end Machine.Grown

/-! ## Members -/

/-- What is at a place is still there when more follows. -/
theorem getElem?_of_isPrefix {α : Type} {xs ys : List α} (h : xs <+: ys) {k : Nat} {a : α}
    (hk : xs[k]? = some a) : ys[k]? = some a := by
  obtain ⟨rest, rfl⟩ := h
  rw [List.getElem?_append_left (List.getElem?_eq_some_iff.mp hk).1, hk]

namespace Class

variable {d b : Class}

/-- What a chain ends with is enumerated first. -/
theorem membersOf_of_suffix {α : Type} (members : ClassDecl → Members α) (h : b.links <:+ d.links) :
    Link.membersOf members b.links <+: Link.membersOf members d.links := by
  obtain ⟨front, hfront⟩ := h
  rw [← hfront, Link.membersOf_append]
  exact List.prefix_append _ _

theorem allFields_of_suffix (h : b.links <:+ d.links) : b.allFields <+: d.allFields :=
  membersOf_of_suffix (·.fields) h

theorem allMethods_of_suffix (h : b.links <:+ d.links) : b.allMethods <+: d.allMethods :=
  membersOf_of_suffix (·.methods) h

/-- A name to which a member of the base answers is one to which a member of the subclass does. -/
theorem member?_of_suffix {α : Type} {members : ClassDecl → Members α} {name : String}
    (h : b.links <:+ d.links) (hb : (Link.member? members name b.links).isSome) :
    (Link.member? members name d.links).isSome := by
  obtain ⟨front, hfront⟩ := h
  rw [Link.member?] at hb
  rw [← hfront, Link.member?, List.findSome?_append, Option.isSome_or, hb, Bool.or_true]

theorem Tidy.fieldSlot?_of_suffix (hd : d.Tidy) (hb : b.Tidy) (h : b.links <:+ d.links)
    {name : String} (hname : (b.fieldSlot? name).isSome) : (d.fieldSlot? name).isSome := by
  rw [Option.isSome_iff_ne_none, Ne, hb.fieldsDeclared.fieldSlot?_eq_none_iff] at hname
  rw [Option.isSome_iff_ne_none, Ne, hd.fieldsDeclared.fieldSlot?_eq_none_iff]
  exact fun hnone => hname fun f hf => hnone f ((allFields_of_suffix h).subset hf)

/-- A method answers to the name of any method of the class. -/
theorem Tidy.exists_method? (h : d.Tidy) {m : Method} (hm : m ∈ d.allMethods) :
    ∃ target, d.method? m.name = some target := by
  cases hfound : d.method? m.name with
  | some target => exact ⟨target, rfl⟩
  | none =>
    have hdeclared : ∀ l ∈ d.links, l.decl.methods.Declared := fun l hl => (h l hl).methods
    exact absurd rfl ((Link.member?_eq_none_iff hdeclared).mp hfound m hm)

end Class

/-! ## Virtual calls -/

/-- The method at a place of the table of a registered class. -/
theorem Registry.Lawful.methodAt_eq_ok_iff {r : Registry} (h : r.Lawful) {index place : Nat}
    {c : Class} {m : Method} (hc : r.class? index = some c) :
    r.methodAt index place = .ok m ↔ c.allMethods[place]? = some m := by
  have htable : r.table? index = some c.allMethods.toArray := by rw [h.table?_eq, hc]; rfl
  simp only [methodAt, tableAt, htable, bind, Except.bind, List.getElem?_toArray]
  cases c.allMethods[place]? <;> simp [pure, Except.pure]

/-- A virtual call selects the method that answers to the name on the class. -/
theorem Machine.Grown.resolve?_eq {m : Machine} {cs : List Class} (h : m.Grown cs) {c : Class}
    (hc : c ∈ cs) (htidy : c.Tidy) (name : String) :
    m.registry.resolve? c name = c.method? name := by
  have hdeclared : ∀ l ∈ c.links, l.decl.methods.Declared := fun l hl => (htidy l hl).methods
  have hid : ∀ i d, m.registry.class? i = some d → d.id = c.id → d = c := fun i d hd =>
    h.eq_of_id d (h.mem_of_class? hd) c hc
  rw [Registry.resolve?_eq h.lawful hid hdeclared]
  exact (Link.method?_eq hdeclared).symm

/-- A virtual call through a place in the table of a class enters a method, whatever subclass the
receiver is of. -/
theorem Machine.Grown.step_callVirt {m : Machine} {cs : List Class} (h : m.Grown cs)
    (htidy : ∀ c ∈ cs, c.Tidy) {s : Activation} {i : Instruction} {k index : Nat} {c : Class}
    {declared : Method} {r : ObjectRef} {o : Instance} {base args : Array Value}
    (hexecutes : s.Executes i .callVirt) (hk : i.operand 0 = .ok k)
    (hindex : i.operand 1 = .ok index) (hc : m.registry.class? index = some c)
    (hm : c.allMethods[k]? = some declared) (ho : s.heap.object? r = some o) (hcls : o.cls ∈ cs)
    (hsub : o.cls.isSubclassOf c) (hstack : s.frame.stack.slots = base.push (.object r) ++ args)
    (hargs : args.size = declared.arity) :
    ∃ target, o.cls.method? declared.name = some target ∧
      step m.program s = Exec.dispatch m.program ⟨target, some r, args⟩ (s.withOperands base) := by
  have hsuffix := (h.isSubclassOf_iff hcls (h.mem_of_class? hc)).mp hsub
  have hmem : declared ∈ o.cls.allMethods :=
    (Class.allMethods_of_suffix hsuffix).subset (List.mem_of_getElem? hm)
  obtain ⟨target, htarget⟩ := (htidy o.cls hcls).exists_method? hmem
  have hresolve : m.program.registry.resolve? o.cls declared.name = some target :=
    (h.resolve?_eq hcls (htidy o.cls hcls) declared.name).trans htarget
  have hmethod : i.methodOperand m.program = .ok declared := by
    simp only [Instruction.methodOperand, hk, hindex, bind, Except.bind]
    exact (h.lawful.methodAt_eq_ok_iff hc).mpr hm
  have hperform := perform_callVirtual (p := m.program) ho hargs.symm hstack
  rw [hresolve] at hperform
  have hstep := hexecutes.step_of_operand m.program .callVirtual (fun _ => rfl) hmethod
  exact ⟨target, htarget, hstep.trans hperform⟩

/-- A call that is made fails because the native body does, or because there is no room for the
result. -/
theorem Exec.error_of_dispatch {p : Program} {c : Call} {s s' : Activation} {e : Fault}
    (h : dispatch p c s = .error e s') : c.FailsNatively p s.heap e ∨ e = .stackOverflow := by
  unfold dispatch at h
  cases hb : c.method.body with
  | interpreted code => rw [hb] at h; cases h
  | native name =>
    rw [hb] at h
    simp only [bind, EStateM.bind, onHeap] at h
    cases hn : p.host.native name c.receiver c.arguments s.heap with
    | error e' heap =>
      rw [hn] at h
      cases h
      exact .inl ⟨name, heap, hb, hn⟩
    | ok v heap =>
      simp only [hn, push, onStack] at h
      by_cases hroom : s.frame.stack.depth < s.frame.stack.limit
      · rw [Stack.push_of_lt v hroom] at h
        cases h
      · rw [Stack.push_of_le v (Nat.not_lt.mp hroom)] at h
        cases h
        exact .inr rfl

/-- An activation that code comes to when it runs in a world. -/
def World.Runs (w : World) (s : Activation) : Prop :=
  ∃ call n d, run w.machine.program n (.start w.machine.program call w.machine.heap) = .running d ∧
    s = ⟨d.active, d.heap⟩

/-- An object that running code comes across is of a class that exists. -/
theorem World.Sound.mem_of_runs {w₀ w : World} {cs : List Class} {s : Activation} {r : ObjectRef}
    {o : Instance} (hsound : w.Sound) (h₀ : w₀.Opened) (h : Session w₀ cs w)
    (hhost : w.machine.program.host.Accesses (· ∈ w.classes)) (hs : w.Runs s)
    (ho : s.heap.object? r = some o) : o.cls ∈ w.classes := by
  obtain ⟨call, n, d, hrun, rfl⟩ := hs
  have hsession := h.evolves (K := (· ∈ w.classes)) h₀.sound (fun _ hc => hc) hhost
  have hafter := Heap.evolves_of_run (hsound.within (fun _ hc => hc) hhost) n
    (.start w.machine.program call w.machine.heap)
  rw [hrun] at hafter
  have hist : Heap.Evolves (· ∈ w.classes) w₀.machine.heap d.heap := hsession.trans hafter
  exact (hist.object?_of_none (by rw [h₀.heap_eq]; rfl) ho).1

/-- **Subclasses extend their bases.** The fields and methods of a base are the first ones of every
subclass, so a slot and a place in the method table mean the same there. A virtual call in a session
never fails for want of a method, if the receiver is of a subclass of the class that the call names,
unless the native body that it enters fails so itself. -/
theorem subclass_layouts {w₀ w : World} {cs : List Class} (h₀ : w₀.Opened) (h : Session w₀ cs w)
    (hhost : w₀.machine.program.host.Accesses (· ∈ w.classes)) :
    (∀ d ∈ w.classes, ∀ b ∈ w.classes, d.isSubclassOf b →
      b.allFields <+: d.allFields ∧ b.allMethods <+: d.allMethods ∧
      (∀ (k : Nat) f, b.allFields[k]? = some f → d.allFields[k]? = some f) ∧
      (∀ i j k m, w.registry.class? i = some b → w.registry.class? j = some d →
        w.registry.methodAt i k = .ok m → w.registry.methodAt j k = .ok m) ∧
      ∀ name, ((b.field? name).isSome → (d.field? name).isSome) ∧
        ((b.fieldSlot? name).isSome → (d.fieldSlot? name).isSome) ∧
        ((b.method? name).isSome → (d.method? name).isSome)) ∧
    (∀ s i (k : Nat) index c m r o base args, w.Runs s → s.Executes i .callVirt →
      i.operand 0 = .ok k → i.operand 1 = .ok index → w.registry.class? index = some c →
      c.allMethods[k]? = some m → s.heap.object? r = some o → o.cls.isSubclassOf c →
      s.frame.stack.slots = base.push (.object r) ++ args → args.size = m.arity →
      ∃ target, o.cls.method? m.name = some target ∧
        step w.machine.program s =
          Exec.dispatch w.machine.program ⟨target, some r, args⟩ (s.withOperands base) ∧
        ∀ className name s',
          step w.machine.program s = .error (.methodNotFound className name) s' →
          Call.FailsNatively w.machine.program s.heap ⟨target, some r, args⟩
            (.methodNotFound className name)) := by
  have hsound := h.sound h₀.sound
  have hlawful : w.registry.Lawful := hsound.grown.lawful
  rw [← h.host_eq h₀.sound] at hhost
  refine ⟨fun d hd b hb hsub => ?_, ?_⟩
  · have hsuffix := (hsound.grown.isSubclassOf_iff hd hb).mp hsub
    have hmethods := Class.allMethods_of_suffix hsuffix
    have hfields := Class.allFields_of_suffix hsuffix
    refine ⟨hfields, hmethods, fun k f hf => ?_, fun i j k m hi hj hm => ?_, fun name => ?_⟩
    · exact getElem?_of_isPrefix hfields hf
    · rw [hlawful.methodAt_eq_ok_iff hi] at hm
      rw [hlawful.methodAt_eq_ok_iff hj]
      exact getElem?_of_isPrefix hmethods hm
    · exact ⟨Class.member?_of_suffix hsuffix,
        (hsound.tidy d hd).fieldSlot?_of_suffix (hsound.tidy b hb) hsuffix,
        Class.member?_of_suffix hsuffix⟩
  · intro s i k index c m r o base args hruns hexecutes hk hindex hc hm ho hsub hstack hargs
    have hcls : o.cls ∈ w.classes := hsound.mem_of_runs h₀ h hhost hruns ho
    obtain ⟨target, htarget, hstep⟩ := hsound.grown.step_callVirt hsound.tidy hexecutes hk hindex hc
      hm ho hcls hsub hstack hargs
    refine ⟨target, htarget, hstep, fun className name s' herror => ?_⟩
    rw [hstep] at herror
    rcases Exec.error_of_dispatch herror with hfails | hoverflow
    · exact hfails
    · cases hoverflow

/-! A method is called through the table of the base, on an object of a class that overrides it. -/

namespace Extended

def area : Method := .interpreted "Area" .void [] [] #[] .everyone

def check : Method :=
  .interpreted "Check" .void [] [] #[.of .ldArg [0], .of .callVirt [0, 0], .of .ret []] .everyone

def count : Method := .native "Area" .void [] "count" .everyone

def shape : Class := .derive ⟨0⟩ { name := "Shape", methods := .ofList [area, check] } none

def square : Class := .derive ⟨1⟩ { name := "Square", methods := .ofList [count] } (some shape)

def opening : World := .opening (.empty {} .basic)

def final : World where
  builder :=
    { machine :=
        { program :=
            { registry := (({} : Registry).register shape).register square
              limits := {}
              host := .basic }
          heap := { objects := #[.create square] }
          nextStamp := 2 } }
  classes := [square, shape]

theorem session : Session opening [shape, square] final := by
  have h₁ := Session.none.serve (w := opening) (.define { name := "Shape" } [] [area, check] none)
    (by simp [World.Allows]) rfl
  have h₂ := h₁.serve (.define { name := "Square" } [] [count] (some shape))
    (by rintro b ⟨⟩; exact List.mem_singleton.mpr rfl) rfl
  have h₃ := h₂.serve (.register shape) (List.mem_cons_of_mem _ (List.mem_singleton.mpr rfl)) rfl
  have h₄ := h₃.serve (.register square) List.mem_cons_self rfl
  exact h₄.serve (.newObject "Square") trivial rfl

/-- The call, with the receiver on the stack. -/
def calling : Activation where
  frame :=
    { Frame.enter check (some ⟨0⟩) #[] Stack.defaultLimit
      with stack := ⟨#[.object ⟨0⟩], Stack.defaultLimit⟩, pc := 1 }
  heap := { objects := #[.create square] }

theorem runs : final.Runs calling :=
  ⟨⟨check, some ⟨0⟩, #[]⟩, 1, ⟨calling.frame, .empty, calling.heap, 1⟩, rfl, rfl⟩

end Extended

theorem subclass_layouts_extended :
    Extended.shape.allMethods <+: Extended.square.allMethods ∧
    ∃ target, Extended.square.method? "Area" = some target ∧
      step Extended.final.machine.program Extended.calling =
        Exec.dispatch Extended.final.machine.program ⟨target, some ⟨0⟩, #[]⟩
          (Extended.calling.withOperands #[]) := by
  obtain ⟨hlayouts, hcalls⟩ :=
    subclass_layouts (.new {} .basic) Extended.session (Host.accesses_basic _)
  have hsub : Extended.square.isSubclassOf Extended.shape = true := by decide
  have hlayout := hlayouts Extended.square (by simp [Extended.final]) Extended.shape
    (by simp [Extended.final]) hsub
  obtain ⟨target, htarget, hstep, -⟩ := hcalls Extended.calling (.of .callVirt [0, 0]) 0 0
    Extended.shape Extended.area ⟨0⟩ (.create Extended.square) #[] #[] Extended.runs
    ⟨_, rfl, rfl, rfl⟩ rfl rfl rfl rfl rfl hsub rfl rfl
  exact ⟨hlayout.2.1, target, htarget, hstep⟩

end ObjectMachine
