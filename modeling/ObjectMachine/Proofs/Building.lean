import ObjectMachine.Host
import ObjectMachine.Machine.Builder
import ObjectMachine.Proofs.Computation

/-!
# Sessions of a builder

The calls of a builder as data, and what a session of them does. A call that fails leaves
everything as it was, so it may as well not have been made: a session comes to the same end, with
the same answers, when its failing calls are left out (`builder_misuse_atomic`).

For one call this is not plain. Ending a method takes the draft away before it asks for the class
that the method belongs to, so the draft would be lost if there were no class. The invariant
`Builder.Sound` excludes this: there is a method in progress only while there is a class in
progress. What a call can do from a sound builder is said once, in `make_spec`.
-/

namespace ObjectMachine

inductive BuilderCall where
  | beginClass (name : String) (base : Option String)
  | addField (name typeName : String)
  | beginMethod (name returnType : String)
  | addParameter (name typeName : String)
  | addLocal (name typeName : String)
  | emit (i : Instruction)
  | nativeBody (body : String)
  | endMethod
  | endClass
deriving DecidableEq, Repr

/-- Makes the call. The answer is the index of the class that was registered, if one was. -/
def BuilderCall.make : BuilderCall → BuilderM (Option Nat)
  | beginClass name base => do Builder.beginClass name base; return none
  | addField name typeName => do Builder.addField name typeName; return none
  | beginMethod name returnType => do Builder.beginMethod name returnType; return none
  | addParameter name typeName => do Builder.addParameter name typeName; return none
  | addLocal name typeName => do Builder.addLocal name typeName; return none
  | emit i => do Builder.emit i; return none
  | nativeBody body => do Builder.nativeBody body; return none
  | endMethod => do Builder.endMethod; return none
  | endClass => some <$> Builder.endClass

/-- The class that the name of a base means, if there is a name. -/
def Machine.baseNamed (m : Machine) : Option String → Except Fault (Option Class)
  | none => .ok none
  | some name => some <$> m.classNamed name

/-- A class that is found by its name is registered. -/
theorem Machine.exists_of_classNamed {m : Machine} {name : String} {c : Class}
    (h : m.classNamed name = .ok c) : ∃ i, m.registry.class? i = some c := by
  unfold classNamed at h
  split at h
  · rename_i hnamed
    cases h
    obtain ⟨i, -, hi⟩ := Option.bind_eq_some_iff.mp hnamed
    exact ⟨i, hi⟩
  · cases h

theorem Machine.exists_of_baseNamed {m : Machine} {baseName : Option String} {base : Option Class}
    (h : m.baseNamed baseName = .ok base) {c : Class} (hc : c ∈ base) :
    ∃ i, m.registry.class? i = some c := by
  cases baseName with
  | none =>
    cases h
    cases hc
  | some name =>
    obtain ⟨d, hd, rfl⟩ := ok_of_map h
    cases hc
    exact exists_of_classNamed hd

namespace Builder

/-- A builder on a machine, with nothing in progress. -/
def start (m : Machine) : Builder := { machine := m }

/-- A method is in progress only while a class is. -/
def Sound (b : Builder) : Prop := b.method.isSome → b.draft.isSome

/-! ## One call -/

/-- The type that a name means at the moment. -/
def typeOf (b : Builder) (name : String) : TypeRef := b.machine.registry.typeNamed name

/-- What a call can come to: it fails and everything is as it was, or it succeeds and changes one
thing. -/
inductive Made (b : Builder) : BuilderCall → EStateM.Result Fault Builder (Option Nat) → Prop
  | failed {call : BuilderCall} (e : Fault) : Made b call (.error e b)
  | classBegun {name : String} {baseName : Option String} {base : Option Class}
    (hc : b.draft = none) (hbase : b.machine.baseNamed baseName = .ok base) :
    Made b (.beginClass name baseName) (.ok none { b with draft := some ⟨{ name }, base⟩ })
  | field {name typeName : String} {c : ClassDraft} (hc : b.draft = some c) :
    Made b (.addField name typeName) (.ok none
      { b with
        draft := some { c with decl := c.decl.addField { name, type := b.typeOf typeName } } })
  | methodBegun {name returnType : String} (hc : b.draft.isSome) (hd : b.method = none) :
    Made b (.beginMethod name returnType)
      (.ok none { b with method := some { name, returns := b.typeOf returnType } })
  | parameter {name typeName : String} {d : MethodDraft} (hc : b.draft.isSome)
    (hd : b.method = some d) :
    Made b (.addParameter name typeName) (.ok none
      { b with
        method :=
          some { d with parameters := d.parameters ++ [{ name, type := b.typeOf typeName }] } })
  | localVariable {name typeName : String} {d : MethodDraft} (hc : b.draft.isSome)
    (hd : b.method = some d) :
    Made b (.addLocal name typeName) (.ok none
      { b with
        method :=
          some { d with locals := d.locals ++ [{ name, type := b.typeOf typeName }] } })
  | instruction {i : Instruction} {d : MethodDraft} (hc : b.draft.isSome) (hd : b.method = some d)
    (hbody : d.native = none) :
    Made b (.emit i) (.ok none { b with method := some { d with code := d.code.push i } })
  | native {body : String} {d : MethodDraft} (hc : b.draft.isSome) (hd : b.method = some d)
    (hbody : d.code = #[]) :
    Made b (.nativeBody body) (.ok none { b with method := some { d with native := some body } })
  /-- The method in progress becomes one of the class in progress. -/
  | declared {d : MethodDraft} {c : ClassDraft} (hd : b.method = some d) (hc : b.draft = some c) :
    Made b .endMethod (.ok none
      { b with method := none, draft := some { c with decl := c.decl.addMethod d.finish } })
  /-- The class in progress is registered. -/
  | registered {c : ClassDraft} (hm : b.method = none) (hc : b.draft = some c) :
    Made b .endClass (.ok (some b.machine.registry.size)
      { b with machine := (b.machine.install c.decl c.base).2, draft := none })

/-- Looking for the base class changes nothing, whether there is one or not. -/
theorem baseNamed_eq (baseName : Option String) (b : Builder) :
    baseNamed baseName b =
      match b.machine.baseNamed baseName with
      | .ok base => .ok base b
      | .error e => .error e b := by
  cases baseName with
  | none => rfl
  | some name =>
    have hget : (get : BuilderM Builder) b = .ok b b := rfl
    refine (EStateM.bind_of_ok hget).trans ?_
    dsimp only [Machine.baseNamed]
    cases b.machine.classNamed name <;> rfl

/-- A class can be begun if there is none in progress and its base is found. -/
theorem make_beginClass {b : Builder} (hc : b.draft = none) (name : String)
    (baseName : Option String) :
    (BuilderCall.beginClass name baseName).make b =
      match b.machine.baseNamed baseName with
      | .ok base => .ok none { b with draft := some ⟨{ name }, base⟩ }
      | .error e => .error e b := by
  obtain ⟨m, draft, method⟩ := b
  cases hc
  have hbegin : beginClass name baseName ⟨m, none, method⟩ =
      (baseNamed baseName >>= fun c => setClass ⟨{ name }, c⟩) ⟨m, none, method⟩ := rfl
  have hbase := baseNamed_eq baseName ⟨m, none, method⟩
  rw [BuilderCall.make]
  dsimp only at hbase ⊢
  cases h : m.baseNamed baseName with
  | error e =>
    rw [h] at hbase
    rw [EStateM.bind_of_error (hbegin.trans (EStateM.bind_of_error hbase))]
  | ok base =>
    rw [h] at hbase
    rw [EStateM.bind_of_ok (hbegin.trans (EStateM.bind_of_ok hbase))]
    rfl

theorem make_spec {b : Builder} (hb : b.Sound) (call : BuilderCall) :
    Made b call (call.make b) := by
  obtain ⟨m, draft, method⟩ := b
  cases call with
  | beginClass name baseName =>
    cases draft with
    | some d => exact .failed _
    | none =>
      rw [make_beginClass (b := ⟨m, none, method⟩) rfl]
      cases hbase : m.baseNamed baseName with
      | error e => exact .failed e
      | ok base => exact .classBegun rfl hbase
  | addField name typeName =>
    cases draft with
    | none => exact .failed _
    | some c => exact .field rfl
  | beginMethod name returnType =>
    cases draft with
    | none => exact .failed _
    | some c =>
      cases method with
      | some d => exact .failed _
      | none => exact .methodBegun rfl rfl
  | addParameter name typeName =>
    cases method with
    | none => exact .failed _
    | some d => exact .parameter (hb rfl) rfl
  | addLocal name typeName =>
    cases method with
    | none => exact .failed _
    | some d => exact .localVariable (hb rfl) rfl
  | emit i =>
    cases method with
    | none => exact .failed _
    | some d =>
      obtain ⟨dname, returns, parameters, locals, code, native⟩ := d
      cases native with
      | some body => exact .failed _
      | none => exact .instruction (hb rfl) rfl rfl
  | nativeBody body =>
    cases method with
    | none => exact .failed _
    | some d =>
      obtain ⟨dname, returns, parameters, locals, ⟨code⟩, native⟩ := d
      cases code with
      | cons i rest => exact .failed _
      | nil => exact .native (hb rfl) rfl rfl
  | endMethod =>
    cases method with
    | none => exact .failed _
    | some d =>
      -- without a class the draft of the method would be lost here
      cases draft with
      | none => cases hb rfl
      | some c => exact .declared rfl rfl
  | endClass =>
    cases method with
    | some d => exact .failed _
    | none =>
      cases draft with
      | none => exact .failed _
      | some c => exact .registered rfl rfl

/-- Something that holds of a class in progress from its beginning, with a registered base or none,
and when it gets more members. -/
structure DraftLaw (m : Machine) (P : ClassDraft → Prop) : Prop where
  begun : ∀ name base, (∀ c ∈ base, ∃ i, m.registry.class? i = some c) → P ⟨{ name }, base⟩
  field : ∀ d f, P d → P { d with decl := d.decl.addField f }
  method : ∀ d m, P d → P { d with decl := d.decl.addMethod m }

section
variable {b b' : Builder} {call : BuilderCall} {answer : Option Nat} {e : Fault}

/-- A call that fails leaves everything as it was. -/
theorem eq_of_make_error (hb : b.Sound) (h : call.make b = .error e b') : b' = b := by
  have hmade := make_spec hb call
  rw [h] at hmade
  cases hmade
  rfl

/-- A call that succeeds keeps the invariant. -/
theorem Sound.make (hb : b.Sound) (h : call.make b = .ok answer b') : b'.Sound := by
  have hmade := make_spec hb call
  rw [h] at hmade
  cases hmade with
  | classBegun | field | declared => exact fun _ => rfl
  | methodBegun hc | parameter hc | localVariable hc | instruction hc | native hc =>
    exact fun _ => hc
  | registered hm hc =>
    intro hmethod
    change b.method.isSome = true at hmethod
    rw [hm] at hmethod
    cases hmethod

/-- A call that succeeds leaves the machine alone, unless it ends a class. -/
theorem machine_of_make (hb : b.Sound) (h : call.make b = .ok answer b')
    (hcall : call ≠ .endClass) : b'.machine = b.machine := by
  have hmade := make_spec hb call
  rw [h] at hmade
  cases hmade with
  | registered => exact absurd rfl hcall
  | _ => rfl

/-- Ending a class registers one class, that of the draft, and changes nothing else about the
machine. -/
theorem machine_of_endClass (hb : b.Sound) (h : BuilderCall.endClass.make b = .ok answer b') :
    ∃ d, b.draft = some d ∧ answer = some b.machine.registry.size ∧
      b'.machine = (b.machine.install d.decl d.base).2 := by
  have hmade := make_spec hb .endClass
  rw [h] at hmade
  cases hmade with
  | registered hm hc => exact ⟨_, hc, rfl, rfl⟩

/-- A law of the class in progress is kept by every call that succeeds. -/
theorem DraftLaw.make {P : ClassDraft → Prop} (law : DraftLaw b.machine P) (hb : b.Sound)
    (hd : ∀ d ∈ b.draft, P d) (h : call.make b = .ok answer b') : ∀ d ∈ b'.draft, P d := by
  have hmade := make_spec hb call
  rw [h] at hmade
  cases hmade with
  | classBegun hc hbase =>
    rintro _ ⟨⟩
    exact law.begun _ _ fun c hc => Machine.exists_of_baseNamed hbase hc
  | field hc =>
    rintro _ ⟨⟩
    exact law.field _ _ (hd _ hc)
  | declared hm hc =>
    rintro _ ⟨⟩
    exact law.method _ _ (hd _ hc)
  | methodBegun | parameter | localVariable | instruction | native => exact hd
  | registered =>
    intro d hd
    cases hd

end

/-! ## Sessions -/

/-- Makes one call after the other, whether they fail or not: their answers, and the builder
afterwards. -/
def session : List BuilderCall → Builder → List (Except Fault (Option Nat)) × Builder
  | [], b => ([], b)
  | call :: rest, b =>
    match call.make b with
    | .ok answer b => (.ok answer :: (session rest b).1, (session rest b).2)
    | .error e b => (.error e :: (session rest b).1, (session rest b).2)

/-- The calls of a session that succeed. -/
def succeeding (calls : List BuilderCall) (b : Builder) : List BuilderCall :=
  ((calls.zip (session calls b).1).filter (·.2.isOk)).map Prod.fst

/-- After any calls a method is in progress only while a class is. -/
theorem Sound.session {b : Builder} (hb : b.Sound) (calls : List BuilderCall) :
    (session calls b).2.Sound := by
  induction calls generalizing b with
  | nil => exact hb
  | cons call rest ih =>
    rw [Builder.session]
    cases h : call.make b with
    | ok answer b' => exact ih (hb.make h)
    | error e b' =>
      cases eq_of_make_error hb h
      exact ih hb

/-- A session without its failing calls comes to the same end, with the answers of those calls that
succeeded. -/
theorem session_succeeding {b : Builder} (hb : b.Sound) (calls : List BuilderCall) :
    session (succeeding calls b) b =
      ((session calls b).1.filter (·.isOk), (session calls b).2) := by
  induction calls generalizing b with
  | nil => rfl
  | cons call rest ih =>
    cases h : call.make b with
    | ok answer b' =>
      have hsession : session (call :: rest) b =
          (.ok answer :: (session rest b').1, (session rest b').2) := by rw [session, h]
      have hkept : succeeding (call :: rest) b = call :: succeeding rest b' := by
        rw [succeeding, hsession]
        rfl
      rw [hkept, session, h, hsession]
      dsimp only
      rw [ih (hb.make h)]
      rfl
    | error e b' =>
      -- the failing call is left out and the rest begins where it would have begun anyway
      cases eq_of_make_error hb h
      have hsession : session (call :: rest) b =
          (.error e :: (session rest b).1, (session rest b).2) := by rw [session, h]
      have hkept : succeeding (call :: rest) b = succeeding rest b := by
        rw [succeeding, hsession]
        rfl
      rw [hkept, ih hb, hsession]
      rfl

theorem sound_start (m : Machine) : (start m).Sound := nofun

end Builder

/-- **Misuse of a builder is atomic.** After any calls, a further one that fails leaves everything
as it is, and one that succeeds leaves the machine as it is, unless it ends a class: then one new
class is appended to the registry. So a session without its failing calls comes to the same end,
with the same answers to the calls that are left. -/
theorem builder_misuse_atomic (m : Machine) (calls : List BuilderCall) :
    let b := (Builder.session calls (.start m)).2
    (b.method.isSome → b.draft.isSome) ∧
    (∀ (call : BuilderCall) (e : Fault) (b' : Builder), call.make b = .error e b' → b' = b) ∧
    (∀ (call : BuilderCall) (answer : Option Nat) (b' : Builder), call.make b = .ok answer b' →
      (call ≠ .endClass → b'.machine = b.machine) ∧
      (call = .endClass → ∃ d, b.draft = some d ∧ answer = some b.machine.registry.size ∧
        let c : Class := .derive ⟨b.machine.nextStamp⟩ d.decl d.base
        b'.machine.registry.classes = b.machine.registry.classes.push c ∧
        b'.machine = { b.machine with
          program := { b.machine.program with registry := b.machine.registry.register c }
          nextStamp := b.machine.nextStamp + 1 })) ∧
    Builder.session (Builder.succeeding calls (.start m)) (.start m) =
      ((Builder.session calls (.start m)).1.filter (·.isOk), b) := by
  intro b
  have hb : b.Sound := (Builder.sound_start m).session calls
  refine ⟨hb, fun call e b' h => Builder.eq_of_make_error hb h, ?_,
    Builder.session_succeeding (Builder.sound_start m) calls⟩
  intro call answer b' h
  refine ⟨Builder.machine_of_make hb h, ?_⟩
  rintro rfl
  obtain ⟨d, hd, hanswer, hmachine⟩ := Builder.machine_of_endClass hb h
  exact ⟨d, hd, hanswer, by rw [hmachine]; rfl, hmachine⟩

theorem builder_misuse_atomic_interrupted :
    let m : Machine := .empty {} .basic
    let calls : List BuilderCall :=
      [.endMethod, .beginClass "A" none, .beginClass "B" none, .beginMethod "F" "int32", .endClass,
        .endMethod, .beginClass "C" (some "Missing"), .endClass]
    let b := (Builder.session (calls.take 4) (.start m)).2
    (∃ e b', BuilderCall.endClass.make b = .error e b' ∧ b' = b) ∧
    Builder.succeeding calls (.start m) =
      [.beginClass "A" none, .beginMethod "F" "int32", .endMethod, .endClass] ∧
    (Builder.session (Builder.succeeding calls (.start m)) (.start m)).1 =
      [.ok none, .ok none, .ok none, .ok (some 0)] := by
  intro m calls b
  refine ⟨⟨_, _, rfl, (builder_misuse_atomic m (calls.take 4)).2.1 .endClass _ _ rfl⟩, rfl, ?_⟩
  exact (congrArg Prod.fst (builder_misuse_atomic m calls).2.2.2).trans rfl

end ObjectMachine
