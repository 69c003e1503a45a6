import ObjectMachine.Proofs.Building
import ObjectMachine.Proofs.Linking

/-!
# Building what could be linked

There are two ways to a class: a record of an image is linked, or a builder is called step by step.
`TypeRecord.script` is the sequence of builder calls that spells a record out, and the two ways
agree: as far as a builder can express a record at all, its script succeeds and leaves the machine
that linking leaves (`script_agrees_with_link`).

What the linker makes of a record is first said without the linker's checks, as the members that the
names in the record mean (`Program.fieldOf`, `Program.variableOf`, `Program.methodOf`). The script
is then followed part by part; `Builder.Leads` says where a part leads.
-/

namespace ObjectMachine

/-! ## The script of a record -/

/-- The text with an index; empty if there is none. -/
def Program.text (p : Program) (index : UInt32) : String := p.strings[index.toNat]?.getD ""

section
variable (text : UInt32 → String)

/-- The calls that declare the method of a record. -/
def MethodRecord.script (r : MethodRecord) : List BuilderCall :=
  .beginMethod (text r.name) (text r.returns) ::
    (r.parameters.map (fun v => .addParameter (text v.name) (text v.type)) ++
      r.locals.map (fun v => .addLocal (text v.name) (text v.type)) ++
      r.code.map .emit ++ [.endMethod])

/-- The calls that declare the members of a record. -/
def TypeRecord.memberScript (t : TypeRecord) : List BuilderCall :=
  t.fields.map (fun f => .addField (text f.name) (text f.type)) ++
    t.methods.flatMap (MethodRecord.script text)

/-- The calls that build the class of a record, whose base class is given by name. -/
def TypeRecord.script (base : Option String) (t : TypeRecord) : List BuilderCall :=
  .beginClass (text t.name) base :: t.memberScript text ++ [.endClass]

end

/-- A record that says nothing which a builder cannot say: it is a class, everything in it is
accessible to everyone, and it has neither interfaces nor a namespace. -/
structure TypeRecord.Plain (strings : Array String) (t : TypeRecord) : Prop where
  kind : t.kind = 0
  access : t.access = 0
  fields : ∀ f ∈ t.fields, f.access = 0
  methods : ∀ m ∈ t.methods, m.access = 0
  interfaces : t.interfaces = []
  space : ∀ s, strings[t.space.toNat]? = some s → s = ""

instance (strings : Array String) (t : TypeRecord) : Decidable (t.Plain strings) :=
  decidable_of_iff
    (t.kind = 0 ∧ t.access = 0 ∧ (∀ f ∈ t.fields, f.access = 0) ∧ (∀ m ∈ t.methods, m.access = 0) ∧
      t.interfaces = [] ∧ ∀ s ∈ strings[t.space.toNat]?, s = "")
    ⟨fun ⟨kind, access, fields, methods, interfaces, space⟩ =>
        ⟨kind, access, fields, methods, interfaces, space⟩,
      fun ⟨kind, access, fields, methods, interfaces, space⟩ =>
        ⟨kind, access, fields, methods, interfaces, space⟩⟩

/-! ## What the linker makes of a record -/

namespace Program

variable (p : Program)

def fieldOf (r : FieldRecord) : Field :=
  { name := p.text r.name, type := p.registry.typeNamed (p.text r.type) }

def variableOf (r : VariableRecord) : Variable :=
  { name := p.text r.name, type := p.registry.typeNamed (p.text r.type) }

def methodOf (r : MethodRecord) : Method :=
  .interpreted (p.text r.name) (p.registry.typeNamed (p.text r.returns))
    (r.parameters.map p.variableOf) (r.locals.map p.variableOf) r.code.toArray .everyone

/-- The declaration that a plain record means. -/
def declOf (t : TypeRecord) : ClassDecl where
  name := p.text t.name
  fields := .ofList (t.fields.map p.fieldOf)
  methods := .ofList (t.methods.map p.methodOf)

end Program

section
variable {p : Program}

theorem eq_text_of_nameAt {index : UInt32} {s : String} (h : p.nameAt index = .ok s) :
    s = p.text index := by
  rw [nameAt_eq_ok_iff, Array.getElem?_toList] at h
  rw [Program.text, h, Option.getD_some]

theorem eq_of_typeAt {index : UInt32} {t : TypeRef} (h : p.typeAt index = .ok t) :
    t = p.registry.typeNamed (p.text index) := by
  obtain ⟨name, hname, h⟩ := ok_of_bind h
  cases h
  rw [eq_text_of_nameAt hname]

/-- Records that are linked one by one, each to what it means. -/
theorem eq_map_of_mapM {α β : Type} {f : α → Except Fault β} {g : α → β} {xs : List α} {ys : List β}
    (h : xs.mapM f = .ok ys) (hg : ∀ x ∈ xs, ∀ y, f x = .ok y → y = g x) : ys = xs.map g := by
  have hlinked := mapM_eq_ok_iff.mp h
  clear h
  induction hlinked with
  | nil => rfl
  | @cons x y xs ys hxy _ ih =>
    obtain ⟨hx, hxs⟩ := List.forall_mem_cons.mp hg
    rw [List.map_cons, ← hx y hxy, ← ih hxs]

theorem eq_fieldOf_of_linkField {r : FieldRecord} {f : Field} (h : p.linkField r = .ok f)
    (ha : r.access = 0) : f = p.fieldOf r := by
  obtain ⟨name, hname, h⟩ := ok_of_bind h
  obtain ⟨type, htype, h⟩ := ok_of_bind h
  cases h
  rw [eq_text_of_nameAt hname, eq_of_typeAt htype, ha]
  rfl

theorem eq_variablesOf_of_mapM {rs : List VariableRecord} {vs : List Variable}
    (h : rs.mapM p.linkVariable = .ok vs) : vs = rs.map p.variableOf := by
  refine eq_map_of_mapM h fun r _ v hv => ?_
  obtain ⟨name, hname, hv⟩ := ok_of_bind hv
  obtain ⟨type, htype, hv⟩ := ok_of_bind hv
  cases hv
  rw [eq_text_of_nameAt hname, eq_of_typeAt htype]
  rfl

theorem eq_methodOf_of_linkMethod {r : MethodRecord} {m : Method} (h : p.linkMethod r = .ok m)
    (ha : r.access = 0) : m = p.methodOf r := by
  obtain ⟨name, hname, h⟩ := ok_of_bind h
  obtain ⟨returns, hreturns, h⟩ := ok_of_bind h
  obtain ⟨parameters, hparameters, h⟩ := ok_of_bind h
  obtain ⟨locals, hlocals, h⟩ := ok_of_bind h
  cases h
  rw [eq_text_of_nameAt hname, eq_of_typeAt hreturns, eq_variablesOf_of_mapM hparameters,
    eq_variablesOf_of_mapM hlocals, ha]
  rfl

/-- A plain record that can be linked becomes the declaration of the members that it means. -/
theorem decl_of_linkType {t : TypeRecord} {decl : ClassDecl} {base : Option Class}
    (h : p.linkType t = .ok (decl, base)) (ht : t.Plain p.strings) :
    decl = p.declOf t := by
  obtain ⟨name, hname, h⟩ := ok_of_bind h
  obtain ⟨base', -, h⟩ := ok_of_bind h
  obtain ⟨fields, hfields, h⟩ := ok_of_bind h
  obtain ⟨methods, hmethods, h⟩ := ok_of_bind h
  cases h
  have hspace : p.linkSpace t = none := by
    rw [Program.linkSpace]
    cases hs : p.strings[t.space.toNat]? with
    | none => rfl
    | some s => rw [ht.space s hs]; rfl
  have hinterfaces : p.linkInterfaces t = [] := by
    rw [Program.linkInterfaces, ht.interfaces]
    rfl
  rw [eq_text_of_nameAt hname, hspace, hinterfaces, ht.kind, ht.access,
    eq_map_of_mapM hfields fun r hr f hf => eq_fieldOf_of_linkField hf (ht.fields r hr),
    eq_map_of_mapM hmethods fun r hr m hm => eq_methodOf_of_linkMethod hm (ht.methods r hr)]
  rfl

end

/-! ## Where a script leads -/

namespace Builder

theorem session_append (xs ys : List BuilderCall) (b : Builder) :
    session (xs ++ ys) b =
      ((session xs b).1 ++ (session ys (session xs b).2).1, (session ys (session xs b).2).2) := by
  induction xs generalizing b with
  | nil => rfl
  | cons call rest ih =>
    rw [List.cons_append, session, session]
    cases call.make b <;> simp [ih]

/-- All of the calls succeed, none of them registers a class, and they lead from one state of the
builder to another. -/
def Leads (calls : List BuilderCall) (b b' : Builder) : Prop :=
  session calls b = (List.replicate calls.length (.ok none), b')

theorem Leads.nil (b : Builder) : Leads [] b b := rfl

theorem Leads.cons {call : BuilderCall} {rest : List BuilderCall} {b b₁ b' : Builder}
    (h : call.make b = .ok none b₁) (hrest : Leads rest b₁ b') : Leads (call :: rest) b b' := by
  rw [Leads, session, h]
  dsimp only
  rw [hrest]
  rfl

theorem Leads.append {xs ys : List BuilderCall} {b b₁ b' : Builder} (hx : Leads xs b b₁)
    (hy : Leads ys b₁ b') : Leads (xs ++ ys) b b' := by
  rw [Leads, session_append, hx, hy, List.length_append, List.replicate_append_replicate]

/-- A call for each entry of a list, where each changes one part of the builder. -/
theorem leads_map {α σ : Type} (call : α → BuilderCall) (next : σ → α → σ) (state : σ → Builder)
    (h : ∀ s a, (call a).make (state s) = .ok none (state (next s a))) (as : List α) (s : σ) :
    Leads (as.map call) (state s) (state (as.foldl next s)) := by
  induction as generalizing s with
  | nil => exact .nil _
  | cons a as ih => exact .cons (h s a) (ih (next s a))

section
variable (m : Machine) (c : ClassDraft) (d : MethodDraft)

theorem leads_addFields (rs : List FieldRecord) (base : Option Class) (decl : ClassDecl) :
    Leads (rs.map fun r => .addField (m.program.text r.name) (m.program.text r.type))
      ⟨m, some ⟨decl, base⟩, none⟩
      ⟨m, some ⟨{ decl with fields := (rs.map m.program.fieldOf).foldl .add decl.fields }, base⟩,
        none⟩ := by
  rw [List.foldl_map]
  exact leads_map (fun r => .addField (m.program.text r.name) (m.program.text r.type))
    (fun fields r => fields.add (m.program.fieldOf r))
    (fun fields => ⟨m, some ⟨{ decl with fields }, base⟩, none⟩) (fun _ _ => rfl) rs decl.fields

theorem foldl_concat {α β : Type} (f : α → β) (as : List α) (bs : List β) :
    as.foldl (fun bs a => bs ++ [f a]) bs = bs ++ as.map f := by
  induction as generalizing bs with
  | nil => simp
  | cons a as ih => simp [ih]

theorem leads_addParameters (rs : List VariableRecord) :
    Leads (rs.map fun r => .addParameter (m.program.text r.name) (m.program.text r.type))
      ⟨m, some c, some d⟩
      ⟨m, some c, some { d with parameters := d.parameters ++ rs.map m.program.variableOf }⟩ := by
  rw [← foldl_concat]
  exact leads_map _ _ (fun parameters => ⟨m, some c, some { d with parameters }⟩) (fun _ _ => rfl)
    rs d.parameters

theorem leads_addLocals (rs : List VariableRecord) :
    Leads (rs.map fun r => .addLocal (m.program.text r.name) (m.program.text r.type))
      ⟨m, some c, some d⟩
      ⟨m, some c, some { d with locals := d.locals ++ rs.map m.program.variableOf }⟩ := by
  rw [← foldl_concat]
  exact leads_map _ _ (fun locals => ⟨m, some c, some { d with locals }⟩) (fun _ _ => rfl) rs
    d.locals

theorem leads_emit (hd : d.native = none) (code : List Instruction) :
    Leads (code.map .emit) ⟨m, some c, some d⟩
      ⟨m, some c, some { d with code := d.code ++ code.toArray }⟩ := by
  obtain ⟨name, returns, parameters, locals, before, native⟩ := d
  cases hd
  have h := leads_map BuilderCall.emit Array.push
    (fun code => ⟨m, some c, some ⟨name, returns, parameters, locals, code, none⟩⟩) (fun _ _ => rfl)
    code before
  simpa using h

/-- The script of a method declares the method that the record means. -/
theorem leads_method (base : Option Class) (decl : ClassDecl) (r : MethodRecord) :
    Leads (r.script m.program.text) ⟨m, some ⟨decl, base⟩, none⟩
      ⟨m, some ⟨decl.addMethod (m.program.methodOf r), base⟩, none⟩ := by
  refine .cons rfl ((((leads_addParameters m _ _ r.parameters).append
    (leads_addLocals m _ _ r.locals)).append (leads_emit m _ _ rfl r.code)).append
      (.cons ?_ (.nil _)))
  simp only [List.nil_append, Array.empty_append]
  rfl

theorem leads_methods (rs : List MethodRecord) (base : Option Class) (decl : ClassDecl) :
    Leads (rs.flatMap (MethodRecord.script m.program.text)) ⟨m, some ⟨decl, base⟩, none⟩
      ⟨m, some ⟨{ decl with methods := (rs.map m.program.methodOf).foldl .add decl.methods }, base⟩,
        none⟩ := by
  induction rs generalizing decl with
  | nil => exact .nil _
  | cons r rs ih => exact (leads_method m base decl r).append (ih _)

/-- The script of the members declares the fields and then the methods that the record means. -/
theorem leads_members (t : TypeRecord) (base : Option Class) :
    Leads (t.memberScript m.program.text) ⟨m, some ⟨{ name := m.program.text t.name }, base⟩, none⟩
      ⟨m, some ⟨m.program.declOf t, base⟩, none⟩ :=
  (leads_addFields m t.fields base _).append (leads_methods m t.methods base _)

end

/-- A class can be begun if the base class is the one that its name means. -/
theorem beginClass_of_named {m : Machine} {name : String} {base : Option Class}
    (h : ∀ b ∈ base, m.registry.named? b.name = some b) :
    (BuilderCall.beginClass name (base.map Class.name)).make (.start m) =
      .ok none ⟨m, some ⟨{ name }, base⟩, none⟩ := by
  have hfound : m.baseNamed (base.map Class.name) = .ok base := by
    cases base with
    | none => rfl
    | some b =>
      rw [Option.map_some, Machine.baseNamed, Machine.classNamed, h b rfl]
      rfl
  rw [make_beginClass rfl, start, hfound]

end Builder

/-! ## Both ways agree -/

/-- **A builder builds what the linker links.** Take a record of a type that can be linked and that
a builder can express, where the name of the base means the base at the moment. The script of the
record succeeds call by call and leaves the very machine that linking the record leaves, with one
more class. -/
theorem script_agrees_with_link {m : Machine} {t : TypeRecord} {decl : ClassDecl}
    {base : Option Class} (hlink : m.program.linkType t = .ok (decl, base))
    (hplain : t.Plain m.program.strings)
    (hbase : ∀ b ∈ base, m.registry.named? b.name = some b) :
    ∃ m', m.linkType t = .ok m' ∧
      Builder.session (t.script m.program.text (base.map Class.name)) (.start m) =
        (List.replicate (1 + (t.memberScript m.program.text).length) (.ok none) ++
          [.ok (some m.registry.size)], .start m') ∧
      m'.registry.classes = m.registry.classes.push (.derive ⟨m.nextStamp⟩ decl base) ∧
      m'.registry.class? m.registry.size = some (.derive ⟨m.nextStamp⟩ decl base) := by
  refine ⟨(m.install decl base).2, bind_eq_ok_iff.mpr ⟨_, hlink, rfl⟩, ?_, rfl,
    Array.getElem?_push_size⟩
  have hmembers := Builder.leads_members m t base
  rw [← decl_of_linkType hlink hplain] at hmembers
  have hleads := Builder.Leads.cons (Builder.beginClass_of_named hbase) hmembers
  rw [TypeRecord.script, Builder.session_append, hleads, List.length_cons, Nat.add_comm]
  rfl

/-! ## A class with everything that could go wrong

It derives from the later of two classes of one name, names itself, declares a field and a method
twice, and uses the name of a primitive that a class has taken as well. -/

namespace Node

/-- The machine with the two classes of one name and the one that is named like a primitive. -/
def machine : Machine :=
  let m := ((Machine.empty {} .basic).install { name := "Shape" } none).2
  let m := (m.install { name := "Shape" } none).2
  let m := (m.install { name := "int32" } none).2
  { m with
    program := { m.program with strings := #["Node", "Shape", "int32", "next", "Run", "x"] } }

def run (code : List Instruction) : MethodRecord where
  name := 4
  returns := 1
  access := 0
  flags := 0
  parameters := [⟨5, 2⟩]
  locals := [⟨3, 0⟩]
  code := code

def record : TypeRecord where
  kind := 0
  name := 0
  space := 9
  access := 0
  flags := 0
  base := 1
  interfaces := []
  fields := [⟨3, 0, 0, 0⟩, ⟨3, 1, 0, 0⟩, ⟨5, 2, 0, 0⟩]
  methods := [run [], run [.of .ldArg [0], .of .ret []]]

end Node

theorem script_agrees_with_link_node :
    ∃ decl base m', Node.machine.program.linkType Node.record = .ok (decl, some base) ∧
      base.id = ⟨1⟩ ∧
      decl.fields.items.toList.map Field.type =
        [.unresolved "Node", .known ⟨⟨1⟩, "Shape"⟩, .primitive .int32] ∧
      Node.machine.linkType Node.record = .ok m' ∧
      Builder.session (Node.record.script Node.machine.program.text (some "Shape"))
          (.start Node.machine) =
        (List.replicate 14 (.ok none) ++ [.ok (some 3)], .start m') := by
  have hlink : Node.machine.program.linkType Node.record = .ok (_, some _) := rfl
  obtain ⟨m', hm', hsession, -⟩ := script_agrees_with_link hlink (by decide) (by
    intro b hb
    cases hb
    decide)
  exact ⟨_, _, m', hlink, rfl, by decide, hm', hsession⟩

end ObjectMachine
