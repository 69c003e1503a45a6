import ObjectMachine.Host
import ObjectMachine.Machine.Link
import ObjectMachine.Proofs.Instructions
import ObjectMachine.Proofs.Registration
import Mathlib.Data.List.Forall2

/-!
# What linking an image comes to

An image can be linked exactly if its indices can be resolved (`Image.Resolvable`), and the machine
then holds one class for each type of the image, as the record of the type describes it
(`TypeRecord.Describes`). Both are said of the image alone, without the steps of the linker.

A type is linked in the surroundings that the types before it have left, so the proof goes along
the list of types: `Linked` says what the machine is after some of them.
-/

namespace ObjectMachine

/-! ## Computations that may fail -/

section
variable {ε α β : Type}

theorem bind_eq_ok_iff {x : Except ε α} {f : α → Except ε β} {b : β} :
    x >>= f = .ok b ↔ ∃ a, x = .ok a ∧ f a = .ok b := by
  constructor
  · exact ok_of_bind
  · rintro ⟨a, rfl, h⟩
    exact h

theorem mapM_eq_ok_iff {f : α → Except ε β} {xs : List α} {ys : List β} :
    xs.mapM f = .ok ys ↔ List.Forall₂ (fun a b => f a = .ok b) xs ys := by
  induction xs generalizing ys with
  | nil =>
    rw [List.mapM_nil, List.forall₂_nil_left_iff]
    exact ⟨fun h => by cases h; rfl, fun h => by rw [h]; rfl⟩
  | cons x xs ih =>
    rw [List.mapM_cons, bind_eq_ok_iff, List.forall₂_cons_left_iff]
    constructor
    · rintro ⟨b, hb, h⟩
      obtain ⟨bs, hbs, h⟩ := ok_of_bind h
      cases h
      exact ⟨b, bs, hb, ih.mp hbs, rfl⟩
    · rintro ⟨b, bs, hb, hbs, rfl⟩
      exact ⟨b, hb, bind_eq_ok_iff.mpr ⟨bs, ih.mpr hbs, rfl⟩⟩

theorem exists_mapM_iff {f : α → Except ε β} {xs : List α} :
    (∃ ys, xs.mapM f = .ok ys) ↔ ∀ x ∈ xs, ∃ y, f x = .ok y := by
  simp only [mapM_eq_ok_iff]
  induction xs with
  | nil => simp
  | cons x xs ih =>
    rw [List.forall_mem_cons, ← ih]
    constructor
    · rintro ⟨ys, h⟩
      obtain ⟨y, ys, hy, hys, -⟩ := List.forall₂_cons_left_iff.mp h
      exact ⟨⟨y, hy⟩, ys, hys⟩
    · rintro ⟨⟨y, hy⟩, ys, hys⟩
      exact ⟨y :: ys, .cons hy hys⟩

end

/-! ## What the records say

The strings of the image and the classes of the types before are given. -/

section
variable (strings : List String) (classes : List Class)

/-- The type that a name means: the primitive that it spells, else the last class of that name,
else nothing yet. -/
inductive TypeNamed (name : String) : TypeRef → Prop
  | primitive {p : Primitive} (h : name ∈ p.spellings) : TypeNamed name (.primitive p)
  | known {i : Nat} {c : Class} (hp : ∀ p : Primitive, name ∉ p.spellings)
    (hi : classes[i]? = some c) (hc : c.name = name)
    (hlast : ∀ j d, i < j → classes[j]? = some d → d.name ≠ name) : TypeNamed name (.known c.ref)
  | unresolved (hp : ∀ p : Primitive, name ∉ p.spellings) (hc : ∀ c ∈ classes, c.name ≠ name) :
    TypeNamed name (.unresolved name)

/-- The type whose name is the string with an index. -/
def TypeAt (index : UInt32) (t : TypeRef) : Prop :=
  ∃ name, strings[index.toNat]? = some name ∧ TypeNamed classes name t

structure FieldRecord.Describes (r : FieldRecord) (f : Field) : Prop where
  name : strings[r.name.toNat]? = some f.name
  type : TypeAt strings classes r.type f.type
  access : f.access = .ofByte r.access

structure VariableRecord.Describes (r : VariableRecord) (v : Variable) : Prop where
  name : strings[r.name.toNat]? = some v.name
  type : TypeAt strings classes r.type v.type

/-- The method that a record describes: its parameters and its local variables in their order, and
its very instructions. -/
structure MethodRecord.Describes (r : MethodRecord) (m : Method) : Prop where
  name : strings[r.name.toNat]? = some m.name
  returns : TypeAt strings classes r.returns m.returns
  parameters : List.Forall₂ (VariableRecord.Describes strings classes) r.parameters m.parameters
  locals : List.Forall₂ (VariableRecord.Describes strings classes) r.locals m.locals
  body : m.body = .interpreted r.code.toArray
  access : m.access = .ofByte r.access

/-- The base class of a type: none for the two marks that stand for it, else the class with the
index that the record names. -/
inductive TypeRecord.DerivesFrom (t : TypeRecord) : Option Class → Prop
  | root (h : t.base = 0 ∨ t.base = 0xffffffff) : DerivesFrom t none
  | base {b : Class} (h : ¬ (t.base = 0 ∨ t.base = 0xffffffff))
    (hb : classes[t.base.toNat]? = some b) : DerivesFrom t (some b)

/-- The declaration and the base class that a record describes: the members in their order, with the
names that they were declared under, and of the interfaces those that stand before, in their
order. -/
structure TypeRecord.Describes (t : TypeRecord) (decl : ClassDecl) (base : Option Class) :
    Prop where
  name : strings[t.name.toNat]? = some decl.name
  base : t.DerivesFrom classes base
  fields : List.Forall₂ (FieldRecord.Describes strings classes) t.fields decl.fields.items.toList
  methods :
    List.Forall₂ (MethodRecord.Describes strings classes) t.methods decl.methods.items.toList
  declared : decl.fields.Declared ∧ decl.methods.Declared
  interfaces : List.Forall₂ (fun i c => ∃ d, classes[i.toNat]? = some d ∧ c = d.ref)
    (t.interfaces.filter (·.toNat < classes.length)) decl.interfaces
  space : decl.space = strings[t.space.toNat]?.filter (· != "")
  kind : decl.kind = .ofByte t.kind
  access : decl.access = .ofByte t.access

end

/-! ## Indices that can be resolved -/

/-- The indices of a variable are in the table of strings. -/
def VariableRecord.InRange (strings : Nat) (r : VariableRecord) : Prop :=
  r.name.toNat < strings ∧ r.type.toNat < strings
deriving Decidable

def FieldRecord.InRange (strings : Nat) (r : FieldRecord) : Prop :=
  r.name.toNat < strings ∧ r.type.toNat < strings
deriving Decidable

structure MethodRecord.InRange (strings : Nat) (r : MethodRecord) : Prop where
  name : r.name.toNat < strings
  returns : r.returns.toNat < strings
  parameters : ∀ v ∈ r.parameters, v.InRange strings
  locals : ∀ v ∈ r.locals, v.InRange strings

instance (strings : Nat) (r : MethodRecord) : Decidable (r.InRange strings) :=
  decidable_of_iff
    (r.name.toNat < strings ∧ r.returns.toNat < strings ∧
      (∀ v ∈ r.parameters, v.InRange strings) ∧ ∀ v ∈ r.locals, v.InRange strings)
    ⟨fun ⟨name, returns, parameters, locals⟩ => ⟨name, returns, parameters, locals⟩,
      fun ⟨name, returns, parameters, locals⟩ => ⟨name, returns, parameters, locals⟩⟩

/-- What the type at a position of the image needs to be linked: its strings are there, and its
base class, if it has one, stands before it. -/
structure TypeRecord.Resolvable (strings position : Nat) (t : TypeRecord) : Prop where
  name : t.name.toNat < strings
  base : t.base = 0 ∨ t.base = 0xffffffff ∨ t.base.toNat < position
  fields : ∀ f ∈ t.fields, f.InRange strings
  methods : ∀ m ∈ t.methods, m.InRange strings

instance (strings position : Nat) (t : TypeRecord) : Decidable (t.Resolvable strings position) :=
  decidable_of_iff
    (t.name.toNat < strings ∧ (t.base = 0 ∨ t.base = 0xffffffff ∨ t.base.toNat < position) ∧
      (∀ f ∈ t.fields, f.InRange strings) ∧ ∀ m ∈ t.methods, m.InRange strings)
    ⟨fun ⟨name, base, fields, methods⟩ => ⟨name, base, fields, methods⟩,
      fun ⟨name, base, fields, methods⟩ => ⟨name, base, fields, methods⟩⟩

def Image.Resolvable (image : Image) : Prop :=
  ∀ (i : Nat) (t : TypeRecord), image.types[i]? = some t → t.Resolvable image.strings.length i

instance (image : Image) : Decidable image.Resolvable :=
  decidable_of_iff (∀ r ∈ image.types.zipIdx, r.1.Resolvable image.strings.length r.2)
    ⟨fun h i t ht => h (t, i) (List.mem_zipIdx_iff_getElem?.mpr ht),
      fun h r hr => h r.2 r.1 (List.mem_zipIdx_iff_getElem?.mp hr)⟩

/-! ## Names of types -/

theorem Primitive.ofName?_of_mem {name : String} {p : Primitive} (h : name ∈ p.spellings) :
    ofName? name = some p := by
  have all : ∀ q ∈ Primitive.all, ∀ n ∈ q.spellings, ofName? n = some q := by decide
  exact all p (by cases p <;> decide) name h

theorem Primitive.not_mem_of_ofName? {name : String} (h : ofName? name = none) (p : Primitive) :
    name ∉ p.spellings := by
  intro hp
  rw [ofName?_of_mem hp] at h
  cases h

theorem Primitive.mem_of_ofName? {name : String} {p : Primitive} (h : ofName? name = some p) :
    name ∈ p.spellings := by
  simpa using List.find?_some h

theorem Registry.Lawful.named?_eq {r : Registry} (hr : r.Lawful) (name : String) :
    r.named? name = (lastNamed? name r.classes.toList).bind (r.classes.toList[·]?) := by
  rw [named?, hr.names]
  simp only [Array.getElem?_toList]
  rfl

/-- A registry resolves names of types as the classes in it say. -/
theorem Registry.Lawful.typeNamed {r : Registry} (hr : r.Lawful) (name : String) :
    TypeNamed r.classes.toList name (r.typeNamed name) := by
  unfold Registry.typeNamed
  cases hp : Primitive.ofName? name with
  | some p => exact .primitive (Primitive.mem_of_ofName? hp)
  | none =>
    have hnot := Primitive.not_mem_of_ofName? hp
    rw [hr.named?_eq]
    cases hi : lastNamed? name r.classes.toList with
    | none => exact .unresolved hnot (lastNamed?_eq_none_iff.mp hi)
    | some i =>
      obtain ⟨⟨c, hc, hname⟩, hlast⟩ := lastNamed?_eq_some_iff.mp hi
      dsimp only [Option.bind_some]
      rw [hc]
      exact .known hnot hc hname hlast

/-! ## When one record can be linked -/

section
variable {p : Program}

theorem nameAt_eq_ok_iff {index : UInt32} {s : String} :
    p.nameAt index = .ok s ↔ p.strings.toList[index.toNat]? = some s := by
  rw [Program.nameAt, Program.stringAt, Array.getElem?_toList]
  cases p.strings[index.toNat]? <;> simp

theorem exists_nameAt_iff {index : UInt32} :
    (∃ s, p.nameAt index = .ok s) ↔ index.toNat < p.strings.size := by
  simp only [nameAt_eq_ok_iff, Array.getElem?_toList]
  constructor
  · rintro ⟨s, hs⟩
    exact (Array.getElem?_eq_some_iff.mp hs).1
  · intro h
    exact ⟨_, Array.getElem?_eq_getElem h⟩

theorem exists_typeAt_iff {index : UInt32} :
    (∃ t, p.typeAt index = .ok t) ↔ index.toNat < p.strings.size := by
  rw [← exists_nameAt_iff]
  constructor
  · rintro ⟨t, ht⟩
    obtain ⟨s, hs, -⟩ := ok_of_bind ht
    exact ⟨s, hs⟩
  · rintro ⟨s, hs⟩
    exact ⟨_, bind_eq_ok_iff.mpr ⟨s, hs, rfl⟩⟩

/-- Whatever has a name and a type and nothing else to look up. -/
theorem exists_nameAt_typeAt_iff {α : Type} {name type : UInt32} {make : String → TypeRef → α} :
    (∃ a, (do return make (← p.nameAt name) (← p.typeAt type)) = .ok a) ↔
      name.toNat < p.strings.size ∧ type.toNat < p.strings.size := by
  rw [← exists_nameAt_iff, ← exists_typeAt_iff]
  constructor
  · rintro ⟨a, ha⟩
    obtain ⟨n, hn, ha⟩ := ok_of_bind ha
    obtain ⟨t, ht, -⟩ := ok_of_bind ha
    exact ⟨⟨n, hn⟩, t, ht⟩
  · rintro ⟨⟨n, hn⟩, t, ht⟩
    exact ⟨_, bind_eq_ok_iff.mpr ⟨n, hn, bind_eq_ok_iff.mpr ⟨t, ht, rfl⟩⟩⟩

theorem exists_linkField_iff {r : FieldRecord} :
    (∃ f, p.linkField r = .ok f) ↔ r.InRange p.strings.size :=
  exists_nameAt_typeAt_iff

theorem exists_linkVariables_iff {rs : List VariableRecord} :
    (∃ vs, rs.mapM p.linkVariable = .ok vs) ↔ ∀ r ∈ rs, r.InRange p.strings.size := by
  rw [exists_mapM_iff]
  exact forall₂_congr fun r _ => exists_nameAt_typeAt_iff

theorem exists_linkMethod_iff {r : MethodRecord} :
    (∃ m, p.linkMethod r = .ok m) ↔ r.InRange p.strings.size := by
  constructor
  · rintro ⟨m, hm⟩
    obtain ⟨name, hname, hm⟩ := ok_of_bind hm
    obtain ⟨returns, hreturns, hm⟩ := ok_of_bind hm
    obtain ⟨parameters, hparameters, hm⟩ := ok_of_bind hm
    obtain ⟨locals, hlocals, -⟩ := ok_of_bind hm
    exact ⟨exists_nameAt_iff.mp ⟨name, hname⟩, exists_typeAt_iff.mp ⟨returns, hreturns⟩,
      exists_linkVariables_iff.mp ⟨parameters, hparameters⟩,
      exists_linkVariables_iff.mp ⟨locals, hlocals⟩⟩
  · intro h
    obtain ⟨name, hname⟩ := exists_nameAt_iff.mpr h.name
    obtain ⟨returns, hreturns⟩ := exists_typeAt_iff.mpr h.returns
    obtain ⟨parameters, hparameters⟩ := exists_linkVariables_iff.mpr h.parameters
    obtain ⟨locals, hlocals⟩ := exists_linkVariables_iff.mpr h.locals
    exact ⟨_, bind_eq_ok_iff.mpr ⟨name, hname, bind_eq_ok_iff.mpr ⟨returns, hreturns,
      bind_eq_ok_iff.mpr ⟨parameters, hparameters, bind_eq_ok_iff.mpr ⟨locals, hlocals, rfl⟩⟩⟩⟩⟩

theorem classAt_eq_ok_iff {r : Registry} {index : Nat} {c : Class} :
    r.classAt index = .ok c ↔ r.classes.toList[index]? = some c := by
  rw [Registry.classAt, Array.getElem?_toList, ← Registry.class?]
  cases r.class? index <;> simp

theorem linkBase_eq_ok_iff {t : TypeRecord} {base : Option Class} :
    p.linkBase t = .ok base ↔ t.DerivesFrom p.registry.classes.toList base := by
  unfold Program.linkBase TypeRecord.base?
  by_cases h : t.base = 0 ∨ t.base = 0xffffffff
  · rw [if_pos h]
    constructor
    · intro hb
      cases hb
      exact .root h
    · intro hb
      cases hb with
      | root => rfl
      | base hnot => exact absurd h hnot
  · rw [if_neg h]
    constructor
    · intro hb
      obtain ⟨b, hclass, rfl⟩ := ok_of_map hb
      exact .base h (classAt_eq_ok_iff.mp hclass)
    · intro hb
      cases hb with
      | root hroot => exact absurd hroot h
      | base _ hb => dsimp only; rw [classAt_eq_ok_iff.mpr hb]; rfl

theorem exists_linkBase_iff {t : TypeRecord} :
    (∃ base, p.linkBase t = .ok base) ↔
      t.base = 0 ∨ t.base = 0xffffffff ∨ t.base.toNat < p.registry.size := by
  simp only [linkBase_eq_ok_iff]
  constructor
  · rintro ⟨base, hbase⟩
    cases hbase with
    | root h => exact h.imp_right .inl
    | base h hb => exact .inr (.inr (List.getElem?_eq_some_iff.mp hb).1)
  · intro h
    by_cases hroot : t.base = 0 ∨ t.base = 0xffffffff
    · exact ⟨none, .root hroot⟩
    · have hlt : t.base.toNat < p.registry.classes.toList.length :=
        (h.resolve_left fun h0 => hroot (.inl h0)).resolve_left fun h1 => hroot (.inr h1)
      exact ⟨_, .base hroot (List.getElem?_eq_getElem hlt)⟩

theorem exists_linkType_iff {t : TypeRecord} :
    (∃ linked, p.linkType t = .ok linked) ↔ t.Resolvable p.strings.size p.registry.size := by
  have hfields : (∃ fs, t.fields.mapM p.linkField = .ok fs) ↔
      ∀ f ∈ t.fields, f.InRange p.strings.size := by
    simp only [exists_mapM_iff, exists_linkField_iff]
  have hmethods : (∃ ms, t.methods.mapM p.linkMethod = .ok ms) ↔
      ∀ m ∈ t.methods, m.InRange p.strings.size := by
    simp only [exists_mapM_iff, exists_linkMethod_iff]
  constructor
  · rintro ⟨linked, h⟩
    obtain ⟨name, hname, h⟩ := ok_of_bind h
    obtain ⟨base, hbase, h⟩ := ok_of_bind h
    obtain ⟨fields, hfs, h⟩ := ok_of_bind h
    obtain ⟨methods, hms, -⟩ := ok_of_bind h
    exact ⟨exists_nameAt_iff.mp ⟨name, hname⟩, exists_linkBase_iff.mp ⟨base, hbase⟩,
      hfields.mp ⟨fields, hfs⟩, hmethods.mp ⟨methods, hms⟩⟩
  · intro h
    obtain ⟨name, hname⟩ := exists_nameAt_iff.mpr h.name
    obtain ⟨base, hbase⟩ := exists_linkBase_iff.mpr h.base
    obtain ⟨fields, hfs⟩ := hfields.mpr h.fields
    obtain ⟨methods, hms⟩ := hmethods.mpr h.methods
    exact ⟨_, bind_eq_ok_iff.mpr ⟨name, hname, bind_eq_ok_iff.mpr ⟨base, hbase,
      bind_eq_ok_iff.mpr ⟨fields, hfs, bind_eq_ok_iff.mpr ⟨methods, hms, rfl⟩⟩⟩⟩⟩

end

/-! ## What one record becomes -/

section
variable {p : Program} (hp : p.registry.Lawful)
include hp

theorem typeAt_of_ok {index : UInt32} {t : TypeRef} (h : p.typeAt index = .ok t) :
    TypeAt p.strings.toList p.registry.classes.toList index t := by
  obtain ⟨name, hname, h⟩ := ok_of_bind h
  cases h
  exact ⟨name, nameAt_eq_ok_iff.mp hname, hp.typeNamed name⟩

theorem describes_of_linkField {r : FieldRecord} {f : Field} (h : p.linkField r = .ok f) :
    r.Describes p.strings.toList p.registry.classes.toList f := by
  obtain ⟨name, hname, h⟩ := ok_of_bind h
  obtain ⟨type, htype, h⟩ := ok_of_bind h
  cases h
  exact ⟨nameAt_eq_ok_iff.mp hname, typeAt_of_ok hp htype, rfl⟩

theorem describes_of_linkVariables {rs : List VariableRecord} {vs : List Variable}
    (h : rs.mapM p.linkVariable = .ok vs) :
    List.Forall₂ (VariableRecord.Describes p.strings.toList p.registry.classes.toList) rs vs := by
  refine (mapM_eq_ok_iff.mp h).imp fun r v hv => ?_
  obtain ⟨name, hname, hv⟩ := ok_of_bind hv
  obtain ⟨type, htype, hv⟩ := ok_of_bind hv
  cases hv
  exact ⟨nameAt_eq_ok_iff.mp hname, typeAt_of_ok hp htype⟩

theorem describes_of_linkMethod {r : MethodRecord} {m : Method} (h : p.linkMethod r = .ok m) :
    r.Describes p.strings.toList p.registry.classes.toList m := by
  obtain ⟨name, hname, h⟩ := ok_of_bind h
  obtain ⟨returns, hreturns, h⟩ := ok_of_bind h
  obtain ⟨parameters, hparameters, h⟩ := ok_of_bind h
  obtain ⟨locals, hlocals, h⟩ := ok_of_bind h
  cases h
  exact ⟨nameAt_eq_ok_iff.mp hname, typeAt_of_ok hp hreturns,
    describes_of_linkVariables hp hparameters, describes_of_linkVariables hp hlocals, rfl, rfl⟩

omit hp in
/-- The interfaces of a type are those that stand before it. -/
theorem forall₂_linkInterfaces (t : TypeRecord) :
    List.Forall₂ (fun i c => ∃ d, p.registry.classes.toList[i.toNat]? = some d ∧ c = d.ref)
      (t.interfaces.filter (·.toNat < p.registry.classes.toList.length)) (p.linkInterfaces t) := by
  unfold Program.linkInterfaces
  induction t.interfaces with
  | nil => exact .nil
  | cons i rest ih =>
    by_cases h : i.toNat < p.registry.classes.toList.length
    · have hclass : p.registry.class? i.toNat = some p.registry.classes.toList[i.toNat] := by
        rw [Registry.class?, ← Array.getElem?_toList, List.getElem?_eq_getElem h]
      rw [List.filter_cons_of_pos (by simpa using h), List.filterMap_cons, hclass]
      exact .cons ⟨_, List.getElem?_eq_getElem h, rfl⟩ ih
    · have hclass : p.registry.class? i.toNat = none := by
        rw [Registry.class?, ← Array.getElem?_toList, List.getElem?_eq_none (Nat.not_lt.mp h)]
      rw [List.filter_cons_of_neg (by simpa using h), List.filterMap_cons, hclass]
      exact ih

theorem describes_of_linkType {t : TypeRecord} {decl : ClassDecl} {base : Option Class}
    (h : p.linkType t = .ok (decl, base)) :
    t.Describes p.strings.toList p.registry.classes.toList decl base := by
  obtain ⟨name, hname, h⟩ := ok_of_bind h
  obtain ⟨base', hbase, h⟩ := ok_of_bind h
  obtain ⟨fields, hfields, h⟩ := ok_of_bind h
  obtain ⟨methods, hmethods, h⟩ := ok_of_bind h
  cases h
  exact {
    name := nameAt_eq_ok_iff.mp hname
    base := linkBase_eq_ok_iff.mp hbase
    fields := by
      rw [Members.items_ofList]
      exact (mapM_eq_ok_iff.mp hfields).imp fun _ _ => describes_of_linkField hp
    methods := by
      rw [Members.items_ofList]
      exact (mapM_eq_ok_iff.mp hmethods).imp fun _ _ => describes_of_linkMethod hp
    declared := ⟨Members.declared_ofList fields, Members.declared_ofList methods⟩
    interfaces := forall₂_linkInterfaces t
    space := by rw [Array.getElem?_toList]; rfl
    kind := rfl
    access := rfl }

end

/-! ## One type after the other -/

theorem Class.base?_derive (id : ClassId) (decl : ClassDecl) (base : Option Class) :
    (derive id decl base).base? = base := by
  cases base <;> rfl

/-- What a machine is after some types of an image: it has one class for each of them, as the record
of the type describes it where the classes before it are known, and nothing else has happened. -/
structure Linked (strings : List String) (limits : Limits) (host : Host) (types : List TypeRecord)
    (m : Machine) : Prop where
  rest : m =
    { program := { registry := m.registry, strings := strings.toArray, limits, host }
      nextStamp := types.length }
  lawful : m.registry.Lawful
  size : m.registry.size = types.length
  classes : ∀ (i : Nat) (t : TypeRecord), types[i]? = some t → ∃ c, m.registry.class? i = some c ∧
    c.id = ⟨i⟩ ∧ t.Describes strings (m.registry.classes.toList.take i) c.own.decl c.base?

section
variable {strings : List String} {limits : Limits} {host : Host} {types : List TypeRecord}
  {m m' : Machine}

theorem linked_nil : Linked strings limits host []
    { Machine.empty limits host with
      program := { (Machine.empty limits host).program with strings := strings.toArray } } where
  rest := rfl
  lawful := Registry.lawful_empty
  size := rfl
  classes i t h := by cases h

theorem Linked.program_eq (h : Linked strings limits host types m) :
    m.program = { registry := m.registry, strings := strings.toArray, limits, host } := by
  rw [h.rest]
  rfl

/-- A type can be linked exactly if its indices can be resolved. -/
theorem Linked.exists_linkType_iff (h : Linked strings limits host types m) (t : TypeRecord) :
    (∃ m', m.linkType t = .ok m') ↔ t.Resolvable strings.length types.length := by
  have hstrings : m.program.strings.size = strings.length := by rw [h.program_eq]; simp
  have hsize : m.program.registry.size = types.length := h.size
  rw [← hstrings, ← hsize, ← ObjectMachine.exists_linkType_iff]
  constructor
  · rintro ⟨m', hm'⟩
    obtain ⟨linked, hlinked, -⟩ := ok_of_bind hm'
    exact ⟨linked, hlinked⟩
  · rintro ⟨linked, hlinked⟩
    exact ⟨_, bind_eq_ok_iff.mpr ⟨linked, hlinked, rfl⟩⟩

/-- The class of the next type joins those of the types before. -/
theorem Linked.linkType (h : Linked strings limits host types m) {t : TypeRecord}
    (ht : m.linkType t = .ok m') : Linked strings limits host (types ++ [t]) m' := by
  obtain ⟨⟨decl, base⟩, hlink, hm'⟩ := ok_of_bind ht
  have hdescribes := describes_of_linkType h.lawful hlink
  cases hm'
  have hprogram := h.program_eq
  have hstrings : m.program.strings.toList = strings := by rw [hprogram]
  have hstamp : m.nextStamp = types.length := by rw [h.rest]
  have hlength : m.registry.classes.toList.length = types.length := h.size
  have hclasses : (m.install decl base).2.registry.classes.toList =
      m.registry.classes.toList ++ [.derive ⟨types.length⟩ decl base] := by
    rw [← hstamp]
    exact Array.toList_push
  rw [hstrings] at hdescribes
  refine ⟨?_, h.lawful.register _, ?_, ?_⟩
  · rw [List.length_append, List.length_singleton]
    conv_lhs => rw [h.rest]
    conv_rhs => rw [h.rest]
    rfl
  · rw [Registry.size, ← Array.length_toList, hclasses, List.length_append, hlength,
      List.length_append]
    rfl
  · intro i t' ht'
    rw [Registry.class?, ← Array.getElem?_toList, hclasses]
    have hcases : types[i]? = some t' ∨ i = types.length ∧ t' = t := by grind
    rcases hcases with hold | ⟨rfl, rfl⟩
    · -- an earlier type keeps its class, and the classes before that one are the same
      have hlt : i < m.registry.classes.toList.length := by
        rw [hlength]
        exact (List.getElem?_eq_some_iff.mp hold).1
      obtain ⟨c, hc, hid, hdesc⟩ := h.classes i t' hold
      refine ⟨c, ?_, hid, ?_⟩
      · rw [List.getElem?_append_left hlt, Array.getElem?_toList]
        exact hc
      · rwa [List.take_append_of_le_length (Nat.le_of_lt hlt)]
    · refine ⟨.derive ⟨types.length⟩ decl base, ?_, rfl, ?_⟩
      · rw [← hlength, List.getElem?_concat_length]
      · rw [← hlength, List.take_left, Class.base?_derive]
        exact hdescribes

/-- The types of an image one after the other. -/
theorem Linked.foldlM {m₀ : Machine} (h : Linked strings limits host [] m₀)
    (hm : types.foldlM Machine.linkType m₀ = .ok m) : Linked strings limits host types m := by
  induction types using List.reverseRecOn generalizing m with
  | nil => cases hm; exact h
  | append_singleton types t ih =>
    rw [List.foldlM_append] at hm
    obtain ⟨m₁, hm₁, hm⟩ := ok_of_bind hm
    rw [List.foldlM_cons] at hm
    obtain ⟨m₂, ht, hm⟩ := ok_of_bind hm
    cases hm
    exact (ih hm₁).linkType ht

/-- All types can be linked exactly if each can be resolved at its position. -/
theorem Linked.exists_foldlM_iff {m₀ : Machine} (h : Linked strings limits host [] m₀) :
    (∃ m, types.foldlM Machine.linkType m₀ = .ok m) ↔
      ∀ (i : Nat) (t : TypeRecord), types[i]? = some t → t.Resolvable strings.length i := by
  induction types using List.reverseRecOn with
  | nil => simp [pure, Except.pure]
  | append_singleton types t ih =>
    constructor
    · rintro ⟨m, hm⟩ i t' ht'
      rw [List.foldlM_append] at hm
      obtain ⟨m₁, hm₁, hm⟩ := ok_of_bind hm
      rw [List.foldlM_cons] at hm
      obtain ⟨m₂, ht, -⟩ := ok_of_bind hm
      have hcases : types[i]? = some t' ∨ i = types.length ∧ t' = t := by grind
      rcases hcases with hold | ⟨rfl, rfl⟩
      · exact ih.mp ⟨m₁, hm₁⟩ i t' hold
      · exact ((h.foldlM hm₁).exists_linkType_iff t').mp ⟨m₂, ht⟩
    · intro hall
      obtain ⟨m₁, hm₁⟩ := ih.mpr fun i t' ht' => hall i t' (by grind)
      obtain ⟨m₂, ht⟩ := ((h.foldlM hm₁).exists_linkType_iff t).mpr
        (hall types.length t List.getElem?_concat_length)
      refine ⟨m₂, ?_⟩
      rw [List.foldlM_append]
      exact bind_eq_ok_iff.mpr ⟨m₁, hm₁, bind_eq_ok_iff.mpr ⟨m₂, ht, rfl⟩⟩

end

/-! ## The whole image -/

/-- Linking an image links its types, and then there are its constants and its entry point. -/
theorem ofImage_eq_ok_iff {image : Image} {limits : Limits} {host : Host} {m : Machine} :
    Machine.ofImage image limits host = .ok m ↔
      ∃ m₁, image.types.foldlM Machine.linkType
        { Machine.empty limits host with
          program := { (Machine.empty limits host).program with
            strings := image.strings.toArray } } = .ok m₁ ∧
        m = { m₁ with
          program := { m₁.program with
            constants := (image.constants.map ConstantRecord.value).toArray }
          entryPoint :=
            if image.header.entryPoint.toNat < m₁.registry.size then
              some image.header.entryPoint.toNat
            else none } := by
  rw [Machine.ofImage, Machine.link, bind_eq_ok_iff]
  refine exists_congr fun m₁ => and_congr_right fun _ => ?_
  constructor
  · intro h
    cases h
    rfl
  · rintro rfl
    rfl

/-- **Linking accepts exactly the images that can be resolved, and builds what they say.** All names
and types have to be in the table of strings, and every base has to stand before its subclasses.
Then each class is the one that its record describes where the classes before it are known, and each
constant is the one of its record. -/
theorem ofImage_resolvable (image : Image) (limits : Limits) (host : Host) :
    ((∃ m, Machine.ofImage image limits host = .ok m) ↔ image.Resolvable) ∧
    ∀ m, Machine.ofImage image limits host = .ok m →
      m.registry.size = image.types.length ∧
      (∀ (i : Nat) (t : TypeRecord), image.types[i]? = some t →
        ∃ c, m.registry.class? i = some c ∧
          t.Describes image.strings (m.registry.classes.toList.take i) c.own.decl c.base?) ∧
      (∀ (i j : Nat) (c d : Class), m.registry.class? i = some c → m.registry.class? j = some d →
        c.id = d.id → i = j) ∧
      (∀ e, m.entryPoint = some e ↔
        e = image.header.entryPoint.toNat ∧ e < image.types.length) ∧
      m = { program :=
              { registry := m.registry
                strings := image.strings.toArray
                constants := (image.constants.map ConstantRecord.value).toArray
                limits, host }
            entryPoint := m.entryPoint
            nextStamp := image.types.length } := by
  constructor
  · have hnil : Linked image.strings limits host [] _ := linked_nil
    rw [Image.Resolvable, ← hnil.exists_foldlM_iff]
    simp only [ofImage_eq_ok_iff]
    constructor
    · rintro ⟨m, m₁, hm₁, -⟩
      exact ⟨m₁, hm₁⟩
    · rintro ⟨m₁, hm₁⟩
      exact ⟨_, m₁, hm₁, rfl⟩
  · intro m hm
    obtain ⟨m₁, hm₁, rfl⟩ := ofImage_eq_ok_iff.mp hm
    have hlinked := linked_nil.foldlM hm₁
    have hid : ∀ i c, m₁.registry.class? i = some c → c.id = ⟨i⟩ := by
      intro i c hc
      have hi : i < image.types.length := by
        rw [← hlinked.size]
        exact (Array.getElem?_eq_some_iff.mp hc).1
      obtain ⟨c', hc', hid, -⟩ := hlinked.classes i _ (List.getElem?_eq_getElem hi)
      rw [hc', Option.some.injEq] at hc
      rw [← hc, hid]
    refine ⟨hlinked.size, ?_, ?_, ?_, ?_⟩
    · intro i t ht
      obtain ⟨c, hc, -, hdescribes⟩ := hlinked.classes i t ht
      exact ⟨c, hc, hdescribes⟩
    · intro i j c d hc hd he
      have hij : (⟨i⟩ : ClassId) = ⟨j⟩ := by rw [← hid i c hc, ← hid j d hd, he]
      cases hij
      rfl
    · intro e
      rw [hlinked.size]
      grind
    · conv_lhs => rw [hlinked.rest]
      rfl

/-- Two types of one name, and a third that derives from the later of them and has a field of that
type. Of its interfaces only the first stands before it. -/
def shadowedImage : Image where
  header := { forkName := "", fileSize := 0, entryPoint := 2 }
  strings := ["Shape", "Square", "next"]
  types :=
    [shape, shape,
      { shape with
        name := 1
        base := 1
        interfaces := [0, 2]
        fields := [{ name := 2, type := 0, access := 0, flags := 0 }] }]
where
  shape : TypeRecord :=
    { kind := 0, name := 0, space := 9, access := 0, flags := 0, base := 0, interfaces := []
      fields := [], methods := [] }

theorem ofImage_resolvable_shadowed :
    ∃ m, Machine.ofImage shadowedImage {} .basic = .ok m ∧
      ∃ later square, m.registry.class? 1 = some later ∧ m.registry.class? 2 = some square ∧
        later.name = "Shape" ∧ square.base? = some later ∧ m.entryPoint = some 2 := by
  obtain ⟨hiff, hall⟩ := ofImage_resolvable shadowedImage {} .basic
  obtain ⟨m, hm⟩ := hiff.mpr (by decide)
  obtain ⟨-, hclasses, -, hentry, -⟩ := hall m hm
  obtain ⟨later, hlater, hdescribes⟩ := hclasses 1 _ rfl
  obtain ⟨square, hsquare, hsquareDescribes⟩ := hclasses 2 _ rfl
  refine ⟨m, hm, later, square, hlater, hsquare, ?_, ?_, (hentry 2).mpr ⟨rfl, by decide⟩⟩
  · exact (Option.some.inj hdescribes.name).symm
  · have hbase := hsquareDescribes.base
    generalize square.base? = base at hbase ⊢
    cases hbase with
    | root h => exact absurd h (by decide)
    | base _ hb =>
      rw [List.getElem?_take_of_lt (by decide), Array.getElem?_toList] at hb
      exact hb.symm.trans hlater

end ObjectMachine
