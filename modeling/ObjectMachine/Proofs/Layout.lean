import ObjectMachine.Proofs.Registration

/-!
# Where the members of a class lie

Members are enumerated from the root of a chain down and looked up from the class towards the root.
Both orders meet in one place: the member that answers to a name is the last one of that name in the
enumeration, whether the name was declared twice in one class or again in a subclass
(`Link.memberSlot?_eq`, `Link.member?_eq`). This is shown once for members of any sort. Methods are
looked up in `Dispatch`; for fields it means that the number of slots, the slot of a name, the field
of a name and the enumeration of all fields fit together (`field_layout`).
-/

namespace ObjectMachine

/-! ## Members of any sort -/

namespace Link

section
variable {α : Type} (members : ClassDecl → Members α)

/-- All members of a chain, those of the root first. -/
def membersOf (chain : List Link) : List α :=
  chain.reverse.flatMap fun l => (members l.decl).items.toList

/-- The place, among all members of a chain, of the one that answers to a name: the members of the
bases come before a link's own ones. -/
def memberSlot? (name : String) : List Link → Option Nat
  | [] => none
  | l :: rest =>
    match (members l.decl).slot? name with
    | some i => some ((membersOf members rest).length + i)
    | none => memberSlot? name rest

/-- The member that answers to a name. -/
def member? (name : String) (chain : List Link) : Option α :=
  chain.findSome? fun l => (members l.decl).find? name

theorem membersOf_cons (l : Link) (rest : List Link) :
    membersOf members (l :: rest) = membersOf members rest ++ (members l.decl).items.toList := by
  simp [membersOf]

theorem membersOf_append (front rest : List Link) :
    membersOf members (front ++ rest) = membersOf members rest ++ membersOf members front := by
  simp [membersOf]

end

section
variable {α : Type} [Named α] {members : ClassDecl → Members α} {name : String}
  {chain : List Link}

/-- The walk stops at the last member of the name, in the order of the enumeration. -/
theorem memberSlot?_eq (h : ∀ l ∈ chain, (members l.decl).Declared) :
    memberSlot? members name chain = lastNamed? name (membersOf members chain) := by
  induction chain with
  | nil => rfl
  | cons l rest ih =>
    obtain ⟨hl, hrest⟩ := List.forall_mem_cons.mp h
    rw [memberSlot?, hl.slot?_eq, membersOf_cons, lastNamed?_append]
    cases lastNamed? name (members l.decl).items.toList with
    | none => exact ih hrest
    | some i => rfl

/-- The member that the walk finds is the one at its place. -/
theorem member?_eq (h : ∀ l ∈ chain, (members l.decl).Declared) :
    member? members name chain =
      (memberSlot? members name chain).bind ((membersOf members chain)[·]?) := by
  induction chain with
  | nil => rfl
  | cons l rest ih =>
    obtain ⟨hl, hrest⟩ := List.forall_mem_cons.mp h
    rw [member?, List.findSome?_cons, memberSlot?, membersOf_cons, Members.find?]
    cases hs : (members l.decl).slot? name with
    | some i =>
      have hlast := hs
      rw [hl.slot?_eq] at hlast
      obtain ⟨⟨m, hm, -⟩, -⟩ := lastNamed?_eq_some_iff.mp hlast
      -- a member of the link itself lies behind all those of the bases
      have hplace : (membersOf members rest ++ (members l.decl).items.toList)[
          (membersOf members rest).length + i]? = some m := by
        rw [List.getElem?_append_right (Nat.le_add_right _ _), Nat.add_sub_cancel_left, hm]
      rw [Array.getElem?_toList] at hm
      simp [hm, hplace]
    | none =>
      have hwalk := ih hrest
      simp only [Option.bind_none]
      rw [← member?, hwalk]
      cases hr : memberSlot? members name rest with
      | none => rfl
      | some i =>
        rw [memberSlot?_eq hrest] at hr
        obtain ⟨⟨m, hm, -⟩, -⟩ := lastNamed?_eq_some_iff.mp hr
        exact (List.getElem?_append_left (List.getElem?_eq_some_iff.mp hm).1).symm

/-- No member answers to a name exactly if none has it. -/
theorem member?_eq_none_iff (h : ∀ l ∈ chain, (members l.decl).Declared) :
    member? members name chain = none ↔ ∀ a ∈ membersOf members chain, Named.name a ≠ name := by
  rw [member?_eq h, memberSlot?_eq h, ← lastNamed?_eq_none_iff]
  cases hlast : lastNamed? name (membersOf members chain) with
  | none => simp
  | some i =>
    obtain ⟨⟨a, ha, -⟩, -⟩ := lastNamed?_eq_some_iff.mp hlast
    simp [ha]

end

/-! ## Fields -/

/-- A chain has as many slots as it has fields. -/
theorem fieldCount_eq (chain : List Link) : fieldCount chain = (fieldsOf chain).length := by
  induction chain with
  | nil => rfl
  | cons l rest ih =>
    have hcons : fieldsOf (l :: rest) = fieldsOf rest ++ l.decl.fields.items.toList :=
      membersOf_cons (·.fields) l rest
    rw [fieldCount, hcons, List.length_append, ih, Nat.add_comm, Array.length_toList]
    rfl

theorem fieldSlot?_eq_memberSlot? (name : String) (chain : List Link) :
    fieldSlot? name chain = memberSlot? (·.fields) name chain := by
  induction chain with
  | nil => rfl
  | cons l rest ih => rw [fieldSlot?, memberSlot?, fieldCount_eq, ih]; rfl

end Link

namespace Class

variable {c : Class}

/-- The fields of a class and of all its bases were declared one after the other. -/
def FieldsDeclared (c : Class) : Prop := ∀ l ∈ c.links, l.decl.fields.Declared

theorem fieldCount_eq (c : Class) : c.fieldCount = c.allFields.length := Link.fieldCount_eq c.links

/-- The slot of a name is the position of the last field of that name. -/
theorem FieldsDeclared.fieldSlot?_eq (h : c.FieldsDeclared) (name : String) :
    c.fieldSlot? name = lastNamed? name c.allFields := by
  rw [fieldSlot?, Link.fieldSlot?_eq_memberSlot?, Link.memberSlot?_eq h]
  rfl

/-- The field of a name is the one at the position of its slot. -/
theorem FieldsDeclared.field?_eq (h : c.FieldsDeclared) (name : String) :
    c.field? name = (c.fieldSlot? name).bind (c.allFields[·]?) := by
  rw [fieldSlot?, Link.fieldSlot?_eq_memberSlot?]
  exact Link.member?_eq h

/-- The slot of a name holds a field of that name, and no later field has it. -/
theorem FieldsDeclared.fieldSlot?_eq_some_iff (h : c.FieldsDeclared) {name : String} {i : Nat} :
    c.fieldSlot? name = some i ↔
      (∃ f, c.allFields[i]? = some f ∧ f.name = name) ∧
        ∀ j f, i < j → c.allFields[j]? = some f → f.name ≠ name := by
  rw [h.fieldSlot?_eq]
  exact lastNamed?_eq_some_iff

theorem FieldsDeclared.fieldSlot?_eq_none_iff (h : c.FieldsDeclared) {name : String} :
    c.fieldSlot? name = none ↔ ∀ f ∈ c.allFields, f.name ≠ name := by
  rw [h.fieldSlot?_eq]
  exact lastNamed?_eq_none_iff

theorem allFields_derive (id : ClassId) (decl : ClassDecl) (base : Option Class) :
    (derive id decl base).allFields = base.elim [] allFields ++ decl.fields.items.toList := by
  have hcons := Link.membersOf_cons (·.fields) ⟨id, decl⟩ (base.elim [] links)
  cases base <;> exact hcons

theorem fieldsDeclared_derive (id : ClassId) {decl : ClassDecl} {base : Option Class}
    (hdecl : decl.fields.Declared) (hbase : ∀ b ∈ base, b.FieldsDeclared) :
    (derive id decl base).FieldsDeclared := by
  intro l hl
  rcases List.mem_cons.mp hl with rfl | hl
  · exact hdecl
  · cases base with
    | none => cases hl
    | some b => exact hbase b rfl l hl

end Class

/-- Fields that are added to a declaration one after the other. -/
theorem ClassDecl.fields_foldl_addField (decl : ClassDecl) (fields : List Field) :
    (fields.foldl addField decl).fields = fields.foldl Members.add decl.fields := by
  induction fields generalizing decl with
  | nil => rfl
  | cons f fields ih => exact ih (decl.addField f)

/-- **The layout of fields is one.** All fields of a class are those of its base, followed by its
own ones in the order in which they were added, and there are as many slots as fields. The slot of a
name is the position of the last field of that name, and the field that answers to the name is the
one there. -/
theorem field_layout (id : ClassId) (decl : ClassDecl) (hdecl : decl.fields = {})
    (fields : List Field) (base : Option Class) (hbase : ∀ b ∈ base, b.FieldsDeclared) :
    let c := Class.derive id (fields.foldl .addField decl) base
    c.allFields = base.elim [] Class.allFields ++ fields ∧
    c.fieldCount = c.allFields.length ∧
    ∀ name,
      (∀ i, c.fieldSlot? name = some i ↔
        (∃ f, c.allFields[i]? = some f ∧ f.name = name) ∧
          ∀ j f, i < j → c.allFields[j]? = some f → f.name ≠ name) ∧
      (c.fieldSlot? name = none ↔ ∀ f ∈ c.allFields, f.name ≠ name) ∧
      c.field? name = (c.fieldSlot? name).bind (c.allFields[·]?) ∧
      (c.field? name = none ↔ c.fieldSlot? name = none) := by
  intro c
  have hadded : (fields.foldl ClassDecl.addField decl).fields = .ofList fields := by
    rw [ClassDecl.fields_foldl_addField, hdecl]
    rfl
  have hc : c.FieldsDeclared := by
    refine Class.fieldsDeclared_derive id ?_ hbase
    rw [hadded]
    exact Members.declared_ofList fields
  refine ⟨?_, c.fieldCount_eq, fun name => ⟨fun i => hc.fieldSlot?_eq_some_iff,
    hc.fieldSlot?_eq_none_iff, hc.field?_eq name, ?_⟩⟩
  · rw [Class.allFields_derive, hadded, Members.items_ofList]
  · rw [hc.field?_eq]
    cases hslot : c.fieldSlot? name with
    | none => simp
    | some i =>
      obtain ⟨⟨f, hf, -⟩, -⟩ := hc.fieldSlot?_eq_some_iff.mp hslot
      simp [hf]

/-! A name that is declared twice in the base and once more in the class that derives from it. -/

namespace Hidden

/-- A field of a name, told apart from others of that name by its type. -/
def field (name typeName : String) : Field := { name, type := .unresolved typeName }

def shape : Class :=
  .derive ⟨0⟩ { name := "Shape", fields := .ofList [field "tag" "A", field "size" "B",
    field "tag" "C"] } none

def added : List Field := [field "edge" "D", field "tag" "E"]

def polygon : Class := .derive ⟨1⟩ (added.foldl .addField { name := "Polygon" }) (some shape)

end Hidden

theorem field_layout_hidden :
    Hidden.polygon.allFields = Hidden.shape.allFields ++ Hidden.added ∧
    Hidden.polygon.fieldCount = 5 ∧
    Hidden.polygon.fieldSlot? "tag" = some 4 ∧
    Hidden.polygon.field? "tag" = some (Hidden.field "tag" "E") ∧
    Hidden.shape.fieldSlot? "tag" = some 2 ∧
    Hidden.polygon.field? "color" = none := by
  have hshape : ∀ b ∈ some Hidden.shape, b.FieldsDeclared := by
    rintro b ⟨⟩
    exact Class.fieldsDeclared_derive ⟨0⟩ (Members.declared_ofList _) (by simp)
  obtain ⟨hall, hcount, hnames⟩ :=
    field_layout ⟨1⟩ { name := "Polygon" } rfl Hidden.added (some Hidden.shape) hshape
  have hslot : Hidden.polygon.fieldSlot? "tag" = some 4 := by decide
  have hnone : Hidden.polygon.fieldSlot? "color" = none := by decide
  refine ⟨hall, hcount, hslot, ?_, by decide, (hnames "color").2.2.2.mpr hnone⟩
  exact (hnames "tag").2.2.1.trans (by decide)

end ObjectMachine
