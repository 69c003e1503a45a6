import ObjectMachine.Proofs.Inheritance

/-!
# Type tests

Subclassing is a partial order on the classes that exist, the one that the base chains give: a class
is below the classes that it comes to by going from class to base (`Class.extends_iff`). The names
of the classes have no part in it.

Both type tests ask whether an operand refers to an object of a subclass of the class that the
instruction names. They differ in what they do with any other operand: an instance test answers
null, a cast lets null pass and fails for the rest (`step_isInst`, `step_castClass`). Since the
order is transitive and an object keeps its class, a value that has passed a cast passes all tests
for the bases from then on (`type_tests_follow_subclassing`).
-/

namespace ObjectMachine

open Relation

/-- The class comes to the other one by going from class to base, any number of times. -/
def Class.Extends : Class → Class → Prop := ReflTransGen fun c b => c.base? = some b

/-- The value refers to an object of the class or of one of its subclasses. -/
def Value.IsA (v : Value) (h : Heap) (c : Class) : Prop :=
  ∃ r o, v = .object r ∧ h.object? r = some o ∧ o.cls.isSubclassOf c = true

/-- The current instruction has this opcode and names this class by an index. The value is the
operand on top, and there is room to put an operand in its place. -/
structure Activation.Tests (s : Activation) (p : Program) (op : Opcode) (c : Class) (v : Value)
    (base : Array Value) : Prop where
  names : ∃ i index, s.Executes i op ∧ i.operand 0 = .ok index ∧ p.registry.class? index = some c
  operand : s.frame.stack.slots = base.push v
  room : base.size < s.room

/-! ## The order -/

namespace Class

theorem eq_of_links {c d : Class} (h : c.links = d.links) : c = d := by
  obtain ⟨own, bases⟩ := c
  obtain ⟨rfl, rfl⟩ := List.cons.inj h
  rfl

theorem links_of_base? {c b : Class} (h : c.base? = some b) : c.links = c.own :: b.links := by
  obtain ⟨own, bases⟩ := c
  cases bases with
  | nil => cases h
  | cons l rest =>
    cases h
    rfl

/-- The base chain goes through the ends of the chain of declarations. -/
theorem extends_iff {d b : Class} : d.Extends b ↔ b.links <:+ d.links := by
  constructor
  · intro h
    induction h with
    | refl => exact List.suffix_rfl
    | tail _ hbase ih => exact (links_of_base? hbase ▸ List.suffix_cons _ _).trans ih
  · -- by induction on the declarations above the class: each is the own one of its base
    obtain ⟨own, bases⟩ := d
    intro h
    induction bases generalizing own with
    | nil =>
      rcases List.suffix_cons_iff.mp h with heq | hnil
      · rw [eq_of_links (c := b) (d := ⟨own, []⟩) heq]
        exact .refl
      · cases List.suffix_nil.mp hnil
    | cons l rest ih =>
      rcases List.suffix_cons_iff.mp h with heq | hrest
      · rw [eq_of_links (c := b) (d := ⟨own, l :: rest⟩) heq]
        exact .refl
      · exact .head (b := (⟨l, rest⟩ : Class)) rfl (ih l hrest)

theorem isSubclassOf_refl (c : Class) : c.isSubclassOf c = true :=
  List.any_eq_true.mpr ⟨c.own, List.mem_cons_self, beq_self_eq_true _⟩

end Class

namespace Machine.Grown

variable {m : Machine} {cs : List Class} {d b a : Class}

theorem isSubclassOf_antisymm (h : m.Grown cs) (hd : d ∈ cs) (hb : b ∈ cs)
    (hdb : d.isSubclassOf b = true) (hbd : b.isSubclassOf d = true) : d = b := by
  have hbase := (h.isSubclassOf_iff hd hb).mp hdb
  have hsub := (h.isSubclassOf_iff hb hd).mp hbd
  exact Class.eq_of_links (hsub.sublist.antisymm hbase.sublist)

theorem isSubclassOf_trans (h : m.Grown cs) (hd : d ∈ cs) (hb : b ∈ cs) (ha : a ∈ cs)
    (hdb : d.isSubclassOf b = true) (hba : b.isSubclassOf a = true) :
    d.isSubclassOf a = true := by
  rw [h.isSubclassOf_iff hd hb] at hdb
  rw [h.isSubclassOf_iff hb ha] at hba
  exact (h.isSubclassOf_iff hd ha).mpr (hba.trans hdb)

end Machine.Grown

/-! ## The tests -/

section
variable {p : Program} {s : Activation} {c : Class} {v : Value} {base : Array Value} {h : Heap}

theorem Heap.isInstance_iff : h.isInstance v c = true ↔ v.IsA h c := by
  unfold isInstance classOf? Value.IsA
  cases v with
  | object r =>
    cases ho : h.object? r with
    | none => simp [Value.toObject?, ho]
    | some o => simp [Value.toObject?, ho]
  | _ => simp [Value.toObject?]

theorem Instruction.classOperand_eq {i : Instruction} {index : Nat} (hi : i.operand 0 = .ok index)
    (hc : p.registry.class? index = some c) : i.classOperand p = .ok c := by
  simp only [classOperand, hi, bind, Except.bind, Registry.classAt, hc]

/-- An instance test puts the value back if it is one of the class, and null in its place if not. -/
theorem step_isInst (ht : s.Tests p .isInst c v base) :
    (v.IsA s.heap c → step p s = .ok .next (s.withOperands (base.push v))) ∧
    (¬ v.IsA s.heap c → step p s = .ok .next (s.withOperands (base.push .null))) := by
  obtain ⟨i, index, hexecutes, hindex, hc⟩ := ht.names
  have hstep := hexecutes.step_of_operand p .testClass (fun _ => rfl)
    (Instruction.classOperand_eq hindex hc)
  have hperform : Exec.perform p (.testClass c) s = .ok .next
      (s.withOperands (base.push (if s.heap.isInstance v c then v else .null))) := by
    simp only [Exec.perform, bind, EStateM.bind, Exec.pop_of_push ht.operand]
    exact Exec.pushNext_of_lt (s := s.withOperands base) ht.room _
  rw [hstep, hperform, ← Heap.isInstance_iff]
  exact ⟨fun h => by rw [if_pos h], fun h => by rw [if_neg h]⟩

/-- A cast puts the value back if it is null or one of the class, and fails if not. -/
theorem step_castClass (ht : s.Tests p .castClass c v base) :
    (v = .null ∨ v.IsA s.heap c → step p s = .ok .next (s.withOperands (base.push v))) ∧
    (¬ (v = .null ∨ v.IsA s.heap c) →
      step p s =
        .error (.typeMismatch (.cast (s.heap.describe v) c.name)) (s.withOperands base)) := by
  obtain ⟨i, index, hexecutes, hindex, hc⟩ := ht.names
  have hstep := hexecutes.step_of_operand p .cast (fun _ => rfl)
    (Instruction.classOperand_eq hindex hc)
  rw [hstep, ← Heap.isInstance_iff]
  simp only [Exec.perform, bind, EStateM.bind, Exec.pop_of_push ht.operand]
  constructor
  · intro hpass
    change (ite (v = .null ∨ s.heap.isInstance v c = true) _ _ : Exec Flow) _ = _
    rw [if_pos hpass]
    exact Exec.pushNext_of_lt (s := s.withOperands base) ht.room v
  · intro hfail
    change (ite (v = .null ∨ s.heap.isInstance v c = true) _ _ : Exec Flow) _ = _
    rw [if_neg hfail]
    rfl

/-- A value that passes either test is null or one of the class. -/
theorem Activation.Tests.passes_iff {op : Opcode} (hop : op = .castClass ∨ op = .isInst)
    (ht : s.Tests p op c v base) :
    step p s = .ok .next (s.withOperands (base.push v)) ↔ v = .null ∨ v.IsA s.heap c := by
  rcases hop with rfl | rfl
  · obtain ⟨hpass, hfail⟩ := step_castClass ht
    refine ⟨fun hstep => ?_, hpass⟩
    by_contra hnot
    rw [hfail hnot] at hstep
    cases hstep
  · obtain ⟨hpass, hfail⟩ := step_isInst ht
    constructor
    · intro hstep
      by_cases hisA : v.IsA s.heap c
      · exact .inr hisA
      · -- null is put in place of the value, so it is the value
        rw [hfail hisA] at hstep
        injection hstep with _ hstate
        have hslots : base.push .null = base.push v := congrArg (·.frame.stack.slots) hstate
        exact .inl (Array.push_inj_right.mp hslots).symm
    · rintro (rfl | hisA)
      · by_cases hisA : Value.null.IsA s.heap c
        · exact hpass hisA
        · exact hfail hisA
      · exact hpass hisA

end

/-- An object stays one of the class, and is one of every base. -/
theorem Value.IsA.of_evolves {m : Machine} {cs : List Class} (hgrown : m.Grown cs) {h h' : Heap}
    {v : Value} {d b : Class} (hv : v.IsA h d) (hd : d ∈ cs) (hb : b ∈ cs)
    (hcls : ∀ r o, h.object? r = some o → o.cls ∈ cs) (hdb : d.isSubclassOf b = true)
    (hlater : Heap.Evolves (· ∈ cs) h h') : v.IsA h' b := by
  obtain ⟨r, o, rfl, ho, hsub⟩ := hv
  obtain ⟨slots, hslots, -⟩ := hlater.object?_of_some ho
  exact ⟨r, _, rfl, hslots, hgrown.isSubclassOf_trans (hcls r o ho) hd hb hsub hdb⟩

/-- **The type tests follow subclassing, and subclassing is a partial order** on the classes that
exist in a session. An instance test puts back an operand that is an object of a subclass and
answers null otherwise; a cast puts back the same and null, and fails otherwise. A value that has
been cast to a class goes on to pass both tests for every base of the class. -/
theorem type_tests_follow_subclassing {w₀ w : World} {cs : List Class} (h₀ : w₀.Opened)
    (h : Session w₀ cs w) :
    (∀ d ∈ w.classes, d.isSubclassOf d ∧ (∀ b, d.Extends b → b ∈ w.classes) ∧
      ∀ b ∈ w.classes, (d.id = b.id ↔ d = b) ∧ (d.isSubclassOf b ↔ d.Extends b) ∧
        (d.isSubclassOf b → b.isSubclassOf d → d = b) ∧
        ∀ a ∈ w.classes, d.isSubclassOf b → b.isSubclassOf a → d.isSubclassOf a) ∧
    (∀ p s c v base, Activation.Tests s p .isInst c v base →
      (v.IsA s.heap c → step p s = .ok .next (s.withOperands (base.push v))) ∧
      (¬ v.IsA s.heap c → step p s = .ok .next (s.withOperands (base.push .null)))) ∧
    (∀ p s c v base, Activation.Tests s p .castClass c v base →
      (v = .null ∨ v.IsA s.heap c → step p s = .ok .next (s.withOperands (base.push v))) ∧
      (¬ (v = .null ∨ v.IsA s.heap c) →
        step p s =
          .error (.typeMismatch (.cast (s.heap.describe v) c.name)) (s.withOperands base)) ∧
      ∀ t below, t.Tests p .isInst c v below → t.heap = s.heap →
        (step p s = .ok .next (s.withOperands (base.push v)) ↔
          v = .null ∨ step p t = .ok .next (t.withOperands (below.push v)))) ∧
    (w₀.machine.program.host.Accesses (· ∈ w.classes) →
      ∀ s d v base, w.Runs s → s.Tests w.machine.program .castClass d v base →
      step w.machine.program s = .ok .next (s.withOperands (base.push v)) →
      ∀ b, d.isSubclassOf b → ∀ t op below, op = .castClass ∨ op = .isInst →
        t.Tests w.machine.program op b v below → Heap.Evolves (· ∈ w.classes) s.heap t.heap →
        step w.machine.program t = .ok .next (t.withOperands (below.push v))) := by
  have hsound := h.sound h₀.sound
  have hgrown := hsound.grown
  refine ⟨fun d hd => ⟨d.isSubclassOf_refl, fun b hdb => ?_, fun b hb => ?_⟩,
    fun p s c v base ht => step_isInst ht, fun p s c v base ht => ?_, ?_⟩
  · exact hgrown.mem_of_suffix hd (Class.extends_iff.mp hdb)
  · refine ⟨⟨hgrown.eq_of_id d hd b hb, fun heq => by rw [heq]⟩, ?_,
      hgrown.isSubclassOf_antisymm hd hb, fun a ha => hgrown.isSubclassOf_trans hd hb ha⟩
    rw [hgrown.isSubclassOf_iff hd hb, Class.extends_iff]
  · obtain ⟨hpass, hfail⟩ := step_castClass ht
    refine ⟨hpass, hfail, fun t below ht' hheap => ?_⟩
    rw [ht.passes_iff (.inl rfl), ht'.passes_iff (.inr rfl), hheap]
    tauto
  · intro hhost s d v base hruns ht hstep b hdb t op below hop ht' hlater
    rw [← h.host_eq h₀.sound] at hhost
    rw [ht'.passes_iff hop]
    rcases (ht.passes_iff (.inl rfl)).mp hstep with rfl | hisA
    · exact .inl rfl
    · obtain ⟨_, _, -, -, hd⟩ := ht.names
      obtain ⟨_, _, -, -, hb⟩ := ht'.names
      have hcls : ∀ r o, s.heap.object? r = some o → o.cls ∈ w.classes := fun r o ho =>
        hsound.mem_of_runs h₀ h hhost hruns ho
      exact .inr (hisA.of_evolves hgrown (hgrown.mem_of_class? hd) (hgrown.mem_of_class? hb)
        hcls hdb hlater)

/-! A pup is cast to its class and tested for the base, which has two indices, and for another class
that has the name of the base. -/

namespace Kennel

def check : Method :=
  .interpreted "Check" .void [] []
    #[.of .ldArg [0], .of .castClass [1], .of .isInst [3], .of .isInst [2], .of .ret []] .everyone

def dog : Class := .derive ⟨0⟩ { name := "Dog" } none

def pup : Class := .derive ⟨1⟩ { name := "Pup", methods := .ofList [check] } (some dog)

/-- Another class with the name of the base. -/
def robot : Class := .derive ⟨2⟩ { name := "Dog" } none

def opening : World := .opening (.empty {} .basic)

def final : World where
  builder :=
    { machine :=
        { program :=
            { registry :=
                (((({} : Registry).register dog).register pup).register robot).register dog
              limits := {}
              host := .basic }
          heap := { objects := #[.create pup] }
          nextStamp := 3 } }
  classes := [robot, pup, dog]

theorem session : Session opening [dog, pup, robot, dog] final := by
  have h₁ := Session.none.serve (w := opening) (.define { name := "Dog" } [] [] none)
    (by simp [World.Allows]) rfl
  have h₂ := h₁.serve (.define { name := "Pup" } [] [check] (some dog))
    (by rintro b ⟨⟩; exact List.mem_singleton.mpr rfl) rfl
  have h₃ := h₂.serve (.define { name := "Dog" } [] [] none) (by simp [World.Allows]) rfl
  have hdog : dog ∈ [robot, pup, dog] := by simp
  have h₄ := h₃.serve (.register dog) hdog rfl
  have h₅ := h₄.serve (.register pup) (List.mem_cons_of_mem _ List.mem_cons_self) rfl
  have h₆ := h₅.serve (.register robot) List.mem_cons_self rfl
  have h₇ := h₆.serve (.register dog) hdog rfl
  exact h₇.serve (.newObject "Pup") trivial rfl

/-- The method at one of its tests, with the receiver on the stack. -/
def testing (pc : Nat) : Activation where
  frame :=
    { Frame.enter check (some ⟨0⟩) #[] Stack.defaultLimit
      with stack := ⟨#[.object ⟨0⟩], Stack.defaultLimit⟩, pc }
  heap := { objects := #[.create pup] }

theorem runs : final.Runs (testing 1) :=
  ⟨⟨check, some ⟨0⟩, #[]⟩, 1, ⟨(testing 1).frame, .empty, (testing 1).heap, 1⟩, rfl, rfl⟩

end Kennel

theorem type_tests_follow_subclassing_kennel :
    Kennel.dog.name = Kennel.robot.name ∧ Kennel.dog.id ≠ Kennel.robot.id ∧
    Kennel.pup.Extends Kennel.dog ∧ ¬ Kennel.pup.Extends Kennel.robot ∧
    step Kennel.final.machine.program (Kennel.testing 1) = .ok .next (Kennel.testing 1) ∧
    step Kennel.final.machine.program (Kennel.testing 2) = .ok .next (Kennel.testing 2) ∧
    step Kennel.final.machine.program (Kennel.testing 3) =
      .ok .next ((Kennel.testing 3).withOperands #[.null]) := by
  obtain ⟨horder, hisInst, hcast, hbases⟩ :=
    type_tests_follow_subclassing (.new {} .basic) Kennel.session
  have hpup := (horder Kennel.pup (by simp [Kennel.final])).2.2
  have hdog := hpup Kennel.dog (by simp [Kennel.final])
  have hrobot := hpup Kennel.robot (by simp [Kennel.final])
  have hpupDog : Kennel.pup.isSubclassOf Kennel.dog = true := by decide
  have hpupRobot : ¬ Kennel.pup.isSubclassOf Kennel.robot = true := by decide
  have h₁ : (Kennel.testing 1).Tests Kennel.final.machine.program .castClass Kennel.pup
      (.object ⟨0⟩) #[] := ⟨⟨.of .castClass [1], 1, ⟨_, rfl, rfl, rfl⟩, rfl, rfl⟩, rfl, by decide⟩
  have h₂ : (Kennel.testing 2).Tests Kennel.final.machine.program .isInst Kennel.dog
      (.object ⟨0⟩) #[] := ⟨⟨.of .isInst [3], 3, ⟨_, rfl, rfl, rfl⟩, rfl, rfl⟩, rfl, by decide⟩
  have h₃ : (Kennel.testing 3).Tests Kennel.final.machine.program .isInst Kennel.robot
      (.object ⟨0⟩) #[] := ⟨⟨.of .isInst [2], 2, ⟨_, rfl, rfl, rfl⟩, rfl, rfl⟩, rfl, by decide⟩
  have hpassed := (hcast _ _ _ _ _ h₁).1
    (.inr ⟨⟨0⟩, .create Kennel.pup, rfl, rfl, Kennel.pup.isSubclassOf_refl⟩)
  refine ⟨rfl, by decide, hdog.2.1.mp hpupDog, fun h => hpupRobot (hrobot.2.1.mpr h), hpassed, ?_,
    (hisInst _ _ _ _ _ h₃).2 ?_⟩
  · have hafter := hbases (Host.accesses_basic _) _ _ _ _ Kennel.runs h₁ hpassed
    exact hafter _ hpupDog _ _ _ (.inr rfl) h₂ .refl
  · rintro ⟨r, o, ⟨⟩, ⟨⟩, hsub⟩
    exact hpupRobot hsub

end ObjectMachine
