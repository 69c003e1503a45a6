import ObjectMachine.Proofs.Worlds

/-!
# Sessions with a machine

The registries are only ever appended to. After any session they are what their history says
(`registry_over_sessions`): the tables are those of the classes, a name means the class that was
registered under it last, a class is found under its own index, and an index keeps its meaning.
-/

namespace ObjectMachine

/-- A session leads from one world to another, and these are the classes that were registered on the
way, in this order. -/
inductive Session (w : World) : List Class → World → Prop
  | none : Session w [] w
  | serve {cs : List Class} {w₁ w₂ : World} (h : Session w cs w₁) (r : Request)
    (hr : w₁.Allows r) {answer : Except Fault Reply} (hs : w₁.serve r = some (answer, w₂)) :
    Session w (cs ++ w₁.registers r) w₂

/-! ## What indices denote -/

section
variable {p : Program} {i : Nat} {e : Entry}

theorem getElem?_push_of_some {α : Type} {xs : Array α} {x : α} (h : xs[i]? = some x) (y : α) :
    (xs.push y)[i]? = some x := by
  rw [Array.getElem?_push_lt (Array.getElem?_eq_some_iff.mp h).1]
  exact (Array.getElem?_eq_getElem _).symm.trans h

/-- An index keeps its meaning when the tables grow. -/
theorem Program.Denotes.adding (h : p.Denotes i e) (added : Option Entry) :
    (p.adding added).Denotes i e := by
  cases added with
  | none => exact h
  | some entry =>
    cases entry with
    | cls c =>
      cases e with
      | cls d => exact ⟨getElem?_push_of_some h.1 c, getElem?_push_of_some h.2 _⟩
      | string s => exact h
      | constant v => exact h
    | string s =>
      cases e with
      | string s' => exact getElem?_push_of_some h s
      | _ => exact h
    | constant v =>
      cases e with
      | constant v' => exact getElem?_push_of_some h v
      | _ => exact h

/-- A class gets the next index, and its methods the slots of the next table. -/
theorem Program.denotes_adding_class (h : p.registry.Lawful) (c : Class) :
    (p.adding (some (.cls c))).Denotes p.registry.size (.cls c) := by
  have hsize : p.registry.size = p.registry.tables.size := by
    rw [h.tables, Array.size_map]
    rfl
  refine ⟨Array.getElem?_push_size, ?_⟩
  rw [hsize]
  exact Array.getElem?_push_size

end

namespace World

variable {w w' : World} {r : Request} {answer : Except Fault Reply}

/-- The index that a request answers denotes what the request has registered. -/
theorem Sound.denotes (h : w.Sound) {i : Nat} (hs : w.serve r = some (.ok (.index i), w')) :
    ∃ e, w.added? r = some e ∧ w'.machine.program.Denotes i e := by
  cases r with
  | define | newBuilder => cases hs
  | register c =>
    cases hs
    exact ⟨_, rfl, Program.denotes_adding_class h.grown.lawful c⟩
  | addString s =>
    cases hs
    exact ⟨_, rfl, Array.getElem?_push_size⟩
  | addConstant v =>
    cases hs
    exact ⟨_, rfl, Array.getElem?_push_size⟩
  | build call =>
    have hmade := Builder.make_spec h.builder call
    unfold World.serve at hs
    dsimp only at hs
    split at hs
    · rename_i heq
      rw [heq] at hmade
      cases hmade with
      | @registered c hm hc =>
        cases hs
        refine ⟨.cls (.derive ⟨w.machine.nextStamp⟩ c.decl c.base), ?_,
          Program.denotes_adding_class h.grown.lawful _⟩
        simp [added?, hm, Builder.inProgress?, hc]
        rfl
      | _ => cases hs
    · cases hs
  | newObject className =>
    unfold World.serve at hs
    dsimp only at hs
    cases hanswer : (w.machine.newObject className).1 <;> rw [hanswer] at hs <;> cases hs
  | heap call =>
    unfold World.serve at hs
    dsimp only at hs
    cases hanswer : (w.machine.onHeap call.make).1 <;> rw [hanswer] at hs <;> cases hs
  | invoke patience target =>
    unfold World.serve at hs
    dsimp only at hs
    split at hs
    · obtain ⟨⟨result, w₁⟩, -, hw⟩ := Option.map_eq_some_iff.mp hs
      cases result <;> cases hw
    · cases hs
  | begin receiver method arguments =>
    unfold World.serve at hs
    dsimp only at hs
    cases hanswer : (w.machine.begin receiver method arguments).1 with
    | error e => rw [hanswer] at hs; cases hs
    | ok invocation => cases invocation <;> rw [hanswer] at hs <;> cases hs

end World

/-! ## Whole sessions -/

namespace Session

variable {w w' : World} {cs : List Class}

theorem sound (h : Session w cs w') (hw : w.Sound) : w'.Sound := by
  induction h with
  | none => exact hw
  | serve h r hr hs ih => exact ih.serve hr hs

theorem denotes (h : Session w cs w') (hw : w.Sound) {i : Nat} {e : Entry}
    (he : w.machine.program.Denotes i e) : w'.machine.program.Denotes i e := by
  induction h with
  | none => exact he
  | serve h r hr hs ih =>
    have hsound := h.sound hw
    rw [World.program_of_serve hsound.builder hsound.frames hs]
    exact ih.adding _

/-- The classes of a world are those of the beginning and those that were registered since. -/
theorem classes (h : Session w cs w') (hw : w.Sound) :
    w'.registry.classes.toList = w.registry.classes.toList ++ cs := by
  induction h with
  | none => rw [List.append_nil]
  | serve h r hr hs ih =>
    have hsound := h.sound hw
    rw [World.classes_of_serve hsound.builder hsound.frames hs, ih, List.append_assoc]

end Session

/-- The index of a class that exists is one of the class itself. -/
theorem Machine.Grown.class?_of_idOf? {m : Machine} {cs : List Class} (h : m.Grown cs) {c : Class}
    (hc : c ∈ cs) {i : Nat} (hi : m.registry.idOf? c = some i) : m.registry.class? i = some c := by
  obtain ⟨d, hd, hid⟩ := Registry.class?_of_idOf? hi
  rw [hd, h.eq_of_id d (h.mem_of_class? hd) c hc hid]

/-- A class has no index exactly if it is not registered. -/
theorem Machine.Grown.idOf?_eq_none_iff {m : Machine} {cs : List Class} (h : m.Grown cs) {c : Class}
    (hc : c ∈ cs) : m.registry.idOf? c = none ↔ c ∉ m.registry.classes.toList := by
  constructor
  · intro hnone hmem
    have hfirst : m.registry.classes.findIdx? (fun d => d.id == c.id) = none := by
      unfold Registry.idOf? at hnone
      dsimp only at hnone
      split at hnone
      · split at hnone
        · cases hnone
        · exact hnone
      · exact hnone
    rw [Array.findIdx?_eq_none_iff] at hfirst
    have := hfirst c (Array.mem_toList_iff.mp hmem)
    simp at this
  · intro hnot
    cases hi : m.registry.idOf? c with
    | none => rfl
    | some i =>
      have hclass := h.class?_of_idOf? hc hi
      rw [Registry.class?, ← Array.getElem?_toList] at hclass
      exact absurd (List.mem_of_getElem? hclass) hnot

/-- **The registries over whole sessions.** After any session there is one method table for each
class, a name means the greatest index of a class with that name, and a class is found exactly under
an index of its own. An index keeps its meaning. An access to an object or an invocation changes
nothing but the heap and the counter of instructions, and leaves no frame. -/
theorem registry_over_sessions {w₀ w : World} {cs : List Class} (h₀ : w₀.Opened)
    (h : Session w₀ cs w) :
    (w.registry.tables.size = w.registry.classes.size ∧
      ∀ i, w.registry.table? i = (w.registry.class? i).map fun c => c.allMethods.toArray) ∧
    (∀ name,
      (∀ i, w.registry.indexOf? name = some i ↔
        (∃ c, w.registry.class? i = some c ∧ c.name = name) ∧
          ∀ j c, i < j → w.registry.class? j = some c → c.name ≠ name) ∧
      (w.registry.indexOf? name = none ↔ ∀ i c, w.registry.class? i = some c → c.name ≠ name)) ∧
    (∀ c ∈ w.classes,
      (∀ i, w.registry.idOf? c = some i → w.registry.class? i = some c) ∧
      (w.registry.idOf? c = none ↔ c ∉ w₀.registry.classes.toList ++ cs)) ∧
    (∀ ds w', Session w ds w' →
      ∀ i e, w.machine.program.Denotes i e → w'.machine.program.Denotes i e) ∧
    (∀ r i w₁, w.Allows r → w.serve r = some (.ok (.index i), w₁) →
      ∃ e, w.added? r = some e ∧
        ∀ ds w', Session w₁ ds w' → w'.machine.program.Denotes i e) ∧
    (∀ r answer w₁, r.isAccess → w.serve r = some (answer, w₁) →
      ∃ heap steps, w₁ = w.settle heap steps []) ∧
    w.frames = [] := by
  have hsound := h.sound h₀.sound
  have hlawful : w.registry.Lawful := hsound.grown.lawful
  refine ⟨⟨?_, hlawful.table?_eq⟩, fun name => ⟨fun i => ?_, ?_⟩, fun c hc => ⟨?_, ?_⟩, ?_, ?_, ?_,
    hsound.frames⟩
  · rw [hlawful.tables, Array.size_map]
  · rw [hlawful.names, lastNamed?_eq_some_iff]
    simp only [Registry.class?, Array.getElem?_toList]
    rfl
  · rw [hlawful.names, lastNamed?_eq_none_iff]
    simp only [List.mem_iff_getElem?, Registry.class?, Array.getElem?_toList]
    constructor
    · intro hall i c hc
      exact hall c ⟨i, hc⟩
    · rintro hall c ⟨i, hc⟩
      exact hall i c hc
  · exact fun i hi => hsound.grown.class?_of_idOf? hc hi
  · rw [← h.classes h₀.sound]
    exact hsound.grown.idOf?_eq_none_iff hc
  · exact fun ds w' hlater i e he => hlater.denotes hsound he
  · intro r i w₁ hr hs
    obtain ⟨e, he, hdenotes⟩ := hsound.denotes hs
    exact ⟨e, he, fun ds w' hlater => hlater.denotes (hsound.serve hr hs) hdenotes⟩
  · exact fun r answer w₁ hr hs => World.settle_of_serve hr hsound.frames hs

/-! A class is registered twice, called with success and without, and loses its name to a class that
a builder makes after it was misused. -/

namespace Replaced

/-- The method of the first class: a call of a native body, and a call of a method that is not
there. -/
def work : Method := .interpreted "Work" .void [] [] #[.of .call [1, 0], .of .call [7, 7]] .everyone

def last : Method := .native "Last" .void [] "last" .everyone

def first : Class := .derive ⟨0⟩ { name := "Node", methods := .ofList [work, last] } none

def second : Class := .derive ⟨1⟩ { name := "Node" } (some first)

def opening : World := .opening (.empty {} .basic)

def final : World where
  builder :=
    { machine :=
        { program :=
            { registry := ((({} : Registry).register first).register first).register second
              strings := #["label"]
              limits := {}
              host := .basic }
          steps := 2
          nextStamp := 2 } }
  classes := [second, first]

theorem session : Session opening [first, first, second] final := by
  have h₁ := Session.none.serve (w := opening) (.define { name := "Node" } [] [work, last] none)
    (by simp [World.Allows]) rfl
  have h₂ := h₁.serve (.register first) (List.mem_singleton.mpr rfl) rfl
  have h₃ := h₂.serve (.build .endMethod) trivial rfl
  have h₄ := h₃.serve (.build (.beginClass "Node" (some "Node"))) trivial rfl
  have h₅ := h₄.serve (.register first) (List.mem_singleton.mpr rfl) rfl
  have h₆ := h₅.serve (.invoke 9 (.static "Node" "Last" #[])) trivial rfl
  have h₇ := h₆.serve (.invoke 9 (.static "Node" "Work" #[])) trivial rfl
  have h₈ := h₇.serve (.addString "label") trivial rfl
  exact h₈.serve (.build .endClass) trivial rfl

end Replaced

theorem registry_over_sessions_replaced :
    Session Replaced.opening [Replaced.first, Replaced.first, Replaced.second] Replaced.final ∧
    Replaced.final.registry.indexOf? "Node" = some 2 ∧
    (∀ j c, 2 < j → Replaced.final.registry.class? j = some c → c.name ≠ "Node") ∧
    Replaced.final.registry.idOf? Replaced.first = some 0 ∧
    Replaced.final.registry.class? 0 = some Replaced.first ∧
    Replaced.final.frames = [] := by
  obtain ⟨-, hnames, hids, -, -, -, hframes⟩ :=
    registry_over_sessions (.new {} .basic) Replaced.session
  have hname : Replaced.final.registry.indexOf? "Node" = some 2 := by decide
  have hid : Replaced.final.registry.idOf? Replaced.first = some 0 := by decide +kernel
  exact ⟨Replaced.session, hname, (((hnames "Node").1 2).mp hname).2, hid,
    (hids Replaced.first (by decide)).1 0 hid, hframes⟩

end ObjectMachine
