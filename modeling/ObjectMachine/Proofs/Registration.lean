import ObjectMachine.Machine.Basic
import Mathlib.Data.List.Induction

/-!
# Names and identities

Members of a class and classes of a machine are found by name, and where a name was given several
times the last one answers to it: `lastNamed?` is the position of that one in the order of
declaration or registration. Members that were declared one after the other are found there
(`Members.Declared.slot?_eq`), and so are registered classes (`Registry.Lawful`).

A class is the same as another one exactly if it has the same identity. This rests on how classes
come about: each definition takes a new stamp from the machine. `Machine.Grown` says which classes
exist beside a machine, whatever was defined and registered in whatever order, and among those the
identity decides (`Machine.Grown.eq_of_id`).
-/

namespace ObjectMachine

/-! ## The last one with a name -/

section
variable {α : Type} [Named α] (name : String)

/-- The position of the last entry with a name. -/
def lastNamed? : List α → Option Nat
  | [] => none
  | a :: rest =>
    match lastNamed? rest with
    | some i => some (i + 1)
    | none => if Named.name a = name then some 0 else none

theorem lastNamed?_append (xs ys : List α) :
    lastNamed? name (xs ++ ys) =
      match lastNamed? name ys with
      | some i => some (xs.length + i)
      | none => lastNamed? name xs := by
  induction xs with
  | nil =>
    rw [List.nil_append, List.length_nil]
    cases lastNamed? name ys <;> simp [lastNamed?]
  | cons x xs ih =>
    rw [List.cons_append, lastNamed?, ih, lastNamed?]
    cases lastNamed? name ys with
    | none => rfl
    | some i => simp only [List.length_cons, Option.some.injEq]; omega

theorem lastNamed?_concat (xs : List α) (a : α) :
    lastNamed? name (xs ++ [a]) =
      if Named.name a = name then some xs.length else lastNamed? name xs := by
  rw [lastNamed?_append]
  by_cases h : Named.name a = name <;> simp [lastNamed?, h]

theorem lastNamed?_eq_none_iff {name : String} {l : List α} :
    lastNamed? name l = none ↔ ∀ a ∈ l, Named.name a ≠ name := by
  induction l with
  | nil => simp [lastNamed?]
  | cons a rest ih =>
    rw [List.forall_mem_cons, ← ih, lastNamed?]
    cases lastNamed? name rest <;> simp

/-- The last entry with a name has the name, and no later one has. -/
theorem lastNamed?_eq_some_iff {name : String} {l : List α} {i : Nat} :
    lastNamed? name l = some i ↔
      (∃ a, l[i]? = some a ∧ Named.name a = name) ∧
        ∀ j a, i < j → l[j]? = some a → Named.name a ≠ name := by
  induction l generalizing i with
  | nil => simp [lastNamed?]
  | cons a rest ih =>
    rw [lastNamed?]
    cases h : lastNamed? name rest with
    | some k =>
      obtain ⟨⟨b, hb, hname⟩, hlast⟩ := ih.mp h
      dsimp only
      rw [Option.some.injEq]
      constructor
      · rintro rfl
        refine ⟨⟨b, hb, hname⟩, fun j a hj ha => ?_⟩
        obtain ⟨j, rfl⟩ : ∃ m, j = m + 1 := ⟨j - 1, by omega⟩
        exact hlast j a (by omega) ha
      · rintro ⟨⟨d, hd, hdname⟩, hlater⟩
        have hle : ¬ i < k + 1 := fun hlt => hlater (k + 1) b hlt hb hname
        have hge : ¬ k + 1 < i := by
          intro hlt
          obtain ⟨i, rfl⟩ : ∃ m, i = m + 1 := ⟨i - 1, by omega⟩
          exact hlast i d (by omega) hd hdname
        omega
    | none =>
      have hnone := lastNamed?_eq_none_iff.mp h
      dsimp only
      constructor
      · intro hi
        split at hi <;> cases hi
        refine ⟨⟨a, rfl, ‹_›⟩, fun j b hj hb => ?_⟩
        obtain ⟨j, rfl⟩ : ∃ m, j = m + 1 := ⟨j - 1, by omega⟩
        exact hnone b (List.mem_of_getElem? hb)
      · rintro ⟨⟨d, hd, hdname⟩, -⟩
        cases i with
        | zero => cases hd; exact if_pos hdname
        | succ i => exact absurd hdname (hnone d (List.mem_of_getElem? hd))

/-- A search from the end finds the last entry with the name. -/
theorem find?_reverse_eq (l : List α) :
    l.reverse.find? (fun a => Named.name a == name) = (lastNamed? name l).bind (l[·]?) := by
  induction l using List.reverseRecOn with
  | nil => rfl
  | append_singleton l a ih =>
    rw [List.reverse_append, List.reverse_singleton, List.singleton_append, List.find?_cons,
      lastNamed?_concat]
    by_cases h : Named.name a = name
    · simp [h]
    · rw [beq_eq_false_iff_ne.mpr h, if_neg h, ih]
      cases hl : lastNamed? name l with
      | none => rfl
      | some i =>
        obtain ⟨⟨b, hb, -⟩, -⟩ := lastNamed?_eq_some_iff.mp hl
        exact (List.getElem?_append_left (List.getElem?_eq_some_iff.mp hb).1).symm

end

/-! ## Members that were declared one after the other -/

namespace Members

variable {α : Type} [Named α]

/-- Members that came about by one declaration after the other. -/
inductive Declared : Members α → Prop
  | none : Declared {}
  | add {ms : Members α} (h : Declared ms) (item : α) : Declared (ms.add item)

theorem ofList_concat (items : List α) (item : α) :
    ofList (items ++ [item]) = (ofList items).add item := by
  rw [ofList, List.foldl_append]
  rfl

theorem declared_ofList (items : List α) : (ofList items).Declared := by
  induction items using List.reverseRecOn with
  | nil => exact .none
  | append_singleton items item ih => rw [ofList_concat]; exact ih.add item

theorem items_ofList (items : List α) : (ofList items).items.toList = items := by
  induction items using List.reverseRecOn with
  | nil => rfl
  | append_singleton items item ih => rw [ofList_concat, add, Array.toList_push, ih]

/-- The last declaration answers to a name. -/
theorem Declared.slot?_eq {ms : Members α} (h : ms.Declared) (name : String) :
    ms.slot? name = lastNamed? name ms.items.toList := by
  induction h with
  | none => rfl
  | @add ms h item ih =>
    simp only [slot?] at ih
    rw [slot?, Members.add, Array.toList_push, lastNamed?_concat, Array.length_toList]
    by_cases hn : Named.name item = name
    · rw [if_pos hn, hn, NameIndex.get?_insert_self]
    · rw [if_neg hn, NameIndex.get?_insert_of_ne _ _ (Ne.symm hn), ih]

end Members

/-! ## Registered classes -/

instance : Named Class := ⟨Class.name⟩

namespace Registry

/-- A registry whose tables and names are those of its classes: the table of a class enumerates all
its methods, and a name means the class that was registered under it last. -/
structure Lawful (r : Registry) : Prop where
  tables : r.tables = r.classes.map (·.allMethods.toArray)
  names : ∀ name, r.indexOf? name = lastNamed? name r.classes.toList

theorem lawful_empty : ({} : Registry).Lawful := ⟨by simp, fun _ => rfl⟩

theorem Lawful.register {r : Registry} (h : r.Lawful) (c : Class) : (r.register c).Lawful where
  tables := by rw [Registry.register, h.tables, Array.map_push]
  names name := by
    have hold : r.names.get? name = lastNamed? name r.classes.toList := h.names name
    rw [indexOf?, Registry.register, Array.toList_push, lastNamed?_concat, Array.length_toList]
    by_cases hn : Named.name c = name
    · rw [if_pos hn, ← hn]; exact NameIndex.get?_insert_self _ _ _
    · rw [if_neg hn, ← hold]; exact NameIndex.get?_insert_of_ne _ _ (Ne.symm hn)

theorem Lawful.table?_eq {r : Registry} (h : r.Lawful) (i : Nat) :
    r.table? i = (r.class? i).map (·.allMethods.toArray) := by
  rw [table?, h.tables, class?, Array.getElem?_map]

/-- The index of a class is one of a class with its identity. -/
theorem class?_of_idOf? {r : Registry} {c : Class} {i : Nat} (h : r.idOf? c = some i) :
    ∃ d, r.class? i = some d ∧ d.id = c.id := by
  have first : r.classes.findIdx? (fun d => d.id == c.id) = some i →
      ∃ d, r.class? i = some d ∧ d.id = c.id := by
    intro hi
    obtain ⟨hlt, hid, -⟩ := Array.findIdx?_eq_some_iff_getElem.mp hi
    exact ⟨r.classes[i], Array.getElem?_eq_getElem hlt, by simpa using hid⟩
  unfold idOf? at h
  dsimp only at h
  split at h
  · rename_i j hj
    split at h
    · rename_i hsame
      cases h
      cases hd : r.class? i with
      | none => rw [hd] at hsame; cases hsame
      | some d => exact ⟨d, rfl, by simpa [hd] using hsame⟩
    · exact first h
  · exact first h

end Registry

/-! ## Classes that exist -/

/-- A machine and the classes that exist beside it, registered or not. A class is defined by any
declaration and derives from a class that exists, or from none; a class that exists may be
registered, any number of times. Whatever else is done with the machine leaves its registry and its
stamps alone. -/
inductive Machine.Grown : Machine → List Class → Prop
  | empty (limits : Limits) (host : Host) : Grown (.empty limits host) []
  | define {m : Machine} {cs : List Class} (h : Grown m cs) (decl : ClassDecl)
    (base : Option Class) (hbase : ∀ b ∈ base, b ∈ cs) :
    Grown (m.define decl base).2 ((m.define decl base).1 :: cs)
  | register {m : Machine} {cs : List Class} (h : Grown m cs) {c : Class} (hc : c ∈ cs) :
    Grown (m.register c).2 cs
  | other {m m' : Machine} {cs : List Class} (h : Grown m cs) (hr : m'.registry = m.registry)
    (hs : m'.nextStamp = m.nextStamp) : Grown m' cs

namespace Machine.Grown

variable {m : Machine} {cs : List Class}

theorem stamp_lt (h : m.Grown cs) : ∀ c ∈ cs, c.id.stamp < m.nextStamp := by
  induction h with
  | empty limits host => simp
  | define h decl base hbase ih =>
    intro c hc
    rcases List.mem_cons.mp hc with rfl | hc
    · exact Nat.lt_succ_self _
    · exact Nat.lt_succ_of_lt (ih c hc)
  | register h hc ih => exact ih
  | other h hr hs ih => rw [hs]; exact ih

/-- Among the classes that exist the identity decides. -/
theorem eq_of_id (h : m.Grown cs) : ∀ c ∈ cs, ∀ d ∈ cs, c.id = d.id → c = d := by
  induction h with
  | empty limits host => simp
  | @define m cs h decl base hbase ih =>
    -- the new class has a stamp that no earlier class has
    have hnew : ∀ c ∈ cs, c.id ≠ (m.define decl base).1.id := by
      intro c hc he
      have hlt := h.stamp_lt c hc
      rw [he] at hlt
      exact Nat.lt_irrefl _ hlt
    intro c hc d hd he
    rcases List.mem_cons.mp hc with rfl | hc <;> rcases List.mem_cons.mp hd with rfl | hd
    · rfl
    · exact absurd he.symm (hnew d hd)
    · exact absurd he (hnew c hc)
    · exact ih c hc d hd he
  | register h hc ih => exact ih
  | other h hr hs ih => exact ih

theorem lawful (h : m.Grown cs) : m.registry.Lawful := by
  induction h with
  | empty limits host => exact Registry.lawful_empty
  | define h decl base hbase ih => exact ih
  | register h hc ih => exact ih.register _
  | other h hr hs ih => rw [hr]; exact ih

theorem mem_of_class? (h : m.Grown cs) {i : Nat} {c : Class} (hc : m.registry.class? i = some c) :
    c ∈ cs := by
  induction h with
  | empty limits host => cases hc
  | define h decl base hbase ih => exact List.mem_cons_of_mem _ (ih hc)
  | @register m cs h d hd ih =>
    change (m.registry.classes.push d)[i]? = some c at hc
    rw [Array.getElem?_push] at hc
    split at hc
    · cases hc; exact hd
    · exact ih hc
  | other h hr hs ih => rw [hr] at hc; exact ih hc

end Machine.Grown

end ObjectMachine
