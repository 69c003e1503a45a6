import ObjectMachine.Proofs.Saturation
import ObjectMachine.Value.Arithmetic

/-!
# Comparing values

Integers are compared as whole numbers, whatever their widths. Equality is defined for all values,
the order only for numbers. `Value.Alike` says without computing when two values are the same for a
program: there is a group of values for each sort, and the integers of both widths are one group.
Away from floating-point numbers this is what equality decides (`Value.looseEq_iff_alike`), so there
it is an equivalence relation. With floating-point numbers it is not, since integers are rounded
before they are compared with them.
-/

namespace ObjectMachine

/-! ## Comparisons of whole numbers -/

namespace CompareOp

/-- The relation that a comparison asks for. -/
def relates : CompareOp → Int → Int → Bool
  | eq, m, n => m = n
  | ne, m, n => m ≠ n
  | lt, m, n => m < n
  | le, m, n => m ≤ n
  | gt, m, n => m > n
  | ge, m, n => m ≥ n

/-- The comparisons that ask for an order. -/
def isOrdering : CompareOp → Bool
  | eq | ne => false
  | lt | le | gt | ge => true

/-- An order satisfies a comparison if the numbers in this order are related. -/
theorem holds_compare (op : CompareOp) (m n : Int) : op.holds (compare m n) = op.relates m n := by
  rcases Int.lt_trichotomy m n with h | h | h
  · rw [Int.compare_eq_lt.mpr h]
    cases op <;> simp [holds, relates] <;> omega
  · rw [Int.compare_eq_eq.mpr h]
    cases op <;> simp [holds, relates] <;> omega
  · rw [Int.compare_eq_gt.mpr h]
    cases op <;> simp [holds, relates] <;> omega

end CompareOp

namespace Value

section
variable {a b c : Value} {v w : Width} {m n : Int} {op : CompareOp}

/-- An integer is one whole number only. -/
theorem IsInteger.unique (h : a.IsInteger v m) (h' : a.IsInteger w n) : m = n := by
  cases h <;> cases h' <;> rfl

/-- Equality of integers is equality of whole numbers. -/
theorem IsInteger.looseEq_eq (ha : a.IsInteger v m) (hb : b.IsInteger w n) :
    a.looseEq b = decide (m = n) := by
  have decided := CompareOp.holds_compare .eq m n
  simp only [looseEq, ha.number?_eq, hb.number?_eq, Number.compare?]
  rw [← CompareOp.relates, ← decided]
  cases Ord.compare m n <;> rfl

/-- All comparisons of integers are those of whole numbers. -/
theorem IsInteger.compare_eq (ha : a.IsInteger v m) (hb : b.IsInteger w n) (op : CompareOp) :
    a.compare op b = .ok (op.relates m n) := by
  cases op with
  | eq => simp only [compare, ha.looseEq_eq hb, CompareOp.relates]
  | ne => simp only [compare, ha.looseEq_eq hb, CompareOp.relates, ← decide_not]
  | lt | le | gt | ge =>
    simp only [compare, ha.number?_eq, hb.number?_eq, Number.compare?, Option.elim,
      CompareOp.holds_compare]

/-! ## Which comparisons fail -/

theorem compare_of_numbers {x y : Number} (ordering : op.isOrdering = true)
    (ha : a.number? = some x) (hb : b.number? = some y) :
    a.compare op b = .ok ((x.compare? y).elim false op.holds) := by
  cases op with
  | eq | ne => cases ordering
  | lt | le | gt | ge => simp only [compare, ha, hb]

theorem compare_of_none (ordering : op.isOrdering = true)
    (h : a.number? = none ∨ b.number? = none) :
    a.compare op b = .error (.typeMismatch (.ordering a.kind b.kind)) := by
  cases op with
  | eq | ne => cases ordering
  | lt | le | gt | ge =>
    unfold compare
    rcases h with h | h
    · rw [h]
    · rw [h]
      cases a.number? <;> rfl

/-- Only numbers have an order. -/
theorem compare_eq_error_iff (ordering : op.isOrdering = true) (e : Fault) :
    a.compare op b = .error e ↔
      (a.kind.rank? = none ∨ b.kind.rank? = none) ∧
        e = .typeMismatch (.ordering a.kind b.kind) := by
  rw [← number?_eq_none_iff, ← number?_eq_none_iff]
  constructor
  · intro failed
    by_cases h : a.number? = none ∨ b.number? = none
    · rw [compare_of_none ordering h] at failed
      cases failed
      exact ⟨h, rfl⟩
    · rw [not_or] at h
      obtain ⟨x, ha⟩ := Option.ne_none_iff_exists'.mp h.1
      obtain ⟨y, hb⟩ := Option.ne_none_iff_exists'.mp h.2
      rw [compare_of_numbers ordering ha hb] at failed
      cases failed
  · rintro ⟨h, rfl⟩
    exact compare_of_none ordering h

/-! ## Groups of equal values -/

/-- Two values that are the same for a program, each with values of its own group: null, integers
of either width that are the same whole number, truth values, strings with the same content, and
references to the same object or array. -/
inductive Alike : Value → Value → Prop
  | null : Alike .null .null
  | integer {a b : Value} {v w : Width} {n : Int} (ha : a.IsInteger v n) (hb : b.IsInteger w n) :
    Alike a b
  | bool (b : Bool) : Alike (.bool b) (.bool b)
  | string (s : String) : Alike (.string s) (.string s)
  | object (r : ObjectRef) : Alike (.object r) (.object r)
  | array (r : ArrayRef) : Alike (.array r) (.array r)

/-- A floating-point number of either width. -/
def IsFloat (a : Value) : Prop := a.kind = .float32 ∨ a.kind = .float64

instance : DecidablePred IsFloat := fun _ => inferInstanceAs (Decidable (_ ∨ _))

/-- What is no floating-point number is an integer or no number at all. -/
theorem integer_or_none (h : ¬ a.IsFloat) : (∃ v n, a.IsInteger v n) ∨ a.number? = none := by
  cases a with
  | int32 n => exact .inl ⟨_, _, .int32 n⟩
  | int64 n => exact .inl ⟨_, _, .int64 n⟩
  | float32 x => exact absurd (.inl rfl) h
  | float64 x => exact absurd (.inr rfl) h
  | _ => exact .inr rfl

theorem Alike.refl (h : ¬ a.IsFloat) : Alike a a := by
  cases a with
  | null => exact .null
  | int32 n => exact .integer (.int32 n) (.int32 n)
  | int64 n => exact .integer (.int64 n) (.int64 n)
  | float32 x => exact absurd (.inl rfl) h
  | float64 x => exact absurd (.inr rfl) h
  | bool b => exact .bool b
  | string s => exact .string s
  | object r => exact .object r
  | array r => exact .array r

theorem Alike.symm (h : Alike a b) : Alike b a := by
  cases h with
  | integer ha hb => exact .integer hb ha
  | null => exact .null
  | bool b => exact .bool b
  | string s => exact .string s
  | object r => exact .object r
  | array r => exact .array r

theorem Alike.trans (h : Alike a b) (h' : Alike b c) : Alike a c := by
  cases h with
  | integer ha hb =>
    cases h' with
    | integer hb' hc =>
      obtain rfl := hb.unique hb'
      exact .integer ha hc
    | _ => cases hb
  | _ => exact h'

/-- What is like an integer is an integer. -/
theorem Alike.integer_iff (ha : a.IsInteger v m) : Alike a b ↔ ∃ w, b.IsInteger w m := by
  constructor
  · intro h
    cases h with
    | integer ha' hb => exact ⟨_, ha.unique ha' ▸ hb⟩
    | _ => cases ha
  · rintro ⟨w, hb⟩
    exact .integer ha hb

/-- What is like a value that is no number is the value itself. -/
theorem Alike.eq_iff (h : ¬ a.IsFloat) (ha : a.number? = none) : Alike a b ↔ a = b := by
  constructor
  · intro alike
    cases alike with
    | integer ha' _ => cases ha'.number?_eq.symm.trans ha
    | _ => rfl
  · rintro rfl
    exact .refl h

/-- Unless both are numbers, equal values are identical. -/
theorem looseEq_of_none (h : a.number? = none ∨ b.number? = none) :
    a.looseEq b = decide (a = b) := by
  cases a <;> cases b <;> simp_all [looseEq, number?, beq_eq_decide]

/-- Equality decides whether two values are alike, floating-point numbers apart. -/
theorem looseEq_iff_alike (ha : ¬ a.IsFloat) (hb : ¬ b.IsFloat) :
    a.looseEq b = true ↔ Alike a b := by
  -- integers are compared by number, and what is no number by identity
  rcases integer_or_none ha with ⟨v, m, ha⟩ | hna
  · rw [Alike.integer_iff ha]
    rcases integer_or_none hb with ⟨w, n, hb⟩ | hnb
    · rw [ha.looseEq_eq hb, decide_eq_true_iff]
      constructor
      · rintro rfl
        exact ⟨w, hb⟩
      · rintro ⟨w', hb'⟩
        exact hb'.unique hb
    · rw [looseEq_of_none (.inr hnb), decide_eq_true_iff]
      constructor
      · rintro rfl
        exact ⟨v, ha⟩
      · rintro ⟨w, hb'⟩
        cases hb'.number?_eq.symm.trans hnb
  · rw [looseEq_of_none (.inl hna), decide_eq_true_iff, Alike.eq_iff ha hna]

end

end Value

/-- **Comparisons of values.** Integers are compared as whole numbers, of whatever width they are.
Equality and inequality have opposite answers for any two values; the other comparisons fail exactly
if one of them is no number. Apart from floating-point numbers, equality is an equivalence, with the
classes that are listed. -/
theorem comparison_laws :
    (∀ op a b v w m n, Value.IsInteger a v m → Value.IsInteger b w n →
      a.compare op b = .ok (op.relates m n)) ∧
    (∀ a b : Value, a.compare .eq b = .ok (a.looseEq b) ∧ a.compare .ne b = .ok !(a.looseEq b)) ∧
    (∀ (op : CompareOp) (a b : Value) (e : Fault), op.isOrdering = true →
      (a.compare op b = .error e ↔ (a.kind.rank? = none ∨ b.kind.rank? = none) ∧
        e = .typeMismatch (.ordering a.kind b.kind))) ∧
    Equivalence (fun a b : { v : Value // ¬ v.IsFloat } => a.val.looseEq b.val = true) ∧
    ∀ a b : Value, ¬ a.IsFloat → ¬ b.IsFloat → (a.looseEq b = true ↔ a.Alike b) := by
  refine ⟨fun op a b v w m n ha hb => ha.compare_eq hb op, fun a b => ⟨rfl, rfl⟩,
    fun op a b e ordering => Value.compare_eq_error_iff ordering e, ?_,
    fun a b ha hb => Value.looseEq_iff_alike ha hb⟩
  constructor
  · intro a
    exact (Value.looseEq_iff_alike a.2 a.2).mpr (.refl a.2)
  · intro a b h
    exact (Value.looseEq_iff_alike b.2 a.2).mpr ((Value.looseEq_iff_alike a.2 b.2).mp h).symm
  · intro a b c h h'
    have hab := (Value.looseEq_iff_alike a.2 b.2).mp h
    have hbc := (Value.looseEq_iff_alike b.2 c.2).mp h'
    exact (Value.looseEq_iff_alike a.2 c.2).mpr (hab.trans hbc)

theorem comparison_laws_mixed :
    (Value.int32 (-1)).compare .lt (.int64 Int64.maxValue) = .ok true ∧
    (Value.int64 Int64.minValue).compare .ge (.int32 Int32.minValue) = .ok false ∧
    (Value.string "9").compare .le (.int32 9) = .error (.typeMismatch (.ordering .string .int32)) ∧
    (Value.int64 7).looseEq (.int32 7) = true ∧
    ¬ (Value.bool true).looseEq (.int32 1) = true := by
  obtain ⟨hints, -, hmismatch, -, hequal⟩ := comparison_laws
  refine ⟨?_, ?_, ?_, ?_, fun h => ?_⟩
  · exact hints .lt _ _ _ _ _ _ (.int32 (-1)) (.int64 Int64.maxValue)
  · exact hints .ge _ _ _ _ _ _ (.int64 Int64.minValue) (.int32 Int32.minValue)
  · exact (hmismatch .le (.string "9") (.int32 9) _ rfl).mpr ⟨.inl rfl, rfl⟩
  · exact (hequal (.int64 7) (.int32 7) (by decide) (by decide)).mpr
      (.integer (.int64 7) (.int32 7))
  · cases (hequal (.bool true) (.int32 1) (by decide) (by decide)).mp h with
    | integer htrue _ => cases htrue

/-- Two integers that are not equal can be equal to the same floating-point number. -/
example :
    let x : Value := .float64 ⟨0x4340000000000000⟩
    (Value.int64 9007199254740993).looseEq x = true ∧
    x.looseEq (.int64 9007199254740992) = true ∧
    (Value.int64 9007199254740993).looseEq (.int64 9007199254740992) = false := by
  decide +kernel

end ObjectMachine
