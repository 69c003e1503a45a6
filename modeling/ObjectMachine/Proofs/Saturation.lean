import Mathlib.Algebra.Ring.Int.Defs
import Mathlib.Algebra.Ring.Nat
import ObjectMachine.Value.Arithmetic

/-!
# Integers that stay in range

The machine combines two integers exactly and then brings the result into the range of the wider
operand. `ArithOp.onWords` does the same work with nothing but 64-bit words: an operation that
leaves the range stops at the end that it has run past, and a result for 32 bits is then brought
into the narrow range. An operation on words has three parts, the wrapped result, the flag that says
whether it is wrong, and the side on which the exact result lies; `toInt_stopped` says when these
fit together. Stopping at the ends of the wide range first makes no difference to the narrow result
(`narrowed_saturate64`). Negation works within its own width and leaves the range only at the least
integer (`negated32_eq`, `negated64_eq`).

So the two ways of computing agree, for all operands and all pairs of widths
(`integer_arithmetic_saturates`).
-/

namespace ObjectMachine

/-! ## Ranges -/

namespace Width

def bits : Width → Nat
  | narrow => 32
  | wide => 64

def least (w : Width) : Int := -2 ^ (w.bits - 1)

def greatest (w : Width) : Int := 2 ^ (w.bits - 1) - 1

/-- The whole number of a width that is nearest to a given one. -/
def clamp (w : Width) (n : Int) : Int := Max.max w.least (min w.greatest n)

end Width

theorem clamp_narrow (n : Int) :
    Width.narrow.clamp n = max (-2147483648) (min 2147483647 n) := rfl

theorem clamp_wide (n : Int) :
    Width.wide.clamp n = max (-9223372036854775808) (min 9223372036854775807 n) := rfl

/-- A word is in its own range. -/
theorem clamp_toInt (x : Int64) : Width.wide.clamp x.toInt = x.toInt := by
  have hleast := x.le_toInt
  have hgreatest := x.toInt_lt
  rw [clamp_wide]
  omega

theorem toInt_saturate32 (n : Int) : (saturate32 n).toInt = Width.narrow.clamp n := by
  have hleast : -2 ^ 31 ≤ Width.narrow.clamp n := Int.le_max_left _ _
  have hgreatest : Width.narrow.clamp n < 2 ^ 31 := by
    rw [clamp_narrow]
    omega
  exact Int32.toInt_ofInt_of_le hleast hgreatest

theorem toInt_saturate64 (n : Int) : (saturate64 n).toInt = Width.wide.clamp n := by
  have hleast : -2 ^ 63 ≤ Width.wide.clamp n := Int.le_max_left _ _
  have hgreatest : Width.wide.clamp n < 2 ^ 63 := by
    rw [clamp_wide]
    omega
  exact Int64.toInt_ofInt_of_le hleast hgreatest

/-! ## Exact results -/

/-- A value is an integer of a width. -/
inductive Value.IsInteger : Value → Width → Int → Prop
  | int32 (n : Int32) : IsInteger (.int32 n) .narrow n.toInt
  | int64 (n : Int64) : IsInteger (.int64 n) .wide n.toInt

namespace ArithOp

/-- The exact result; quotient and remainder are those of the division truncated toward zero. -/
def exact : ArithOp → Int → Int → Int
  | add, m, n => m + n
  | sub, m, n => m - n
  | mul, m, n => m * n
  | div, m, n => m.tdiv n
  | rem, m, n => m.tmod n

def divides : ArithOp → Bool
  | div | rem => true
  | _ => false

theorem onInts_of_zero {op : ArithOp} (h : op.divides = true) (m : Int) :
    op.onInts m 0 = .error .divideByZero := by
  cases op with
  | div | rem => rfl
  | _ => cases h

theorem onInts_of_not {op : ArithOp} {m n : Int} (h : ¬ (op.divides = true ∧ n = 0)) :
    op.onInts m n = .ok (op.exact m n) := by
  cases op with
  | add | sub | mul => rfl
  | div | rem => exact if_neg fun hn => h ⟨rfl, hn⟩

end ArithOp

/-! ## Words -/

/-- The end of the range of 64-bit words, on one side or the other. -/
def wordEnd (below : Bool) : Int64 := if below then Int64.minValue else Int64.maxValue

/-- The result on 64-bit words. It stops at the end of the range that the exact result lies beyond;
of all quotients only that of the least word by minus one does so, and no remainder does. -/
def ArithOp.onWords : ArithOp → Int64 → Int64 → Except Fault Int64
  | add, a, b =>
    .ok (if a.toBitVec.saddOverflow b.toBitVec then wordEnd (b < 0) else a + b)
  | sub, a, b =>
    .ok (if a.toBitVec.ssubOverflow b.toBitVec then wordEnd (0 < b) else a - b)
  | mul, a, b =>
    .ok (if a.toBitVec.smulOverflow b.toBitVec then wordEnd ((a < 0) != (b < 0)) else a * b)
  | div, a, b =>
    if b = 0 then .error .divideByZero
    else .ok (if a = Int64.minValue ∧ b = -1 then Int64.maxValue else a / b)
  | rem, a, b => if b = 0 then .error .divideByZero else .ok (a % b)

/-- The 32-bit integer nearest to a 64-bit word. -/
def narrowed (x : Int64) : Int32 :=
  if x < -2147483648 then Int32.minValue
  else if 2147483647 < x then Int32.maxValue
  else x.toInt32

/-- The value of a width that a 64-bit word comes to. -/
def Width.ofWord : Width → Int64 → Value
  | narrow, x => .int32 (narrowed x)
  | wide, x => .int64 x

/-- The negation of a 32-bit word; of all words only the least one has no negation in range. -/
def negated32 (x : Int32) : Int32 := if x = Int32.minValue then Int32.maxValue else -x

def negated64 (x : Int64) : Int64 := if x = Int64.minValue then Int64.maxValue else -x

/-- A wrapped result with a flag that tells whether it is wrong and a side that is right whenever
the flag is up. -/
theorem toInt_stopped {exact : Int} {flag below : Bool} {x : Int64}
    (hflag : flag = true ↔ 2 ^ 63 ≤ exact ∨ exact < -2 ^ 63)
    (hbelow : flag = true → (below = true ↔ exact < 0)) (hx : x.toInt = exact.bmod (2 ^ 64)) :
    (if flag then wordEnd below else x).toInt = Width.wide.clamp exact := by
  rw [clamp_wide]
  cases hf : flag with
  | false =>
    have hin : ¬ (2 ^ 63 ≤ exact ∨ exact < -2 ^ 63) := by rw [← hflag, hf]; exact Bool.false_ne_true
    rw [if_neg Bool.false_ne_true, hx, Int.bmod_eq_of_le (by omega) (by omega)]
    omega
  | true =>
    have hout := hflag.mp hf
    rw [if_pos rfl, wordEnd]
    by_cases hneg : exact < 0
    · rw [if_pos ((hbelow hf).mpr hneg), Int64.toInt_minValue]
      omega
    · rw [if_neg fun h => hneg ((hbelow hf).mp h), Int64.toInt_maxValue]
      omega

/-- The sign of a product that is not zero. -/
theorem mul_neg_iff_of_ne {a b : Int} (h : a * b ≠ 0) : a * b < 0 ↔ ¬ (a < 0 ↔ b < 0) := by
  have ha : a ≠ 0 := fun ha => h (by rw [ha, Int.zero_mul])
  have hb : b ≠ 0 := fun hb => h (by rw [hb, Int.mul_zero])
  rcases Int.lt_or_gt_of_ne ha with ha | ha <;> rcases Int.lt_or_gt_of_ne hb with hb | hb
  · have := Int.mul_pos_of_neg_of_neg ha hb
    omega
  · have := Int.mul_neg_of_neg_of_pos ha hb
    omega
  · have := Int.mul_neg_of_pos_of_neg ha hb
    omega
  · have := Int.mul_pos ha hb
    omega

namespace ArithOp

variable (a b : Int64)

/-- Sums, differences and products stop where the exact ones leave the range. -/
theorem toInt_add_stopped :
    (if a.toBitVec.saddOverflow b.toBitVec then wordEnd (b < 0) else a + b).toInt =
      Width.wide.clamp (a.toInt + b.toInt) := by
  have ha := a.le_toInt
  have ha' := a.toInt_lt
  refine toInt_stopped ?_ (fun hflag => ?_) (Int64.toInt_add a b)
  · simp [BitVec.saddOverflow]
  · have hout : 2 ^ 63 ≤ a.toInt + b.toInt ∨ a.toInt + b.toInt < -2 ^ 63 := by
      simpa [BitVec.saddOverflow] using hflag
    rw [decide_eq_true_iff, Int64.lt_iff_toInt_lt, Int64.toInt_zero]
    omega

theorem toInt_sub_stopped :
    (if a.toBitVec.ssubOverflow b.toBitVec then wordEnd (0 < b) else a - b).toInt =
      Width.wide.clamp (a.toInt - b.toInt) := by
  have ha := a.le_toInt
  have ha' := a.toInt_lt
  refine toInt_stopped ?_ (fun hflag => ?_) (Int64.toInt_sub a b)
  · simp [BitVec.ssubOverflow]
  · have hout : 2 ^ 63 ≤ a.toInt - b.toInt ∨ a.toInt - b.toInt < -2 ^ 63 := by
      simpa [BitVec.ssubOverflow] using hflag
    rw [decide_eq_true_iff, Int64.lt_iff_toInt_lt, Int64.toInt_zero]
    omega

theorem toInt_mul_stopped :
    (if a.toBitVec.smulOverflow b.toBitVec then wordEnd ((a < 0) != (b < 0)) else a * b).toInt =
      Width.wide.clamp (a.toInt * b.toInt) := by
  refine toInt_stopped ?_ (fun hflag => ?_) (Int64.toInt_mul a b)
  · simp [BitVec.smulOverflow]
  · have hout : 2 ^ 63 ≤ a.toInt * b.toInt ∨ a.toInt * b.toInt < -2 ^ 63 := by
      simpa [BitVec.smulOverflow] using hflag
    rw [mul_neg_iff_of_ne (by omega), bne_iff_ne, Ne, decide_eq_decide, Int64.lt_iff_toInt_lt,
      Int64.lt_iff_toInt_lt, Int64.toInt_zero]

/-- A quotient stops at the greatest word if the least word is divided by minus one. -/
theorem toInt_div_stopped :
    (if a = Int64.minValue ∧ b = -1 then Int64.maxValue else a / b).toInt =
      Width.wide.clamp (a.toInt.tdiv b.toInt) := by
  by_cases h : a = Int64.minValue ∧ b = -1
  · obtain ⟨rfl, rfl⟩ := h
    rw [if_pos ⟨rfl, rfl⟩]
    rfl
  · have hquotient : (a / b).toInt = a.toInt.tdiv b.toInt := by
      by_cases hb : b = -1
      · exact Int64.toInt_div_of_ne_left a b fun ha => h ⟨ha, hb⟩
      · exact Int64.toInt_div_of_ne_right a b hb
    rw [if_neg h, ← hquotient, clamp_toInt]

/-- The result on words is the exact one, brought into range. -/
theorem onWords_eq (op : ArithOp) :
    op.onWords a b = (op.onInts a.toInt b.toInt).map saturate64 := by
  have hword : ∀ (x : Int64) (n : Int), x.toInt = Width.wide.clamp n →
      (.ok x : Except Fault Int64) = (Except.ok n).map saturate64 := by
    intro x n hx
    rw [Except.map, Int64.toInt_inj.mp (hx.trans (toInt_saturate64 n).symm)]
  have hzero : b.toInt = 0 ↔ b = 0 := by rw [← Int64.toInt_zero, Int64.toInt_inj]
  cases op with
  | add => exact hword _ _ (toInt_add_stopped a b)
  | sub => exact hword _ _ (toInt_sub_stopped a b)
  | mul => exact hword _ _ (toInt_mul_stopped a b)
  | div =>
    simp only [onWords, onInts, hzero]
    split
    · rfl
    · exact hword _ _ (toInt_div_stopped a b)
  | rem =>
    simp only [onWords, onInts, hzero]
    split
    · rfl
    · refine hword _ _ ?_
      rw [← Int64.toInt_mod, clamp_toInt]

end ArithOp

/-- What was brought into the wide range comes to the same in the narrow one. -/
theorem narrowed_saturate64 (n : Int) : narrowed (saturate64 n) = saturate32 n := by
  have hword := toInt_saturate64 n
  rw [clamp_wide] at hword
  rw [← Int32.toInt_inj, toInt_saturate32, clamp_narrow]
  have hleast : (-2147483648 : Int64).toInt = -2147483648 := rfl
  have hgreatest : (2147483647 : Int64).toInt = 2147483647 := rfl
  simp only [narrowed, Int64.lt_iff_toInt_lt, hleast, hgreatest]
  split
  · rw [Int32.toInt_minValue]
    omega
  · split
    · rw [Int32.toInt_maxValue]
      omega
    · rw [Int64.toInt_toInt32, Int.bmod_eq_of_le (by omega) (by omega)]
      omega

theorem ofWord_saturate64 (w : Width) (n : Int) :
    w.ofWord (saturate64 n) = (Number.whole w n).toValue := by
  cases w with
  | narrow => exact congrArg Value.int32 (narrowed_saturate64 n)
  | wide => rfl

theorem negated32_eq (x : Int32) : negated32 x = saturate32 (-x.toInt) := by
  rw [← Int32.toInt_inj, toInt_saturate32, clamp_narrow, negated32]
  have hleast := x.le_toInt
  have hgreatest := x.toInt_lt
  by_cases h : x = Int32.minValue
  · subst h
    rfl
  · have hne : x.toInt ≠ -2 ^ 31 := fun hx => h (Int32.toInt_inj.mp hx)
    rw [if_neg h, Int32.toInt_neg, Int.bmod_eq_of_le (by omega) (by omega)]
    omega

theorem negated64_eq (x : Int64) : negated64 x = saturate64 (-x.toInt) := by
  rw [← Int64.toInt_inj, toInt_saturate64, clamp_wide, negated64]
  have hleast := x.le_toInt
  have hgreatest := x.toInt_lt
  by_cases h : x = Int64.minValue
  · subst h
    rfl
  · have hne : x.toInt ≠ -2 ^ 63 := fun hx => h (Int64.toInt_inj.mp hx)
    rw [if_neg h, Int64.toInt_neg, Int.bmod_eq_of_le (by omega) (by omega)]
    omega

/-! ## Values -/

/-- The rank of a kind of number: integers below floating-point numbers, narrow below wide. -/
def Kind.rank? : Kind → Option Nat
  | int32 => some 0
  | int64 => some 1
  | float32 => some 2
  | float64 => some 3
  | _ => none

def Number.kind : Number → Kind
  | whole .narrow _ => .int32
  | whole .wide _ => .int64
  | real .narrow _ => .float32
  | real .wide _ => .float64

section
variable {a b : Value} {x y z : Number} {v w : Width} {m n : Int} {op : ArithOp}

theorem Value.IsInteger.number?_eq (h : a.IsInteger v m) : a.number? = some (.whole v m) := by
  cases h <;> rfl

theorem Number.isInteger_toValue (w : Width) (n : Int) :
    (whole w n).toValue.IsInteger w (w.clamp n) := by
  cases w with
  | narrow => rw [← toInt_saturate32]; exact .int32 _
  | wide => rw [← toInt_saturate64]; exact .int64 _

theorem Value.arith_of_numbers (ha : a.number? = some x) (hb : b.number? = some y) (op : ArithOp) :
    a.arith op b = (op.onNumbers x y).map Number.toValue := by
  simp only [Value.arith, ha, hb]

/-- Integers are combined exactly and then brought into range. -/
theorem Value.IsInteger.arith_eq (ha : a.IsInteger v m) (hb : b.IsInteger w n) (op : ArithOp) :
    a.arith op b = (op.onInts m n).map fun k => (Number.whole (v.max w) k).toValue := by
  rw [Value.arith_of_numbers ha.number?_eq hb.number?_eq, ArithOp.onNumbers]
  cases op.onInts m n <;> rfl

theorem Value.IsInteger.neg_eq (h : a.IsInteger v m) :
    a.neg = .ok (Number.whole v (-m)).toValue := by
  cases h <;> rfl

theorem Number.kind_toValue (x : Number) : x.toValue.kind = x.kind := by
  obtain ⟨v, n⟩ | ⟨v, x⟩ := x <;> cases v <;> rfl

theorem Value.kind_of_number? (h : a.number? = some x) : a.kind = x.kind := by
  cases a <;> cases h <;> rfl

/-- The kinds with a rank are those of numbers. -/
theorem Value.number?_eq_none_iff : a.number? = none ↔ a.kind.rank? = none := by
  cases a <;> simp [Value.number?, Value.kind, Kind.rank?]

/-- Numbers are combined at the kind of higher rank. -/
theorem ArithOp.kind_of_onNumbers (h : op.onNumbers x y = .ok z) {i j : Nat}
    (hi : x.kind.rank? = some i) (hj : y.kind.rank? = some j) :
    z.kind = if i < j then y.kind else x.kind := by
  obtain ⟨v, m⟩ | ⟨v, x⟩ := x <;> obtain ⟨w, n⟩ | ⟨w, y⟩ := y
  case whole.whole =>
    simp only [onNumbers] at h
    cases hk : op.onInts m n with
    | error e => rw [hk] at h; cases h
    | ok k =>
      rw [hk] at h
      cases h
      cases v <;> cases w <;> cases hi <;> cases hj <;> rfl
  all_goals
    cases h
    cases v <;> cases w <;> cases hi <;> cases hj <;> rfl

/-- Only a division of integers by zero has no result. -/
theorem ArithOp.onNumbers_cases (op : ArithOp) (x y : Number) :
    (∃ z, op.onNumbers x y = .ok z) ∨
    (op.onNumbers x y = .error .divideByZero ∧ op.divides = true ∧
      ∃ v w m, x = .whole v m ∧ y = .whole w 0) := by
  obtain ⟨v, m⟩ | ⟨v, x⟩ := x
  case real => exact .inl (by cases y <;> exact ⟨_, rfl⟩)
  obtain ⟨w, n⟩ | ⟨w, y⟩ := y
  case real => exact .inl ⟨_, rfl⟩
  by_cases hzero : op.divides = true ∧ n = 0
  · obtain ⟨hdivides, rfl⟩ := hzero
    refine .inr ⟨?_, hdivides, v, w, m, rfl, rfl⟩
    rw [onNumbers, onInts_of_zero hdivides]
    rfl
  · refine .inl ⟨.whole (v.max w) (op.exact m n), ?_⟩
    rw [onNumbers, onInts_of_not hzero]
    rfl

theorem Value.isInteger_of_number? (h : a.number? = some (.whole v m)) : a.IsInteger v m := by
  cases a <;> cases h
  · exact .int32 _
  · exact .int64 _

theorem Value.arith_of_none (h : a.number? = none ∨ b.number? = none) (op : ArithOp) :
    a.arith op b = .error (.typeMismatch (.operands op a.kind b.kind)) := by
  unfold Value.arith
  rcases h with h | h
  · rw [h]
  · rw [h]
    cases a.number? <;> rfl

/-- Two numbers have a result of the kind of higher rank, unless they are integers and the operator
divides by zero. -/
theorem Value.arith_cases (op : ArithOp) {i j : Nat} (hi : a.kind.rank? = some i)
    (hj : b.kind.rank? = some j) :
    (∃ r, a.arith op b = .ok r ∧ r.kind = if i < j then b.kind else a.kind) ∨
    (a.arith op b = .error .divideByZero ∧ op.divides = true ∧
      ∃ v w m, a.IsInteger v m ∧ b.IsInteger w 0) := by
  obtain ⟨x, ha⟩ : ∃ x, a.number? = some x := by
    rw [← Option.ne_none_iff_exists', Ne, Value.number?_eq_none_iff, hi]
    exact Option.some_ne_none i
  obtain ⟨y, hb⟩ : ∃ y, b.number? = some y := by
    rw [← Option.ne_none_iff_exists', Ne, Value.number?_eq_none_iff, hj]
    exact Option.some_ne_none j
  rw [Value.arith_of_numbers ha hb]
  rcases op.onNumbers_cases x y with ⟨z, hz⟩ | ⟨hzero, hdivides, v, w, m, rfl, rfl⟩
  · refine .inl ⟨z.toValue, by rw [hz]; rfl, ?_⟩
    rw [Value.kind_of_number? ha] at hi ⊢
    rw [Value.kind_of_number? hb] at hj ⊢
    rw [z.kind_toValue]
    exact ArithOp.kind_of_onNumbers hz hi hj
  · exact .inr ⟨by rw [hzero]; rfl, hdivides, v, w, m, Value.isInteger_of_number? ha,
      Value.isInteger_of_number? hb⟩

end

/-- **Integer arithmetic is exact and then brought into range**, that of the wider operand, with no
result exactly when a division is by zero. It is what comes of computing with words that stop at the
ends of their range, and so is negation. For any two values, the operands are a mismatch exactly if
one of them is no number; otherwise the result is of the kind of higher rank. -/
theorem integer_arithmetic_saturates :
    (∀ op a b v w m n, Value.IsInteger a v m → Value.IsInteger b w n →
      (a.arith op b = .error .divideByZero ↔ op.divides = true ∧ n = 0) ∧
      (¬ (op.divides = true ∧ n = 0) → ∃ r, a.arith op b = .ok r ∧
        r.IsInteger (v.max w) ((v.max w).clamp (op.exact m n))) ∧
      ∀ x y : Int64, x.toInt = m → y.toInt = n →
        a.arith op b = (op.onWords x y).map (v.max w).ofWord) ∧
    (∀ a v m, Value.IsInteger a v m → ∃ r, a.neg = .ok r ∧ r.IsInteger v (v.clamp (-m))) ∧
    (∀ x : Int32, (Value.int32 x).neg = .ok (.int32 (negated32 x))) ∧
    (∀ x : Int64, (Value.int64 x).neg = .ok (.int64 (negated64 x))) ∧
    ∀ (op : ArithOp) (a b : Value),
      ((∃ cause, a.arith op b = .error (.typeMismatch cause)) ↔
        a.kind.rank? = none ∨ b.kind.rank? = none) ∧
      ∀ i j, a.kind.rank? = some i → b.kind.rank? = some j →
        (∃ r, a.arith op b = .ok r ∧ r.kind = if i < j then b.kind else a.kind) ∨
        (a.arith op b = .error .divideByZero ∧ op.divides = true ∧
          ∃ v w m, a.IsInteger v m ∧ b.IsInteger w 0) := by
  refine ⟨fun op a b v w m n ha hb => ?_, fun a v m ha => ?_, fun x => ?_, fun x => ?_,
    fun op a b => ?_⟩
  · rw [ha.arith_eq hb op]
    refine ⟨?_, fun hnot => ?_, ?_⟩
    · by_cases hzero : op.divides = true ∧ n = 0
      · rw [hzero.2, ArithOp.onInts_of_zero hzero.1]
        exact ⟨fun _ => ⟨hzero.1, rfl⟩, fun _ => rfl⟩
      · rw [ArithOp.onInts_of_not hzero]
        exact ⟨fun h => (nomatch h), fun h => absurd h hzero⟩
    · rw [ArithOp.onInts_of_not hnot]
      exact ⟨_, rfl, Number.isInteger_toValue _ _⟩
    · rintro x y rfl rfl
      rw [ArithOp.onWords_eq]
      cases op.onInts x.toInt y.toInt with
      | error e => rfl
      | ok k => exact congrArg Except.ok (ofWord_saturate64 _ k).symm
  · exact ⟨_, ha.neg_eq, Number.isInteger_toValue v (-m)⟩
  · rw [negated32_eq, Value.neg]
  · rw [negated64_eq, Value.neg]
  · refine ⟨⟨?_, fun h => ?_⟩, fun i j hi hj => Value.arith_cases op hi hj⟩
    · rintro ⟨cause, hmismatch⟩
      cases hi : a.kind.rank? with
      | none => exact .inl rfl
      | some i =>
        cases hj : b.kind.rank? with
        | none => exact .inr rfl
        | some j =>
          rcases Value.arith_cases op hi hj with ⟨r, hr, -⟩ | ⟨hzero, -⟩
          · cases hr.symm.trans hmismatch
          · cases hzero.symm.trans hmismatch
    · rw [← Value.number?_eq_none_iff, ← Value.number?_eq_none_iff] at h
      exact ⟨_, Value.arith_of_none h op⟩

theorem integer_arithmetic_saturates_ends :
    (∃ r, (Value.int64 Int64.minValue).arith .div (.int32 (-1)) = .ok r ∧
      r.IsInteger .wide 9223372036854775807) ∧
    (∃ r, (Value.int32 Int32.minValue).arith .mul (.int32 Int32.maxValue) = .ok r ∧
      r.IsInteger .narrow (-2147483648)) ∧
    (Value.int64 7).arith .rem (.int32 0) = .error .divideByZero := by
  obtain ⟨hints, -, -⟩ := integer_arithmetic_saturates
  refine ⟨?_, ?_, ?_⟩
  · exact (hints .div _ _ _ _ _ _ (.int64 Int64.minValue) (.int32 (-1))).2.1 (by decide)
  · exact (hints .mul _ _ _ _ _ _ (.int32 Int32.minValue) (.int32 Int32.maxValue)).2.1 (by decide)
  · exact (hints .rem _ _ _ _ _ _ (.int64 7) (.int32 0)).1.mpr (by decide)

end ObjectMachine
