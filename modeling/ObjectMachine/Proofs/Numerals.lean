import Mathlib.Data.List.TakeWhile
import ObjectMachine.Machine.Link
import ObjectMachine.Proofs.Saturation

/-!
# Integer constants

A whole number has many decimal spellings: a sign may stand in front, zeros may fill up, and blanks
may surround it. All of them are read as that number (`readInt?_signed`). What becomes of it depends
on the tag. A 64-bit constant out of range is null. A 32-bit constant is brought into range, and if
the number does not even fit in 64 bits, its text is read once more, as a floating-point numeral.
Rounding cannot bring a number of that size back into the narrow range (`truncateInto_of_large`), so
the second reading ends at the same end of the range as the number itself.
-/

namespace ObjectMachine

/-! ## Spellings -/

namespace Text

/-- The digits of a number, filled up with zeros in front. -/
def padded (zeros n : Nat) : List Char := List.replicate zeros '0' ++ Nat.toDigits 10 n

/-- The signs that can stand in front of the digits of a whole number. -/
inductive SignOf (n : Int) : List Char → Prop
  | none (h : 0 ≤ n) : SignOf n []
  | plus (h : 0 ≤ n) : SignOf n ['+']
  | minus (h : n ≤ 0) : SignOf n ['-']

/-- A decimal spelling of a whole number: blanks, a sign, zeros, the digits and again blanks. -/
inductive Spells (n : Int) : List Char → Prop
  | intro (lead trail : List Char) {sign : List Char} (zeros : Nat)
    (hlead : ∀ c ∈ lead, isBlank c = true) (htrail : ∀ c ∈ trail, isBlank c = true)
    (hsign : SignOf n sign) :
    Spells n (lead ++ (sign ++ padded zeros n.natAbs ++ trail))

section
variable {n : Int} {zeros m : Nat} {c : Char} {sign : List Char}

theorem ofDigits_padded (zeros m : Nat) : ofDigits (padded zeros m) = m := by
  have same : ofDigits (padded zeros m) = Nat.ofDigitChars 10 (padded zeros m) 0 := rfl
  rw [same, padded, Nat.ofDigitChars_append, Nat.ofDigitChars_replicate_zero, Nat.mul_zero,
    Nat.ofDigitChars_ten_toDigits]

theorem isDigit_of_mem_padded (h : c ∈ padded zeros m) : c.isDigit = true := by
  rcases List.mem_append.mp h with zero | digit
  · rw [List.eq_of_mem_replicate zero]
    rfl
  · exact Nat.isDigit_of_mem_toDigits (by decide) (by decide) digit

theorem padded_ne_nil (zeros m : Nat) : padded zeros m ≠ [] := by
  simp [padded]

theorem isEmpty_padded (zeros m : Nat) : (padded zeros m).isEmpty = false :=
  List.isEmpty_eq_false_iff.mpr (padded_ne_nil zeros m)

theorem range_of_isDigit (h : c.isDigit = true) : 48 ≤ c.toNat ∧ c.toNat ≤ 57 := by
  simpa [Char.isDigit, UInt32.le_iff_toNat_le] using h

theorem not_isBlank_of_isDigit (h : c.isDigit = true) : isBlank c = false := by
  have range := range_of_isDigit h
  simp [isBlank, blankRuns]
  omega

theorem toLower_of_isDigit (h : c.isDigit = true) : c.toLower = c := by
  have range := range_of_isDigit h
  refine dif_neg ?_
  simp [UInt32.le_iff_toNat_le]
  omega

/-- A digit stands in front of the text behind the sign. -/
theorem exists_padded_eq_cons (zeros m : Nat) :
    ∃ c rest, padded zeros m = c :: rest ∧ c.isDigit = true := by
  obtain ⟨c, rest, split⟩ := List.exists_cons_of_ne_nil (padded_ne_nil zeros m)
  exact ⟨c, rest, split, isDigit_of_mem_padded (split ▸ List.mem_cons_self)⟩

/-! ## Reading a spelling -/

theorem not_isBlank_of_mem_signed (hsign : SignOf n sign)
    (h : c ∈ sign ++ padded zeros n.natAbs) : isBlank c = false := by
  rcases List.mem_append.mp h with h | digit
  · cases hsign with
    | none => cases h
    | plus => rw [List.mem_singleton.mp h]; rfl
    | minus => rw [List.mem_singleton.mp h]; rfl
  · exact not_isBlank_of_isDigit (isDigit_of_mem_padded digit)

theorem dropWhile_isBlank {lead body rest : List Char} (hlead : ∀ c ∈ lead, isBlank c = true)
    (hbody : ∀ c ∈ body, isBlank c = false) (hne : body ≠ []) :
    (lead ++ (body ++ rest)).dropWhile isBlank = body ++ rest := by
  obtain ⟨c, body, rfl⟩ := List.exists_cons_of_ne_nil hne
  have first : ¬ isBlank c = true := by simp [hbody c List.mem_cons_self]
  rw [List.dropWhile_append_of_pos hlead, List.cons_append, List.dropWhile_cons_of_neg first]

/-- Blanks around a text without blanks are trimmed off. -/
theorem trim_append {lead body trail : List Char} (hlead : ∀ c ∈ lead, isBlank c = true)
    (htrail : ∀ c ∈ trail, isBlank c = true) (hbody : ∀ c ∈ body, isBlank c = false)
    (hne : body ≠ []) : trim (lead ++ (body ++ trail)) = body := by
  have backwards : (trail.reverse ++ (body.reverse ++ [])).dropWhile isBlank = body.reverse ++ [] :=
    dropWhile_isBlank (by simpa using htrail) (by simpa using hbody) (by simpa using hne)
  rw [List.append_nil, ← List.reverse_append] at backwards
  rw [trim, dropWhile_isBlank hlead hbody hne, backwards, List.reverse_reverse]

theorem Spells.trim_eq {text : List Char} (h : Spells n text) :
    ∃ sign zeros, SignOf n sign ∧ trim text = sign ++ padded zeros n.natAbs := by
  obtain ⟨lead, trail, zeros, hlead, htrail, hsign⟩ := h
  refine ⟨_, zeros, hsign, trim_append hlead htrail (fun c => not_isBlank_of_mem_signed hsign) ?_⟩
  exact List.append_ne_nil_of_right_ne_nil _ (padded_ne_nil zeros n.natAbs)

theorem splitSign_of_isDigit {rest : List Char} (h : c.isDigit = true) :
    splitSign (c :: rest) = (false, c :: rest) := by
  unfold splitSign
  split
  · rename_i plus
    cases plus
    cases h
  · rename_i minus
    cases minus
    cases h
  · rfl

/-- What stands behind the sign are the digits, and the sign is that of the number. -/
theorem splitSign_signed (zeros : Nat) (hsign : SignOf n sign) :
    ∃ negative, splitSign (sign ++ padded zeros n.natAbs) = (negative, padded zeros n.natAbs) ∧
      n = if negative then -(n.natAbs : Int) else n.natAbs := by
  cases hsign with
  | none h =>
    obtain ⟨c, rest, split, digit⟩ := exists_padded_eq_cons zeros n.natAbs
    refine ⟨false, ?_, (Int.natAbs_of_nonneg h).symm⟩
    rw [List.nil_append, split]
    exact splitSign_of_isDigit digit
  | plus h => exact ⟨false, rfl, (Int.natAbs_of_nonneg h).symm⟩
  | minus h => exact ⟨true, rfl, by rw [if_pos rfl]; omega⟩

/-- Every spelling is read as the number. -/
theorem readInt?_signed (zeros : Nat) (hsign : SignOf n sign) :
    readInt? (sign ++ padded zeros n.natAbs) = some n := by
  obtain ⟨negative, split, value⟩ := splitSign_signed zeros hsign
  have digits : (padded zeros n.natAbs).all Char.isDigit = true :=
    List.all_eq_true.mpr fun c => isDigit_of_mem_padded
  simp only [readInt?, split, digits, isEmpty_padded, ofDigits_padded]
  exact congrArg some value.symm

end

end Text

/-! ## Reading it as a floating-point numeral -/

namespace Floating

open Text

/-- Digits alone are a decimal without a fraction and an exponent. -/
theorem Numeral.decimal?_padded (negative : Bool) (zeros m : Nat) :
    decimal? negative (padded zeros m) = some (.decimal negative m 0) := by
  have digits : ∀ c ∈ padded zeros m, c.isDigit = true := fun c => isDigit_of_mem_padded
  have before : (padded zeros m).takeWhile Char.isDigit = padded zeros m :=
    List.takeWhile_eq_self_iff.mpr digits
  have after : (padded zeros m).dropWhile Char.isDigit = [] := List.dropWhile_eq_nil_iff.mpr digits
  simp [decimal?, before, after, isEmpty_padded, exponent?, ofDigits_padded]

/-- A spelling of a whole number denotes the number. -/
theorem Numeral.read?_signed {n : Int} {sign : List Char} (zeros : Nat) (hsign : SignOf n sign) :
    ∃ negative, read? (sign ++ padded zeros n.natAbs) = some (.decimal negative n.natAbs 0) ∧
      n = if negative then -(n.natAbs : Int) else n.natAbs := by
  obtain ⟨negative, split, value⟩ := splitSign_signed zeros hsign
  refine ⟨negative, ?_, value⟩
  obtain ⟨c, rest, front, digit⟩ := exists_padded_eq_cons zeros n.natAbs
  -- the words for what is no decimal begin with a letter
  have word : ∀ w ∈ ["inf", "infinity", "nan"],
      String.ofList ((padded zeros n.natAbs).map Char.toLower) ≠ w := by
    intro w hw same
    have first : w.toList.head? = some c := by
      rw [← same, front, List.map_cons, toLower_of_isDigit digit, String.toList_ofList,
        List.head?_cons]
    simp only [List.mem_cons, List.not_mem_nil, or_false] at hw
    rcases hw with rfl | rfl | rfl <;> cases first <;> cases digit
  simp only [read?, split]
  rw [if_neg (by simp [word]), if_neg (by simp [word]), decimal?_padded]

/-! ## Rounding a large number -/

theorem div_le_roundHalfEven (n d : Nat) : n / d ≤ roundHalfEven n d := by
  simp only [roundHalfEven]
  split
  · exact Nat.le_succ _
  · exact Nat.le_refl _

namespace Layout

/-- The last place of the words next to a whole number goes by its highest bit. -/
theorem lastPlace_one (L : Layout) {m : Nat} (h : m ≠ 0) :
    L.lastPlace m 1 = max L.leastExponent (m.log2 - L.fractionBits) := by
  have low : Nat.log2 1 = 0 := by decide
  have bit : ¬ m < 2 ^ m.log2 := Nat.not_lt.mpr (Nat.log2_self_le h)
  simp [lastPlace, unscale, pow2, low, bit]

theorem double_unit : double.unit = 2 ^ 52 := by decide

theorem double_leastExponent : double.leastExponent = -1074 := by decide

theorem double_signWeight : double.signWeight = 2 ^ 63 := by decide

/-- The 64-bit words of large numbers are at least that of `2 ^ 63`, and at most infinity. -/
theorem roundMagnitude_of_large {m : Nat} (h : 2 ^ 63 ≤ m) :
    1086 * 2 ^ 52 ≤ double.roundMagnitude m 1 ∧ double.roundMagnitude m 1 ≤ 2047 * 2 ^ 52 := by
  have hne : m ≠ 0 := by omega
  have high : 63 ≤ m.log2 := (Nat.le_log2 hne).mpr h
  obtain ⟨k, hk⟩ := Nat.exists_eq_add_of_le' (show 52 ≤ m.log2 by omega)
  have place : double.lastPlace m 1 = k := by
    have bits : (double.fractionBits : Int) = 52 := rfl
    rw [lastPlace_one _ hne, hk, double_leastExponent, bits]
    omega
  -- the mantissa keeps the highest bit
  have mantissa : 2 ^ 52 ≤ roundHalfEven m (2 ^ k) := by
    refine Nat.le_trans ?_ (div_le_roundHalfEven _ _)
    rw [Nat.le_div_iff_mul_le (Nat.two_pow_pos k), ← Nat.pow_add, Nat.add_comm, ← hk]
    exact Nat.log2_self_le hne
  have word : double.roundMagnitude m 1 =
      min (2047 * 2 ^ 52) ((k + 1074) * 2 ^ 52 + roundHalfEven m (2 ^ k)) := by
    have limit : double.infinity = 2047 * 2 ^ 52 := by decide
    have steps : ((k : Int) + 1074).toNat = k + 1074 := by omega
    simp [roundMagnitude, hne, place, unscale, pow2, limit, double_unit, double_leastExponent,
      steps]
  rw [word]
  omega

/-- What the words from that of `2 ^ 63` up to infinity denote, with either sign. -/
theorem read_of_large (negative : Bool) {magnitude : Nat} (low : 1086 * 2 ^ 52 ≤ magnitude)
    (high : magnitude ≤ 2047 * 2 ^ 52) :
    double.read (double.signed negative magnitude) = .infinite negative ∨
    ∃ m e, double.read (double.signed negative magnitude) = .finite negative m e ∧
      2 ^ 52 ≤ m ∧ 11 ≤ e := by
  have top : double.topField = 2047 := by decide
  have fields : pow2 double.exponentBits = 2048 := by decide
  -- the sign is above the fields, so the fields are those of the magnitude
  have sign : decide (2 ^ 63 ≤ double.signed negative magnitude) = negative := by
    cases negative <;> simp [signed, double_signWeight]
    omega
  have field : double.signed negative magnitude / 2 ^ 52 % 2048 = magnitude / 2 ^ 52 := by
    cases negative <;> simp [signed, double_signWeight] <;> omega
  have fraction : double.signed negative magnitude % 2 ^ 52 = magnitude % 2 ^ 52 := by
    cases negative <;> simp [signed, double_signWeight]
    omega
  simp only [read, double_unit, top, fields, double_leastExponent, double_signWeight, sign, field,
    fraction]
  by_cases infinite : magnitude / 2 ^ 52 = 2047
  · rw [if_pos infinite, if_pos (by omega)]
    exact .inl rfl
  · rw [if_neg infinite, if_neg (by omega)]
    exact .inr ⟨_, _, rfl, Nat.le_add_right _ _, by omega⟩

end Layout

/-- A number that leaves the narrow range by far is brought to the end on its side. -/
theorem max_min_whole (negative : Bool) {m : Nat} {e : Int} (hm : 2 ^ 52 ≤ m) (he : 11 ≤ e) :
    max least32 (min greatest32 (Datum.whole negative m e)) =
      if negative then least32 else greatest32 := by
  have large : 2 ^ 52 * 2 ^ 11 ≤ m * 2 ^ e.toNat :=
    Nat.mul_le_mul hm (Nat.pow_le_pow_right (by decide) (by omega))
  have whole : Datum.whole negative m e =
      if negative then -((m * 2 ^ e.toNat : Nat) : Int) else (m * 2 ^ e.toNat : Nat) := by
    have places : (-e).toNat = 0 := by omega
    simp [Datum.whole, pow2, places]
  rw [whole]
  generalize m * 2 ^ e.toNat = w at large
  cases negative <;> simp [least32, greatest32] <;> omega

/-- A whole number is rounded without looking at an exponent. -/
theorem Layout.roundDecimal_zero (L : Layout) {m : Nat} (h : m ≠ 0) :
    L.roundDecimal m 0 = L.roundMagnitude m 1 := by
  simp [roundDecimal, h, pow10]

/-- A whole number that does not fit in 64 bits is read as a number of the same sign that is far
outside the narrow range, or as infinite. -/
theorem Double.datum_of_large (negative : Bool) {m : Nat} (h : 2 ^ 63 ≤ m) :
    let x : Double := ⟨UInt64.ofNat (Layout.double.ofNumeral (.decimal negative m 0))⟩
    x.datum = .infinite negative ∨
      ∃ m e, x.datum = .finite negative m e ∧ 2 ^ 52 ≤ m ∧ 11 ≤ e := by
  obtain ⟨low, high⟩ := Layout.roundMagnitude_of_large h
  let word := Layout.double.signed negative (Layout.double.roundMagnitude m 1)
  have fits : word < UInt64.size := by
    cases negative <;> simp [word, Layout.signed, Layout.double_signWeight, UInt64.size] <;> omega
  have same : (UInt64.ofNat word).toNat = word := UInt64.toNat_ofNat_of_lt fits
  have hne : m ≠ 0 := by omega
  simp only [datum, Layout.ofNumeral, Layout.roundDecimal_zero _ hne]
  rw [same]
  exact Layout.read_of_large negative low high

/-- Its whole part is brought to the end of the narrow range on its side. -/
theorem Double.truncateInto_of_large (negative : Bool) {m : Nat} (h : 2 ^ 63 ≤ m) :
    truncateInto least32 greatest32
      ⟨UInt64.ofNat (Layout.double.ofNumeral (.decimal negative m 0))⟩ =
      if negative then least32 else greatest32 := by
  rw [truncateInto]
  rcases datum_of_large negative h with infinite | ⟨_, _, finite, hm, he⟩
  · rw [infinite]
  · rw [finite]
    exact max_min_whole negative hm he

end Floating

/-! ## Constants -/

namespace ConstantRecord

open Text Floating

section
variable {n : Int} {sign : List Char} (zeros : Nat)

/-- A 64-bit constant is the number if that fits. -/
theorem int64?_signed (hsign : SignOf n sign) :
    int64? (sign ++ padded zeros n.natAbs) =
      if least64 ≤ n ∧ n ≤ greatest64 then some (.ofInt n) else none := by
  rw [int64?, readInt?_signed zeros hsign]
  rfl

/-- A 32-bit constant is the number brought into range, also if its text is read twice. -/
theorem int32?_signed (hsign : SignOf n sign) :
    int32? (sign ++ padded zeros n.natAbs) = some (.int32 (saturate32 n)) := by
  rw [int32?, int64?_signed zeros hsign]
  by_cases fits : least64 ≤ n ∧ n ≤ greatest64
  · have same : (Int64.ofInt n).toInt = n := by
      rw [least64, greatest64] at fits
      exact Int64.toInt_ofInt_of_le fits.1 (by omega)
    simp only [if_pos fits, same]
    rfl
  · obtain ⟨negative, read, value⟩ := Numeral.read?_signed zeros hsign
    have large : 2 ^ 63 ≤ n.natAbs := by
      rw [least64, greatest64] at fits
      omega
    simp only [if_neg fits, Double.read?, read, Option.map_some, Value.ofDouble]
    have ends : (if negative then least32 else greatest32) = max least32 (min greatest32 n) := by
      rw [least32, greatest32]
      cases negative with
      | false =>
        rw [if_neg Bool.false_ne_true] at value ⊢
        omega
      | true =>
        rw [if_pos rfl] at value ⊢
        omega
    rw [Double.truncateInto_of_large negative large, ends]
    rfl

/-- What the two sorts of integer constants stand for. -/
theorem value_of_spells {text : String} (spelled : Spells n text.toList) :
    (mk 2 (toBytes text)).value =
      (if least64 ≤ n ∧ n ≤ greatest64 then .int64 (.ofInt n) else .null) ∧
    (mk 1 (toBytes text)).value = .int32 (saturate32 n) := by
  obtain ⟨sign, zeros, hsign, trimmed⟩ := spelled.trim_eq
  constructor
  · simp [value, ConstantRecord.text, ofBytes_toBytes, trimmed, int64?_signed zeros hsign]
    split <;> rfl
  · simp [value, ConstantRecord.text, ofBytes_toBytes, trimmed, int32?_signed zeros hsign]

end

end ConstantRecord

/-- **Integer constants survive their spelling.** Take a whole number and any of its decimal
spellings, with or without a sign, filled up with zeros and between blanks. A constant that is
spelled so and tagged as a 64-bit integer is the number if it is in range, and null otherwise.
Tagged as a 32-bit integer it is the number brought into range, however large the number is. -/
theorem integer_constants_survive (n : Int) (text : String) (spelled : Text.Spells n text.toList) :
    (-2 ^ 63 ≤ n ∧ n < 2 ^ 63 →
      (ConstantRecord.mk 2 (Text.toBytes text)).value.IsInteger .wide n) ∧
    (¬ (-2 ^ 63 ≤ n ∧ n < 2 ^ 63) → (ConstantRecord.mk 2 (Text.toBytes text)).value = .null) ∧
    (ConstantRecord.mk 1 (Text.toBytes text)).value.IsInteger .narrow
      (max (-2 ^ 31) (min (2 ^ 31 - 1) n)) := by
  obtain ⟨wide, narrow⟩ := ConstantRecord.value_of_spells spelled
  refine ⟨fun fits => ?_, fun out => ?_, ?_⟩
  · have number := Value.IsInteger.int64 (.ofInt n)
    rw [Int64.toInt_ofInt_of_le fits.1 fits.2] at number
    rw [wide, if_pos ⟨fits.1, by rw [greatest64]; omega⟩]
    exact number
  · rw [wide, if_neg]
    rw [least64, greatest64]
    omega
  · rw [narrow]
    exact Number.isInteger_toValue .narrow n

theorem integer_constants_survive_padded :
    (ConstantRecord.mk 2 (Text.toBytes "\t+007\u3000")).value.IsInteger .wide 7 ∧
    (ConstantRecord.mk 2 (Text.toBytes "-09223372036854775809 ")).value = .null ∧
    (ConstantRecord.mk 1 (Text.toBytes "-09223372036854775809 ")).value.IsInteger .narrow
      (-2147483648) := by
  have seven : Text.Spells 7 "\t+007\u3000".toList :=
    .intro ['\t'] ['\u3000'] 2 (List.forall_mem_singleton.mpr rfl)
      (List.forall_mem_singleton.mpr rfl) (.plus (by decide))
  have below : Text.Spells (-9223372036854775809) "-09223372036854775809 ".toList :=
    .intro [] [' '] 1 (List.forall_mem_nil _) (List.forall_mem_singleton.mpr rfl)
      (.minus (by decide))
  obtain ⟨-, null, narrow⟩ := integer_constants_survive _ _ below
  exact ⟨(integer_constants_survive _ _ seven).1 (by decide), null (by decide), narrow⟩

end ObjectMachine
