import ObjectMachine.Floating.Arithmetic

/-!
# Numbers out of their spelling

A whole number is spelled with an optional sign and at least one of the digits 0 to 9. There are no
separators and no blanks, and leading zeros do not matter.

A floating-point numeral is an optional sign followed by `inf`, `infinity` or `nan` in any case, or
by decimal digits with at most one point and an optional exponent; at least one digit stands before
or after the point. Its value is exact, and reading it as a word rounds once.
-/

namespace ObjectMachine.Text

/-! ## Blanks -/

/-- The first and the last code point of every run of blank characters, in order. -/
def blankRuns : List (Nat × Nat) :=
  [(0x9, 0xd), (0x20, 0x20), (0x85, 0x85), (0xa0, 0xa0), (0x1680, 0x1680), (0x2000, 0x200a),
   (0x2028, 0x2029), (0x202f, 0x202f), (0x205f, 0x205f), (0x3000, 0x3000)]

/-- A character with the White_Space property. -/
def isBlank (c : Char) : Bool :=
  blankRuns.any fun run => run.1 ≤ c.toNat && c.toNat ≤ run.2

/-- A text without the blanks at its two ends. -/
def trim (text : List Char) : List Char :=
  ((text.dropWhile isBlank).reverse.dropWhile isBlank).reverse

/-! ## Whole numbers -/

/-- The value of a run of decimal digits. -/
def ofDigits (digits : List Char) : Nat :=
  digits.foldl (fun n c => 10 * n + (c.toNat - 48)) 0

/-- Whether a minus sign stands in front, and the text after the optional sign. -/
def splitSign : List Char → Bool × List Char
  | '+' :: rest => (false, rest)
  | '-' :: rest => (true, rest)
  | rest => (false, rest)

/-- The whole number that a text spells. -/
def readInt? (text : List Char) : Option Int :=
  let (negative, digits) := splitSign text
  if !digits.isEmpty && digits.all Char.isDigit then
    some (if negative then -(ofDigits digits : Int) else ofDigits digits)
  else none

end ObjectMachine.Text

/-! ## Floating-point numerals -/

namespace ObjectMachine.Floating

open Text (splitSign readInt? ofDigits)

/-- What a numeral denotes: a decimal is its digits times ten to the exponent. -/
inductive Numeral where
  | decimal (negative : Bool) (digits : Nat) (exponent : Int)
  | infinite (negative : Bool)
  | nan
deriving DecidableEq, Repr

namespace Numeral

/-- The exponent that ends a decimal: nothing, or a mark and a whole number. -/
def exponent? : List Char → Option Int
  | [] => some 0
  | mark :: text => if mark = 'e' ∨ mark = 'E' then readInt? text else none

/-- An unsigned decimal. -/
def decimal? (negative : Bool) (text : List Char) : Option Numeral :=
  let before := text.takeWhile Char.isDigit
  let (after, rest) :=
    match text.dropWhile Char.isDigit with
    | '.' :: tail => (tail.takeWhile Char.isDigit, tail.dropWhile Char.isDigit)
    | tail => ([], tail)
  if before.isEmpty && after.isEmpty then none
  else
    (exponent? rest).map fun e =>
      .decimal negative (ofDigits (before ++ after)) (e - after.length)

/-- The numeral that a text spells. -/
def read? (text : List Char) : Option Numeral :=
  let (negative, body) := splitSign text
  let word := String.ofList (body.map Char.toLower)
  if word = "inf" ∨ word = "infinity" then some (.infinite negative)
  else if word = "nan" then some .nan
  else decimal? negative body

end Numeral

namespace Layout

/-- The unsigned word nearest to `digits * 10 ^ exponent`. A decimal that is far out of range is
settled by its size alone, since ten is more than two cubed; the powers of ten of the other ones
stay small. -/
def roundDecimal (L : Layout) (digits : Nat) (exponent : Int) : Nat :=
  -- `2 ^ size` is at most the decimal if `exponent` is positive, and `2 ^ (size + 1)` is more than
  -- the decimal if `exponent` is negative
  let size : Int := digits.log2 + 3 * exponent
  if digits = 0 then 0
  else if 0 < exponent ∧ (pow2 (L.exponentBits - 1) : Int) ≤ size then L.infinity
  else if exponent < 0 ∧ size + 1 < L.leastExponent then 0
  else L.roundMagnitude (digits * pow10 exponent.toNat) (pow10 (-exponent).toNat)

/-- The word nearest to what a numeral denotes. -/
def ofNumeral (L : Layout) : Numeral → Nat
  | .decimal negative digits e => L.signed negative (L.roundDecimal digits e)
  | .infinite negative => L.signed negative L.infinity
  | .nan => L.quietNaN

end Layout

def Single.read? (text : List Char) : Option Single :=
  (Numeral.read? text).map fun n => ⟨UInt32.ofNat (Layout.single.ofNumeral n)⟩

def Double.read? (text : List Char) : Option Double :=
  (Numeral.read? text).map fun n => ⟨UInt64.ofNat (Layout.double.ofNumeral n)⟩

end ObjectMachine.Floating
