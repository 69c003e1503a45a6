/-!
# Binary floating point, exactly

A floating-point word is a sign bit, an exponent field and a fraction field. `Layout` gives the
two widths, `Layout.read` says which number a word denotes, and `Layout.round` is the only place
where a number is rounded: to the nearest representable one, a tie to the even mantissa.

Every operation of the library computes its exact result on `Datum` (a mantissa times a power of
two) or on a quotient of naturals, and then rounds once. Nothing here depends on the arithmetic of
the computer that runs it.
-/

namespace ObjectMachine.Floating

def pow2 (n : Nat) : Nat := Nat.pow 2 n

def pow10 (n : Nat) : Nat := Nat.pow 10 n

/-- The widths of the fraction field and of the exponent field; one sign bit stands above them. -/
structure Layout where
  fractionBits : Nat
  exponentBits : Nat
deriving DecidableEq, Repr

/-- The number that a word denotes. A finite one is the mantissa times two to the exponent, with a
sign that also tells the two zeros apart. -/
inductive Datum where
  | finite (negative : Bool) (mantissa : Nat) (exponent : Int)
  | infinite (negative : Bool)
  | nan
deriving DecidableEq, Repr

namespace Layout

def single : Layout := ⟨23, 8⟩

def double : Layout := ⟨52, 11⟩

/-- The weight of the hidden bit, counted in units of the last place. -/
def unit (L : Layout) : Nat := pow2 L.fractionBits

/-- The exponent field of infinities and of results that are no number. -/
def topField (L : Layout) : Nat := pow2 L.exponentBits - 1

/-- The exponent of the last place of the smallest numbers. -/
def leastExponent (L : Layout) : Int :=
  2 - (pow2 (L.exponentBits - 1) : Int) - L.fractionBits

/-- The weight of the sign bit. -/
def signWeight (L : Layout) : Nat := pow2 (L.fractionBits + L.exponentBits)

/-- Infinity without its sign. -/
def infinity (L : Layout) : Nat := L.topField * L.unit

/-- The word given for every result that is no number. -/
def quietNaN (L : Layout) : Nat := L.infinity + L.unit / 2

/-- The number that a word denotes. -/
def read (L : Layout) (word : Nat) : Datum :=
  let negative := decide (L.signWeight ≤ word)
  let field := word / L.unit % pow2 L.exponentBits
  let fraction := word % L.unit
  if field = L.topField then
    if fraction = 0 then .infinite negative else .nan
  else if field = 0 then
    .finite negative fraction L.leastExponent
  else
    .finite negative (L.unit + fraction) (L.leastExponent + field - 1)

end Layout

/-- The whole number nearest to `n / d`; a tie goes to the even one. -/
def roundHalfEven (n d : Nat) : Nat :=
  let q := n / d
  let r := n % d
  if d < 2 * r ∨ (2 * r = d ∧ q % 2 = 1) then q + 1 else q

/-- Numerator and denominator of `n / d` divided by two to the power `e`. -/
def unscale (n d : Nat) (e : Int) : Nat × Nat :=
  (n * pow2 (-e).toNat, d * pow2 e.toNat)

namespace Layout

/-- The exponent of the last place of the representable numbers next to the positive number
`n / d`. -/
def lastPlace (L : Layout) (n d : Nat) : Int :=
  let k : Int := (n.log2 : Int) - (d.log2 : Int)
  -- `n / d` lies strictly between `2 ^ (k - 1)` and `2 ^ (k + 1)`
  let s := unscale n d k
  let top := if s.1 < s.2 then k - 1 else k
  max L.leastExponent (top - L.fractionBits)

/-- The unsigned word nearest to `n / d`. Exponent field and fraction field are adjacent, so a
mantissa that rounds up to the next power of two carries into the exponent by itself; what exceeds
the largest finite word is infinite. -/
def roundMagnitude (L : Layout) (n d : Nat) : Nat :=
  if n = 0 then 0
  else
    let e := L.lastPlace n d
    let s := unscale n d e
    min L.infinity ((e - L.leastExponent).toNat * L.unit + roundHalfEven s.1 s.2)

/-- A magnitude with its sign. -/
def signed (L : Layout) (negative : Bool) (magnitude : Nat) : Nat :=
  if negative then L.signWeight + magnitude else magnitude

/-- The word nearest to the quotient `n / d` taken with the given sign. -/
def round (L : Layout) (negative : Bool) (n d : Nat) : Nat :=
  L.signed negative (L.roundMagnitude n d)

/-- The word nearest to a number. -/
def write (L : Layout) : Datum → Nat
  | .finite negative m e => L.round negative (m * pow2 e.toNat) (pow2 (-e).toNat)
  | .infinite negative => L.signed negative L.infinity
  | .nan => L.quietNaN

end Layout

end ObjectMachine.Floating
