import ObjectMachine.Floating.Arithmetic

/-!
# The shortest decimal text of a floating-point word

A finite positive word stands for every real that rounds to it, an interval around its value. Of
the decimals in that interval the text takes one with the fewest digits, and of those the one
nearest to the value. `shortest` finds it by trying one, two, three, ... digits: on the grid of
decimals with that many digits only the two neighbours of the value have to be looked at.

The text is positional, whatever the size of the number.
-/

namespace ObjectMachine.Floating

/-- How many decimal digits a natural number has. -/
def decimalLength (n : Nat) : Nat := (Nat.toDigits 10 n).length

/-- The power of ten just above the positive number `n / d`: the least `k` with
`n / d < 10 ^ k`. -/
def decimalTop (n d : Nat) : Int :=
  if d ≤ n then decimalLength (n / d)
  else 1 - (decimalLength ((d + n - 1) / n - 1) : Int)

/-- The reals that round to one word, as three fractions over a common denominator. -/
structure Span where
  low : Nat
  value : Nat
  high : Nat
  denominator : Nat
  /-- Whether the two ends belong to the interval. -/
  closed : Bool
deriving Repr

namespace Span

/-- The interval of reals that round to the positive number `m * 2 ^ e`. Below a power of two the
neighbour is half as far away; a tie rounds to the even mantissa, so an even mantissa owns both
ends. -/
def ofFinite (L : Layout) (m : Nat) (e : Int) : Span :=
  let below := if m = L.unit ∧ L.leastExponent < e then 1 else 2
  let scale := pow2 (e - 2).toNat
  { low := (4 * m - below) * scale
    value := 4 * m * scale
    high := (4 * m + 2) * scale
    denominator := pow2 (2 - e).toNat
    closed := m % 2 == 0 }

/-- Whether `c * 10 ^ j` lies in the interval. -/
def contains (s : Span) (c : Nat) (j : Int) : Bool :=
  let up := pow10 (-j).toNat
  let point := c * pow10 j.toNat * s.denominator
  if s.closed then decide (s.low * up ≤ point ∧ point ≤ s.high * up)
  else decide (s.low * up < point ∧ point < s.high * up)

/-- The neighbour of the value on the grid of multiples of `10 ^ j` that lies in the interval, the
nearer one if both do and the upper one on a tie. -/
def onGrid? (s : Span) (j : Int) : Option Nat :=
  let n := s.value * pow10 (-j).toNat
  let d := s.denominator * pow10 j.toNat
  let c := n / d
  match s.contains c j, s.contains (c + 1) j with
  | true, true => some (if 2 * n < (2 * c + 1) * d then c else c + 1)
  | true, false => some c
  | false, true => some (c + 1)
  | false, false => none

end Span

/-- Seventeen digits tell all words of the 64-bit layout apart. -/
def mostDigits : Nat := 17

/-- The shortest decimal `c * 10 ^ j` that rounds to the positive number `m * 2 ^ e`, as the pair
of `c` and `j`. -/
def shortest (L : Layout) (m : Nat) (e : Int) : Nat × Int :=
  let s := Span.ofFinite L m e
  let top := decimalTop s.value s.denominator
  let grids := (List.range mostDigits).map fun (i : Nat) => top - (i + 1)
  (grids.findSome? fun j => (s.onGrid? j).map fun c => (c, j)).getD (0, 0)

/-- The positional text of `c * 10 ^ j` for a positive `c`, without needless zeros. -/
def positional (c : Nat) (j : Int) : String :=
  let written := Nat.toDigits 10 c
  let point : Int := written.length + j
  let digits := (written.reverse.dropWhile (· == '0')).reverse
  if point ≤ 0 then
    String.ofList ('0' :: '.' :: List.replicate (-point).toNat '0' ++ digits)
  else if digits.length ≤ point.toNat then
    String.ofList (digits ++ List.replicate (point.toNat - digits.length) '0')
  else
    String.ofList (digits.take point.toNat ++ '.' :: digits.drop point.toNat)

/-- The text of a number of the given layout. -/
def Layout.text (L : Layout) : Datum → String
  | .nan => "NaN"
  | .infinite s => if s then "-inf" else "inf"
  | .finite s m e =>
    let magnitude :=
      if m = 0 then "0"
      else
        let d := shortest L m e
        positional d.1 d.2
    if s then "-" ++ magnitude else magnitude

def Single.text (x : Single) : String := Layout.single.text x.datum

def Double.text (x : Double) : String := Layout.double.text x.datum

end ObjectMachine.Floating
