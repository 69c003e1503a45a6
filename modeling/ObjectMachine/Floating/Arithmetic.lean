import ObjectMachine.Floating.Layout

/-!
# Floating-point operations

Sum, product and remainder of two finite numbers are again a mantissa times a power of two, so they
are computed exactly on `Datum`; a quotient is rounded as a fraction. `Single` and `Double` are the
words themselves.
-/

namespace ObjectMachine.Floating

namespace Datum

/-- The mantissa counted in steps of two to the power `e`, for an exponent not below `e`. -/
def stepsAt (e : Int) (negative : Bool) (m : Nat) (exponent : Int) : Int :=
  let steps : Int := (m * pow2 (exponent - e).toNat : Nat)
  if negative then -steps else steps

/-- The number with the other sign. -/
def neg : Datum → Datum
  | .finite s m e => .finite (!s) m e
  | .infinite s => .infinite (!s)
  | .nan => .nan

/-- The exact sum. An exact zero is positive unless both summands are negative. -/
def add : Datum → Datum → Datum
  | .nan, _ => .nan
  | _, .nan => .nan
  | .infinite s, .infinite t => if s = t then .infinite s else .nan
  | .infinite s, .finite _ _ _ => .infinite s
  | .finite _ _ _, .infinite t => .infinite t
  | .finite s m e, .finite t n f =>
    let least := min e f
    let sum := stepsAt least s m e + stepsAt least t n f
    if sum = 0 then .finite (s && t) 0 least
    else .finite (decide (sum < 0)) sum.natAbs least

def sub (a b : Datum) : Datum := a.add b.neg

def mul : Datum → Datum → Datum
  | .nan, _ => .nan
  | _, .nan => .nan
  | .infinite s, .infinite t => .infinite (s != t)
  | .infinite s, .finite t n _ => if n = 0 then .nan else .infinite (s != t)
  | .finite s m _, .infinite t => if m = 0 then .nan else .infinite (s != t)
  | .finite s m e, .finite t n f => .finite (s != t) (m * n) (e + f)

/-- The remainder of the quotient truncated toward zero; it has the sign of the dividend. -/
def rem : Datum → Datum → Datum
  | .nan, _ => .nan
  | _, .nan => .nan
  | .infinite _, _ => .nan
  | .finite s m e, .infinite _ => .finite s m e
  | .finite s m e, .finite _ n f =>
    if n = 0 then .nan
    else
      let least := min e f
      .finite s ((m * pow2 (e - least).toNat) % (n * pow2 (f - least).toNat)) least

/-- The order of two numbers; there is none when one of them is no number. The two zeros are
equal. -/
def compare? : Datum → Datum → Option Ordering
  | .nan, _ => none
  | _, .nan => none
  | .infinite s, .infinite t => some (Ord.compare t s)
  | .infinite s, .finite _ _ _ => some (if s then .lt else .gt)
  | .finite _ _ _, .infinite t => some (if t then .gt else .lt)
  | .finite s m e, .finite t n f =>
    let least := min e f
    some (Ord.compare (stepsAt least s m e) (stepsAt least t n f))

/-- The whole part of a finite number, toward zero. -/
def whole (negative : Bool) (m : Nat) (e : Int) : Int :=
  let n : Int := (m * pow2 e.toNat / pow2 (-e).toNat : Nat)
  if negative then -n else n

end Datum

namespace Layout

/-- The word nearest to the exact quotient. -/
def div (L : Layout) : Datum → Datum → Nat
  | .nan, _ => L.quietNaN
  | _, .nan => L.quietNaN
  | .infinite _, .infinite _ => L.quietNaN
  | .infinite s, .finite t _ _ => L.signed (s != t) L.infinity
  | .finite s _ _, .infinite t => L.signed (s != t) 0
  | .finite s m e, .finite t n f =>
    if n = 0 then
      if m = 0 then L.quietNaN else L.signed (s != t) L.infinity
    else
      L.round (s != t) (m * pow2 (e - f).toNat) (n * pow2 (f - e).toNat)

end Layout

/-- A 32-bit floating-point word. -/
structure Single where
  bits : UInt32
deriving DecidableEq, Repr

/-- A 64-bit floating-point word. -/
structure Double where
  bits : UInt64
deriving DecidableEq, Repr

namespace Single

/-- The number that the word denotes. -/
def datum (x : Single) : Datum := Layout.single.read x.bits.toNat

/-- The nearest word. -/
def ofDatum (d : Datum) : Single := ⟨UInt32.ofNat (Layout.single.write d)⟩

/-- The word with its sign bit flipped. -/
def neg (x : Single) : Single := ⟨x.bits ^^^ 0x80000000⟩

/-- Neither of the two zeros. -/
def isNonzero (x : Single) : Bool := x.bits &&& 0x7fffffff != 0

def isNaN (x : Single) : Bool := x.datum == .nan

end Single

namespace Double

def datum (x : Double) : Datum := Layout.double.read x.bits.toNat

def ofDatum (d : Datum) : Double := ⟨UInt64.ofNat (Layout.double.write d)⟩

/-- The nearest word to a whole number. -/
def ofInt (n : Int) : Double := ofDatum (.finite (decide (n < 0)) n.natAbs 0)

/-- Every 32-bit word has an equal 64-bit one. -/
def ofSingle (x : Single) : Double := ofDatum x.datum

/-- The nearest 32-bit word. -/
def toSingle (x : Double) : Single := Single.ofDatum x.datum

def neg (x : Double) : Double := ⟨x.bits ^^^ 0x8000000000000000⟩

def isNonzero (x : Double) : Bool := x.bits &&& 0x7fffffffffffffff != 0

def isNaN (x : Double) : Bool := x.datum == .nan

/-- The rounded sum. -/
def add (x y : Double) : Double := ofDatum (x.datum.add y.datum)

def sub (x y : Double) : Double := ofDatum (x.datum.sub y.datum)

def mul (x y : Double) : Double := ofDatum (x.datum.mul y.datum)

def div (x y : Double) : Double := ⟨UInt64.ofNat (Layout.double.div x.datum y.datum)⟩

/-- The remainder of the truncated quotient, which is always representable. -/
def rem (x y : Double) : Double := ofDatum (x.datum.rem y.datum)

/-- The order of two words; none when one of them denotes no number. -/
def compare? (x y : Double) : Option Ordering := x.datum.compare? y.datum

/-- The whole part toward zero, brought into the range from `least` to `greatest`. A word that
denotes no number gives zero. -/
def truncateInto (least greatest : Int) (x : Double) : Int :=
  match x.datum with
  | .finite s m e => max least (min greatest (Datum.whole s m e))
  | .infinite s => if s then least else greatest
  | .nan => 0

end Double

end ObjectMachine.Floating
