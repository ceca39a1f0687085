import MiniJvm.Number.Double
import MiniJvm.Text.Bytes

/-!
# Shortest decimals

The decimal of a double is the one with the fewest digits that reads back as that double, and
among those the nearest; of two equally near ones, the one with the even last digit. All
arithmetic is exact: a positive number is a fraction of two natural numbers.
-/

namespace MiniJvm.Shortest

/-- The numbers that read back as a double, as numerators over one denominator. -/
structure Interval where
  low : Nat
  value : Nat
  high : Nat
  denominator : Nat
  /-- Whether the two ends read back as well. -/
  closed : Bool

/-- The interval of `m * 2 ^ e`. Below a power of two the gap is half as wide. -/
def interval (m : Nat) (e : Int) (least : Int) : Interval :=
  let below := if m = pow2 52 && e > least then 1 else 2
  let (up, down) : Nat × Nat :=
    match e with
    | .ofNat k => (pow2 k, 1)
    | .negSucc k => (1, pow2 (k + 1))
  { low := (4 * m - below) * up
    value := 4 * m * up
    high := (4 * m + 2) * up
    denominator := 4 * down
    closed := m % 2 = 0 }

/-- Whether `digits * 10 ^ place` lies in the interval. -/
def Interval.contains (i : Interval) (digits : Nat) (place : Int) : Bool :=
  let (up, down) : Nat × Nat :=
    match place with
    | .ofNat k => (pow10 k, 1)
    | .negSucc k => (1, pow10 (k + 1))
  let x := digits * up * i.denominator
  if i.closed then i.low * down ≤ x && x ≤ i.high * down
  else i.low * down < x && x < i.high * down

/-- The quotient and remainder of the value by `10 ^ place`, and the divisor. -/
def Interval.onGrid (i : Interval) (place : Int) : Nat × Nat × Nat :=
  match place with
  | .ofNat k =>
    let d := i.denominator * pow10 k
    (i.value / d, i.value % d, d)
  | .negSucc k =>
    let n := i.value * pow10 (k + 1)
    (n / i.denominator, n % i.denominator, i.denominator)

/-- The neighbour of the value on the grid of `10 ^ place` that reads back, the nearer one first. -/
def Interval.neighbour? (i : Interval) (place : Int) : Option Nat :=
  let (q, r, d) := i.onGrid place
  let up := 2 * r > d || (2 * r == d && q % 2 == 1)
  let (first, second) := if up then (q + 1, q) else (q, q + 1)
  if i.contains first place then some first
  else if i.contains second place then some second
  else none

/-- A decimal `0.d₁d₂… * 10 ^ point` by its digits. -/
structure Decimal where
  digits : Bytes
  point : Int

def Decimal.of (n : Nat) (place : Int) : Decimal :=
  let ds := Bytes.ofNat n
  ⟨Bytes.trimRight (· == 48) ds, place + (ds.length : Int)⟩

/-- The first of the grids from `place` downwards on which a neighbour reads back. -/
def search (i : Interval) : Nat → Int → Decimal
  | 0, place => Decimal.of (i.onGrid place).1 place
  | more + 1, place =>
    match i.neighbour? place with
    | some n => Decimal.of n place
    | none => search i more (place - 1)

/-- The shortest decimal of the positive number `m * 2 ^ e`. -/
def decimal (m : Nat) (e : Int) : Decimal :=
  let i := interval m e Binary.Format.double.leastExponent
  let whole := i.value / i.denominator
  let start : Int :=
    if 0 < whole then ((Bytes.ofNat whole).length : Int)
    else
      let reciprocal := i.denominator / i.value
      1 - ((Bytes.ofNat reciprocal).length : Int)
  search i 24 start

/-- How a decimal is laid out: positionally while its exponent is at least `leastPositional` and
below `firstScientific`, otherwise as one digit, a fraction and an exponent. -/
structure Layout where
  leastPositional : Int
  firstScientific : Int
  exponentDigits : Nat

def Layout.exponent (l : Layout) (e : Int) : Bytes :=
  (if e < 0 then "e-" else "e+") ++ Bytes.zeroPad l.exponentDigits (Bytes.ofNat e.natAbs)

def fractionPart (digits : Bytes) : Bytes := if digits.isEmpty then [] else "." ++ digits

def Layout.write (l : Layout) (d : Decimal) : Bytes :=
  let e := d.point - 1
  if e < l.leastPositional || e ≥ l.firstScientific then
    d.digits.take 1 ++ fractionPart (d.digits.drop 1) ++ l.exponent e
  else if d.point ≤ 0 then
    let zeros : Bytes := List.replicate d.point.natAbs 48
    "0." ++ zeros ++ d.digits
  else
    let n := d.point.toNat
    let whole := d.digits.take n
    whole ++ List.replicate (n - whole.length) 48 ++ fractionPart (d.digits.drop n)

/-- Constants are written positionally from a ten-thousandth up to a million, and with at least
two digits of exponent otherwise. -/
def general : Layout := ⟨-4, 6, 2⟩

def text (d : Double) : Bytes :=
  match d.value with
  | .nan => "NaN"
  | .infinite negative => if negative then "-Inf" else "+Inf"
  | .finite negative m e =>
    let magnitude : Bytes := if m = 0 then "0" else general.write (decimal m e)
    if negative then "-" ++ magnitude else magnitude

end MiniJvm.Shortest
