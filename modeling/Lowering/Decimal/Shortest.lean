import Lowering.Decimal.Power

/-!
The fewest decimal digits that read back as a given binary floating-point number, and of those
the nearest. The search is on exact integers: a number is `m * 2 ^ q`, and the reals that round
to it form an interval whose ends belong to it when `m` is even.
-/

namespace Lowering.Decimal

/-- A finite positive number `m * 2 ^ q`. `narrow` marks a number whose lower neighbour is only
half as far away as its upper one. -/
structure Binary where
  m : Nat
  q : Int
  narrow : Bool

/-- The digits `d₁ d₂ …` and the position of the point: the value is `0.d₁d₂… * 10 ^ point`. -/
structure Digits where
  digits : List Nat
  point : Int
deriving Repr, BEq, DecidableEq

/-- A decoded number: sign and magnitude, or one of the two that have no digits. -/
inductive Magnitude
  | nan
  | infinite
  | zero
  | finite (value : Binary)

/-- Splits the bits of a double-precision number. -/
def decode (x : Float) : Bool × Magnitude :=
  let bits : Nat := x.toBits.toNat
  let negative : Bool := bits ≥ twoTo 63
  let exponent : Nat := bits / twoTo 52 % twoTo 11
  let fraction : Nat := bits % twoTo 52
  if exponent = 2047 then (negative, if fraction = 0 then .infinite else .nan)
  else if exponent = 0 then
    (negative, if fraction = 0 then .zero else .finite ⟨fraction, -1074, false⟩)
  else
    (negative, .finite ⟨fraction + twoTo 52, (exponent : Int) - 1075, fraction = 0 && exponent > 1⟩)

/-- Coarsens a number to the grid of single precision, which is exact for those that lie on it. -/
def Binary.toSingle (value : Binary) : Binary :=
  let q := max (value.q + 29) (-149)
  let m := value.m / twoTo (q - value.q).toNat
  ⟨m, q, m = twoTo 23 && q > -149⟩

/-- `m * 2 ^ q * 10 ^ s` as a fraction of natural numbers. -/
def fraction (m : Nat) (q s : Int) : Nat × Nat :=
  (m * twoTo q.toNat * tenTo s.toNat, twoTo (-q).toNat * tenTo (-s).toNat)

/-- The decimal digits of a number, most significant first. -/
def digitsOf (n : Nat) : List Nat := (Nat.toDigits 10 n).map fun c => c.toNat - 48

/-- How many decimal digits the integral part of `num / den` has, negative for leading zeros
after the point. The first guess comes from the binary lengths. -/
def magnitudeOf (num den : Nat) : Int :=
  let guess : Int := ((num.log2 : Int) - (den.log2 : Int)) * 1233 / 4096
  let below (e : Int) : Bool := num * tenTo (-e).toNat < den * tenTo e.toNat
  let candidates := [guess - 1, guess, guess + 1, guess + 2]
  (candidates.find? below).getD (guess + 3)

/-- The candidate of `count` digits inside the interval that is nearest to the value. -/
def candidate (value : Binary) (point : Int) (count : Nat) : Option Nat :=
  let scale := (count : Int) - point
  -- Everything is measured in quarters of the spacing, so that both ends are integral.
  let (low, den) := fraction (4 * value.m - (if value.narrow then 1 else 2)) (value.q - 2) scale
  let (mid, _) := fraction (4 * value.m) (value.q - 2) scale
  let (high, _) := fraction (4 * value.m + 2) (value.q - 2) scale
  let closed := value.m % 2 = 0
  let inside (n : Nat) : Bool :=
    let x := n * den
    n > 0 && (if closed then low ≤ x && x ≤ high else low < x && x < high)
  let lower := mid / den
  let upper := lower + 1
  let toLower := mid - lower * den
  let toUpper := upper * den - mid
  match inside lower, inside upper with
  | true, true =>
    if toLower < toUpper || (toLower = toUpper && lower % 2 = 0) then some lower else some upper
  | true, false => some lower
  | false, true => some upper
  | false, false => none

/-- Tries `count`, `count + 1`, … digits; seventeen are always enough. -/
def search (value : Binary) (point : Int) (count fuel : Nat) : Nat × Nat :=
  match fuel with
  | 0 => (value.m, count)
  | fuel + 1 =>
    match candidate value point count with
    | some n => (n, count)
    | none => search value point (count + 1) fuel

/-- Drops trailing zeros. -/
def stripZeros (digits : List Nat) : List Nat := (digits.reverse.dropWhile (· == 0)).reverse

/-- The shortest digits of a positive number. -/
def shortest (value : Binary) : Digits :=
  let (num, den) := fraction value.m value.q 0
  let point := magnitudeOf num den
  let (n, count) := search value point 1 20
  let digits := digitsOf n
  -- Rounding up may carry into one more digit, which moves the point.
  ⟨stripZeros digits, point + ((digits.length : Int) - count)⟩

end Lowering.Decimal
