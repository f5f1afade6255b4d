import Lowering.Decimal.Nearest
import Lowering.Decimal.Shortest

/-!
Exponential and logarithm of floats, each by a fixed series after its argument has been reduced.
A float fixes the result only together with the order of the roundings, so every step is written
out, and where a product is added without being rounded first, the sum is taken on exact integers.
-/

namespace Lowering.Machine
open Decimal

/-- A finite float as `m * 2 ^ q`. -/
def scaled (x : Float) : Int × Int :=
  match decode x with
  | (negative, .finite value) => (if negative then -(value.m : Int) else value.m, value.q)
  | _ => (0, 0)

/-- The nearest float to `m * 2 ^ q`. -/
def nearestScaled (m q : Int) : Float :=
  let magnitude := match nearestBits? (m.natAbs * twoTo q.toNat) (twoTo (-q).toNat) with
    | some bits => Float.ofBits (UInt64.ofNat bits)
    | none => 1.0 / 0.0
  if m < 0 then -magnitude else magnitude

/-- `a * b + c` with one rounding at the end, for finite floats. -/
def fused (a b c : Float) : Float :=
  let (ma, qa) := scaled a
  let (mb, qb) := scaled b
  let (mc, qc) := scaled c
  let q := min (qa + qb) qc
  nearestScaled (ma * mb * twoTo (qa + qb - q).toNat + mc * twoTo (qc - q).toNat) q

/-- The nearest integer, a tie going to the even one. -/
def nearestInteger (x : Float) : Float :=
  let low := x.floor
  let part := x - low
  if part < 0.5 || (part == 0.5 && (low / 2).floor * 2 == low) then low else low + 1

/-- The value of a float that is an integer. -/
def integral (x : Float) : Int :=
  let (m, q) := scaled x
  m * twoTo q.toNat / twoTo (-q).toNat

/-- The coefficients of the series of the exponential, the last term first. -/
def exponentialTerms : List Float :=
  [1.9841269841269841270e-4, 1.3888888888888888889e-3, 8.3333333333333333333e-3,
    4.1666666666666666667e-2, 1.6666666666666666667e-1, 0.5, 1.0]

/-- The exponential of a float whose result is neither too large nor too small: the nearest power
of two is split off, and of the rest the sixteenth part goes into the series, whose result less
one is then squared four times. -/
def exponential (x : Float) : Float :=
  let n := nearestInteger (x * 1.4426950408889634073599246810018920)
  let rest := fused (-n) 0.69314718055966295651160180568695068359375 x
  let rest := fused (-n) 0.28235290563031577122588448175013436025525412068e-12 rest * 0.0625
  let series := exponentialTerms.foldl (fun sum term => fused sum rest term) 2.4801587301587301587e-5
  let double (y : Float) : Float := y * (y + 2)
  let y := double (double (double (rest * series)))
  (fused y (y + 2) 1).scaleB (integral n)

/-- Significand from a half up to one, and exponent. The digits of a float below the normal ones
are taken as they stand, as if a leading one stood before them. -/
def significand (x : Float) : Float × Int :=
  let bits := x.toBits.toNat
  (Float.ofBits (UInt64.ofNat (bits % twoTo 52 + 1022 * twoTo 52)),
    (bits / twoTo 52 % twoTo 11 : Nat) - 1022)

/-- The natural logarithm of a positive finite float. -/
def logarithm (x : Float) : Float :=
  let (m, e) := significand x
  let low := m ≤ 7.07106781186547524401e-01
  let f := (if low then 2 * m else m) - 1
  let k := Float.ofInt (if low then e - 1 else e)
  let s := f / (2 + f)
  let s2 := s * s
  let s4 := s2 * s2
  let odd := s2 * (6.666666666666735130e-01 + s4 * (2.857142874366239149e-01
    + s4 * (1.818357216161805012e-01 + s4 * 1.479819860511658591e-01)))
  let even := s4 * (3.999999999940941908e-01 + s4 * (2.222219843214978396e-01
    + s4 * 1.531383769920937332e-01))
  let half := 0.5 * f * f
  k * 6.93147180369123816490e-01
    - ((half - (s * (half + (odd + even)) + k * 1.90821492927058770002e-10)) - f)

end Lowering.Machine
