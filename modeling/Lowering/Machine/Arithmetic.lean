import Lowering.Machine.Exponential

/-!
Arithmetic of run-time numbers. Integers are 64-bit words that wrap around; division goes to the
floor. Powers of floats are computed by repeated squaring of the significand, with the exponent
kept apart; the part of an exponent that is no integer goes through the logarithm.
-/

namespace Lowering.Machine

/-- Quotient and remainder of a division to the floor. The divisor is not zero. -/
def floorDivMod (x y : Int64) : Int64 × Int64 :=
  let q := x / y
  let r := x % y
  if r != 0 && decide (r < 0) != decide (y < 0) then (q - 1, r + y) else (q, r)

/-- Shifts by 64 or more leave nothing. -/
def shiftLeft (x y : Int64) : Int64 := if y.toInt ≥ 64 then 0 else x <<< y

/-- Shifts by 64 or more leave the sign. -/
def shiftRight (x y : Int64) : Int64 :=
  if y.toInt ≥ 64 then (if x < 0 then -1 else 0) else x >>> y

/-- The power of an integer, by squaring; `fuel` bounds the number of bits of the exponent. -/
def powerWithin : Nat → Int64 → Nat → Int64
  | 0, _, _ => 1
  | fuel + 1, x, n =>
    if n = 0 then 1
    else
      let half := powerWithin fuel (x * x) (n / 2)
      if n % 2 = 1 then x * half else half

def power (x : Int64) (n : Nat) : Int64 := powerWithin 64 x n

/-- An integer as a float, rounded to the nearest one. -/
def toFloat (n : Int64) : Float := Float.ofInt n.toInt

def infinity : Float := Float.ofBits 0x7ff0000000000000

def isNegative (x : Float) : Bool := x.toBits ≥ 0x8000000000000000

/-- An integer beyond 2 ^ 53 is even. -/
def isOddInteger (y : Float) : Bool :=
  if y.abs ≥ 9007199254740992 then false
  else
    let whole := y.abs.floor
    whole == y.abs && whole.toUInt64 % 2 == 1

/-- Multiplies `a * 2 ^ e` by the power of `x * 2 ^ xe`, bit by bit of the exponent. The loop ends
early when the result can only overflow or vanish. -/
def floatPowerLoop : Nat → Float → Int → Float → Int → Nat → Float × Int
  | 0, a, e, _, _, _ => (a, e)
  | fuel + 1, a, e, x, xe, n =>
    if n = 0 then (a, e)
    else if xe < -4096 || 4096 < xe then (a, e + xe)
    else
      let (a, e) := if n % 2 = 1 then (a * x, e + xe) else (a, e)
      let x := x * x
      let xe := 2 * xe
      let (x, xe) := if x < 0.5 then (x + x, xe - 1) else (x, xe)
      floatPowerLoop fuel a e x xe (n / 2)

/-- The power of a finite base that is not zero, for a finite exponent. -/
def floatPowerFinite (x y : Float) : Float :=
  let whole := y.abs.floor
  let part := y.abs - whole
  if part != 0 && x < 0 then 0.0 / 0.0
  else if whole ≥ 9223372036854775808 then
    if x == -1 then 1 else if decide (x.abs < 1) == decide (y > 0) then 0 else infinity
  else
    let (part, whole) := if part > 0.5 then (part - 1, whole + 1) else (part, whole)
    let start := if part != 0 then exponential (part * logarithm x) else 1
    let (significand, exponent) := x.frExp
    let (a, e) := floatPowerLoop 64 start 0 significand exponent whole.toUInt64.toNat
    if y < 0 then (1 / a).scaleB (-e) else a.scaleB e

/-- The power of a float. -/
def floatPower (x y : Float) : Float :=
  if y == 0 || x == 1 then 1
  else if y == 1 then x
  else if x.isNaN || y.isNaN then 0.0 / 0.0
  else if x == 0 then
    if y < 0 then if isNegative x && isOddInteger y then -infinity else infinity
    else if isNegative x && isOddInteger y then x else 0
  else if y.isInf then
    if x == -1 then 1
    else if decide (x.abs < 1) == decide (y > 0) then 0
    else infinity
  else if x.isInf then
    if y < 0 then if isNegative x && isOddInteger y then -0.0 else 0
    else if isNegative x && isOddInteger y then -infinity
    else infinity
  else if y == 0.5 then x.sqrt
  else if y == -0.5 then 1 / x.sqrt
  else floatPowerFinite x y

end Lowering.Machine
