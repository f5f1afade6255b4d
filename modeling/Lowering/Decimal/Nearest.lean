import Lowering.Decimal.Power

/-!
Reading decimal numbers: the double-precision number that is nearest to a written one, a tie
going to the even neighbour. The rounding is on exact integers.
-/

namespace Lowering.Decimal

/-- The quotient rounded to the nearest integer, ties to even. -/
def roundedQuotient (num den : Nat) : Nat :=
  let quotient := num / den
  let remainder := num % den
  if 2 * remainder > den || (2 * remainder = den && quotient % 2 = 1) then quotient + 1
  else quotient

/-- The number of binary digits before the point of `num / den`, at most one too many. -/
def binaryLength (num den : Nat) : Int := (num.log2 : Int) - (den.log2 : Int) + 1

/-- `num / den` in units of `2 ^ q`, as a fraction. -/
def inUnits (num den : Nat) (q : Int) : Nat × Nat :=
  (num * twoTo (-q).toNat, den * twoTo q.toNat)

/-- The bits of the nearest number to `num / den`, or nothing when it is beyond the largest. -/
def nearestBits? (num den : Nat) : Option Nat :=
  if num = 0 then some 0
  else
    let guess := max (binaryLength num den - 53) (-1074)
    let units := inUnits num den guess
    -- The guess can be one too large, and then a digit is missing.
    let q := if units.1 / units.2 < twoTo 52 && guess > -1074 then guess - 1 else guess
    let units := inUnits num den q
    let m := roundedQuotient units.1 units.2
    -- A carry into a new digit keeps the value, and its bits follow the same formula.
    let bits := if m < twoTo 52 then m else (q + 1075).toNat * twoTo 52 + (m - twoTo 52)
    if bits < 2047 * twoTo 52 then some bits else none

/-- The nearest number to `m * 10 ^ e`, or nothing when it is beyond the largest. -/
def nearest? (m : Nat) (e : Int) : Option Float :=
  let length : Int := (Nat.toDigits 10 m).length
  let bits :=
    if m = 0 || length + e < -400 then some 0
    else if length + e > 400 then none
    else nearestBits? (m * tenTo e.toNat) (tenTo (-e).toNat)
  bits.map fun bits => Float.ofBits (UInt64.ofNat bits)

def digitsNumber (cs : List Char) : Nat := cs.foldl (fun n c => 10 * n + (c.toNat - 48)) 0

/-- An exponent, which may be absent. -/
def exponent? : List Char → Option Int
  | [] => some 0
  | mark :: rest =>
    if mark = 'e' || mark = 'E' then
      let (negative, digits) := match rest with
        | '-' :: digits => (true, digits)
        | '+' :: digits => (false, digits)
        | digits => (false, digits)
      if digits.isEmpty || !digits.all Char.isDigit then none
      else some (if negative then -(digitsNumber digits : Int) else digitsNumber digits)
    else none

/-- A number without a sign: digits, a point with digits on either side, an exponent. -/
def magnitude? (cs : List Char) : Option Float :=
  let whole := cs.takeWhile Char.isDigit
  let (fraction, rest) := match cs.dropWhile Char.isDigit with
    | '.' :: rest => (rest.takeWhile Char.isDigit, rest.dropWhile Char.isDigit)
    | rest => ([], rest)
  if whole.isEmpty && fraction.isEmpty then none
  else match exponent? rest with
    | none => none
    | some e => nearest? (digitsNumber (whole ++ fraction)) (e - fraction.length)

/-- A number with an optional sign, or nothing when it is not one or beyond the largest. -/
def number? : List Char → Option Float
  | '-' :: rest => (magnitude? rest).map fun x => -x
  | '+' :: rest => magnitude? rest
  | cs => magnitude? cs

end Lowering.Decimal
