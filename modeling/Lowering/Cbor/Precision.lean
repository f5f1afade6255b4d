import Lowering.Decimal.Power

/-!
Floating-point numbers of less than double precision, as bits. Widening is exact; narrowing
succeeds only when it loses nothing.
-/

namespace Lowering.Cbor
open Decimal (twoTo)

/-- A format with a sign, an exponent and a fraction. -/
structure Precision where
  exponentBits : Nat
  fractionBits : Nat

namespace Precision

def half : Precision := ⟨5, 10⟩

def single : Precision := ⟨8, 23⟩

/-- The exponent of one. -/
def bias (p : Precision) : Nat := twoTo (p.exponentBits - 1) - 1

/-- The double-precision number with the given sign and the value `m * 2 ^ q`, when its magnitude
is that of a normal number. -/
def doubleBits (negative : Bool) (m : Nat) (q : Int) : UInt64 :=
  let sign : Nat := if negative then twoTo 63 else 0
  let top := m.log2
  let exponent := (q + top + 1023).toNat
  let fraction := m * twoTo (52 - top) - twoTo 52
  UInt64.ofNat (sign + exponent * twoTo 52 + fraction)

/-- The number that the bits of a format stand for. -/
def widen (p : Precision) (bits : Nat) : Float :=
  let negative := bits / twoTo (p.exponentBits + p.fractionBits) % 2 = 1
  let exponent := bits / twoTo p.fractionBits % twoTo p.exponentBits
  let fraction := bits % twoTo p.fractionBits
  let least : Int := 1 - (p.bias : Int) - p.fractionBits
  if exponent = twoTo p.exponentBits - 1 then
    if fraction = 0 then Float.ofBits (if negative then 0xfff0000000000000 else 0x7ff0000000000000)
    else Float.ofBits 0x7ff8000000000001
  else if exponent = 0 then
    if fraction = 0 then Float.ofBits (if negative then 0x8000000000000000 else 0)
    else Float.ofBits (doubleBits negative fraction least)
  else
    Float.ofBits (doubleBits negative (twoTo p.fractionBits + fraction) (least + exponent - 1))

/-- The bits of a finite number in a format, if it has them. -/
def narrow? (p : Precision) (x : Float) : Option Nat :=
  let bits : Nat := x.toBits.toNat
  let sign : Nat := bits / twoTo 63 * twoTo (p.exponentBits + p.fractionBits)
  let exponent : Nat := bits / twoTo 52 % twoTo 11
  let fraction : Nat := bits % twoTo 52
  if exponent = 0 then if fraction = 0 then some sign else none
  else
    let e : Int := (exponent : Int) - 1023 + p.bias
    -- Below the normal numbers the fraction has fewer bits, and the leading one is written out.
    let lost : Nat := 52 - p.fractionBits + (1 - e).toNat
    let whole : Nat := twoTo 52 + fraction
    if e ≥ (twoTo p.exponentBits : Nat) - 1 || whole % twoTo lost ≠ 0 then none
    else if e ≥ 1 then
      some (sign + e.toNat * twoTo p.fractionBits + (whole / twoTo lost - twoTo p.fractionBits))
    else some (sign + whole / twoTo lost)

end Precision
end Lowering.Cbor
