import Lowering.Decimal.Shortest

/-!
How the shortest digits of a number are laid out: positionally, or with an exponent when the
number is very large or very small. Each output format has its own record of limits.
-/

namespace Lowering.Decimal

/-- The limits and spellings of one output format. -/
structure Layout where
  /-- Decimal exponents below this are written with an exponent. -/
  least : Int
  /-- Decimal exponents from this on are written with an exponent. -/
  limit : Int
  /-- The least number of exponent digits. -/
  exponentDigits : Nat
  nan : String := "NaN"
  plusInfinity : String := "+Inf"
  minusInfinity : String := "-Inf"

/-- Values in listings and messages. -/
def Layout.plain : Layout := ⟨-4, 6, 2, "NaN", "+Inf", "-Inf"⟩

/-- Values in JSON documents, which have neither NaN nor infinities. -/
def Layout.json : Layout := ⟨-6, 21, 1, "NaN", "+Inf", "-Inf"⟩

def digitText (digits : List Nat) : String :=
  String.ofList (digits.map fun d => Char.ofNat (48 + d))

def zeros (n : Nat) : String := String.ofList (List.replicate n '0')

/-- Digits with the point at its place. -/
def positional (d : Digits) : String :=
  let n : Int := d.digits.length
  if d.point ≤ 0 then "0." ++ zeros (-d.point).toNat ++ digitText d.digits
  else if d.point ≥ n then digitText d.digits ++ zeros (d.point - n).toNat
  else digitText (d.digits.take d.point.toNat) ++ "." ++ digitText (d.digits.drop d.point.toNat)

/-- One digit, the point, the others, and the exponent. -/
def scientific (least : Nat) (d : Digits) : String :=
  let exponent := d.point - 1
  let head := digitText (d.digits.take 1)
  let tail := match d.digits.drop 1 with
    | [] => ""
    | rest => "." ++ digitText rest
  let size := toString exponent.natAbs
  let sign := if exponent < 0 then "-" else "+"
  head ++ tail ++ "e" ++ sign ++ zeros (least - size.length) ++ size

def Layout.write (layout : Layout) (d : Digits) : String :=
  let exponent := d.point - 1
  if exponent < layout.least || exponent ≥ layout.limit then scientific layout.exponentDigits d
  else positional d

def Layout.magnitude (layout : Layout) (coarsen : Binary → Binary) :
    Bool × Magnitude → String
  | (_, .nan) => layout.nan
  | (false, .infinite) => layout.plusInfinity
  | (true, .infinite) => layout.minusInfinity
  | (negative, .zero) => if negative then "-0" else "0"
  | (negative, .finite value) =>
    (if negative then "-" else "") ++ layout.write (shortest (coarsen value))

/-- A number in plain text. -/
def text (x : Float) : String := Layout.plain.magnitude id (decode x)

/-- A number of single precision in plain text. -/
def singleText (x : Float) : String := Layout.plain.magnitude Binary.toSingle (decode x)

end Lowering.Decimal
