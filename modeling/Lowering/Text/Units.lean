import Lowering.Text.Stray

/-!
Characters as units of sixteen bits: one unit, or a pair of two halves. A half that stands alone is
no character.
-/

namespace Lowering.Text

/-- Whether a unit is half of a pair. -/
def isHalf (unit : Nat) : Bool := 0xd800 ≤ unit && unit < 0xe000

/-- The character that a first and a second half stand for. -/
def paired? (first second : Nat) : Option Char :=
  if 0xd800 ≤ first && first < 0xdc00 && 0xdc00 ≤ second && second < 0xe000 then
    some (Char.ofNat (0x10000 + (first - 0xd800) * 1024 + (second - 0xdc00)))
  else none

/-- The characters of units. A half alone becomes a replacement mark. -/
def ofUnits : List Nat → List Char
  | [] => []
  | [unit] => [if isHalf unit then replacement else Char.ofNat unit]
  | first :: second :: rest =>
    match paired? first second with
    | some c => c :: ofUnits rest
    | none => (if isHalf first then replacement else Char.ofNat first) :: ofUnits (second :: rest)

end Lowering.Text
