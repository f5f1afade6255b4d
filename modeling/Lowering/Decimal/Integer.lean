import Lowering.Word

/-!
Integers as they are written in texts: in base ten, or in another base that the first characters
tell.
-/

namespace Lowering.Decimal

/-- The value of a digit in bases up to sixteen. -/
def digitValue? (c : Char) : Option Nat :=
  if c.isDigit then some (c.toNat - 48)
  else if 'a' ≤ c && c ≤ 'f' then some (c.toNat - 87)
  else if 'A' ≤ c && c ≤ 'F' then some (c.toNat - 55)
  else none

def numberIn? (base : Nat) : Nat → List Char → Option Nat
  | n, [] => some n
  | n, c :: rest =>
    match digitValue? c with
    | some d => if d < base then numberIn? base (base * n + d) rest else none
    | none => none

/-- Digits whose base is told by what they start with. -/
def natural? : List Char → Option Nat
  | [] => none
  | '0' :: rest =>
    match rest with
    | 'x' :: d :: ds | 'X' :: d :: ds => numberIn? 16 0 (d :: ds)
    | 'b' :: d :: ds | 'B' :: d :: ds => numberIn? 2 0 (d :: ds)
    | 'o' :: d :: ds | 'O' :: d :: ds => numberIn? 8 0 (d :: ds)
    | ds => numberIn? 8 0 ds
  | cs => numberIn? 10 0 cs

/-- Whether every low line stands between digits. The mark of a base counts as a digit, and
`before` says whether a digit came last. -/
def separated (hex : Bool) : Bool → List Char → Bool
  | _, ['_'] => false
  | before, '_' :: next :: rest =>
    before && next ≠ '_' && (digitValue? next).any (fun d => d < 10 || hex) && separated hex false (next :: rest)
  | _, c :: rest => separated hex ((digitValue? c).any fun d => d < 10 || hex) rest
  | _, [] => true

/-- Digits that low lines may separate. -/
def separatedNatural? (cs : List Char) : Option Nat :=
  let fits := match cs with
    | '0' :: mark :: rest =>
      if mark = 'x' || mark = 'X' then separated true true rest
      else if mark = 'b' || mark = 'B' || mark = 'o' || mark = 'O' then separated false true rest
      else separated false false cs
    | cs => separated false false cs
  if fits then natural? (cs.filter (· ≠ '_')) else none

/-- Why a text is no integer. -/
inductive IntegerFault
  | form
  | range
deriving DecidableEq, Repr

def IntegerFault.text : IntegerFault → String
  | .form => "invalid syntax"
  | .range => "value out of range"

/-- Whether a number is negative, and what follows its sign. -/
def signed : List Char → Bool × List Char
  | '-' :: rest => (true, rest)
  | '+' :: rest => (false, rest)
  | cs => (false, cs)

/-- An integer of 64 bits with an optional sign. -/
def integer (s : String) : Except IntegerFault Int64 :=
  let (negative, digits) := signed s.toList
  match separatedNatural? digits with
  | none => .error .form
  | some n =>
    let value : Int := if negative then -(n : Int) else n
    match word? value with
    | some word => .ok word
    | none => .error .range

/-- Digits in base ten. A number that needs more than 64 bits is noticed before what follows it. -/
def digitsFrom (n : Nat) : List Char → Except IntegerFault Nat
  | [] => .ok n
  | c :: rest =>
    if !c.isDigit then .error .form
    else if UInt64.size ≤ 10 * n + (c.toNat - 48) then .error .range
    else digitsFrom (10 * n + (c.toNat - 48)) rest

/-- An integer of 64 bits in base ten with an optional sign. -/
def decimalInteger (cs : List Char) : Except IntegerFault Int64 :=
  let (negative, digits) := signed cs
  if digits.isEmpty then .error .form
  else match digitsFrom 0 digits with
    | .error fault => .error fault
    | .ok n =>
      match word? (if negative then -(n : Int) else n) with
      | some word => .ok word
      | none => .error .range

end Lowering.Decimal
