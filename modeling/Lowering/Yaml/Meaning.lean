import Lowering.Decimal.Integer
import Lowering.Decimal.Nearest
import Lowering.Word
import Lowering.Yaml.Date

/-!
What plain scalars mean: null, booleans, numbers in several notations, dates, and otherwise text.
A tag can ask for one of these meanings.
-/

namespace Lowering.Yaml

inductive Meaning
  | null
  | bool (b : Bool)
  | int (n : Int64)
  /-- A number beyond the signed ones. -/
  | natural (n : UInt64)
  | float (x : Float)
  | date (t : Timestamp)
  | text

/-- The tag of a meaning. -/
def Meaning.tag : Meaning → String
  | .null => "!!null"
  | .bool _ => "!!bool"
  | .int _ | .natural _ => "!!int"
  | .float _ => "!!float"
  | .date _ => "!!timestamp"
  | .text => "!!str"

/-- The scalars that are words. -/
def keyword? (s : String) : Option Meaning :=
  if ["", "~", "null", "Null", "NULL"].contains s then some .null
  else if ["true", "True", "TRUE"].contains s then some (.bool true)
  else if ["false", "False", "FALSE"].contains s then some (.bool false)
  else if [".nan", ".NaN", ".NAN"].contains s then some (.float (0.0 / 0.0))
  else if [".inf", ".Inf", ".INF", "+.inf", "+.Inf", "+.INF"].contains s then
    some (.float (1.0 / 0.0))
  else if ["-.inf", "-.Inf", "-.INF"].contains s then some (.float (-1.0 / 0.0))
  else none

/-- An integer of the range of 64 bits; without a sign it can be beyond the signed range. -/
def integer? (cs : List Char) : Option Meaning :=
  let signed (negative : Bool) (digits : List Char) : Option Meaning :=
    match Decimal.natural? digits with
    | none => none
    | some n =>
      let value : Int := if negative then -(n : Int) else n
      (word? value).map .int
  match cs with
  | '-' :: rest => signed true rest
  | '+' :: rest => signed false rest
  | _ =>
    match signed false cs, Decimal.natural? cs with
    | some meaning, _ => some meaning
    | none, some n => if n < UInt64.size then some (.natural (UInt64.ofNat n)) else none
    | none, none => none

/-- A number with a sign of its own in a base, and nothing else. -/
def signedIn? (base : Nat) (cs : List Char) : Option Int :=
  let digits (cs : List Char) : Option Nat := if cs.isEmpty then none else Decimal.numberIn? base 0 cs
  match cs with
  | '-' :: rest => (digits rest).map fun n => -(n : Int)
  | '+' :: rest => (digits rest).map Int.ofNat
  | cs => (digits cs).map Int.ofNat

/-- A number whose sign stands behind the mark of its base. A number with a sign before the mark
has none behind it. -/
def markedInteger? : List Char → Option Meaning
  | '0' :: 'b' :: rest => word 2 rest
  | '0' :: 'o' :: rest => word 8 rest
  | '-' :: '0' :: 'b' :: rest => word 2 ('-' :: rest)
  | '-' :: '0' :: 'o' :: rest => word 8 ('-' :: rest)
  | _ => none
where
  word (base : Nat) (cs : List Char) : Option Meaning := ((signedIn? base cs).bind word?).map .int

/-- The meaning of a text that starts with a digit or a sign. Low lines are dropped from numbers. -/
def numeric (dates : Bool) (cs : List Char) : Meaning :=
  match if dates then timestamp? cs else none with
  | some t => .date t
  | none =>
    let digits := cs.filter (· ≠ '_')
    match integer? digits, Decimal.number? digits, markedInteger? digits with
    | some meaning, _, _ => meaning
    | none, some x, _ => .float x
    | none, none, some meaning => meaning
    | none, none, none => .text

/-- The meaning of a plain scalar. -/
def meaning (dates : Bool) (s : String) : Meaning :=
  match keyword? s, s.toList with
  | some meaning, _ => meaning
  | none, [] => .null
  | none, c :: rest =>
    if c.isDigit || c = '+' || c = '-' then numeric dates (c :: rest)
    else if c = '.' && Decimal.separated false false (c :: rest) then
      match Decimal.magnitude? ((c :: rest).filter (· ≠ '_')) with
      | some x => .float x
      | none => .text
    else .text

/-- The meaning that a tag gives a scalar: the one that the text has, which must be the one that
the tag asks for; an integer can be asked for as a float. Other tags leave the text. -/
def tagged (tag : String) (s : String) : Option Meaning :=
  if ["!!bool", "!!int", "!!float", "!!null", "!!timestamp"].contains tag then
    match meaning (tag == "!!timestamp") s, tag with
    | .int n, "!!float" => some (.float (Float.ofInt n.toInt))
    | m, _ => if m.tag == tag then some m else none
  else some .text

end Lowering.Yaml
