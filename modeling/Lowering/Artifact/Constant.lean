import Lowering.Cbor.Item
import Lowering.Heap.Equality
import Lowering.Heap.Text
import Lowering.Timestamp
import Lowering.Word

/-!
Constants in binary form. Every item stands for a constant, but for those whose tags do not suit
their content and for maps with keys that cannot be looked up. What the guest has no type for is
kept as foreign data.
-/

namespace Lowering.Artifact
open Cbor

/-- The tag of data that announce what they are. -/
def selfDescribed : Nat := 55799

/-- What a tag demands of its content: a date is a text or a number, a big number is in bytes. -/
def tagAllows (number : Nat) (content : Item) : Bool :=
  match number, content with
  | 0, .text _ | 0, .garbled _ => true
  | 1, .natural _ | 1, .negative _ | 1, .float _ => true
  | 2, .bytes _ | 3, .bytes _ => true
  | n, _ => n > 3

/-- The number that bytes stand for, the most significant first. -/
def bytesNumber (bs : List UInt8) : Nat := bs.foldl (fun n b => 256 * n + b.toNat) 0

/-- The text of a constant. It holds no objects, so there is nothing to follow. -/
def constantText (v : Value) : String := (Heap.interior true (fun _ => none) v).getD ""

/-- The words of a number, the least significant first. -/
def wordsOf : Nat → Nat → List Nat
  | 0, _ => []
  | fuel + 1, n => if n = 0 then [] else n % UInt64.size :: wordsOf fuel (n / UInt64.size)

/-- A number that may be too big for a word: its sign and the words of its size. -/
def bigNumber (n : Int) : Value :=
  let words := (wordsOf (n.natAbs.log2 / 64 + 1) n.natAbs).map toString
  .foreign "big.Int" ("\x7b" ++ Value.boolText (n < 0) ++ " [" ++ Text.join " " words ++ "]\x7d")

def instant (t : Timestamp) : Value := .foreign "time.Time" t.text

/-- The point in time that a count of seconds since 1970 stands for. What is no number stands for
the first moment of all. -/
def instantOfFloat (x : Float) : Value :=
  if x.isNaN || x.isInf then instant { year := 1, month := 1, day := 1 }
  else
    let whole := if x < 0 then x.ceil else x.floor
    let nanoseconds := ((x - whole) * 1000000000).toInt64.toInt + whole.toInt64.toInt * 1000000000
    instant (.ofSeconds (nanoseconds.fdiv 1000000000) (nanoseconds % 1000000000).toNat)

def bytesConstant (bs : List UInt8) : Value :=
  .foreign "[]uint8" ("[" ++ Text.join " " (bs.map fun b => toString b.toNat) ++ "]")

def tagged (number : Nat) (content : Value) : Value :=
  .foreign "cbor.Tag" (s!"\x7b{number} " ++ constantText content ++ "\x7d")

/-- The order in which a map shows two keys. Keys of one kind are in their own order. -/
def keyShownBefore : Value → Value → Bool
  | .none, _ => true
  | _, .none => false
  | .natural a, .natural b => a ≤ b
  | .int a, .int b => a ≤ b
  | .float a, .float b => a.isNaN || a ≤ b
  | .bool a, .bool b => !a || b
  | .str a, .str b => !(b < a)
  | a, b => !(constantText b < constantText a)

/-- A map shows its entries in the order of their keys. Of two equal keys the last one counts. -/
def mapping (entries : List (Value × Value)) : Value :=
  let kept := entries.foldl
    (fun kept (key, v) => kept.filter (fun (other, _) => !Heap.identical other key) ++ [(key, v)]) []
  let shown := (kept.mergeSort fun a b => keyShownBefore a.1 b.1).map fun (key, v) =>
    constantText key ++ ":" ++ constantText v
  .foreign "map[interface {}]interface {}" ("map[" ++ Text.join " " shown ++ "]")

/-- A constant that holds no others. -/
def scalar? : Item → Option Value
  | .natural n => some (.natural (UInt64.ofNat n))
  | .negative n =>
    some (match word? (-1 - n) with
      | some word => .int word
      | none => bigNumber (-1 - n))
  | .bytes bs => some (bytesConstant bs)
  | .text s => some (.str s)
  | .bool b => some (.bool b)
  | .null => some .none
  | .float x => some (.float x)
  | .simple n => some (.foreign "cbor.SimpleValue" (toString n))
  | _ => none

/-- A point in time, written out or as a count of seconds. -/
def instant? : Item → Option Value
  | .text s => (Timestamp.parse? s.toList).map instant
  | .natural n => (word? n).map fun n => instant (.ofSeconds n.toInt 0)
  | .negative n => (word? (-1 - n)).map fun n => instant (.ofSeconds n.toInt 0)
  | .float x => some (instantOfFloat x)
  | _ => none

/-- The constant of a tag that has a meaning of its own. -/
def known? (number : Nat) (content : Item) : Option Value :=
  if number < 2 then instant? content
  else match content with
    | .bytes bs => some (bigNumber (if number = 2 then bytesNumber bs else -1 - bytesNumber bs))
    | _ => none

/-- A key of a map. Lists, maps and big numbers cannot be looked up, and bytes are looked up as a
text. An announcement is passed over when `announced` says so. -/
def key? (announced : Bool) : Item → Option Value
  | .array _ | .map _ => none
  | .bytes bs => some (.foreign "cbor.ByteString" (Text.ofBytes bs))
  | .negative n => (word? (-1 - n)).map .int
  | .tag number content =>
    if announced && number = selfDescribed then key? true content
    else if !tagAllows number content then none
    else if number < 2 then known? number content
    else if number < 4 then none
    else (key? false content).map (tagged number)
  | item => scalar? item

mutual

/-- A constant. Numbers that are not negative keep the widest unsigned form. -/
def value? (announced : Bool) : Item → Option Value
  | .array items => (values? items).map .sequence
  | .map entries => (mapped? entries).map mapping
  | .tag number content =>
    if announced && number = selfDescribed then value? true content
    else if !tagAllows number content then none
    else if number < 4 then known? number content
    else (value? false content).map (tagged number)
  | item => scalar? item

def values? : List Item → Option (List Value)
  | [] => some []
  | item :: rest =>
    match value? true item, values? rest with
    | some v, some vs => some (v :: vs)
    | _, _ => none

def mapped? : List (Item × Item) → Option (List (Value × Value))
  | [] => some []
  | (key, item) :: rest =>
    match key? true key, value? true item, mapped? rest with
    | some k, some v, some entries => some ((k, v) :: entries)
    | _, _, _ => none

end

end Lowering.Artifact
