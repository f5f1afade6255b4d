import Lowering.Cbor.Precision
import Lowering.Text.Stray

/-!
CBOR data items and their canonical encoding: the shortest form of every number, and the entries
of a map in the order of their encoded keys, shorter keys first.
-/

namespace Lowering.Cbor

inductive Item
  | natural (n : Nat)
  /-- The number `-1 - n`. -/
  | negative (n : Nat)
  | bytes (bs : List UInt8)
  | text (s : String)
  /-- A text whose bytes are not well-formed. It can be passed over but not used. -/
  | garbled (bs : List UInt8)
  | array (items : List Item)
  | map (entries : List (Item × Item))
  | tag (number : Nat) (content : Item)
  | simple (n : Nat)
  | bool (b : Bool)
  | null
  | float (x : Float)
deriving Inhabited

/-- A number as so many bytes, the most significant first. -/
def bigEndian : Nat → Nat → List UInt8
  | 0, _ => []
  | width + 1, n => bigEndian width (n / 256) ++ [UInt8.ofNat n]

/-- The head of an item: its major type and its argument in the shortest form. -/
def head (major : Nat) (n : Nat) : List UInt8 :=
  let first (low : Nat) : UInt8 := UInt8.ofNat (major * 32 + low)
  if n < 24 then [first n]
  else if n < UInt8.size then first 24 :: bigEndian 1 n
  else if n < UInt16.size then first 25 :: bigEndian 2 n
  else if n < UInt32.size then first 26 :: bigEndian 4 n
  else first 27 :: bigEndian 8 n

/-- The shortest precision that keeps the value. -/
def floatBytes (x : Float) : List UInt8 :=
  if x.isNaN then [0xf9, 0x7e, 0x00]
  else if x.isInf then [0xf9, if x < 0 then 0xfc else 0x7c, 0x00]
  else match Precision.half.narrow? x with
    | some bits => 0xf9 :: bigEndian 2 bits
    | none =>
      match Precision.single.narrow? x with
      | some bits => 0xfa :: bigEndian 4 bits
      | none => 0xfb :: bigEndian 8 x.toBits.toNat

def utf8 (s : String) : List UInt8 := Text.bytes s

/-- Bytes in the order of a dictionary. -/
def bytesBefore : List UInt8 → List UInt8 → Bool
  | [], _ => true
  | _ :: _, [] => false
  | a :: as, b :: bs => a < b || (a == b && bytesBefore as bs)

/-- The order of encoded keys. -/
def keyBefore (a b : List UInt8) : Bool :=
  a.length < b.length || (a.length == b.length && bytesBefore a b)

mutual

def Item.encode : Item → List UInt8
  | .natural n => head 0 n
  | .negative n => head 1 n
  | .bytes bs => head 2 bs.length ++ bs
  | .text s => head 3 (utf8 s).length ++ utf8 s
  | .garbled bs => head 3 bs.length ++ bs
  | .array items => head 4 items.length ++ encodeAll items
  | .map entries =>
    let sorted := (encodeEntries entries).mergeSort fun a b => keyBefore a.1 b.1
    head 5 entries.length ++ sorted.flatMap fun (key, value) => key ++ value
  | .tag number content => head 6 number ++ content.encode
  | .simple n => if n < 24 then head 7 n else [0xf8, UInt8.ofNat n]
  | .bool b => [if b then 0xf5 else 0xf4]
  | .null => [0xf6]
  | .float x => floatBytes x

def encodeAll : List Item → List UInt8
  | [] => []
  | item :: rest => item.encode ++ encodeAll rest

def encodeEntries : List (Item × Item) → List (List UInt8 × List UInt8)
  | [] => []
  | (key, value) :: rest => (key.encode, value.encode) :: encodeEntries rest

end

/-- An integer of either sign. -/
def Item.ofInt (n : Int) : Item :=
  if n < 0 then .negative (-1 - n).toNat else .natural n.toNat

end Lowering.Cbor
