/-!
The characters of a stream of bytes. Two marks at the start announce a wider encoding than the usual
one. The bytes are read in blocks, and a byte or character that no stream may contain spoils its
whole block: nothing of it can be read, but what stands before it can.
-/

namespace Lowering.Yaml

/-- Whether a stream may contain the character with a number. -/
def isAllowed (n : Nat) : Bool :=
  n = 0x09 || n = 0x0a || n = 0x0d || (0x20 ≤ n && n ≤ 0x7e) || n = 0x85
    || (0xa0 ≤ n && n ≤ 0xd7ff) || (0xe000 ≤ n && n ≤ 0xfffd) || (0x10000 ≤ n && n ≤ 0x10ffff)

/-- What bytes start with. -/
inductive Start
  | char (number : Nat) (rest : List UInt8)
  /-- Too few bytes for the character. -/
  | incomplete
  | spoiled

/-- Characters of one to four bytes, or units of two bytes in either order. -/
inductive Encoding
  | narrow
  | wideLowFirst
  | wideHighFirst
deriving DecidableEq, Repr

/-- How many bytes a character takes that starts with a byte. -/
def width? (first : UInt8) : Option Nat :=
  if first < 0x80 then some 1
  else if 0xc0 ≤ first && first < 0xe0 then some 2
  else if 0xe0 ≤ first && first < 0xf0 then some 3
  else if 0xf0 ≤ first && first < 0xf8 then some 4
  else none

/-- The part of the first byte that belongs to the number of a character of a width. -/
def leadingPart (first : UInt8) : Nat → Nat
  | 1 => first.toNat
  | 2 => first.toNat % 32
  | 3 => first.toNat % 16
  | _ => first.toNat % 8

/-- The least number that needs so many bytes. -/
def leastOfWidth : Nat → Nat
  | 2 => 0x80
  | 3 => 0x800
  | 4 => 0x10000
  | _ => 0

def startOfBytes : List UInt8 → Start
  | [] => .incomplete
  | first :: rest =>
    match width? first with
    | none => .spoiled
    | some width =>
      let tail := rest.take (width - 1)
      if rest.length < width - 1 then .incomplete
      else if !tail.all (fun b => 0x80 ≤ b && b < 0xc0) then .spoiled
      else
        let number := tail.foldl (fun n b => 64 * n + b.toNat % 64) (leadingPart first width)
        if number < leastOfWidth width || !isAllowed number then .spoiled
        else .char number (rest.drop (width - 1))

/-- A pair of units stands for one character beyond the first plane. -/
def startOfUnits (unit : UInt8 → UInt8 → Nat) : List UInt8 → Start
  | a :: b :: rest =>
    let first := unit a b
    if 0xdc00 ≤ first && first < 0xe000 then .spoiled
    else if 0xd800 ≤ first && first < 0xdc00 then
      match rest with
      | c :: d :: rest =>
        let second := unit c d
        if 0xdc00 ≤ second && second < 0xe000 then
          .char (0x10000 + (first - 0xd800) * 1024 + (second - 0xdc00)) rest
        else .spoiled
      | _ => .incomplete
    else if isAllowed first then .char first rest
    else .spoiled
  | _ => .incomplete

def Encoding.start : Encoding → List UInt8 → Start
  | .narrow => startOfBytes
  | .wideLowFirst => startOfUnits fun a b => 256 * b.toNat + a.toNat
  | .wideHighFirst => startOfUnits fun a b => 256 * a.toNat + b.toNat

/-- The characters of a block, and the bytes of an incomplete one at its end. A spoiled block has
none. -/
def Encoding.block (e : Encoding) : Nat → List Char → List UInt8 → Option (List Char × List UInt8)
  | 0, done, rest => some (done, rest)
  | _ + 1, done, [] => some (done, [])
  | fuel + 1, done, bytes =>
    match e.start bytes with
    | .char number rest => e.block fuel (Char.ofNat number :: done) rest
    | .incomplete => some (done, bytes)
    | .spoiled => none

/-- How many bytes are read at once. -/
def blockSize : Nat := 512

/-- The characters up to the first block that is spoiled, last first, and whether there is one. The
bytes of a character that a block cuts in two go to the next block. -/
def Encoding.blocks (e : Encoding) : Nat → Nat → List Char → List UInt8 → List Char × Bool
  | 0, _, done, _ => (done, true)
  | fuel + 1, size, done, bytes =>
    if bytes.isEmpty then (done, false)
    else match e.block (size + 1) done (bytes.take size) with
      | none => (done, true)
      | some (done, cut) =>
        if cut.length ≥ min size bytes.length then (done, true)
        else e.blocks fuel blockSize done (cut ++ bytes.drop size)

/-- The characters of a stream, and whether a spoiled block follows them. -/
def characters (source : List UInt8) : List Char × Bool :=
  let (encoding, rest, mark) := match source with
    | 0xff :: 0xfe :: rest => (Encoding.wideLowFirst, rest, 2)
    | 0xfe :: 0xff :: rest => (.wideHighFirst, rest, 2)
    | 0xef :: 0xbb :: 0xbf :: rest => (.narrow, rest, 3)
    | rest => (.narrow, rest, 0)
  let (done, spoiled) := encoding.blocks (source.length + 1) (blockSize - mark) [] rest
  (done.reverse, spoiled)

end Lowering.Yaml
