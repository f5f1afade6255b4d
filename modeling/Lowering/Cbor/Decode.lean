import Lowering.Cbor.Item

/-!
Reading CBOR. Definite and indefinite lengths are accepted; the nesting and the number of elements
are limited. Whether the content of a tag suits it is not asked here. Reading fails without saying
why.
-/

namespace Lowering.Cbor

def maxNesting : Nat := 32

def maxElements : Nat := 131072

/-- The argument of a head: its length in bytes is told by the low bits of the first byte. The
result is missing for indefinite lengths. -/
def argument? (low : Nat) (bytes : List UInt8) : Option (Option Nat × List UInt8) :=
  let number (width : Nat) : Option (Option Nat × List UInt8) :=
    if bytes.length < width then none
    else some (some ((bytes.take width).foldl (fun n b => 256 * n + b.toNat) 0), bytes.drop width)
  if low < 24 then some (some low, bytes)
  else if low = 24 then number 1
  else if low = 25 then number 2
  else if low = 26 then number 4
  else if low = 27 then number 8
  else if low = 31 then some (none, bytes)
  else none

/-- The chunks of a string of indefinite length, up to the break. -/
def chunks (major : Nat) : Nat → List UInt8 → Option (List (List UInt8) × List UInt8)
  | 0, _ => none
  | fuel + 1, bytes =>
    match bytes with
    | [] => none
    | 0xff :: rest => some ([], rest)
    | first :: rest =>
      if first.toNat / 32 ≠ major then none
      else match argument? (first.toNat % 32) rest with
        | some (some n, rest) =>
          if rest.length < n then none
          else match chunks major fuel (rest.drop n) with
            | some (more, after) => some (rest.take n :: more, after)
            | none => none
        | _ => none

/-- The text that chunks of bytes stand for. Each of them has to be a text. -/
def textItem (parts : List (List UInt8)) : Item :=
  match parts.mapM fun part => String.fromUTF8? (ByteArray.mk part.toArray) with
  | some texts => .text (Text.kept (String.join texts))
  | none => .garbled parts.flatten

/-- A value of major type seven. -/
def simpleItem? (low : Nat) (n : Option Nat) : Option Item :=
  match n with
  | none => none
  | some n =>
    if low = 25 then some (.float (Precision.half.widen n))
    else if low = 26 then some (.float (Precision.single.widen n))
    else if low = 27 then some (.float (Float.ofBits (UInt64.ofNat n)))
    else if low = 24 then if n < 32 then none else some (.simple n)
    else if n = 20 then some (.bool false)
    else if n = 21 then some (.bool true)
    else if n = 22 || n = 23 then some .null
    else some (.simple n)

mutual

/-- Reads one item. `room` is how many more levels of nesting are allowed. -/
def item? : Nat → Nat → List UInt8 → Option (Item × List UInt8)
  | 0, _, _ => none
  | _ + 1, _, [] => none
  | fuel + 1, room, first :: rest =>
    let low := first.toNat % 32
    match argument? low rest with
    | none => none
    | some (n, rest) =>
      match first.toNat / 32, n with
      | 0, some n => some (.natural n, rest)
      | 1, some n => some (.negative n, rest)
      | 2, some n =>
        if rest.length < n then none else some (.bytes (rest.take n), rest.drop n)
      | 2, none =>
        match chunks 2 fuel rest with
        | some (parts, rest) => some (.bytes parts.flatten, rest)
        | none => none
      | 3, some n =>
        if rest.length < n then none
        else some (textItem [rest.take n], rest.drop n)
      | 3, none =>
        match chunks 3 fuel rest with
        | some (parts, rest) => some (textItem parts, rest)
        | none => none
      | 4, n =>
        match room with
        | 0 => none
        | room + 1 =>
          if (n.getD 0) > maxElements then none
          else match items? fuel room n rest with
            | some (items, rest) =>
              if items.length > maxElements then none else some (.array items, rest)
            | none => none
      | 5, n =>
        match room with
        | 0 => none
        | room + 1 =>
          if (n.getD 0) > maxElements then none
          else match entries? fuel room n rest with
            | some (entries, rest) =>
              if entries.length > maxElements then none else some (.map entries, rest)
            | none => none
      | 6, some number =>
        match rest with
        | [] => none
        | next :: _ =>
          -- A tag inside a tag counts as a level.
          let nested := next.toNat / 32 = 6
          if nested && room = 0 then none
          else match item? fuel (if nested then room - 1 else room) rest with
            | some (content, rest) => some (.tag number content, rest)
            | none => none
      | 7, n => (simpleItem? low n).map fun item => (item, rest)
      | _, _ => none

/-- Reads the elements of an array: so many, or up to the break. -/
def items? : Nat → Nat → Option Nat → List UInt8 → Option (List Item × List UInt8)
  | 0, _, _, _ => none
  | _ + 1, _, some 0, bytes => some ([], bytes)
  | _ + 1, _, none, 0xff :: rest => some ([], rest)
  | fuel + 1, room, n, bytes =>
    match item? fuel room bytes with
    | none => none
    | some (item, rest) =>
      match items? fuel room (n.map (· - 1)) rest with
      | some (more, rest) => some (item :: more, rest)
      | none => none

/-- Reads the entries of a map: so many, or up to the break. -/
def entries? : Nat → Nat → Option Nat → List UInt8 → Option (List (Item × Item) × List UInt8)
  | 0, _, _, _ => none
  | _ + 1, _, some 0, bytes => some ([], bytes)
  | _ + 1, _, none, 0xff :: rest => some ([], rest)
  | fuel + 1, room, n, bytes =>
    match item? fuel room bytes with
    | none => none
    | some (key, rest) =>
      match item? fuel room rest with
      | none => none
      | some (value, rest) =>
        match entries? fuel room (n.map (· - 1)) rest with
        | some (more, rest) => some ((key, value) :: more, rest)
        | none => none

end

/-- Reads exactly one item. Every level of the reading takes at least one byte or an element. -/
def decode? (bytes : List UInt8) : Option Item :=
  match item? (2 * bytes.length + 2) maxNesting bytes with
  | some (item, []) => some item
  | _ => none

end Lowering.Cbor
