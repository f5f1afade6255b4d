/-!
Texts given as bytes. A byte that is part of no character is kept as one character of a private
area, so that it is still known as that byte when it is shown or written. A character that lies in
this area itself is kept as the bytes that it is written with.
-/

namespace Lowering.Text

/-- Where the characters lie that stand for bytes. -/
def strayArea : Nat := 0x10f000

/-- The character that stands for a byte. -/
def stray (b : UInt8) : Char := Char.ofNat (strayArea + b.toNat)

/-- The byte that a character stands for. -/
def strayByte? (c : Char) : Option UInt8 :=
  if strayArea + 0x80 ≤ c.toNat && c.toNat ≤ strayArea + 0xff then
    some (UInt8.ofNat (c.toNat - strayArea))
  else none

/-- What a text consists of: characters, and bytes that are part of none. -/
inductive Rune
  | char (c : Char)
  | stray (b : UInt8)
deriving DecidableEq, Repr

/-- How a character or a byte is kept in a text. -/
def Rune.kept : Rune → List Char
  | .char c => if (strayByte? c).isSome then (String.utf8EncodeChar c).map Text.stray else [c]
  | .stray b => [Text.stray b]

/-- The character that bytes start with, and the bytes after it. -/
def firstChar? (bytes : List UInt8) : Option (Char × List UInt8) :=
  [1, 2, 3, 4].findSome? fun n =>
    if bytes.length < n then none
    else match String.fromUTF8? (ByteArray.mk (bytes.take n).toArray) with
      | some s => s.toList.head?.map fun c => (c, bytes.drop n)
      | none => none

/-- What bytes consist of. Every character takes at least one of them. -/
def runesOfBytes : Nat → List UInt8 → List Rune
  | 0, _ => []
  | _ + 1, [] => []
  | fuel + 1, b :: rest =>
    match firstChar? (b :: rest) with
    | some (c, rest) => .char c :: runesOfBytes fuel rest
    | none => .stray b :: runesOfBytes fuel rest

/-- Whether some character of a text lies in the private area. -/
def hasStray (s : String) : Bool := s.toList.any fun c => (strayByte? c).isSome

/-- Characters as they are kept in a text. -/
def kept (s : String) : String :=
  if hasStray s then String.ofList (s.toList.flatMap fun c => (Rune.char c).kept) else s

/-- The text that bytes stand for. -/
def ofBytes (bytes : List UInt8) : String :=
  match String.fromUTF8? (ByteArray.mk bytes.toArray) with
  | some s => kept s
  | none => String.ofList ((runesOfBytes bytes.length bytes).flatMap Rune.kept)

/-- The bytes of a text. -/
def bytes (s : String) : List UInt8 :=
  s.toList.flatMap fun c =>
    match strayByte? c with
    | some b => [b]
    | none => (String.singleton c).toUTF8.toList

/-- The mark that stands for what cannot be shown. -/
def replacement : Char := Char.ofNat 0xfffd

/-- What a text consists of. -/
def runes (s : String) : List Rune :=
  if hasStray s then runesOfBytes (bytes s).length (bytes s) else s.toList.map .char

/-- A text in which stray bytes may have come together, as the characters that they make. -/
def settled (s : String) : String := if hasStray s then ofBytes (bytes s) else s

/-- Two texts in a row. -/
def append (a b : String) : String := settled (a ++ b)

/-- A text so many times. -/
def repeated (s : String) (n : Nat) : String := settled (String.join (List.replicate n s))

def compareBytes : List UInt8 → List UInt8 → Ordering
  | [], [] => .eq
  | [], _ :: _ => .lt
  | _ :: _, [] => .gt
  | a :: as, b :: bs => if a < b then .lt else if b < a then .gt else compareBytes as bs

/-- The order of two texts is that of their bytes. Where all bytes are characters, it is that of the
characters. -/
def order (a b : String) : Ordering :=
  if hasStray a || hasStray b then compareBytes (bytes a) (bytes b)
  else if a < b then .lt
  else if b < a then .gt
  else .eq

/-- Whether a list occurs in another one, without gaps. -/
def isPartOf {α : Type} [BEq α] (part : List α) : List α → Bool
  | [] => part.isEmpty
  | a :: rest => part.isPrefixOf (a :: rest) || isPartOf part rest

/-- Whether the bytes of a text occur in those of another one. -/
def isSubtextOf (part s : String) : Bool :=
  if hasStray part || hasStray s then isPartOf (bytes part) (bytes s)
  else isPartOf part.toList s.toList

/-- The character that is shown: a byte that is part of no character becomes a replacement mark. -/
def Rune.shown : Rune → Char
  | .char c => c
  | .stray _ => replacement

/-- The characters that a text is shown with. -/
def shown (s : String) : String := String.ofList ((runes s).map Rune.shown)

end Lowering.Text
