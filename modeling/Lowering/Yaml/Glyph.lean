import Lowering.Yaml.Encoding

/-!
The characters of a YAML stream with their places. Line breaks of all kinds but two become the
newline, and the stream ends with a mark of its own, so that every token has a place.
-/

namespace Lowering.Yaml

/-- A character and its place. -/
structure Glyph where
  char : Char
  line : Nat
  column : Nat
  index : Nat
deriving Repr, Inhabited

/-- The character that ends every stream. No stream contains it. -/
def endMark : Char := '\x00'

/-- The character that ends a stream of which the rest cannot be read. -/
def brokenMark : Char := '\x01'

def isLineBreak (c : Char) : Bool := c = '\n' || c.toNat = 0x2028 || c.toNat = 0x2029

def isSpace (c : Char) : Bool := c = ' ' || c = '\t'

def isEnd (c : Char) : Bool := c = endMark || c = brokenMark

def isBreakOrEnd (c : Char) : Bool := isLineBreak c || isEnd c

/-- What separates tokens: a blank, a line break or the end. -/
def isGap (c : Char) : Bool := isSpace c || isBreakOrEnd c

def byteOrderMark : Char := Char.ofNat 0xfeff

/-- A line break of any kind as one character. -/
def unified : List Char → List Char
  | [] => []
  | '\r' :: '\n' :: rest => '\n' :: unified rest
  | c :: rest => (if c = '\r' || c.toNat = 0x85 then '\n' else c) :: unified rest

/-- Gives every character its place and ends the stream with a mark. -/
def placed (mark : Char) (line column index : Nat) : List Char → List Glyph
  | [] => [⟨mark, line, column, index⟩]
  | c :: rest =>
    ⟨c, line, column, index⟩ ::
      if isLineBreak c then placed mark (line + 1) 0 (index + 1) rest
      else placed mark line (column + 1) (index + 1) rest

/-- The glyphs of a stream of bytes. -/
def glyphs (source : List UInt8) : List Glyph :=
  let (cs, spoiled) := characters source
  placed (if spoiled then brokenMark else endMark) 0 0 0 (unified cs)

/-- The first character, or the end. -/
def charAt (gs : List Glyph) (i : Nat) : Char := ((gs.drop i).head?.map Glyph.char).getD endMark

def columnOf (gs : List Glyph) : Nat := (gs.head?.map Glyph.column).getD 0

def lineOf (gs : List Glyph) : Nat := (gs.head?.map Glyph.line).getD 0

/-- Whether a line starts here with three equal characters followed by a gap: the marks around
documents. -/
def startsMark (c : Char) (gs : List Glyph) : Bool :=
  columnOf gs == 0 && charAt gs 0 == c && charAt gs 1 == c && charAt gs 2 == c && isGap (charAt gs 3)

def startsDocumentMark (gs : List Glyph) : Bool := startsMark '-' gs || startsMark '.' gs

/-- Whether one of the next glyphs cannot be read. -/
def breaksWithin (n : Nat) (gs : List Glyph) : Bool := (gs.take n).any fun g => g.char = brokenMark

/-- The glyphs up to the first one that fails a test, and the others. -/
def spanChars (p : Char → Bool) (gs : List Glyph) : List Char × List Glyph :=
  ((gs.takeWhile fun g => p g.char).map Glyph.char, gs.dropWhile fun g => p g.char)

end Lowering.Yaml
