/-!
White space and the shape of words: trimming, padding and joining.
-/

namespace Lowering.Text

/-- White space, ASCII and beyond. -/
def isBlank (c : Char) : Bool :=
  let n := c.toNat
  (9 ≤ n && n ≤ 13) || n = 0x20 || n = 0x85 || n = 0xa0 || n = 0x1680
    || (0x2000 ≤ n && n ≤ 0x200a) || n = 0x2028 || n = 0x2029 || n = 0x202f
    || n = 0x205f || n = 0x3000

/-- The characters between the first and the last that are not blank. -/
def trimList (cs : List Char) : List Char :=
  ((cs.dropWhile isBlank).reverse.dropWhile isBlank).reverse

def trim (s : String) : String := String.ofList (trimList s.toList)

/-- At least `width` characters, blanks in front. -/
def padLeft (width : Nat) (s : String) : String :=
  String.ofList (List.replicate (width - s.length) ' ') ++ s

def join (separator : String) (parts : List String) : String := separator.intercalate parts

/-- The capital of a letter, for the letters whose capital is an ASCII letter. All other
characters stay, which no ASCII word contains. -/
def capital (c : Char) : Char :=
  if c.toNat = 0x131 then 'I' else if c.toNat = 0x17f then 'S' else c.toUpper

/-- The small letter, for the letters whose small letter is an ASCII letter. -/
def small (c : Char) : Char :=
  if c.toNat = 0x130 then 'i' else if c.toNat = 0x212a then 'k' else c.toLower

def capitals (s : String) : String := s.map capital

def smalls (s : String) : String := s.map small

/-- The small letter that a character is the same as when case does not count. Two ASCII letters have
a third form. -/
def folded (c : Char) : Char :=
  if c.toNat = 0x17f then 's' else if c.toNat = 0x212a then 'k' else c.toLower

/-- Whether a text is a word in small ASCII letters, in letters of any case. -/
def isWord (word s : String) : Bool := s.map folded == word

end Lowering.Text
