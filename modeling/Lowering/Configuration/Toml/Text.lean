import Lowering.Configuration.Source
import Lowering.Decimal.Integer
import Lowering.Text.Printable
import Lowering.Text.Quoted

/-!
The parts of TOML below its values: blanks, comments, the ends of lines and the four kinds of
strings. Characters stand for the bytes of the source. A failure is the text that tells it.
-/

namespace Lowering.Configuration.Toml

/-- The number of a character, and the character itself if it can be shown. -/
def numbered (c : Char) : String :=
  let code := "U+" ++ (String.ofList (Text.hexDigits 4 c.toNat)).map Char.toUpper
  if Text.isPrintable c then code ++ " '" ++ String.singleton c ++ "'" else code

def isBlank (c : Char) : Bool := c = ' ' || c = '\t'

def skipBlanks (cs : List Char) : List Char := cs.dropWhile isBlank

/-- Whether a document may contain a character: of the control characters, only those that make
blanks and lines. -/
def isAllowed (c : Char) : Bool :=
  c = '\t' || c = '\n' || c = '\r' || (0x20 ≤ c.toNat && c.toNat ≠ 0x7f)

/-- Whether bytes are characters, all of which a document may contain. -/
def isClean (cs : List Char) : Bool :=
  (Text.runes (octetText cs)).all fun
    | .char c => isAllowed c
    | .stray _ => false

/-- Demands a character. -/
def expect (wanted : Char) : List Char → Except String (List Char)
  | [] => .error ("expected character " ++ String.singleton wanted ++ " but the document ended here")
  | c :: rest =>
    if c = wanted then .ok rest else .error ("expected character " ++ String.singleton wanted)

/-- Demands the end of a line. -/
def newline : List Char → Except String (List Char)
  | '\n' :: rest => .ok rest
  | '\r' :: '\n' :: rest => .ok rest
  | ['\r'] => .error "windows new line expected"
  | '\r' :: _ => .error "windows new line should be \\r\\n"
  | c :: _ => .error ("expected newline but got " ++ numbered c)
  | [] => .ok []

/-- What follows a comment, which ends with its line. -/
def comment (cs : List Char) : Except String (List Char) :=
  let (inside, rest) := splitAtFirst (fun c => c = '\n' || c = '\r') cs
  if !isClean inside then .error "invalid character in comment"
  else match rest with
    | '\r' :: '\n' :: rest => .ok ('\n' :: rest)
    | '\r' :: _ => .error "invalid character in comment"
    | rest => .ok rest

/-- Passes over blanks, comments and ends of lines. -/
def skipLines : Nat → List Char → Except String (List Char)
  | 0, cs => .ok cs
  | fuel + 1, cs => do
    let cs ← match skipBlanks cs with
      | '#' :: rest => comment rest
      | cs => pure cs
    match cs with
    | '\n' :: _ | '\r' :: _ => skipLines fuel (← newline cs)
    | cs => pure cs

/-- A string without escapes on one line, after its opening quote. -/
def literalString (cs : List Char) : Except String (List Char × List Char) :=
  let (inside, rest) := splitAtFirst (fun c => c = '\'' || c = '\n' || c = '\r') cs
  if !isClean inside then .error "invalid character"
  else match rest with
    | '\'' :: rest => .ok (inside, rest)
    | _ :: _ => .error "literal strings cannot have new lines"
    | [] => .error "unterminated literal string"

/-- How scanning a string of several lines ends: the rest of the source, or a failure. -/
abbrev Closing := Except String (List Char)

/-- Up to two more quotes belong to a string before the three that close it. -/
def closing (quote : Char) (kind : String) (cs : List Char) : List Char × Closing :=
  let more := (cs.takeWhile (· = quote)).length
  if more > 2 then
    ([], .error (String.ofList [quote, quote, quote] ++ " not allowed in multiline " ++ kind ++ " string"))
  else (List.replicate more quote, .ok (cs.drop more))

/-- The inside of a string of several lines, and how it ends. A backslash takes the next character
with it if there are escapes. -/
def linesInside (quote : Char) (kind : String) (escapes : Bool) : List Char → List Char × Closing
  | [] =>
    ([], .error ("multiline " ++ kind ++ " string not terminated by "
      ++ String.ofList [quote, quote, quote]))
  | c :: rest =>
    let plain := fun (_ : Unit) =>
      let (inside, ending) := linesInside quote kind escapes rest
      (c :: inside, ending)
    if c = '\\' && escapes then
      match rest with
      | [] => ([], .error "need a character after \\")
      | d :: rest =>
        let (inside, ending) := linesInside quote kind escapes rest
        (c :: d :: inside, ending)
    else if c = '\r' then
      match rest with
      | '\n' :: _ => plain ()
      | _ => ([], .error "need a \\n after \\r")
    else if c = quote then
      match rest with
      | d :: e :: rest => if d = quote && e = quote then closing quote kind rest else plain ()
      | _ => plain ()
    else plain ()

/-- A string without its first end of a line. -/
def withoutFirstLine : List Char → List Char
  | '\n' :: rest => rest
  | '\r' :: '\n' :: rest => rest
  | cs => cs

/-- A string without escapes on several lines, after its opening quotes. -/
def literalLines (cs : List Char) : Except String (List Char × List Char) :=
  let (inside, ending) := linesInside '\'' "literal" false cs
  if !isClean inside then .error "invalid character"
  else ending.map fun rest => (withoutFirstLine inside, rest)

/-- The inside of a string on one line, up to its closing quote. -/
def lineInside : List Char → Except String (List Char × List Char)
  | [] => .error "basic string not terminated by \""
  | c :: rest =>
    if c = '"' then .ok ([], rest)
    else if c = '\n' || c = '\r' then .error "basic strings cannot have new lines"
    else if c = '\\' then
      match rest with
      | [] => .error "need a character after \\"
      | d :: rest => (lineInside rest).map fun (inside, rest) => (c :: d :: inside, rest)
    else (lineInside rest).map fun (inside, rest) => (c :: inside, rest)

/-- The bytes of the character with a number of so many digits. -/
def codePoint (count : Nat) (cs : List Char) : Except String (List Char) :=
  if cs.length < count then
    .error s!"unicode point needs {count} character, not {cs.length}"
  else match Decimal.numberIn? 16 0 (cs.take count) with
    | none => .error "non-hex character"
    | some n =>
      if n > 0x10ffff || (0xd800 ≤ n && n < 0xe000) then
        .error "escape sequence is invalid Unicode code point"
      else .ok (octets (String.singleton (Char.ofNat n)).toUTF8.toList)

/-- What an escape stands for, and what follows it. -/
def escape (letter : Char) (rest : List Char) : Except String (List Char × List Char) :=
  match letter with
  | '"' | '\\' => .ok ([letter], rest)
  | 'b' => .ok (['\x08'], rest)
  | 'f' => .ok (['\x0c'], rest)
  | 'n' => .ok (['\n'], rest)
  | 'r' => .ok (['\r'], rest)
  | 't' => .ok (['\t'], rest)
  | 'e' => .ok (['\x1b'], rest)
  | 'u' => (codePoint 4 rest).map fun c => (c, rest.drop 4)
  | 'U' => (codePoint 8 rest).map fun c => (c, rest.drop 8)
  | c => .error ("invalid escaped character " ++ numbered c)

/-- A backslash at the end of a line takes the line's end and all blanks after it away. -/
def joinedLine? (rest : List Char) : Option (List Char) :=
  match skipBlanks rest with
  | '\n' :: after | '\r' :: '\n' :: after =>
    some (after.dropWhile fun c => isBlank c || c = '\n' || c = '\r')
  | _ => none

/-- The bytes of the character that a text starts with. -/
def characterWidth? (cs : List Char) : Option Nat :=
  [1, 2, 3, 4].find? fun n => n ≤ cs.length && isClean (cs.take n)

/-- What the inside of a string with escapes stands for. `lines` says that lines can be joined, and
`after` is what closes the string. -/
def unescape (lines : Bool) (after : List Char) : Nat → List Char → Except String (List Char)
  | 0, _ => .ok []
  | _ + 1, [] => .ok []
  | fuel + 1, '\\' :: rest =>
    match if lines then joinedLine? rest else none with
    | some rest => unescape lines after fuel rest
    | none =>
      match rest with
      | [] => .ok []
      | letter :: rest => do
        let (found, remaining) ← escape letter (rest ++ after)
        let more ← unescape lines after fuel (remaining.take (remaining.length - after.length))
        pure (found ++ more)
  | fuel + 1, c :: rest =>
    match characterWidth? (c :: rest) with
    | none => .error ("invalid character " ++ numbered c)
    | some width => do
      let more ← unescape lines after fuel ((c :: rest).drop width)
      pure ((c :: rest).take width ++ more)

/-- A string that may contain escapes. -/
def unescaped (lines : Bool) (after inside : List Char) : Except String (List Char) :=
  if inside.contains '\\' then unescape lines after (inside.length + 1) inside
  else if isClean inside then .ok inside
  else .error "invalid UTF-8"

/-- A string with escapes on one line, after its opening quote. -/
def basicString (cs : List Char) : Except String (List Char × List Char) := do
  let (inside, rest) ← lineInside cs
  let content ← unescaped false [] inside
  pure (content, rest)

/-- A string with escapes on several lines, after its opening quotes. -/
def basicLines (cs : List Char) : Except String (List Char × List Char) := do
  let (inside, ending) := linesInside '"' "basic" true cs
  let rest ← ending
  let content ← unescaped true ['"', '"', '"'] (withoutFirstLine inside)
  pure (content, rest)

end Lowering.Configuration.Toml
