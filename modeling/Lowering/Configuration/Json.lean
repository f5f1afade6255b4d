import Lowering.Configuration.Source
import Lowering.Decimal.Integer
import Lowering.Decimal.Nearest
import Lowering.Text.Quoted
import Lowering.Text.Units
import Lowering.Yaml.Data

/-!
Configurations in JSON. The whole text is read before anything is asked about its content. The end
of the text ends a word or a number as a blank would.
-/

namespace Lowering.Configuration.Json
open Yaml (Data)

/-- A value as it is written. Numbers are not yet evaluated. -/
inductive Value
  | null
  | bool (b : Bool)
  | number (text : String)
  | text (s : String)
  | array (items : List Value)
  | object (entries : List (String × Value))
deriving Inhabited

/-- Why a text is not JSON: a character that cannot stand where it does, or an early end. -/
inductive Fault
  | unexpected (c : Char) (place : String)
  | cut

/-- A character between single quotes. -/
def quoted (c : Char) : String :=
  if c = '\'' then "'\\''"
  else if c = '"' then "'\"'"
  else "'" ++ String.ofList (Text.quoteChar c) ++ "'"

def Fault.message : Fault → String
  | .unexpected c place => "invalid character " ++ quoted c ++ " " ++ place
  | .cut => "unexpected end of JSON input"

def isSpace (c : Char) : Bool := c = ' ' || c = '\t' || c = '\r' || c = '\n'

def skipSpace (cs : List Char) : List Char := cs.dropWhile isSpace

/-- The character that a text starts with. Its end counts as a blank. -/
def next (cs : List Char) : Char := cs.headD ' '

/-- The rest of a word. -/
def word (name : String) : List Char → List Char → Except Fault (List Char)
  | [], cs => .ok cs
  | wanted :: more, cs =>
    if cs.head? = some wanted then word name more cs.tail
    else
      .error (.unexpected (next cs)
        ("in literal " ++ name ++ " (expecting '" ++ String.singleton wanted ++ "')"))

/-- One or more digits. -/
def digits (place : String) (cs : List Char) : Except Fault (List Char × List Char) :=
  if (next cs).isDigit then .ok (cs.takeWhile Char.isDigit, cs.dropWhile Char.isDigit)
  else .error (.unexpected (next cs) place)

/-- The part of a number before the point. -/
def whole (cs : List Char) : Except Fault (List Char × List Char) :=
  match cs with
  | '0' :: rest => .ok (['0'], rest)
  | cs => digits "in numeric literal" cs

def fraction (cs : List Char) : Except Fault (List Char × List Char) :=
  match cs with
  | '.' :: rest => do
    let (ds, rest) ← digits "after decimal point in numeric literal" rest
    pure ('.' :: ds, rest)
  | cs => .ok ([], cs)

def exponent (cs : List Char) : Except Fault (List Char × List Char) :=
  match cs with
  | mark :: rest =>
    if mark = 'e' || mark = 'E' then do
      let (sign, rest) := match rest with
        | '+' :: rest => (['+'], rest)
        | '-' :: rest => (['-'], rest)
        | rest => ([], rest)
      let (ds, rest) ← digits "in exponent of numeric literal" rest
      pure (mark :: sign ++ ds, rest)
    else .ok ([], cs)
  | [] => .ok ([], cs)

def number (cs : List Char) : Except Fault (Value × List Char) := do
  let (sign, rest) := match cs with
    | '-' :: rest => (['-'], rest)
    | rest => ([], rest)
  let (w, rest) ← whole rest
  let (f, rest) ← fraction rest
  let (e, rest) ← exponent rest
  pure (.number (String.ofList (sign ++ w ++ f ++ e)), rest)

/-- The inside of a string as it is written, up to its closing quote. `pending` is how many digits
of an escape are still to come. -/
def inside : Nat → List Char → Except Fault (List Char × List Char)
  | 0, [] => .error .cut
  | _ + 1, [] => .error (.unexpected ' ' "in \\u hexadecimal character escape")
  | pending + 1, c :: rest =>
    if (Decimal.digitValue? c).isSome then
      (inside pending rest).map fun (cs, rest) => (c :: cs, rest)
    else .error (.unexpected c "in \\u hexadecimal character escape")
  | 0, c :: rest =>
    if c = '"' then .ok ([], rest)
    else if c = '\\' then
      match rest with
      | [] => .error (.unexpected ' ' "in string escape code")
      | e :: rest =>
        if e = 'u' then (inside 4 rest).map fun (cs, rest) => (c :: e :: cs, rest)
        else if ['b', 'f', 'n', 'r', 't', '\\', '/', '"'].contains e then
          (inside 0 rest).map fun (cs, rest) => (c :: e :: cs, rest)
        else .error (.unexpected e "in string escape code")
    else if c.toNat < 0x20 then .error (.unexpected c "in string literal")
    else (inside 0 rest).map fun (cs, rest) => (c :: cs, rest)

/-- The number that four digits stand for. -/
def unit (a b c d : Char) : Nat := (Decimal.numberIn? 16 0 [a, b, c, d]).getD 0

/-- The character of an escape of one letter. -/
def escaped (c : Char) : Char :=
  match c with
  | 'b' => '\x08'
  | 'f' => '\x0c'
  | 'n' => '\n'
  | 'r' => '\r'
  | 't' => '\t'
  | c => c

/-- The characters that the inside of a string stands for. Two escapes that are halves of a
character make one; `half` is a half that waits for the other. -/
def unescape (half : Option Nat) : List Char → List Char
  | '\\' :: 'u' :: a :: b :: c :: d :: rest =>
    let found := unit a b c d
    match half.bind fun first => Text.paired? first found with
    | some c => c :: unescape none rest
    | none =>
      alone half
        ++ (if Text.isHalf found then unescape (some found) rest
          else Char.ofNat found :: unescape none rest)
  | '\\' :: c :: rest => alone half ++ escaped c :: unescape none rest
  | c :: rest => alone half ++ c :: unescape none rest
  | [] => alone half
where
  alone (half : Option Nat) : List Char := half.toList.map fun _ => Text.replacement

/-- A string after its opening quote. Bytes that are no text become replacement marks. -/
def string (cs : List Char) : Except Fault (String × List Char) := do
  let (raw, rest) ← inside 0 cs
  let cs := unescape none (Text.shown (octetText raw)).toList
  pure (Text.kept (String.ofList cs), rest)

/-- How deep values may be nested. -/
def maxNesting : Nat := 10000

mutual

/-- Reads one value, which may hold others to a depth of `room`. -/
def value : Nat → Nat → List Char → Except Fault (Value × List Char)
  | 0, _, _ => .error .cut
  | fuel + 1, room, cs =>
    match skipSpace cs with
    | [] => .error .cut
    | '"' :: rest => (string rest).map fun (s, rest) => (.text s, rest)
    | 't' :: rest => (word "true" ['r', 'u', 'e'] rest).map fun rest => (.bool true, rest)
    | 'f' :: rest => (word "false" ['a', 'l', 's', 'e'] rest).map fun rest => (.bool false, rest)
    | 'n' :: rest => (word "null" ['u', 'l', 'l'] rest).map fun rest => (.null, rest)
    | '[' :: rest =>
      match room with
      | 0 => .error (.unexpected '[' "exceeded max depth")
      | room + 1 =>
        match skipSpace rest with
        | ']' :: rest => .ok (.array [], rest)
        | rest => (items fuel room rest).map fun (items, rest) => (.array items, rest)
    | '\x7b' :: rest =>
      match room with
      | 0 => .error (.unexpected '\x7b' "exceeded max depth")
      | room + 1 =>
        match skipSpace rest with
        | '\x7d' :: rest => .ok (.object [], rest)
        | rest => (entries fuel room rest).map fun (entries, rest) => (.object entries, rest)
    | c :: rest =>
      if c = '-' || c.isDigit then number (c :: rest)
      else .error (.unexpected c "looking for beginning of value")

/-- The values of an array, at least one. -/
def items : Nat → Nat → List Char → Except Fault (List Value × List Char)
  | 0, _, _ => .error .cut
  | fuel + 1, room, cs =>
    match value fuel room cs with
    | .error fault => .error fault
    | .ok (v, rest) =>
      match skipSpace rest with
      | [] => .error .cut
      | ']' :: rest => .ok ([v], rest)
      | ',' :: rest => (items fuel room rest).map fun (vs, rest) => (v :: vs, rest)
      | c :: _ => .error (.unexpected c "after array element")

/-- The entries of an object, at least one. -/
def entries : Nat → Nat → List Char → Except Fault (List (String × Value) × List Char)
  | 0, _, _ => .error .cut
  | fuel + 1, room, cs =>
    match skipSpace cs with
    | [] => .error .cut
    | '"' :: rest =>
      match string rest with
      | .error fault => .error fault
      | .ok (key, rest) =>
        match skipSpace rest with
        | [] => .error .cut
        | ':' :: rest =>
          match value fuel room rest with
          | .error fault => .error fault
          | .ok (v, rest) =>
            match skipSpace rest with
            | [] => .error .cut
            | '\x7d' :: rest => .ok ([(key, v)], rest)
            | ',' :: rest => (entries fuel room rest).map fun (es, rest) => ((key, v) :: es, rest)
            | c :: _ => .error (.unexpected c "after object key:value pair")
        | c :: _ => .error (.unexpected c "after object key")
    | c :: _ => .error (.unexpected c "looking for beginning of object key string")

end

/-- The one value of a text. Every value takes at least one character. -/
def parse (source : List UInt8) : Except Fault Value :=
  match value (2 * source.length + 2) maxNesting (octets source) with
  | .error fault => .error fault
  | .ok (v, rest) =>
    match skipSpace rest with
    | [] => .ok v
    | c :: _ => .error (.unexpected c "after top-level value")

/-- What cannot be what is wanted. -/
def mismatch (found wanted : String) : String :=
  "json: cannot unmarshal " ++ found ++ " into Go value of type " ++ wanted

mutual

/-- The data that a value stands for. A number must be in the range of double precision. -/
def Value.data : Value → Except String Data
  | .null => .ok .null
  | .bool b => .ok (.bool b)
  | .number text =>
    match Decimal.number? text.toList with
    | some x => .ok (.float x)
    | none => .error (mismatch ("number " ++ text) "float64")
  | .text s => .ok (.text s)
  | .array items => (dataOfItems items).map .sequence
  | .object entries =>
    (dataOfEntries entries).map fun entries =>
      .mapping true (entries.map fun (key, d) => (.text key, d))

def dataOfItems : List Value → Except String (List Data)
  | [] => .ok []
  | v :: rest => do
    let d ← v.data
    let ds ← dataOfItems rest
    pure (d :: ds)

def dataOfEntries : List (String × Value) → Except String (List (String × Data))
  | [] => .ok []
  | (key, v) :: rest => do
    let d ← v.data
    let ds ← dataOfEntries rest
    pure ((key, d) :: ds)

end

/-- The entries of a configuration. Null has none. -/
def read (source : List UInt8) : Except String (List (String × Data)) :=
  let wrong (found : String) : Except String (List (String × Data)) :=
    .error (mismatch found "map[string]interface {}")
  match parse source with
  | .error fault => .error fault.message
  | .ok .null => .ok []
  | .ok (.object entries) => dataOfEntries entries
  | .ok (.bool _) => wrong "bool"
  | .ok (.number _) => wrong "number"
  | .ok (.text _) => wrong "string"
  | .ok (.array _) => wrong "array"

end Lowering.Configuration.Json
