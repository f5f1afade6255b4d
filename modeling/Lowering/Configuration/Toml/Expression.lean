import Lowering.Configuration.Toml.Moment
import Lowering.Configuration.Toml.Number
import Lowering.Configuration.Toml.Text
import Lowering.Yaml.Data

/-!
The expressions of a TOML document: a table, a table of a list, or a value for a key. Values are
first read as they are written, and evaluated when the whole expression has been read.
-/

namespace Lowering.Configuration.Toml
open Yaml (Data)

/-- A value as it is written. -/
inductive Literal
  | text (s : String)
  | bool (b : Bool)
  | integer (cs : List Char)
  | float (cs : List Char)
  | moment (cs : List Char)
  | localMoment (cs : List Char)
  | localDay (cs : List Char)
  | localClock (cs : List Char)
  | array (items : List Literal)
  | table (entries : List (List String × Literal))
deriving Inhabited

inductive Expression
  | table (key : List String)
  | listedTable (key : List String)
  | assignment (key : List String) (value : Literal)

def isBareKey (c : Char) : Bool := c.isAlphanum || c = '-' || c = '_'

/-- One part of a key. -/
def keyPart (cs : List Char) : Except String (String × List Char) :=
  match cs with
  | [] => .error "expected key but found none"
  | '\'' :: rest => (literalString rest).map fun (s, rest) => (octetText s, rest)
  | '"' :: rest => (basicString rest).map fun (s, rest) => (octetText s, rest)
  | c :: _ =>
    if isBareKey c then .ok (String.ofList (cs.takeWhile isBareKey), cs.dropWhile isBareKey)
    else .error ("invalid character at start of key: " ++ String.singleton c)

/-- A key, whose parts are divided by points. -/
def key : Nat → List Char → Except String (List String × List Char)
  | 0, _ => .error "expected key but found none"
  | fuel + 1, cs => do
    let (part, rest) ← keyPart cs
    match skipBlanks rest with
    | '.' :: rest =>
      let (parts, rest) ← key fuel (skipBlanks rest)
      pure (part :: parts, rest)
    | rest => pure ([part], rest)

/-- The characters of a date or a time. One blank may stand before a digit. -/
def momentSpan : Nat → Bool → List Char → List Char × List Char
  | 0, _, cs => ([], cs)
  | fuel + 1, spaced, cs =>
    match cs with
    | [] => ([], [])
    | c :: rest =>
      let proceed (taken : List Char) (spaced : Bool) (rest : List Char) : List Char × List Char :=
        let (more, rest) := momentSpan fuel spaced rest
        (taken ++ more, rest)
      if c.isDigit || ['-', 'T', 't', ':', '.', '+', 'Z', 'z'].contains c then proceed [c] spaced rest
      else match c, rest with
        | ' ', d :: after =>
          if spaced || !d.isDigit then ([], cs)
          -- The digit and what follows it are taken whatever they are.
          else proceed (' ' :: d :: after.take 1) true (after.drop 1)
        | _, _ => ([], cs)

/-- A date or a time, by the signs in it. -/
def momentLiteral (cs : List Char) : Literal × List Char :=
  let (inside, rest) := momentSpan (cs.length + 1) false cs
  let hasDate := inside.contains '-'
  let hasTime := inside.any fun c => c = 'T' || c = 't' || c = ':' || c = '.' || c = ' '
  let hasZone := inside.any (fun c => c = '+' || c = 'Z' || c = 'z') || (inside.drop 8).contains '-'
  (if !hasTime then .localDay inside
    else if !hasDate then .localClock inside
    else if hasZone then .moment inside
    else .localMoment inside, rest)

/-- The characters of a number in base ten, whether it is a float, and what follows. -/
def numberSpan (float : Bool) : List Char → Except String (List Char × Bool × List Char)
  | [] => .ok ([], float, [])
  | c :: rest =>
    let more (float : Bool) : Except String (List Char × Bool × List Char) :=
      (numberSpan float rest).map fun (cs, float, rest) => (c :: cs, float, rest)
    if c.isDigit || c = '+' || c = '-' || c = '_' then more float
    else if c = '.' || c = 'e' || c = 'E' then more true
    else if c = 'i' then
      match rest with
      | 'n' :: 'f' :: rest => .ok (['i', 'n', 'f'], true, rest)
      | _ => .error "unexpected character 'i' while scanning for a number"
    else if c = 'n' then
      match rest with
      | 'a' :: 'n' :: rest => .ok (['n', 'a', 'n'], true, rest)
      | _ => .error "unexpected character 'n' while scanning for a number"
    else .ok ([], float, c :: rest)

/-- An integer that starts with a zero and, mostly, the mark of a base. -/
def zeroLiteral (mark : Char) (rest : List Char) : Literal × List Char :=
  let based (isDigit : Char → Bool) : Literal × List Char :=
    let digits := fun c => isDigit c || c = '_'
    (.integer ('0' :: mark :: rest.takeWhile digits), rest.dropWhile digits)
  match mark with
  | 'x' => based fun c => (Decimal.digitValue? c).isSome
  | 'o' => based fun c => '0' ≤ c && c ≤ '7'
  | 'b' => based fun c => c = '0' || c = '1'
  | mark => (.integer ['0'], mark :: rest)

def numberLiteral (cs : List Char) : Except String (Literal × List Char) :=
  let plain : Except String (Literal × List Char) := do
    let (inside, isFloat, rest) ← numberSpan false cs
    if inside.isEmpty then .error "incomplete number"
    else pure (if isFloat then .float inside else .integer inside, rest)
  match cs with
  | '0' :: mark :: next :: rest =>
    if mark = '.' || mark = 'e' || mark = 'E' then plain
    else .ok (zeroLiteral mark (next :: rest))
  | _ => plain

/-- Whether what follows is a date or a time: a sign stands after the digits of an hour or a
year. -/
def startsMoment (cs : List Char) : Bool :=
  let digits := (cs.takeWhile Char.isDigit).length
  (digits = 2 && cs[2]? = some ':') || (digits = 4 && cs[4]? = some '-')

/-- A number, a date or a time. -/
def numeric (cs : List Char) : Except String (Literal × List Char) :=
  match cs with
  | 'i' :: rest =>
    match rest with
    | 'n' :: 'f' :: rest => .ok (.float ['i', 'n', 'f'], rest)
    | _ => .error "expected 'inf'"
  | 'n' :: rest =>
    match rest with
    | 'a' :: 'n' :: rest => .ok (.float ['n', 'a', 'n'], rest)
    | _ => .error "expected 'nan'"
  | cs => if startsMoment cs then .ok (momentLiteral cs) else numberLiteral cs

def stringLiteral (read : List Char → Except String (List Char × List Char)) (cs : List Char) :
    Except String (Literal × List Char) :=
  (read cs).map fun (s, rest) => (.text (octetText s), rest)

mutual

def value : Nat → List Char → Except String (Literal × List Char)
  | 0, _ => .error "expected value, not eof"
  | fuel + 1, cs =>
    match cs with
    | [] => .error "expected value, not eof"
    | '"' :: '"' :: '"' :: rest => stringLiteral basicLines rest
    | '"' :: rest => stringLiteral basicString rest
    | '\'' :: '\'' :: '\'' :: rest => stringLiteral literalLines rest
    | '\'' :: rest => stringLiteral literalString rest
    | 't' :: rest =>
      match rest with
      | 'r' :: 'u' :: 'e' :: rest => .ok (.bool true, rest)
      | _ => .error "expected 'true'"
    | 'f' :: rest =>
      match rest with
      | 'a' :: 'l' :: 's' :: 'e' :: rest => .ok (.bool false, rest)
      | _ => .error "expected 'false'"
    | '[' :: rest => (items fuel true rest).map fun (items, rest) => (.array items, rest)
    | '\x7b' :: rest => (entries fuel true rest).map fun (entries, rest) => (.table entries, rest)
    | cs => numeric cs

/-- The values of an array up to its closing bracket. A comma may follow the last one. -/
def items : Nat → Bool → List Char → Except String (List Literal × List Char)
  | 0, _, _ => .error "array is incomplete"
  | fuel + 1, first, cs =>
    -- Nothing at all after the bracket or a value is told differently from blanks at the end.
    if cs.isEmpty then (expect ']' []).map fun rest => ([], rest)
    else do
      let cs ← skipLines cs.length cs
      match cs with
      | [] => .error "array is incomplete"
      | ']' :: rest => pure ([], rest)
      | ',' :: rest =>
        if first then .error "array cannot start with comma"
        else
          let rest ← skipLines rest.length rest
          match rest with
          | ']' :: rest => pure ([], rest)
          | rest => more fuel rest
      | cs => if first then more fuel cs else .error "array elements must be separated by commas"

/-- A value of an array and those after it. -/
def more : Nat → List Char → Except String (List Literal × List Char)
  | 0, _ => .error "array is incomplete"
  | fuel + 1, cs => do
    let (item, rest) ← value fuel cs
    let rest ← skipLines rest.length rest
    let (others, rest) ← items fuel false rest
    pure (item :: others, rest)

/-- The entries of a table on one line, up to its closing brace. -/
def entries : Nat → Bool → List Char → Except String (List (List String × Literal) × List Char)
  | 0, _, _ => .error "inline table is incomplete"
  | fuel + 1, first, cs =>
    if cs.isEmpty then (expect '\x7d' []).map fun rest => ([], rest)
    else match skipBlanks cs with
      | [] => .error "inline table is incomplete"
      | '\x7d' :: rest => .ok ([], rest)
      | cs => do
        let cs ← if first then pure cs else (expect ',' cs).map skipBlanks
        let (entry, rest) ← assigned fuel cs
        let (others, rest) ← entries fuel false rest
        pure (entry :: others, rest)

/-- A key and its value. -/
def assigned : Nat → List Char → Except String ((List String × Literal) × List Char)
  | 0, _ => .error "expected key but found none"
  | fuel + 1, cs => do
    let (key, rest) ← key cs.length.succ cs
    match skipBlanks rest with
    | [] => .error "expected = after a key, but the document ends there"
    | rest =>
      let rest ← expect '=' rest
      let (v, rest) ← value fuel (skipBlanks rest)
      pure ((key, v), rest)

end

/-- The head of a table between brackets. -/
def tableHead (cs : List Char) : Except String (Expression × List Char) :=
  match cs with
  | '[' :: rest => do
    let rest := skipBlanks rest
    let (name, rest) ← key rest.length.succ rest
    let rest ← expect ']' (skipBlanks rest)
    let rest ← expect ']' rest
    pure (.listedTable name, rest)
  | rest => do
    let rest := skipBlanks rest
    let (name, rest) ← key rest.length.succ rest
    let rest ← expect ']' (skipBlanks rest)
    pure (.table name, rest)

/-- What a line says, if it says anything, and what follows it. -/
def expression (cs : List Char) : Except String (Option Expression × List Char) :=
  match skipBlanks cs with
  | [] => .ok (none, [])
  | '#' :: rest => (comment rest).map fun rest => (none, rest)
  | '\n' :: rest => .ok (none, '\n' :: rest)
  | '\r' :: rest => .ok (none, '\r' :: rest)
  | cs => do
    let (found, rest) ← match cs with
      | '[' :: rest => tableHead rest
      | cs =>
        (assigned (2 * cs.length + 2) cs).map fun ((key, v), rest) => (.assignment key v, rest)
    match skipBlanks rest with
    | '#' :: rest => (comment rest).map fun rest => (some found, rest)
    | rest => pure (some found, rest)

mutual

/-- The data that a literal stands for. -/
def Literal.data : Literal → Except String Data
  | .text s => .ok (.text s)
  | .bool b => .ok (.bool b)
  | .integer cs => (integer cs).map .int
  | .float cs => (Toml.float cs).map .float
  | .moment cs => (Toml.moment cs).map .date
  | .localMoment cs => (Toml.localMoment cs).map .text
  | .localDay cs => (Toml.localDay cs).map .text
  | .localClock cs => (Toml.localClock cs).map .text
  | .array items => (dataOfItems items).map .sequence
  | .table entries => (dataOfEntries entries).map (.mapping true)

def dataOfItems : List Literal → Except String (List Data)
  | [] => .ok []
  | v :: rest => do
    let d ← v.data
    let ds ← dataOfItems rest
    pure (d :: ds)

/-- The entries of a table on one line, by the first parts of their keys. -/
def dataOfEntries : List (List String × Literal) → Except String (List (Data × Data))
  | [] => .ok []
  | (key, v) :: rest => do
    let d ← v.data
    let ds ← dataOfEntries rest
    pure ((.text (key.headD ""), d) :: ds)

end

end Lowering.Configuration.Toml
