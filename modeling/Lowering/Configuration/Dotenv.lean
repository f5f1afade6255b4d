import Lowering.Text.Blank
import Lowering.Text.Units
import Lowering.Yaml.Data

/-!
Configurations as lists of variables, one on a line: a name, a sign, a value that may be quoted, a
comment. A quoted value can go over several lines. All values are texts, and the variables of the
environment and those of earlier lines can be used in them.
-/

namespace Lowering.Configuration.Dotenv
open Yaml (Data)

/-- The variables so far. -/
abbrev Bindings := List (String × String)

def isSpace (c : Char) : Bool := c = ' ' || c = '\t' || c = '\n' || c = '\r' || c = '\x0c'

def isNameChar (c : Char) : Bool := c.isAlphanum || c = '_' || c = '.'

/-- Lines end with either sign of a line's end, or both. -/
def splitLines (line : List Char) : List Char → List String
  | [] => [String.ofList line.reverse]
  | '\r' :: '\n' :: rest => String.ofList line.reverse :: splitLines [] rest
  | c :: rest =>
    if c = '\n' || c = '\r' then String.ofList line.reverse :: splitLines [] rest
    else splitLines (c :: line) rest

/-- The characters of a file. A mark at its start tells a wider encoding than the usual one. -/
def characters : List UInt8 → List Char
  | 0xef :: 0xbb :: 0xbf :: rest => (Text.ofBytes rest).toList
  | 0xff :: 0xfe :: rest => wide (units (fun a b => 256 * b.toNat + a.toNat) rest)
  | 0xfe :: 0xff :: rest => wide (units (fun a b => 256 * a.toNat + b.toNat) rest)
  | source => (Text.ofBytes source).toList
where
  wide (units : List Nat) : List Char := (Text.kept (String.ofList (Text.ofUnits units))).toList
  units (unit : UInt8 → UInt8 → Nat) : List UInt8 → List Nat
    | a :: b :: rest => unit a b :: units unit rest
    | [_] => [0xfffd]
    | [] => []

/-- Where a character occurs first. -/
def firstIndex? (c : Char) (cs : List Char) : Option Nat := cs.findIdx? (· = c)

/-- Where a character occurs last. -/
def lastIndex? (c : Char) (cs : List Char) : Option Nat :=
  (cs.reverse.findIdx? (· = c)).map fun i => cs.length - 1 - i

/-- The quote that a line opens and does not close. The sign before the value is looked for first,
and a quote after a backslash closes nothing. -/
def openQuote? (line : List Char) : Option Char :=
  match (firstIndex? '=' line).or (firstIndex? ':' line) with
  | none => none
  | some 0 => none
  | some i =>
    if i + 1 ≥ line.length then none
    else match Text.trimList (line.drop (i + 1)) with
      | [] => none
      | quote :: inside =>
        if quote ≠ '"' && quote ≠ '\'' then none
        else match lastIndex? quote (Text.trimList inside) with
          | none => some quote
          | some place => if (quote :: inside)[place]? = some '\\' then some quote else none

/-- Whether a further line closes a quote. -/
def closesQuote (quote : Char) (further : List Char) : Bool :=
  match lastIndex? quote further with
  | none => false
  | some 0 => true
  | some i => further[i - 1]? ≠ some '\\'

/-- The lines up to the one that closes a quote, and those after it. -/
def untilClosed (quote : Char) : List String → Option (List String × List String)
  | [] => none
  | line :: rest =>
    if closesQuote quote line.toList then some ([line], rest)
    else (untilClosed quote rest).map fun (lines, rest) => (line :: lines, rest)

/-- Whether only blanks and a comment follow. -/
def isTail (cs : List Char) : Bool :=
  match cs.dropWhile isSpace with
  | [] => true
  | '#' :: rest => !rest.contains '\n'
  | _ => false

/-- A quoted value: up to the last quote after which nothing but a comment follows. -/
def quotedValue? (quote : Char) (cs : List Char) : Option (List Char) :=
  match cs with
  | [] => none
  | first :: inside =>
    if first ≠ quote then none
    else
      let ends := (List.range inside.length).reverse.find? fun i =>
        inside[i]? = some quote && isTail (inside.drop (i + 1))
      ends.map fun i => first :: inside.take (i + 1)

/-- The value after the sign, if nothing else follows it. -/
def valueOf? (cs : List Char) : Option (List Char) :=
  let plain : Option (List Char) :=
    let inside := cs.takeWhile fun c => c ≠ '#' && c ≠ '\n'
    if !inside.isEmpty && isTail (cs.drop inside.length) then some inside
    else if isTail cs then some []
    else none
  ((quotedValue? '\'' cs).or (quotedValue? '"' cs)).or plain

/-- The value after a colon and at least one blank. As few blanks as possible are passed over. -/
def afterColon? : List Char → Option (List Char)
  | [] => none
  | c :: rest => if isSpace c then (valueOf? rest).or (afterColon? rest) else none

/-- A name and its value. -/
def binding? (cs : List Char) : Option (List Char × List Char) :=
  let name := cs.takeWhile isNameChar
  let rest := cs.dropWhile isNameChar
  if name.isEmpty then none
  else
    let value := match rest.dropWhile isSpace with
      | '=' :: after => valueOf? (after.dropWhile isSpace)
      | _ =>
        match rest with
        | ':' :: after => afterColon? after
        | _ => none
    value.map fun value => (name, value)

/-- A name and its value, with or without a word in front. -/
def line? (line : List Char) : Option (List Char × List Char) :=
  let cs := line.dropWhile isSpace
  let exported := match cs with
    | 'e' :: 'x' :: 'p' :: 'o' :: 'r' :: 't' :: c :: rest =>
      if isSpace c then binding? (rest.dropWhile isSpace) else none
    | _ => none
  exported.or (binding? cs)

/-- Replaces a pair of characters by one. -/
def replacePair (first second single : Char) : List Char → List Char
  | [] => []
  | [c] => [c]
  | c :: d :: rest =>
    if c = first && d = second then single :: replacePair first second single rest
    else c :: replacePair first second single (d :: rest)

/-- Takes the backslashes away, but for those before a dollar sign. -/
def withoutBackslashes : List Char → List Char
  | [] => []
  | [c] => [c]
  | c :: d :: rest =>
    if c = '\\' && d ≠ '$' then d :: withoutBackslashes rest
    else c :: withoutBackslashes (d :: rest)

def isVariableChar (c : Char) : Bool := c.isUpper || c.isDigit || c = '_'

/-- The name of the variable after a dollar sign, with or without braces, and how many characters it
takes. The name can be empty. -/
def reference (cs : List Char) : String × Nat :=
  let (opening, rest) := match cs with
    | '\x7b' :: rest => (1, rest)
    | rest => (0, rest)
  let name := rest.takeWhile isVariableChar
  let closing := if (rest.drop name.length).head? = some '\x7d' then 1 else 0
  (String.ofList name, opening + name.length + closing)

/-- Replaces the variables in a value. A backslash before a dollar sign keeps it. -/
def expand (find : String → String) : Nat → List Char → List Char
  | 0, cs => cs
  | _ + 1, [] => []
  | fuel + 1, '\\' :: '$' :: rest =>
    let (_, size) := reference rest
    '$' :: rest.take size ++ expand find fuel (rest.drop size)
  | fuel + 1, '$' :: rest =>
    let (name, size) := reference rest
    (if name = "" then '$' :: rest.take size else (find name).toList)
      ++ expand find fuel (rest.drop size)
  | fuel + 1, c :: rest => c :: expand find fuel rest

/-- Whether a value stands between two quotes. -/
def isQuoted (quote : Char) (cs : List Char) : Bool :=
  cs.length ≥ 2 && cs.head? = some quote && cs.getLast? = some quote

/-- The text that a written value stands for. Between single quotes nothing is replaced. -/
def evaluate (find : String → String) (written : List Char) : String :=
  let cs := Text.trimList written
  let inside := (cs.drop 1).dropLast
  if isQuoted '\'' cs then String.ofList inside
  else
    let cs := if isQuoted '"' cs then
        withoutBackslashes (replacePair '\\' 'r' '\r' (replacePair '\\' 'n' '\n' inside))
      else cs
    String.ofList (expand find (cs.length + 1) cs)

/-- Why a line cannot be read. A line that only exports a variable must name a known one. -/
def lineFault (known : Bindings) (line : String) : String :=
  let unset := "line `" ++ Text.trim line ++ "` has an unset variable"
  let unknown := "line `" ++ line ++ "` doesn't match format"
  match line.toList with
  | 'e' :: 'x' :: 'p' :: 'o' :: 'r' :: 't' :: rest =>
    if !rest.contains ' ' then unknown
    else
      let name := String.ofList ((rest.dropWhile (· ≠ ' ')).drop 1)
      if (known.lookup name).isSome then unknown else unset
  | _ => unknown

/-- The variables of lines. A later one replaces an earlier one of its name. -/
def bindings (environment : Bindings) : Nat → Bindings → List String → Except String Bindings
  | 0, known, _ => .ok known
  | _ + 1, known, [] => .ok known
  | fuel + 1, known, line :: rest => do
    let line := Text.trim line
    if line = "" || line.startsWith "#" then bindings environment fuel known rest
    else
      let (line, rest) ← match openQuote? line.toList with
        | none => pure (line, rest)
        | some quote =>
          match untilClosed quote rest with
          | some (lines, rest) => pure ("\n".intercalate (line :: lines), rest)
          | none => .error "missing quotes"
      match line? line.toList with
      | none => .error (lineFault known line)
      | some (name, written) =>
        let find (name : String) : String :=
          ((environment.lookup name).or (known.lookup name)).getD ""
        bindings environment fuel ((String.ofList name, evaluate find written) :: known) rest

/-- The entries of a configuration. -/
def read (environment : Bindings) (source : List UInt8) : Except String (List (String × Data)) :=
  let lines := splitLines [] (characters source)
  (bindings environment lines.length [] lines).map fun known =>
    known.reverse.map fun (name, s) => (name, .text s)

end Lowering.Configuration.Dotenv
