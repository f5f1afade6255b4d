import Lowering.Decimal.Integer
import Lowering.Text.Quoted

/-!
Flags on a command line. A flag has a long name and perhaps a letter; its value stands behind an
equals sign or in the next word, and a switch needs none. Flags and other words can be mixed, up
to a word of two dashes.
-/

namespace Lowering.Command

/-- What the value of a flag is. -/
inductive Form
  | text
  | number
  | switch
deriving DecidableEq, Repr

structure Flag where
  name : String
  letter : Option Char := none
  form : Form := .text
deriving Repr

inductive FlagValue
  | text (s : String)
  | number (n : Int64)
  | switch (b : Bool)
deriving Repr

/-- What a line gives: the values of flags, the latest first, and the other words. -/
structure Given where
  values : List (String × FlagValue) := []
  words : List String := []

def Given.value? (g : Given) (name : String) : Option FlagValue := g.values.lookup name

/-- Whether a switch is on. -/
def Given.has (g : Given) (name : String) : Bool :=
  match g.value? name with
  | some (.switch b) => b
  | _ => false

def truth? (s : String) : Option Bool :=
  if ["1", "t", "T", "TRUE", "true", "True"].contains s then some true
  else if ["0", "f", "F", "FALSE", "false", "False"].contains s then some false
  else none

/-- How a flag is called in messages. -/
def Flag.title (f : Flag) : String :=
  match f.letter with
  | some c => s!"-{c}, --{f.name}"
  | none => "--" ++ f.name

/-- Reads the value of a flag. -/
def Flag.read (f : Flag) (s : String) : Except String FlagValue :=
  let refuse (reason : String) : Except String FlagValue :=
    .error s!"invalid argument {Text.quote s} for {Text.quote f.title} flag: {reason}"
  match f.form with
  | .text => .ok (.text s)
  | .number =>
    match Decimal.integer s with
    | .ok n => .ok (.number n)
    | .error fault => refuse s!"strconv.ParseInt: parsing {Text.quote s}: {fault.text}"
  | .switch =>
    match truth? s with
    | some b => .ok (.switch b)
    | none => refuse s!"strconv.ParseBool: parsing {Text.quote s}: invalid syntax"

def named? (flags : List Flag) (name : String) : Option Flag := flags.find? (·.name == name)

def lettered? (flags : List Flag) (c : Char) : Option Flag := flags.find? (·.letter == some c)

/-- A name up to its equals sign, and what stands behind it. -/
def splitValue (cs : List Char) : String × Option String :=
  let name := String.ofList (cs.takeWhile (· ≠ '='))
  match cs.dropWhile (· ≠ '=') with
  | _ :: value => (name, some (String.ofList value))
  | [] => (name, none)

/-- A flag by its long name: its value, and the words after it. -/
def longFlag (flags : List Flag) (cs : List Char) (rest : List String) :
    Except String ((String × FlagValue) × List String) :=
  let word := "--" ++ String.ofList cs
  if cs.isEmpty || cs.head? == some '-' || cs.head? == some '=' then
    .error ("bad flag syntax: " ++ word)
  else
    let (name, value) := splitValue cs
    match named? flags name with
    | none => .error ("unknown flag: --" ++ name)
    | some flag =>
      let found := match value, flag.form, rest with
        | some s, _, rest => some (s, rest)
        | none, .switch, rest => some ("true", rest)
        | none, _, s :: rest => some (s, rest)
        | none, _, [] => none
      match found with
      | none => .error ("flag needs an argument: " ++ word)
      | some (s, rest) =>
        match flag.read s with
        | .error text => .error text
        | .ok value => .ok ((name, value), rest)

/-- A character between single quotes. -/
def quotedLetter (c : Char) : String :=
  let inner := if c = '\'' then ['\\', '\''] else if c = '"' then ['"'] else Text.quoteChar c
  String.ofList ('\'' :: (inner ++ ['\'']))

/-- The first byte of a letter, as a character. -/
def firstByte (c : Char) : Char :=
  match (String.singleton c).toUTF8.toList with
  | b :: _ => Char.ofNat b.toNat
  | [] => c

/-- Flags by their letters, several of which can share a word. -/
def letterFlags (flags : List Flag) :
    List Char → List String → Except String (List (String × FlagValue) × List String)
  | [], rest => .ok ([], rest)
  | c :: more, rest =>
    let word := String.ofList (c :: more)
    match lettered? flags c with
    | none => .error s!"unknown shorthand flag: {quotedLetter (firstByte c)} in -{word}"
    | some flag =>
      let store (s : String) (rest : List String) :
          Except String (List (String × FlagValue) × List String) :=
        match flag.read s with
        | .error text => .error text
        | .ok value => .ok ([(flag.name, value)], rest)
      match more, flag.form, rest with
      | '=' :: d :: ds, _, rest => store (String.ofList (d :: ds)) rest
      | more, .switch, rest =>
        match letterFlags flags more rest with
        | .error text => .error text
        | .ok (others, rest) => .ok (others ++ [(flag.name, .switch true)], rest)
      | d :: ds, _, rest => store (String.ofList (d :: ds)) rest
      | [], _, s :: rest => store s rest
      | [], _, [] => .error s!"flag needs an argument: {quotedLetter c} in -{word}"

/-- Reads the words of a line. Every round takes at least one of them. -/
def readWords (flags : List Flag) : Nat → Given → List String → Except String Given
  | 0, given, _ => .ok given
  | _ + 1, given, [] => .ok given
  | fuel + 1, given, word :: rest =>
    match word.toList with
    | ['-', '-'] => .ok { given with words := given.words ++ rest }
    | '-' :: '-' :: cs =>
      match longFlag flags cs rest with
      | .error text => .error text
      | .ok (value, rest) => readWords flags fuel { given with values := value :: given.values } rest
    | '-' :: c :: cs =>
      match letterFlags flags (c :: cs) rest with
      | .error text => .error text
      | .ok (values, rest) =>
        readWords flags fuel { given with values := values ++ given.values } rest
    | _ => readWords flags fuel { given with words := given.words ++ [word] } rest

def readLine (flags : List Flag) (line : List String) : Except String Given :=
  readWords flags (line.length + 1) {} line

end Lowering.Command
