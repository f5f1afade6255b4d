import Lowering.Command.Flag
import Lowering.Text.Blank

/-!
Command lines: a command, its flags and its arguments. The command is the first word that is
neither a flag nor the value of one.
-/

namespace Lowering.Command

inductive Verb
  | lower
  | disassemble
  | run
  | version
deriving DecidableEq, Repr

def programName : String := "lift"

def Verb.name : Verb → String
  | .lower => "translate"
  | .disassemble => "dis"
  | .run => "run"
  | .version => "version"

def Verb.all : List Verb := [.lower, .disassemble, .run, .version]

/-- Commands that only inform about the program. -/
def informing : List String := ["help", "completion"]

/-- The flags of every command. -/
def sharedFlags : List Flag :=
  [⟨"config", none, .text⟩, ⟨"guest-version", none, .text⟩, ⟨"workers", none, .number⟩,
    ⟨"log-level", none, .text⟩, ⟨"no-color", none, .switch⟩, ⟨"output", some 'o', .text⟩]

def helpFlag : Flag := ⟨"help", some 'h', .switch⟩

def Verb.flags : Verb → List Flag
  | .lower | .version => [⟨"format", some 'f', .text⟩]
  | .disassemble => [⟨"func", none, .text⟩]
  | .run => [⟨"func", none, .text⟩, ⟨"max-steps", none, .number⟩, ⟨"trace", none, .switch⟩]

/-- Whether a word is a flag whose value is the next word. Unknown flags count as such. -/
def takesNext (word : String) : Bool :=
  let isSwitch : Option Flag → Bool := fun flag => flag.any fun f => f.form = .switch
  match word.toList with
  | '-' :: '-' :: cs => !cs.contains '=' && !isSwitch (named? sharedFlags (String.ofList cs))
  | ['-', c] => c ≠ '=' && c.toNat < 0x80 && !isSwitch (lettered? sharedFlags c)
  | _ => false

def isFlagWord (word : String) : Bool := word.toList.head? == some '-'

/-- The words that are neither flags nor their values. A flag at the end of a line ends them. -/
def plainWords : List String → List String
  | [] => []
  | word :: rest =>
    if word = "--" then []
    else if takesNext word then
      match rest with
      | _ :: next :: after => plainWords (next :: after)
      | _ => []
    else if word = "" || isFlagWord word then plainWords rest
    else word :: plainWords rest

/-- A line without the first occurrence of a plain word. -/
def without (name : String) : List String → List String
  | [] => []
  | word :: rest =>
    if word = "--" then word :: rest
    else if takesNext word then
      match rest with
      | value :: after => word :: value :: without name after
      | [] => [word]
    else if word = name then rest
    else word :: without name rest

/-- The next row in the table of distances between two texts. -/
def distanceRow (c : UInt8) : Nat → List UInt8 → List Nat → List Nat
  | _, [], _ => []
  | left, d :: ds, diagonal :: above :: others =>
    let here := if c = d then diagonal else min (min left above) diagonal + 1
    here :: distanceRow c here ds (above :: others)
  | _, _ :: _, _ => []

/-- The least number of bytes to insert, delete or replace to make one text of another. -/
def distance (s t : String) : Nat :=
  let target := t.toUTF8.toList
  let start := List.range (target.length + 1)
  let last := s.toUTF8.toList.foldl (fun row c =>
    let first := row.headD 0 + 1
    first :: distanceRow c first target row) start
  last.getLastD 0

/-- The commands that a misspelt word could mean. -/
def suggestions (word : String) : List String :=
  (Verb.all.map Verb.name ++ ["completion"]).filter fun name =>
    distance (Text.smalls word) name ≤ 2 || (Text.smalls word).isPrefixOf name

def unknownCommand (word : String) : String :=
  let hint := match suggestions word with
    | [] => ""
    | names => "\n\nDid you mean this?\n" ++ String.join (names.map fun name => s!"\t{name}\n")
  s!"unknown command {Text.quote word} for {Text.quote programName}" ++ hint

/-- What a line asks for. -/
inductive Request
  /-- Information on how to use the program. -/
  | help
  /-- The version of the program alone. -/
  | release
  | command (verb : Verb) (given : Given)

/-- The number of arguments must suit the command. -/
def Verb.checkArguments (verb : Verb) (words : List String) : Except String Unit :=
  match verb with
  | .lower | .run =>
    if words.isEmpty then .error "requires at least 1 arg(s), only received 0" else .ok ()
  | .disassemble =>
    if words.length = 1 then .ok () else .error s!"accepts 1 arg(s), received {words.length}"
  | .version =>
    match words with
    | [] => .ok ()
    | word :: _ =>
      let place := programName ++ " " ++ verb.name
      .error s!"unknown command {Text.quote word} for {Text.quote place}"

def commandRequest (verb : Verb) (line : List String) : Except String Request := do
  let given ← readLine (helpFlag :: (verb.flags ++ sharedFlags)) line
  if given.has "help" then pure .help
  else
    verb.checkArguments given.words
    pure (.command verb given)

/-- A line without a command. -/
def bareRequest (line : List String) : Except String Request := do
  let given ← readLine (helpFlag :: ⟨"version", some 'v', .switch⟩ :: sharedFlags) line
  pure (if !given.has "help" && given.has "version" then .release else .help)

/-- Reads a command line. -/
def Request.parse (line : List String) : Except String Request :=
  match plainWords line with
  | [] => bareRequest line
  | word :: _ =>
    match Verb.all.find? (·.name == word) with
    | some verb => commandRequest verb (without word line)
    | none => if informing.contains word then .ok .help else .error (unknownCommand word)

end Lowering.Command
