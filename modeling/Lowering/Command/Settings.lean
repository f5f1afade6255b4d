import Lowering.Command.Line
import Lowering.Command.World
import Lowering.Configuration
import Lowering.Decimal.Layout

/-!
Settings of a command. A flag on the line counts most, then a variable of the environment, then
the configuration file.
-/

namespace Lowering.Command
open Yaml

structure Settings where
  given : Given
  world : World
  config : List (String × Data) := []

/-- Where a setting comes from. -/
inductive Setting
  | flag (value : FlagValue)
  | environment (text : String)
  | config (value : Data)
  | unset

namespace Settings

/-- The variable of the environment for a setting. -/
def variableName (name : String) : String :=
  "LIFT_" ++ (Text.capitals name).map fun c => if c = '-' then '_' else c

def find (s : Settings) (name : String) : Setting :=
  match s.given.value? name, s.world.lookup (variableName name), s.config.lookup name with
  | some value, _, _ => .flag value
  | none, some text, _ => .environment text
  | none, none, some .null => .unset
  | none, none, some value => .config value
  | none, none, none => .unset

/-- Numbers in settings are written out in full. -/
def fullLayout : Decimal.Layout := ⟨-1000, 1000, 2, "NaN", "+Inf", "-Inf"⟩

/-- A setting as text. Collections have none. -/
def text (s : Settings) (name : String) (default : String) : String :=
  match s.find name with
  | .flag (.text t) | .environment t | .config (.text t) => t
  | .config (.bool b) => Value.boolText b
  | .config (.int n) => toString n.toInt
  | .config (.natural n) => toString n.toNat
  | .config (.float x) => fullLayout.magnitude id (Decimal.decode x)
  | .config (.date t) => t.text
  | .flag _ | .unset => default
  | .config _ => ""

/-- A number without a fraction of zeros. -/
def withoutZeros (s : String) : String :=
  let kept := s.toList.reverse.dropWhile (· = '0')
  match kept with
  | '.' :: whole => if kept.length < s.length then String.ofList whole.reverse else s
  | _ => s

def numberOfText (s : String) : Int64 :=
  match Decimal.integer (withoutZeros s) with
  | .ok n => n
  | .error _ => 0

/-- A setting as a number; zero when it is none. -/
def number (s : Settings) (name : String) : Int64 :=
  match s.find name with
  | .flag (.number n) | .config (.int n) => n
  | .environment t | .config (.text t) => numberOfText t
  | .config (.bool b) => if b then 1 else 0
  | .config (.natural n) => n.toInt64
  | .config (.float x) => truncated x
  | _ => 0

/-- A setting as a truth value; false when it is none. -/
def switch (s : Settings) (name : String) : Bool :=
  match s.find name with
  | .flag (.switch b) | .config (.bool b) => b
  | .environment t | .config (.text t) => (truth? t).getD false
  | .config (.int n) => n ≠ 0
  | .config (.natural n) => n ≠ 0
  | .config (.float x) => x != 0
  | _ => false

end Settings

/-- The failure of a configuration that cannot be read. -/
def configurationFailure : Configuration.Fault → Failure
  | .stated text => .stated ("read config: While parsing config: " ++ text)
  | .malformed => .malformed "read config"
  | .mismatched text => .mismatched ("read config: While parsing config: " ++ text)

/-- Reads a configuration from the bytes of a file. -/
def Settings.readConfiguration (s : Settings) (language : Configuration.Language)
    (source : List UInt8) : Except Failure (List (String × Data)) :=
  (Configuration.read language s.world.environment source).mapError configurationFailure

/-- The names under which a configuration is looked for, in this order. -/
def configNames : List String :=
  Configuration.endings.map (fun (ending, _) => programName ++ "." ++ ending) ++ [programName]

/-- What follows the last point of the last part of a path. -/
def ending (path : String) : String :=
  let last := path.toList.reverse.takeWhile (· ≠ '/')
  if last.contains '.' then String.ofList (last.takeWhile (· ≠ '.')).reverse else ""

/-- The configuration that is asked for, whose ending tells its language, or the one that lies at
hand, which is YAML under any name. -/
def loadConfiguration (s : Settings) : Except Failure (List (String × Data)) :=
  let path := s.text "config" ""
  if path ≠ "" then
    match Configuration.endings.lookup (ending path) with
    | none => .error (.stated s!"read config: Unsupported Config Type {Text.quote (ending path)}")
    | some language =>
      match s.world.readFile path with
      | .error text => .error (.stated ("read config: " ++ text))
      | .ok bytes => s.readConfiguration language bytes
  else match configNames.findSome? fun name => s.world.file? [name] with
    | some bytes => s.readConfiguration .yaml bytes
    | none => .ok []

/-- The level of the log. Numbers name levels too. -/
def logLevel (name : String) : Except String Level :=
  match Level.ofName? name with
  | some level => .ok level
  | none =>
    let digits := match name.toList with
      | '-' :: ds | '+' :: ds => ds
      | ds => ds
    let unknown : Except String Level :=
      .error s!"Unknown Level String: '{name}', defaulting to NoLevel"
    if digits.isEmpty || !digits.all Char.isDigit then unknown
    else
      let size : Int := digits.foldl (fun n c => 10 * n + (c.toNat - 48)) 0
      let n := if name.toList.head? == some '-' then -size else size
      if (word? n).isNone then unknown
      else if n < -128 || 127 < n then
        .error s!"Out-Of-Bounds Level: '{n}', defaulting to NoLevel"
      else .ok ((Level.all.find? (·.weight == n)).getD (if n < 0 then .trace else .disabled))

end Lowering.Command
