import Lowering.Configuration.Dotenv
import Lowering.Configuration.Json
import Lowering.Configuration.Toml

/-!
Configurations: settings by name, in one of several languages. Names do not depend on case.
-/

namespace Lowering
open Yaml

namespace Configuration

/-- Why a configuration cannot be read. -/
inductive Fault
  | stated (text : String)
  /-- YAML that cannot be read, and YAML of another form than the wanted one. -/
  | malformed
  | mismatched (text : String)

inductive Language
  | yaml
  | json
  | toml
  | dotenv
  /-- A language whose files are known as configurations, but which cannot be read. -/
  | unreadable
deriving DecidableEq, Repr

/-- The languages by the endings of their files, in the order in which files are looked for. -/
def endings : List (String × Language) :=
  [("json", .json), ("toml", .toml), ("yaml", .yaml), ("yml", .yaml), ("properties", .unreadable),
    ("props", .unreadable), ("prop", .unreadable), ("hcl", .unreadable), ("tfvars", .unreadable),
    ("dotenv", .dotenv), ("env", .dotenv), ("ini", .unreadable)]

/-- The entries of a mapping, whose keys are any scalars. -/
def filling : Filling (List (String × Data)) String String where
  start := id
  key := Yaml.text
  form := id
  seen n := do return (← data n).bind Data.text?
  take key _ value entries := do
    match ← data value with
    | some value => pure (entries ++ [(key, value)])
    | none => pure entries

/-- A configuration is a mapping. -/
def ofNode : Node → Reading (List (String × Data)) :=
  follow fun
    | .mapping _ _ entries => do
      if ← distinctKeys entries then
        let fuel := (← readThe Declared).depth
        let (found, _) ← filling.fill fuel none entries []
        pure found
      else pure []
    | n => do
      let _ : Option Unit ← scalarAs "map[string]interface {}" (fun _ _ => .ok none) n
      pure []

/-- The entries of a configuration in a language. -/
def entries (environment : List (String × String)) (source : List UInt8) :
    Language → Except Fault (List (String × Data))
  | .yaml =>
    match readAs ofNode source with
    | .value entries => .ok entries
    | .empty => .ok []
    | .malformed | .refused _ => .error .malformed
    | .mismatched reports => .error (.mismatched (reportText reports))
  | .json => (Json.read source).mapError .stated
  | .toml => (Toml.read source).mapError .stated
  | .dotenv => (Dotenv.read environment source).mapError .stated
  | .unreadable => .error (.stated "decoder not found for this format")

/-- Settings by their names in small letters. Of two of one name the last counts, but one that is
written in small letters gives way to one that is not. -/
def settings (entries : List (String × Data)) : List (String × Data) :=
  let isSmall := fun (name, _) => Text.smalls name == name
  let latest := entries.reverse
  (latest.filter (!isSmall ·) ++ latest.filter isSmall).map fun (name, d) => (Text.smalls name, d)

/-- Reads a configuration from the bytes of a file. -/
def read (language : Language) (environment : List (String × String)) (source : List UInt8) :
    Except Fault (List (String × Data)) :=
  (entries environment source language).map settings

end Configuration
end Lowering
