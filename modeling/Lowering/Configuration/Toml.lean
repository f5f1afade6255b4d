import Lowering.Configuration.Toml.Names

/-!
Configurations in TOML. A document is read line by line: what a line says is checked against the
names used before it, then evaluated. Only the names at the top are settings, so of a table it is
only kept that there is one.
-/

namespace Lowering.Configuration.Toml
open Yaml (Data)

structure State where
  names : Names := {}
  entries : List (String × Data) := []

/-- Adds a name at the top, if it is not there yet. -/
def State.known (s : State) (key : List String) (d : Data) : State :=
  let name := key.headD ""
  if (s.entries.lookup name).isSome then s else { s with entries := s.entries ++ [(name, d)] }

/-- What an expression adds. -/
def State.take (s : State) (e : Expression) : Except String State := do
  let names ← s.names.after e
  match e with
  | .table key => pure { s.known key (.mapping true []) with names }
  | .listedTable key => pure { s.known key (.sequence []) with names }
  | .assignment key v =>
    let d ← v.data.mapError ("toml: " ++ ·)
    pure (match names.current, key with
      | [], [name] => { entries := s.entries ++ [(name, d)], names }
      | path, key => { s.known (path ++ key) (.mapping true []) with names })

/-- Reads what is left of a document, each line at its start. -/
def lines : Nat → State → List Char → Except String State
  | 0, s, _ => .ok s
  | fuel + 1, s, cs => do
    let (found, rest) ← (expression cs).mapError ("toml: " ++ ·)
    let s ← match found with
      | some e => s.take e
      | none => pure s
    match rest with
    | [] => pure s
    | rest =>
      match ← (newline rest).mapError ("toml: " ++ ·) with
      | [] => pure s
      | rest => lines fuel s rest

/-- The entries of a configuration. -/
def read (source : List UInt8) : Except String (List (String × Data)) :=
  (lines (source.length + 1) {} (octets source)).map State.entries

end Lowering.Configuration.Toml
