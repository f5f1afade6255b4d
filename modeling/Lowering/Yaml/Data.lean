import Lowering.Yaml.Filling

/-!
Data of any form, and structures with named fields.
-/

namespace Lowering.Yaml

inductive Data
  | null
  | bool (b : Bool)
  | int (n : Int64)
  | natural (n : UInt64)
  | float (x : Float)
  | date (t : Timestamp)
  | text (s : String)
  | sequence (items : List Data)
  /-- A mapping; `plain` says that all keys are texts. -/
  | mapping (plain : Bool) (entries : List (Data × Data))
deriving Inhabited

namespace Data

/-- The name of the form of data in messages. -/
def form : Data → String
  | .null => "<nil>"
  | .bool _ => "bool"
  | .int _ => "int"
  | .natural _ => "uint64"
  | .float _ => "float64"
  | .date _ => "time.Time"
  | .text _ => "string"
  | .sequence _ => "[]interface {}"
  | .mapping true _ => "map[string]interface {}"
  | .mapping false _ => "map[interface {}]interface {}"

def ofMeaning (text : String) : Meaning → Data
  | .null => .null
  | .bool b => .bool b
  | .int n => .int n
  | .natural n => .natural n
  | .float x => .float x
  | .date t => .date t
  | .text => .text text

/-- Whether data can be a key. -/
def canBeKey : Data → Bool
  | .sequence _ | .mapping .. => false
  | _ => true

/-- Whether two data are the same key. -/
def isSameKey : Data → Data → Bool
  | .null, .null => true
  | .bool a, .bool b => a == b
  | .int a, .int b => a == b
  | .natural a, .natural b => a == b
  | .float a, .float b => a == b
  | .date a, .date b => a == b
  | .text a, .text b => a == b
  | _, _ => false

instance : BEq Data := ⟨isSameKey⟩

def text? : Data → Option String
  | .text s => some s
  | _ => none

end Data

/-- Fills up a mapping. The keys are texts if those of the mapping itself are. -/
def dataFilling (plain : Bool) (read : Node → Reading (Option Data)) :
    Filling (List (Data × Data)) Data Data where
  start := id
  key n := if plain then do return (← text n).map Data.text else read n
  form := id
  seen := read
  take key _ value entries := do
    if !key.canBeKey then throw .malformed
    match ← read value with
    | some value => pure (entries ++ [(key, value)])
    | none => pure entries

/-- Whether the key of a mapping is a text, or stands for one. -/
def isTextKey (d : Declared) (key : Node) : Bool :=
  let tag := (d.target key).tag
  tag == "!!str" || tag == "!!merge"

/-- Reads data of any form, nested no deeper than `fuel`. A mapping with a repeated key is no
value. -/
def dataWithin : Nat → Node → Reading (Option Data)
  | 0 => fun _ => throw .malformed
  | fuel + 1 =>
    follow fun
      | .scalar _ tag text => do
        let (meaning, text) ← content tag text
        pure (some (Data.ofMeaning text meaning))
      | .sequence _ _ items => do
        let items ← elements (dataWithin fuel) items
        pure (some (.sequence items))
      | .mapping _ _ entries => do
        if ← distinctKeys entries then
          let declared ← readThe Declared
          let plain := entries.all fun (key, _) => isTextKey declared key
          let filling := dataFilling plain (dataWithin fuel)
          let (found, _) ← filling.fill fuel none entries []
          pure (some (.mapping plain found))
        else pure none
      | .alias .. => throw .malformed

def data (n : Node) : Reading (Option Data) := do
  dataWithin (← readThe Declared).depth n

/-- A structure while it is filled up: its fields, and which of them its mapping has set. -/
structure Partial (σ : Type) where
  fields : σ
  done : List String := []

/-- The fields of a structure, each by its name. One that is not known is reported, and so is one that
a mapping sets twice. -/
def structureFilling {σ : Type} (wanted : String)
    (field : String → Option (Node → σ → Reading σ)) : Filling (Partial σ) String String where
  start p := { p with done := [] }
  key := text
  form := id
  seen n := do return (← data n).bind Data.text?
  take name key value p := do
    match field name with
    | none =>
      tell s!"line {key.line}: field {name} not found in type {wanted}"
      pure p
    | some read =>
      if p.done.contains name then
        tell s!"line {key.line}: field {name} already set in type {wanted}"
        pure p
      else pure ⟨← read value p.fields, name :: p.done⟩

/-- A structure from the entries of a mapping. -/
def fieldsOf {σ : Type} (wanted : String) (start : σ)
    (field : String → Option (Node → σ → Reading σ)) (entries : List (Node × Node)) :
    Reading (Option σ) := do
  if ← distinctKeys entries then
    let fuel := (← readThe Declared).depth
    let (found, _) ← (structureFilling wanted field).fill fuel none entries ⟨start, []⟩
    pure (some found.fields)
  else pure none

/-- A structure. -/
def structured {σ : Type} (wanted : String) (start : σ)
    (field : String → Option (Node → σ → Reading σ)) : Node → Reading (Option σ) :=
  follow fun
    | .mapping _ _ entries => fieldsOf wanted start field entries
    | n => scalarAs wanted (fun _ _ => .ok none) n

end Lowering.Yaml
