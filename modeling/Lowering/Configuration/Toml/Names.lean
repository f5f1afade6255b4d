import Lowering.Configuration.Toml.Expression

/-!
The names that a TOML document has used so far. A name is used for a value, a table or a list of
tables, and a table is opened by its head only once.
-/

namespace Lowering.Configuration.Toml

inductive Use
  | value
  | table
  | listedTable
deriving DecidableEq, Repr

def Use.text : Use → String
  | .value => "value"
  | .table => "table"
  | .listedTable => "array table"

/-- A name by all its parts. `opened` says that its table may not be opened again; one that was
made on the way to a value, `passing`, is opened when another table starts. -/
structure Name where
  path : List String
  use : Use
  opened : Bool := false
  passing : Bool := false

structure Names where
  names : List Name := []
  /-- The table that values belong to now. -/
  current : List String := []

namespace Names

def find? (n : Names) (path : List String) : Option Name := n.names.find? (·.path == path)

def add (n : Names) (name : Name) : Names := { n with names := name :: n.names }

/-- Changes the name with a path. -/
def change (n : Names) (path : List String) (f : Name → Name) : Names :=
  { n with names := n.names.map fun name => if name.path == path then f name else name }

/-- Whether a name is below a path. -/
def isBelow (path : List String) (name : Name) : Bool :=
  path.isPrefixOf name.path && path.length < name.path.length

/-- The tables on the way to values of the current table are complete. -/
def close (n : Names) : Names :=
  { n with names := n.names.map fun name =>
      if isBelow n.current name && name.passing then { name with opened := true, passing := false }
      else name }

/-- The last part of a path. -/
def last (path : List String) : String := path.getLastD ""

/-- Uses the names on the way to a table. -/
def lead (n : Names) : List (List String) → Except String Names
  | [] => .ok n
  | path :: rest =>
    match n.find? path with
    | none => lead (n.add { path, use := .table }) rest
    | some name =>
      if name.use = .value then
        .error ("toml: expected " ++ last path ++ " to be a table, not a " ++ name.use.text)
      else lead n rest

/-- The paths on the way to a path, shortest first. -/
def above (path : List String) : List (List String) :=
  (List.range (path.length - 1)).map fun i => path.take (i + 1)

/-- Opens a table. -/
def openTable (n : Names) (path : List String) : Except String Names := do
  let n ← n.close.lead (above path)
  match n.find? path with
  | none => pure { n.add { path, use := .table, opened := true } with current := path }
  | some name =>
    if name.use ≠ .table then
      .error ("toml: key " ++ last path ++ " should be a table, not a " ++ name.use.text)
    else if name.opened then .error ("toml: table " ++ last path ++ " already exists")
    else pure { n.change path ({ · with opened := true }) with current := path }

/-- Adds a table to a list. The names of the one before are free again. -/
def openListed (n : Names) (path : List String) : Except String Names := do
  let n ← n.close.lead (above path)
  match n.find? path with
  | none => pure { n.add { path, use := .listedTable, opened := true } with current := path }
  | some name =>
    if name.use ≠ .listedTable then
      .error ("toml: key " ++ last path ++ " already exists as a " ++ name.use.text
        ++ ",  but should be an array table")
    else pure { n with names := n.names.filter (!isBelow path ·), current := path }

/-- Uses the names on the way to a value, and its own. -/
def assignPath (n : Names) (done : List String) : List String → Except String Names
  | [] => .ok (n.change done ({ · with use := .value }))
  | part :: rest =>
    let path := done ++ [part]
    match n.find? path with
    | none => assignPath (n.add { path, use := .table, passing := true }) path rest
    | some name =>
      if rest.isEmpty then .error ("toml: key " ++ part ++ " is already defined")
      else if name.use ≠ .table then
        .error ("toml: expected " ++ part ++ " to be a table, not a " ++ name.use.text)
      else if name.opened then
        .error ("toml: cannot redefine table " ++ part ++ " that has already been explicitly defined")
      else assignPath n path rest

end Names

mutual

/-- The tables inside a value have names of their own. -/
def checkLiteral : Literal → Except String Unit
  | .array items => checkItems items
  | .table entries => checkEntries {} entries
  | _ => .ok ()

def checkItems : List Literal → Except String Unit
  | [] => .ok ()
  | v :: rest => do
    checkLiteral v
    checkItems rest

def checkEntries (n : Names) : List (List String × Literal) → Except String Unit
  | [] => .ok ()
  | (key, v) :: rest => do
    let n ← n.assignPath [] key
    checkLiteral v
    checkEntries n rest

end

/-- The names after an expression. -/
def Names.after (n : Names) : Expression → Except String Names
  | .table key => n.openTable key
  | .listedTable key => n.openListed key
  | .assignment key v => do
    let n ← n.assignPath n.current key
    checkLiteral v
    pure n

end Lowering.Configuration.Toml
