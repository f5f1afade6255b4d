import Lowering.Batch
import Lowering.Machine.Run
import Lowering.Text.Stray

/-!
What a command sees of its surroundings, and what it leaves behind. Nothing is read or written
here: the files that a command could need are given, and those that it creates are returned.
-/

namespace Lowering.Command

structure World where
  /-- The files with their contents. Their directories exist. -/
  files : List (String × List UInt8) := []
  /-- The variables of the environment. -/
  environment : List (String × String) := []
  /-- Whether colours are wanted. -/
  colored : Bool := false

/-- The parts of a path that lead somewhere. -/
def pathParts (path : String) : List String :=
  (path.splitOn "/").filter fun part => part ≠ ""

/-- Why a path cannot be used. -/
inductive PathFault
  | invalid
  | tooLong
  | missing
  | notDirectory
  | directory
deriving DecidableEq, Repr

def PathFault.text : PathFault → String
  | .invalid => "invalid argument"
  | .tooLong => "file name too long"
  | .missing => "no such file or directory"
  | .notDirectory => "not a directory"
  | .directory => "is a directory"

/-- What a path leads to, by the names from the working directory on. Nothing is known of the
directories above it but that they are there. -/
inductive Place
  | directory (names : List String)
  | above (levels : Nat)
  | file (names : List String) (content : List UInt8)

namespace World

/-- The content of the file with some names. -/
def file? (w : World) (names : List String) : Option (List UInt8) :=
  (w.files.find? fun (name, _) => pathParts name == names).map Prod.snd

/-- Whether some names are those of a directory. -/
def isDirectory (w : World) (names : List String) : Bool :=
  names.isEmpty || w.files.any fun (name, _) =>
    names.isPrefixOf (pathParts name) && names.length < (pathParts name).length

/-- One step along a path. -/
def enter (w : World) (place : Place) (part : String) : Except PathFault Place :=
  match place with
  | .file .. => .error .notDirectory
  | .directory names =>
    if part = "." then .ok place
    else if part = ".." then .ok (if names.isEmpty then .above 1 else .directory names.dropLast)
    else if part.utf8ByteSize > 255 then .error .tooLong
    else
      let names := names ++ [part]
      if w.isDirectory names then .ok (.directory names)
      else match w.file? names with
        | some content => .ok (.file names content)
        | none => .error .missing
  | .above levels =>
    if part = "." then .ok place
    else if part = ".." then .ok (.above (levels + 1))
    else if part.utf8ByteSize > 255 then .error .tooLong
    else .error .missing

/-- The place from which a path leads on, if it can be a path at all. -/
def origin (path : String) : Except PathFault Place :=
  if path.toList.contains '\x00' then .error .invalid
  else if path.utf8ByteSize ≥ 4096 then .error .tooLong
  else if path = "" then .error .missing
  else .ok (if path.startsWith "/" then .above 1 else .directory [])

/-- What a path leads to. With a stroke at its end it must be a directory. -/
def locate (w : World) (path : String) : Except PathFault Place := do
  match ← (pathParts path).foldlM w.enter (← origin path) with
  | .file names content =>
    if path.endsWith "/" then .error .notDirectory else pure (.file names content)
  | place => pure place

/-- The content of a file, or why it cannot be read. -/
def readFile (w : World) (path : String) : Except String (List UInt8) :=
  match w.locate path with
  | .ok (.file _ content) => .ok content
  | .ok _ => .error s!"read {path}: is a directory"
  | .error fault => .error s!"open {path}: {fault.text}"

/-- The path of a file that is created or replaced in a directory. -/
def place (w : World) (directory : Place) (part : String) (path : String) :
    Except PathFault String :=
  match directory, w.enter directory part with
  | .directory names, .error .missing => .ok ("/".intercalate (names ++ [part]))
  | _, .error .missing => .ok path
  | _, .ok (.file names _) => .ok ("/".intercalate names)
  | _, .ok _ => .error .directory
  | _, .error fault => .error fault

/-- The path of the file that a path stands for when it is written to, or why it cannot be. -/
def createFile (w : World) (path : String) : Except String String :=
  let result : Except PathFault String := do
    let start ← origin path
    let parts := pathParts path
    let directory ← parts.dropLast.foldlM w.enter start
    match directory, parts.getLast? with
    | .file .., _ => .error .notDirectory
    | _, none => .error .directory
    | directory, some last =>
      if path.endsWith "/" then .error .directory else w.place directory last path
  match result with
  | .ok resolved => .ok resolved
  | .error fault => .error s!"open {path}: {fault.text}"

/-- The files among some that were not there before, and are below the working directory. -/
def added (w : World) (files : List (String × List UInt8)) : List (String × List UInt8) :=
  files.filter fun (path, _) =>
    (w.file? (pathParts path)).isNone && !path.startsWith "/" && !path.startsWith "../"

/-- The content of a variable; an empty one counts as none. -/
def lookup (w : World) (name : String) : Option String :=
  (w.environment.lookup name).filter (· ≠ "")

end World

/-- Why a command fails. -/
inductive Failure
  | stated (text : String)
  /-- YAML that cannot be read, and YAML of another form than the wanted one. -/
  | malformed (text : String)
  | mismatched (text : String)
  /-- A document that is not in the binary form. -/
  | garbled
  | fault (fault : Fault)
  | batch (failure : BatchFailure)
  | machine (fault : Machine.Fault)
  | thrown (heap : Heap) (exception : Nat)

def Failure.message : Failure → String
  | .stated text | .malformed text | .mismatched text => text
  | .garbled => "artifact: unmarshal document"
  | .fault cause => cause.message
  | .batch cause => cause.message
  | .machine cause => cause.message
  | .thrown heap exception => heap.message exception

structure Outcome where
  output : List UInt8 := []
  failure : Option Failure := none
  /-- The files that the command creates. -/
  files : List (String × List UInt8) := []
  log : List LogEntry := []

def Outcome.ofText (text : String) : Outcome := { output := Text.bytes text }

def Outcome.failed (failure : Failure) : Outcome := { failure := some failure }

end Lowering.Command
