import Lowering.Argument
import Lowering.Artifact.Format
import Lowering.Command.Settings
import Lowering.Disassembly
import Lowering.Listing.Build

/-!
The commands: lowering listings, disassembling one, running a function, and telling the version
of the program.
-/

namespace Lowering.Command

/-- What the program knows of its own build. -/
structure Release where
  version : String := "dev"
  commit : String := "unknown"
  date : String := "unknown"

namespace Settings

def colored (s : Settings) : Bool := s.world.colored && !s.switch "no-color"

/-- The version that replaces those of the listings; zero when none does. -/
def override (s : Settings) : Except Failure Version :=
  let text := s.text "guest-version" ""
  if text = "" then .ok .zero
  else match Version.parse text with
    | .ok version => .ok version
    | .error fault => .error (.stated fault.message)

end Settings

/-- A failure in reading a listing, with its path. -/
def readFailure (path : String) (fault : Listing.ReadFault) : Failure :=
  let text := path ++ ": " ++ fault.message
  match fault with
  | .malformed => .malformed text
  | .mismatched _ => .mismatched text
  | _ => .stated text

/-- A listing in a file. Functions that name no file belong to this one. -/
def loadListing (w : World) (path : String) : Except Failure Listing.Document :=
  match w.readFile path with
  | .error text => .error (.stated text)
  | .ok source =>
    match Listing.Document.read source with
    | .error fault => .error (readFailure path fault)
    | .ok document =>
      .ok { document with functions := document.functions.map fun f =>
        if f.filename = "" then { f with filename := path } else f }

def loadFrom (w : World) (override : Version) : List String → Except Failure (List Guest.Function)
  | [] => .ok []
  | path :: rest => do
    let document ← loadListing w path
    match document.build override with
    | .error fault => .error (.fault (.noted path fault.fault))
    | .ok functions =>
      let others ← loadFrom w override rest
      pure (functions ++ others)

/-- The functions of several listings. -/
def load (s : Settings) (paths : List String) : Except Failure (List Guest.Function) := do
  let override ← s.override
  loadFrom s.world override paths

/-- Puts what a command writes where it belongs: on the output, or into a file. -/
def deliver (s : Settings) (content : List UInt8) (failure : Option Failure) : Outcome :=
  let path := s.text "output" ""
  if path = "" then { output := content, failure }
  else match s.world.createFile path with
    | .error text => .failed (.stated text)
    | .ok path => { files := [(path, content)], failure }

/-- Lowered functions as text. -/
def routinesText (colored : Bool) (h : Heap) (results : List Lowered) : String :=
  "\n".intercalate <| results.map fun l =>
    let heading := s!"{l.function.name} ({l.function.version.text}) locals={l.routine.localCount.toInt} max_depth={l.routine.maxDepth.toInt}\n"
    let handlers := l.regions.map fun r => s!"handler {r.text}\n"
    heading ++ Disassembly.renderRoutine colored h l.routine ++ String.join handlers

/-- What lowering writes in a format. -/
def loweredContent (colored : Bool) (format : String) (results : List (Option Lowered)) :
    Except String (List UInt8) :=
  let h : Heap := {}
  if format = "text" then .ok (Text.bytes (routinesText colored h (results.filterMap id)))
  else if format = "json" || format = "cbor" then
    match (Artifact.Document.ofResults h results).write (Artifact.binary h) format .plain with
    | .error text => .error text
    | .ok (.text text) => .ok (Text.bytes text)
    | .ok (.bytes bytes) => .ok bytes
  else .error ("unknown output format: " ++ format)

/-- Lowers the functions of listings. Those that fail do not keep the others from being
written. -/
def performLower (s : Settings) (paths : List String) : Outcome :=
  match load s paths with
  | .error failure => .failed failure
  | .ok functions =>
    let batch := lowerAll (functions.map some)
    let outcome := match loweredContent s.colored (s.text "format" "text") batch.results with
      | .error text => deliver s [] (some (.stated text))
      | .ok content => deliver s content (batch.failure.map .batch)
    { outcome with log := batch.log }

/-- The listings of functions, up to the first that has none. -/
def disassembly (colored : Bool) (h : Heap) : List Guest.Function → List String × Option Failure
  | [] => ([], none)
  | fn :: rest =>
    let heading := s!"{fn.name} ({fn.version.text})\n"
    match Disassembly.rows h fn with
    | .error fault => ([heading], some (.fault (.noted fn.name fault)))
    | .ok rows =>
      let (others, failure) := disassembly colored h rest
      ((heading ++ Disassembly.render colored h rows ++ Disassembly.renderTable fn) :: others,
        failure)

def notFound (name : String) : Failure := .stated s!"function {Text.quote name} not found"

def performDisassemble (s : Settings) (path : String) : Outcome :=
  match load s [path] with
  | .error failure => .failed failure
  | .ok functions =>
    let name := s.text "func" ""
    let chosen := if name = "" then some functions
      else (functions.find? (·.name == name)).map ([·])
    match chosen with
    | none => .failed (notFound name)
    | some functions =>
      let (texts, failure) := disassembly s.colored {} functions
      deliver s (Text.bytes ("\n".intercalate texts)) failure

def toRoutines : List Artifact.Routine → Except Failure (List Host.Routine)
  | [] => .ok []
  | r :: rest =>
    match r.toRoutine with
    | .error text => .error (.stated text)
    | .ok routine => (toRoutines rest).map (routine :: ·)

/-- The routines in a file: a document in the binary form, or a listing to lower. -/
def loadRoutines (s : Settings) (path : String) : Except Failure (List Host.Routine × List LogEntry) :=
  if ending path = "cbor" then
    match s.world.readFile path with
    | .error text => .error (.stated text)
    | .ok bytes =>
      match (Artifact.binary {}).unmarshal bytes with
      | none => .error .garbled
      | some document => (toRoutines document.routines).map fun routines => (routines, [])
  else do
    let functions ← load s [path]
    let batch := lowerAll (functions.map some)
    match batch.failure with
    | some failure => .error (.batch failure)
    | none => pure (batch.results.filterMap fun l => l.map Lowered.routine, batch.log)

def argumentFailure (fault : Argument.Fault) : Failure :=
  match fault with
  | .malformed => .malformed fault.message
  | .mismatched .. => .mismatched fault.message
  | .form _ => .stated fault.message

def readArguments : List String → Except Failure (List Value)
  | [] => .ok []
  | word :: rest =>
    match Argument.parse word with
    | .error fault => .error (argumentFailure fault)
    | .ok value => (readArguments rest).map (value :: ·)

/-- An event of a run in the log. -/
def eventEntry : Machine.Event → LogEntry
  | .step ip op origin depth frames =>
    ⟨.debug, [("offset", .number origin), ("ip", .number (Int64.ofNat ip)),
      ("depth", .number (Int64.ofNat depth)), ("frame", .number (Int64.ofNat frames)),
      ("op", .text op)], "step"⟩
  | .call name args _ =>
    ⟨.debug, [("function", .text name), ("args", .number (Int64.ofNat args))], "call"⟩
  | .ret name _ => ⟨.debug, [("function", .text name)], "return"⟩

/-- Runs a routine that knows the others by their names. -/
def runRoutine (fuel : Nat) (s : Settings) (routines : List Host.Routine) (target : Host.Routine)
    (args : List Value) : Outcome :=
  let start := routines.foldl (fun (st : Machine.State) r =>
    let (ref, heap) := st.heap.newRoutine r
    { st with heap }.define r.name (.routine ref)) (Machine.State.start {})
  let observer : Option Machine.Observer :=
    if s.switch "trace" then some { mode := .onOrigin, returns := false } else none
  let (st, ending) := Machine.start { maxSteps := s.number "max-steps", observer } fuel start target args
  let outcome : Outcome := match ending with
    | .returned v => .ofText ((st.heap.repr? v).getD "" ++ "\n")
    | .thrown e => .failed (.thrown st.heap e)
    | .failed fault => .failed (.machine fault)
    | _ => {}
  { outcome with log := st.trace.events.toList.map eventEntry }

def performRun (fuel : Nat) (s : Settings) (path : String) (words : List String) : Outcome :=
  match loadRoutines s path with
  | .error failure => .failed failure
  | .ok (routines, log) =>
    let name := s.text "func" ""
    match routines with
    | [] => .failed (.stated (path ++ ": no functions"))
    | first :: _ =>
      let target := (routines.reverse.find? (·.name == name)).getD first
      if name ≠ "" && target.name ≠ name then .failed (notFound name)
      else match readArguments words with
        | .error failure => .failed failure
        | .ok args =>
          let outcome := runRoutine fuel s routines target args
          { outcome with log := log ++ outcome.log }

def performVersion (release : Release) (s : Settings) : Outcome :=
  let guests := Version.minimum.text ++ "+"
  let format := s.text "format" "text"
  if format = "json" then
    .ofText ((Artifact.Node.fields [("version", .text release.version),
      ("commit", .text release.commit), ("date", .text release.date),
      ("guest_versions", .text guests)]).render .plain ++ "\n")
  else if format = "text" then
    .ofText s!"{programName} {release.version}\ncommit: {release.commit}\nbuilt: {release.date}\nguest versions: {guests}\n"
  else .failed (.stated ("unknown output format: " ++ format))

def perform (release : Release) (fuel : Nat) (s : Settings) (verb : Verb) : Outcome :=
  match verb, s.given.words with
  | .lower, paths => performLower s paths
  | .disassemble, path :: _ => performDisassemble s path
  | .run, path :: words => performRun fuel s path words
  | .version, _ => performVersion release s
  | _, [] => {}

/-- Carries out a command line. -/
def execute (release : Release) (fuel : Nat) (world : World) (line : List String) : Outcome :=
  match Request.parse line with
  | .error text => .failed (.stated text)
  | .ok .help => {}
  | .ok .release => .ofText s!"{programName} {release.version}\n"
  | .ok (.command verb given) =>
    let settings : Settings := { given, world }
    match loadConfiguration settings with
    | .error failure => .failed failure
    | .ok config =>
      let settings := { settings with config }
      match logLevel (settings.text "log-level" "warn") with
      | .error text => .failed (.stated text)
      | .ok level =>
        let outcome := perform release fuel settings verb
        let level := if settings.switch "trace" then .debug else level
        { outcome with log := LogEntry.from level outcome.log }

end Lowering.Command
