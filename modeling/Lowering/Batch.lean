import Lowering.Log

/-!
Lowering a batch of functions. Each one stands for itself: the failure of one leaves the others
alone, and the batch fails with the list of all failures.
-/

namespace Lowering
open Guest

inductive BatchFailure
  | cancelled
  | failed (errors : List LoweringError)
deriving DecidableEq, Repr

/-- Several errors in one text. -/
def enumerated (messages : List String) : String :=
  let heading :=
    if messages.length = 1 then "1 error occurred:" else s!"{messages.length} errors occurred:"
  heading ++ "\n\t" ++ Text.join "\n\t" (messages.map ("* " ++ ·)) ++ "\n\n"

def BatchFailure.message : BatchFailure → String
  | .cancelled => "context canceled"
  | .failed errors => enumerated (errors.map LoweringError.message)

/-- The kind of a list of errors: the first kind, in the order of their codes, that occurs. -/
def kindOfAll (kinds : List FaultKind) : FaultKind :=
  (FaultKind.classified.find? kinds.contains).getD .unclassified

def BatchFailure.kind : BatchFailure → FaultKind
  | .cancelled => .unclassified
  | .failed errors => kindOfAll (errors.map LoweringError.kind)

/-- The error of an entry that holds no function. -/
def missingFunction (index : Nat) : LoweringError :=
  { function := s!"function[{index}]", filename := "", offset := -1, opcode := "", line := 0
    version := .zero, cause := .plain "nil function" }

/-- The result of one entry of a batch, and its part of the log. -/
def lowerEntry (index : Nat) : Option Function → Except LoweringError Lowered × List LogEntry
  | none =>
    let error := missingFunction index
    (.error error, [⟨.warn, [("error", .text error.message), ("index", .number (Int64.ofNat index))],
      "translation failed"⟩])
  | some fn =>
    match lower fn with
    | (.ok lowered, events) => (.ok lowered, events.map (·.entry fn.name))
    | (.error error, events) =>
      (.error error, events.map (·.entry fn.name) ++
        [⟨.warn, [("error", .text error.message), ("function", .text fn.name)],
          "translation failed"⟩])

structure Batch where
  /-- One entry per function, in order; those that failed are missing. -/
  results : List (Option Lowered)
  failure : Option BatchFailure
  log : List LogEntry

/-- Lowers every function. A batch that is cancelled before it starts lowers none. -/
def lowerAll (fns : List (Option Function)) (cancelled : Bool := false) : Batch :=
  if cancelled && !fns.isEmpty then ⟨fns.map fun _ => none, some .cancelled, []⟩
  else
    let entries := fns.zipIdx.map fun (fn, i) => lowerEntry i fn
    let results := entries.map fun (result, _) => result.toOption
    let errors := entries.filterMap fun (result, _) =>
      match result with
      | .error e => some e
      | .ok _ => none
    ⟨results, if errors.isEmpty then none else some (.failed errors), entries.flatMap Prod.snd⟩

end Lowering
