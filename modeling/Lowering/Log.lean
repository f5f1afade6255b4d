import Lowering.Lowered
import Lowering.Text.Blank

/-!
The log: what lowering reports, as entries with a level and named fields.
-/

namespace Lowering

inductive Level
  | trace | debug | info | warn | error | fatal | critical | unnamed | disabled
deriving DecidableEq, Repr

namespace Level

/-- Levels in increasing order of weight. -/
def weight : Level → Int
  | trace => -1
  | debug => 0
  | info => 1
  | warn => 2
  | error => 3
  | fatal => 4
  | critical => 5
  | unnamed => 6
  | disabled => 7

def text : Level → String
  | trace => "trace"
  | debug => "debug"
  | info => "info"
  | warn => "warn"
  | error => "error"
  | fatal => "fatal"
  | critical => "panic"
  | unnamed => ""
  | disabled => "disabled"

def all : List Level := [trace, debug, info, warn, error, fatal, critical, disabled, unnamed]

/-- A level by its name, in letters of any case. -/
def ofName? (name : String) : Option Level := all.find? fun level => Text.isWord level.text name

end Level

inductive Field
  | number (n : Int64)
  | text (s : String)
deriving DecidableEq, Repr

structure LogEntry where
  level : Level
  fields : List (String × Field)
  message : String
deriving DecidableEq, Repr

/-- The entry of an event in the lowering of a function. -/
def Event.entry (function : String) : Event → LogEntry
  | .skippedHandler region handler =>
    ⟨.debug, [("function", .text function), ("region", .number region), ("handler", .number handler)],
      "skipping unreachable handler"⟩
  | .skippedInstruction offset opcode =>
    ⟨.debug, [("function", .text function), ("offset", .number offset), ("op", .text opcode)],
      "skipping unreachable instruction"⟩
  | .finished instructions operations regions maxDepth =>
    ⟨.debug, [("function", .text function), ("instructions", .number (Int64.ofNat instructions)),
      ("operations", .number (Int64.ofNat operations)), ("regions", .number (Int64.ofNat regions)),
      ("max_depth", .number maxDepth)], "translated function"⟩

/-- The entries of at least a level. -/
def LogEntry.from (level : Level) (entries : List LogEntry) : List LogEntry :=
  if level == .disabled then [] else entries.filter fun entry => level.weight ≤ entry.level.weight

end Lowering
