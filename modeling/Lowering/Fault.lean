import Lowering.Text.Blank
import Lowering.Version

/-!
Why a function cannot be lowered. A fault states its cause; its wording is given in one place.
A fault that is attributed to an instruction of a function is a `LoweringError`.
-/

namespace Lowering

/-- What is wrong with an instruction, or with the place that control reaches. -/
inductive Invalidity
  | unknownOpcode (code : UInt8)
  | jumpTarget (target : Int64)
  | handlerTarget (target : Int64)
  | outOfRange (what : String) (index : Int64) (count : Nat)
  | copyOperand
  | swapOperand
  | raiseOperand
  | negativeCount (count : Int64)
  | binaryOperator (operand : Int64)
  | comparison (operand : Int64)
  | setupWithoutRegion
  | noInstructions
  | endOfFunction
  | endOfRoutine
  | undefinedLabel (label : String)
  | stated (text : String)
deriving DecidableEq, Repr

def Invalidity.text : Invalidity → String
  | unknownOpcode code => s!"unknown opcode {code}"
  | jumpTarget target => s!"jump target {target.toInt} is not an instruction"
  | handlerTarget target => s!"exception handler target {target.toInt} is not an instruction"
  | outOfRange what index count => s!"{what} index {index.toInt} out of range [0, {count})"
  | copyOperand => "COPY operand must be at least 1"
  | swapOperand => "SWAP operand must be at least 2"
  | raiseOperand => "RAISE_VARARGS operand must be 0, 1 or 2"
  | negativeCount count => s!"negative count {count.toInt}"
  | binaryOperator operand => s!"unknown binary operator {operand.toInt}"
  | comparison operand => s!"unknown comparison {operand.toInt}"
  | setupWithoutRegion => "SETUP_FINALLY without a region"
  | noInstructions => "function has no instructions"
  | endOfFunction => "control falls off the end of the function"
  | endOfRoutine => "control falls off the end of the routine"
  | undefinedLabel label => "undefined label " ++ label
  | stated text => text

/-- How the exception state of a region is not where it should be. -/
inductive Malformation
  | tablePresent (version : Version)
  | badEntry (entry : String)
  | sharedHandler
  | savedExpected (found : String)
  | stateMismatch
  | tripleExpected (kind : String) (position : Int64) (found : String)
  | setupDepths
  | noBlock
  | outsideHandler
  | shallowInstruction
  | blocksDiffer (offset : Int64)
  | shallowOperation (index : Nat)
  | stated (text : String)
deriving DecidableEq, Repr

def Malformation.text : Malformation → String
  | tablePresent version => "exception table present for guest version " ++ version.text
  | badEntry entry => "invalid exception table entry " ++ entry
  | sharedHandler => "exception table entries sharing a handler disagree"
  | savedExpected found => "POP_EXCEPT expects the saved exception on top, found " ++ found
  | stateMismatch => "POP_EXCEPT does not match the handler's exception state"
  | tripleExpected kind position found =>
    s!"expected {kind} at stack position {position.toInt}, found {found}"
  | setupDepths => "SETUP_FINALLY reached at different depths"
  | noBlock => "POP_BLOCK with no active block"
  | outsideHandler => "POP_EXCEPT outside an exception handler"
  | shallowInstruction => "protected instruction is shallower than its handler's depth"
  | blocksDiffer offset => s!"block stacks differ at offset {offset.toInt}"
  | shallowOperation index => s!"operation {index} is shallower than its region"
  | stated text => text

inductive Fault
  /-- An instruction takes more slots than the stack holds. -/
  | underflow (needed present : Int64)
  /-- Two shapes cannot be merged. A negative position says that their depths differ. -/
  | conflict (leftDepth rightDepth position : Int64) (left right : String)
  /-- The exception state of a handler region is misplaced. -/
  | malformed (region handler needed present : Int64) (reason : Malformation)
  /-- An opcode, or the whole version when it is empty, is not defined. A negative offset is
  unknown. -/
  | unsupported (version : Version) (opcode : String) (offset : Int64)
  | invalid (offset : Int64) (reason : Invalidity)
  /-- The depth of the emitted operations is not the depth of the shape they come from. -/
  | disagreement (host guest offset : Int64)
  | plain (text : String)
  /-- A cause with a note in front. -/
  | noted (note : String) (cause : Fault)
deriving DecidableEq, Repr

inductive FaultKind
  | unclassified | underflow | conflict | malformed | unsupported | invalid
deriving DecidableEq, Repr

namespace FaultKind

def ofCode : Int64 → FaultKind
  | 1 => underflow
  | 2 => conflict
  | 3 => malformed
  | 4 => unsupported
  | 5 => invalid
  | _ => unclassified

def text : FaultKind → String
  | underflow => "stack underflow"
  | conflict => "stack shape conflict"
  | malformed => "malformed exception region"
  | unsupported => "unsupported guest version"
  | invalid => "invalid instruction"
  | unclassified => "translation error"

/-- The stable identifier of a kind; only classified faults have one. -/
def code : FaultKind → String
  | underflow => "E4001"
  | conflict => "E4002"
  | malformed => "E4003"
  | unsupported => "E4004"
  | invalid => "E4005"
  | unclassified => ""

def classified : List FaultKind := [underflow, conflict, malformed, unsupported, invalid]

/-- The short description that belongs to an identifier. -/
def describe (code : String) : String :=
  ((classified.find? (·.code == code)).map text).getD "unknown error"

end FaultKind

namespace Fault

def kind : Fault → FaultKind
  | underflow .. => .underflow
  | conflict .. => .conflict
  | malformed .. => .malformed
  | unsupported .. => .unsupported
  | invalid .. => .invalid
  | disagreement .. | plain .. => .unclassified
  | noted _ cause => cause.kind

def message : Fault → String
  | underflow needed present =>
    s!"stack underflow: need {needed.toInt} slot(s), have {present.toInt}"
  | conflict leftDepth rightDepth position left right =>
    if position < 0 then
      s!"stack shape conflict: depth {leftDepth.toInt} vs {rightDepth.toInt}"
    else s!"stack shape conflict at slot {position.toInt}: {left} vs {right}"
  | malformed region handler needed present reason =>
    let place := s!"malformed exception region {region.toInt} (handler {handler.toInt})"
    let why := if reason.text == "" then "" else ": " ++ reason.text
    let depth :=
      if needed == present then ""
      else s!": expected depth {needed.toInt}, got {present.toInt}"
    place ++ why ++ depth
  | unsupported version opcode offset =>
    if opcode == "" then "unsupported guest version " ++ version.text
    else if offset < 0 then s!"{opcode} is not defined for guest version {version.text}"
    else s!"{opcode} at offset {offset.toInt} is not defined for guest version {version.text}"
  | invalid offset reason => s!"invalid instruction at offset {offset.toInt}: {reason.text}"
  | disagreement host guest offset =>
    s!"host depth {host.toInt} disagrees with guest depth {guest.toInt} at offset {offset.toInt}"
  | plain text => text
  | noted note cause => note ++ ": " ++ cause.message

end Fault

/-- A fault attributed to an instruction of a function. Without an opcode it concerns the
function as a whole. -/
structure LoweringError where
  function : String
  filename : String
  offset : Int64
  opcode : String
  line : Int64
  version : Version
  cause : Fault
deriving DecidableEq, Repr

namespace LoweringError

def kind (e : LoweringError) : FaultKind := e.cause.kind

def message (e : LoweringError) : String :=
  if e.opcode == "" then
    s!"{e.kind.text}: {e.function} (guest {e.version.text}): {e.cause.message}"
  else
    s!"{e.kind.text}: {e.function} at offset {e.offset.toInt} ({e.opcode}, guest {e.version.text}): {e.cause.message}"

/-- A description of several lines for a terminal. -/
def friendly (e : LoweringError) : String :=
  let code := e.kind.code
  let head := if code == "" then s!"error: {e.kind.text}\n" else s!"error[{code}]: {e.kind.text}\n"
  let place :=
    if e.filename != "" then
      s!" ({e.filename}" ++ (if 0 < e.line then s!":{e.line.toInt}" else "") ++ ")"
    else if 0 < e.line then s!" (line {e.line.toInt})"
    else ""
  let instruction :=
    if e.opcode == "" then "" else s!"   | offset {e.offset.toInt}: {e.opcode}\n"
  head ++ s!"  --> {e.function}" ++ place ++ "\n" ++ instruction
    ++ s!"   | guest version {e.version.text}\n   = {e.cause.message}\n"

end LoweringError
end Lowering
