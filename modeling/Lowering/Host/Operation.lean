import Lowering.Value

/-!
The operations of the host machine: a stack machine with locals, globals, labels, run-time
helpers and one register for the exception that is being handled.
-/

namespace Lowering.Host

/-- A run-time function that an operation may invoke. -/
inductive Helper
  | unaryNot | unaryNegative | binaryOp | compare | is | contains | isTrue
  | buildTuple | buildList | call | callMethod
  | getAttr | getMethod | setAttr | getIter | iterNext
  | exceptionType | exceptionTraceback | excMatches | makeException | makeExceptionFrom | excLasti
  /-- A helper that the machine does not bring along. -/
  | other (name : String)
deriving DecidableEq, Repr

namespace Helper

def named : List (Helper × String) :=
  [(unaryNot, "unary_not"), (unaryNegative, "unary_negative"), (binaryOp, "binary_op"),
    (compare, "compare"), (is, "is"), (contains, "contains"), (isTrue, "is_true"),
    (buildTuple, "build_tuple"), (buildList, "build_list"), (call, "call"),
    (callMethod, "call_method"), (getAttr, "getattr"), (getMethod, "getmethod"),
    (setAttr, "setattr"), (getIter, "get_iter"), (iterNext, "iter_next"),
    (exceptionType, "exception_type"), (exceptionTraceback, "exception_traceback"),
    (excMatches, "exc_matches"), (makeException, "make_exception"),
    (makeExceptionFrom, "make_exception_from"), (excLasti, "exc_lasti")]

def ofName (name : String) : Helper := ((named.find? (·.2 == name)).map (·.1)).getD (other name)

def name : Helper → String
  | other name => name
  | helper => ((named.find? (·.1 == helper)).map (·.2)).getD ""

/-- The helper is told by a number what to do. -/
def takesNumber : Helper → Bool
  | binaryOp | compare | is | contains => true
  | _ => false

end Helper

/-- An invocation takes `args` operands from the stack, the lowest first, and pushes `results`
values. `arg` and `name` tell the helper what to do. -/
structure Invocation where
  helper : Helper
  args : Int64
  results : Int64
  arg : Int64 := 0
  name : String := ""
deriving DecidableEq, Repr

/-- Labels are numbers: those of guest offsets are not negative, internal ones are. -/
abbrev Label := Int64

/-- A guest offset by its `@`, an internal label by its `L`. -/
def labelText (label : Label) : String :=
  if label < 0 then s!"L{(-label).toInt}" else s!"@{label.toInt}"

inductive Operation
  | label (id : Label)
  | const (value : Value)
  /-- Pushes a local; an unbound one raises. -/
  | loadLocal (index : Int64)
  | storeLocal (index : Int64)
  | deleteLocal (index : Int64)
  | loadGlobal (name : String)
  | storeGlobal (name : String)
  | pop
  | dup
  /-- Pushes a copy of the slot `depth` positions below the top. -/
  | pick (depth : Int64)
  /-- Exchanges the top with the slot `depth` positions below it. -/
  | swap (depth : Int64)
  | invoke (inv : Invocation)
  | goto (label : Label)
  | ifTrue (label : Label)
  | ifFalse (label : Label)
  | ret
  | throw
  /-- Pushes the exception that is being handled, or none. -/
  | getHandled
  | setHandled
deriving Repr, Inhabited

namespace Operation

/-- The names of the kinds, in the order of their numbers. -/
def kindNames : List String :=
  ["Label", "Const", "LoadLocal", "StoreLocal", "DeleteLocal", "LoadGlobal", "StoreGlobal", "Pop",
    "Dup", "Pick", "Swap", "Invoke", "Goto", "IfTrue", "IfFalse", "Return", "Throw", "GetHandled",
    "SetHandled"]

def kindText (code : Nat) : String := kindNames.getD code s!"OperationKind({code})"

def kindCode : Operation → Nat
  | label _ => 0
  | const _ => 1
  | loadLocal _ => 2
  | storeLocal _ => 3
  | deleteLocal _ => 4
  | loadGlobal _ => 5
  | storeGlobal _ => 6
  | pop => 7
  | dup => 8
  | pick _ => 9
  | swap _ => 10
  | invoke _ => 11
  | goto _ => 12
  | ifTrue _ => 13
  | ifFalse _ => 14
  | ret => 15
  | throw => 16
  | getHandled => 17
  | setHandled => 18

def kind (o : Operation) : String := kindText o.kindCode

/-- How many slots the operation reads from the top of the stack. -/
def pops : Operation → Int64
  | storeLocal _ | storeGlobal _ | pop | dup | ifTrue _ | ifFalse _ | ret | throw | setHandled => 1
  | pick depth | swap depth => depth + 1
  | invoke inv => inv.args
  | label _ | const _ | loadLocal _ | deleteLocal _ | loadGlobal _ | goto _ | getHandled => 0

/-- How many slots it leaves in their place. -/
def pushes : Operation → Int64
  | const _ | loadLocal _ | loadGlobal _ | getHandled => 1
  | dup => 2
  | pick depth => depth + 2
  | swap depth => depth + 1
  | invoke inv => inv.results
  | label _ | storeLocal _ | deleteLocal _ | storeGlobal _ | pop | goto _ | ifTrue _ | ifFalse _
  | ret | throw | setHandled => 0

/-- Control never falls through. -/
def terminates : Operation → Bool
  | goto _ | ret | throw => true
  | _ => false

/-- The label that the operation may go to. -/
def target? : Operation → Option Label
  | goto id | ifTrue id | ifFalse id => some id
  | _ => none

end Operation
end Lowering.Host
