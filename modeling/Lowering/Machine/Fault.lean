import Lowering.Host.Operation
import Lowering.Text.Quoted

/-!
How a run ends without a result and without a guest exception. None of these can be caught.
-/

namespace Lowering.Machine

/-- Why a helper or a built-in function gave up. -/
inductive Failure
  | unknownHelper (name : String)
  | missingArguments (helper : String)
  /-- Text or comparison of a value that contains itself, or a progression that never ends. -/
  | endless
  | helper (text : String)
deriving DecidableEq, Repr

def Failure.message : Failure → String
  | unknownHelper name => "unknown helper " ++ Text.quote name
  | missingArguments name => s!"helper {name} is missing arguments"
  | endless => "evaluation does not end"
  | helper text => text

inductive Fault
  | cancelled
  | stepLimit
  /-- An observer stopped the run. -/
  | halted
  | underflow (index : Nat) (operation : String)
  | overflow (index : Nat)
  /-- An operand names slots that are not on the stack. -/
  | outOfStack (index : Nat)
  | undefinedLabel (label : Host.Label)
  | undefinedHandler (label : Host.Label)
  | belowProtected (present : Nat) (needed : Int64) (index : Nat)
  | localOutOfRange (index : Int64)
  | wrongResults (helper : String) (present : Nat) (needed : Int64)
  | endOfRoutine (name : String)
  | gaveUp (failure : Failure)
  /-- The bound on the length of the run is used up. -/
  | outOfFuel
deriving DecidableEq, Repr

def Fault.message : Fault → String
  | cancelled => "context canceled"
  | stepLimit => "step limit exceeded"
  | halted => "execution halted by observer"
  | underflow index operation => s!"stack underflow at operation {index} ({operation})"
  | overflow index => s!"stack overflow at operation {index}"
  | outOfStack index => s!"slot out of range at operation {index}"
  | undefinedLabel label => s!"undefined label {label.toInt}"
  | undefinedHandler label => s!"undefined handler label {label.toInt}"
  | belowProtected present needed index =>
    s!"stack depth {present} below protected depth {needed.toInt} at operation {index}"
  | localOutOfRange index => s!"local {index.toInt} out of range"
  | wrongResults name present needed =>
    s!"helper {name} returned {present} value(s), expected {needed.toInt}"
  | endOfRoutine name => "control fell off the end of routine " ++ name
  | gaveUp failure => failure.message
  | outOfFuel => "run did not end"

end Lowering.Machine
