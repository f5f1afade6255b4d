import Lowering.Guest.Operator
import Lowering.Guest.Plan

/-!
An instruction bound to the behaviour that its version gives it, after its operand has been
checked against the function.
-/

namespace Lowering.Guest

structure Bound where
  inst : Instruction
  opcode : Opcode
  dialect : Dialect
  behavior : Behavior
deriving DecidableEq, Repr

namespace Bound

def arg (o : Bound) : Int64 := o.inst.arg

/-- The index of the name that the operand gives. -/
def nameIndex (o : Bound) : Int64 := o.arg >>> Int64.ofNat o.behavior.nameShift

/-- The number of the comparison that the operand gives. -/
def comparison (o : Bound) : Int64 := o.arg >>> Int64.ofNat o.behavior.compareShift

/-- The operand asks for the extra slot. -/
def wantsNull (o : Bound) : Bool := o.behavior.nullBit && o.arg &&& 1 == 1

/-- How many slots a call takes, from the callable to the last argument. -/
def callWidth (o : Bound) : Int64 := o.arg + Int64.ofNat o.behavior.callSlots

def inRange (what : String) (index : Int64) (count : Nat) : Option Invalidity :=
  if index.toInt < 0 || index.toInt ≥ count then some (.outOfRange what index count) else none

/-- What is wrong with the operand, apart from a jump that leads nowhere. -/
def badOperand (fn : Function) (o : Bound) : Option Invalidity :=
  match o.opcode with
  | .loadConst => inRange "constant" o.arg fn.constants.size
  | .loadFast | .storeFast | .deleteFast => inRange "local" o.arg fn.localCount
  | .loadGlobal | .loadAttr => inRange "name" o.nameIndex fn.names.size
  | .storeGlobal | .storeAttr => inRange "name" o.arg fn.names.size
  | .copy => if o.arg < 1 then some .copyOperand else none
  | .swap => if o.arg < 2 then some .swapOperand else none
  | .buildTuple | .buildList | .callFunction | .call =>
    if o.arg < 0 then some (.negativeCount o.arg) else none
  | .raiseVarargs => if o.arg < 0 || 2 < o.arg then some .raiseOperand else none
  | .binaryOp =>
    if o.arg < 0 || 26 ≤ o.arg || (Arithmetic.ofOperand? o.arg).isNone then
      some (.binaryOperator o.arg)
    else none
  | .compareOp => if (Comparison.ofCode? o.comparison).isNone then some (.comparison o.comparison) else none
  | _ => none

def check (fn : Function) (o : Bound) : Option Invalidity :=
  if o.opcode.jumps && (fn.indexOf? o.arg).isNone then some (.jumpTarget o.arg)
  else badOperand fn o

/-- Binds an instruction of a function. -/
def ofInstruction (fn : Function) (inst : Instruction) : Except Fault Bound :=
  match Opcode.ofCode? inst.code with
  | none => .error (.invalid inst.offset (.unknownOpcode inst.code))
  | some opcode =>
    match resolve? opcode fn.version with
    | none => .error (.unsupported fn.version opcode.name inst.offset)
    | some (dialect, behavior) =>
      let bound : Bound := ⟨inst, opcode, dialect, behavior⟩
      match check fn bound with
      | some reason => .error (.invalid inst.offset reason)
      | none => .ok bound

end Bound
end Lowering.Guest
