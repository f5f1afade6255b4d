import Lowering.Guest.Flow
import Lowering.Host.Builder

/-!
The operations that implement an instruction. The target of a guest jump is the label that bears
its offset.
-/

namespace Lowering.Guest
open Shape Host

/-- The operations at the start of a handler. They find the caught exception on top of the depth
of the region and leave the exception state of the dialect. -/
def Region.prologue (r : Region) : List Operation :=
  match r.dialect with
  | .legacy =>
    [.getHandled, .storeLocal r.scratch, .dup, .setHandled, .dup,
      .invoke { helper := .exceptionType, args := 1, results := 1 }, .swap 1, .dup,
      .invoke { helper := .exceptionTraceback, args := 1, results := 1 }]
  | .modern =>
    if r.lasti then
      [.dup, .invoke { helper := .excLasti, args := 1, results := 1 }, .swap 1]
    else []

/-- The operations that leave a handler: its exception state is dropped, and the exception that
was handled before is handled again. -/
def Plan.leave (plan : Plan) (s : Stack) (slots : Nat) : List Operation :=
  match plan.dialect with
  | .modern => [.setHandled]
  | .legacy =>
    let region := enclosing s
    let previous : Operation :=
      if region == 0 then .const .none else .loadLocal (plan.scratch region)
    List.replicate slots .pop ++ [previous, .setHandled]

/-- The operations that raise the handled exception again. -/
def reraise (dialect : Dialect) (arg : Int64) : List Operation :=
  match dialect with
  | .legacy => [.pop, .swap 1, .pop, .throw]
  | .modern => if arg == 0 then [.throw] else [.swap 1, .pop, .throw]

namespace Bound

/-- The name that an operand refers to. -/
def nameAt (plan : Plan) (index : Int64) : String :=
  plan.function.names.getD index.toInt.toNat ""

/-- The operations of an instruction on a stack of the given shape. Iteration needs one internal
label, which is `fresh`. -/
def expand (plan : Plan) (fresh : Label) (o : Bound) (s : Stack) : List Operation :=
  let invoke (helper : Helper) (args results : Int64) : Operation :=
    .invoke { helper, args, results }
  let operator (operand : Int64) : Operation :=
    .invoke { helper := .binaryOp, args := 2, results := 1, arg := operand }
  match o.opcode with
  | .nop | .resume | .cache | .setupFinally | .popBlock => []
  | .popTop => [.pop]
  | .rotTwo => [.swap 1]
  | .dupTop => [.dup]
  | .copy => [.pick (o.arg - 1)]
  | .swap => [.swap (o.arg - 1)]
  | .pushNull => [.const .null]
  | .loadConst => [.const (plan.function.constants.getD o.arg.toInt.toNat .none)]
  | .loadFast => [.loadLocal o.arg]
  | .storeFast => [.storeLocal o.arg]
  | .deleteFast => [.deleteLocal o.arg]
  | .loadGlobal =>
    (if o.wantsNull then [Operation.const .null] else [])
      ++ [.loadGlobal (nameAt plan o.nameIndex)]
  | .storeGlobal => [.storeGlobal (nameAt plan o.arg)]
  | .loadAttr =>
    let name := nameAt plan o.nameIndex
    if o.wantsNull then [.invoke { helper := .getMethod, args := 1, results := 2, name }]
    else [.invoke { helper := .getAttr, args := 1, results := 1, name }]
  | .storeAttr =>
    [.invoke { helper := .setAttr, args := 2, results := 0, name := nameAt plan o.arg }]
  | .unaryNot => [invoke .unaryNot 1 1]
  | .unaryNegative => [invoke .unaryNegative 1 1]
  | .binaryAdd => [operator Arithmetic.add.code]
  | .binarySubtract => [operator Arithmetic.subtract.code]
  | .binaryMultiply => [operator Arithmetic.multiply.code]
  | .binaryOp => [operator o.arg]
  | .compareOp =>
    [.invoke { helper := .compare, args := 2, results := 1, arg := o.comparison }]
  | .isOp => [.invoke { helper := .is, args := 2, results := 1, arg := o.arg }]
  | .containsOp => [.invoke { helper := .contains, args := 2, results := 1, arg := o.arg }]
  | .buildTuple => [invoke .buildTuple o.arg 1]
  | .buildList => [invoke .buildList o.arg 1]
  | .callFunction => [invoke .call o.callWidth 1]
  | .call => [invoke .callMethod o.callWidth 1]
  | .returnValue => [.ret]
  | .getIter => [invoke .getIter 1 1]
  | .forIter =>
    [.dup, invoke .iterNext 1 2, .ifTrue fresh, .pop, .pop, .goto o.arg, .label fresh]
  | .jumpForward | .jumpAbsolute | .jumpBackward => [.goto o.arg]
  | .popJumpIfFalse => [invoke .isTrue 1 1, .ifFalse o.arg]
  | .popJumpIfTrue => [invoke .isTrue 1 1, .ifTrue o.arg]
  | .popExcept => plan.leave s o.behavior.exceptionSlots
  | .reraise => Guest.reraise plan.dialect o.arg
  | .raiseVarargs =>
    if o.arg == 0 then [.getHandled, .throw]
    else if o.arg == 1 then [invoke .makeException 1 1, .throw]
    else [invoke .makeExceptionFrom 2 1, .throw]
  | .jumpIfNotExcMatch => [.pick 3, .swap 1, invoke .excMatches 2 1, .ifFalse o.arg]
  | .pushExcInfo => [.getHandled, .swap 1, .dup, .setHandled]
  | .checkExcMatch => [.pick 1, .swap 1, invoke .excMatches 2 1]

/-- Appends the operations of an instruction to a routine. -/
def emit (plan : Plan) (o : Bound) (s : Stack) (b : Builder) : Builder :=
  match o.opcode with
  | .forIter =>
    match b.newLabel with
    | (fresh, b) => b.emit (o.expand plan fresh s)
  | _ => b.emit (o.expand plan 0 s)

end Bound
end Lowering.Guest
