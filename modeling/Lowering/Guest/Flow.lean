import Lowering.Guest.Bound

/-!
What an instruction does to the shape of the stack, on every path that leaves it.
-/

namespace Lowering.Guest
open Shape

/-- A transfer of control to the instruction at `target`. A handler edge is taken only by
raising. -/
structure Edge where
  target : Int64
  shape : Stack
  handler : Bool := false
deriving DecidableEq

structure Flow where
  /-- The shape on the primary path; for terminators the one after the pops. -/
  next : Stack
  /-- Control may continue with the following instruction. -/
  falls : Bool
  branches : List Edge := []
deriving DecidableEq

namespace Flow

/-- Falls through with a shape. -/
def through (s : Stack) : Flow := ⟨s, true, []⟩

/-- Takes `n` slots and pushes others. -/
def replace (stamp : Nat) (s : Stack) (n : Int64) (slots : List Slot) : Except Fault Flow :=
  match s.pop n with
  | .error fault => .error fault
  | .ok rest => .ok (through (rest.pushAll stamp slots))

/-- Takes `n` slots and leaves the function. -/
def leave (s : Stack) (n : Int64) : Except Fault Flow :=
  match s.pop n with
  | .error fault => .error fault
  | .ok rest => .ok ⟨rest, false, []⟩

/-- Takes the condition and branches. -/
def branch (s : Stack) (target : Int64) : Except Fault Flow :=
  match s.pop 1 with
  | .error fault => .error fault
  | .ok rest => .ok ⟨rest, true, [⟨target, rest, false⟩]⟩

/-- The kind of the result of an operator. Numbers stay numbers, except that a power of integers
may be either. -/
def resultKind (operator : Option Arithmetic) (a b : Kind) : Kind :=
  let numeric (k : Kind) : Bool := k == .int || k == .float
  if operator == some .trueDivide then if numeric a && numeric b then .float else .object
  else if a == .int && b == .int then if operator == some .power then .object else .int
  else if numeric a && numeric b then .float
  else if a == .str && b == .str && operator == some .add then .str
  else .object

/-- Exchanges the first and the last slot. -/
def exchange : List Slot → List Slot
  | [] => []
  | first :: rest =>
    match rest.getLast? with
    | none => [first]
    | some last => last :: (rest.dropLast ++ [first])

def binary (stamp : Nat) (s : Stack) (operator : Option Arithmetic) : Except Fault Flow :=
  match s.cells with
  | b :: a :: rest =>
    let kind := resultKind operator a.slot.kind b.slot.kind
    .ok (through ({ s with cells := rest }.push stamp (.ofKind kind)))
  | _ => .error (.underflow 2 s.height)

/-- Checks that leaving a handler takes exactly its exception state. A legacy handler owns the
innermost triple; a modern one takes the saved exception, or a copy of it. Stacks that no region
owns are not checked. -/
def checkLeave (plan : Plan) (dialect : Dialect) (s : Stack) (slots : Nat) : Except Fault Unit :=
  let checkRegion (region : Int64) : Except Fault Unit :=
    if region == 0 then .ok ()
    else
      let base := s.regionBase region
      let bottom := s.peek (s.height - 1 - base)
      let extra : Int64 := match bottom with
        | .ok slot => if slot.kind == .lasti then 1 else 0
        | .error _ => 0
      let needed := base + Int64.ofNat slots + extra
      if s.height == needed then .ok ()
      else .error (.malformed region (plan.handlerOf region) needed s.height .stateMismatch)
  match dialect, s.cells with
  | .legacy, _ => checkRegion (enclosing s)
  | .modern, [] => .ok ()
  | .modern, top :: _ =>
    if top.slot.kind == .prevException then checkRegion top.slot.region
    else
      let region := enclosing s
      if region == 0 then .ok ()
      else .error (.malformed region (plan.handlerOf region) 0 0 (.savedExpected top.slot.text))

/-- Checks the slots below the top for the parts of a legacy triple, from position `i` on. They
must belong to one region, which is zero as long as none was seen. -/
def checkParts (s : Stack) (i region : Int64) : List Kind → Except Fault Unit
  | [] => .ok ()
  | kind :: kinds =>
    match s.peek i with
    | .error fault => .error fault
    | .ok slot =>
      if slot.kind ≠ kind || slot.region == 0 || (region != 0 && slot.region != region) then
        .error (.malformed slot.region (-1) 0 0 (.tripleExpected kind.text i slot.text))
      else checkParts s (i + 1) slot.region kinds

/-- A complete legacy triple stands right below the top. -/
def checkTriple (s : Stack) : Except Fault Unit :=
  checkParts s 1 0 [.excTraceback, .excValue, .excType]

end Flow

namespace Bound
open Guest.Flow

/-- The shapes after an instruction. New slots are stamped with `stamp`. -/
def flow (plan : Plan) (stamp : Nat) (o : Bound) (s : Stack) : Except Fault Flow :=
  let push (slot : Slot) : Except Fault Flow := .ok (through (s.push stamp slot))
  let pushCopy (i : Int64) : Except Fault Flow :=
    match s.peek i with
    | .error fault => .error fault
    | .ok slot => push slot.untagged
  match o.opcode with
  | .nop | .resume | .cache | .popBlock => .ok (through s)
  | .popTop | .storeGlobal => replace stamp s 1 []
  | .rotTwo =>
    match s.top 2 with
    | .error fault => .error fault
    | .ok slots => replace stamp s 2 slots.reverse
  | .dupTop => pushCopy 0
  | .copy => pushCopy (o.arg - 1)
  | .swap =>
    match s.top o.arg with
    | .error fault => .error fault
    | .ok slots => replace stamp s o.arg (exchange slots)
  | .pushNull => push (.ofKind .null)
  | .loadConst => push (.ofConstant (plan.function.constants.getD o.arg.toInt.toNat .none))
  | .loadFast =>
    let slot := s.local? o.arg
    push (if slot.kind == .unbound then .ofKind .object else slot.untagged)
  | .loadGlobal =>
    let slots := if o.wantsNull then [Slot.ofKind .null, .ofKind .object] else [.ofKind .object]
    .ok (through (s.pushAll stamp slots))
  | .loadAttr =>
    replace stamp s 1 (if o.wantsNull then [.ofKind .null, .ofKind .object] else [.ofKind .object])
  | .storeFast =>
    match s.cells with
    | [] => .error (.underflow 1 0)
    | top :: rest =>
      .ok (through ({ s with cells := rest }.setLocal o.arg.toInt.toNat top.slot.untagged))
  | .storeAttr => replace stamp s 2 []
  | .deleteFast => .ok (through (s.setLocal o.arg.toInt.toNat (.ofKind .unbound)))
  | .unaryNot => replace stamp s 1 [.ofKind .bool]
  | .unaryNegative =>
    match s.peek 0 with
    | .error fault => .error fault
    | .ok top =>
      let kind := if top.kind == .int || top.kind == .float then top.kind else .object
      replace stamp s 1 [.ofKind kind]
  | .binaryAdd => binary stamp s (some .add)
  | .binarySubtract => binary stamp s (some .subtract)
  | .binaryMultiply => binary stamp s (some .multiply)
  | .binaryOp => binary stamp s (Arithmetic.ofOperand? o.arg)
  | .compareOp | .isOp | .containsOp => replace stamp s 2 [.ofKind .bool]
  | .buildTuple => replace stamp s o.arg [.ofKind .tuple]
  | .buildList => replace stamp s o.arg [.ofKind .list]
  | .callFunction | .call => replace stamp s o.callWidth [.ofKind .object]
  | .returnValue => leave s 1
  | .getIter => replace stamp s 1 [.ofKind .iterator]
  | .forIter =>
    match s.pop 1 with
    | .error fault => .error fault
    | .ok exhausted =>
      .ok ⟨s.push stamp (.ofKind .object), true, [⟨o.arg, exhausted, false⟩]⟩
  | .jumpForward | .jumpAbsolute | .jumpBackward => .ok ⟨s, false, [⟨o.arg, s, false⟩]⟩
  | .popJumpIfFalse | .popJumpIfTrue => branch s o.arg
  | .setupFinally =>
    match plan.setupRegion? o.inst.offset with
    | none => .error (.invalid o.inst.offset .setupWithoutRegion)
    | some region => .ok ⟨s, true, [⟨o.arg, s.pushAll stamp region.state, true⟩]⟩
  | .popExcept =>
    match checkLeave plan plan.dialect s o.behavior.exceptionSlots with
    | .error fault => .error fault
    | .ok () => replace stamp s (Int64.ofNat o.behavior.exceptionSlots) []
  | .reraise =>
    let extra : Int64 := if o.dialect == .modern && o.arg != 0 then 1 else 0
    leave s (Int64.ofNat o.behavior.exceptionSlots + extra)
  | .raiseVarargs => leave s o.arg
  | .jumpIfNotExcMatch =>
    match checkTriple s with
    | .error fault => .error fault
    | .ok () => branch s o.arg
  | .pushExcInfo =>
    match s.peek 0 with
    | .error fault => .error fault
    | .ok top => replace stamp s 1 [.owned .prevException top.region, top]
  | .checkExcMatch => replace stamp s 1 [.ofKind .bool]

end Bound
end Lowering.Guest
