import Lowering.Guest.Opcode
import Lowering.Version

/-!
Dialects and the version policy. A dialect groups the versions that encode exception handlers
alike. The policy table says in which versions an opcode exists and how it reads its operand;
it is the only place where behaviour depends on the version.
-/

namespace Lowering.Guest

inductive Dialect
  /-- Handlers are opened by an instruction; the exception is a type, value, traceback triple. -/
  | legacy
  /-- Handlers come from an exception table; the exception is a single slot. -/
  | modern
deriving DecidableEq, Repr, Inhabited

namespace Dialect

def text : Dialect → String
  | legacy => "legacy"
  | modern => "modern"

def code : Dialect → Nat
  | legacy => 1
  | modern => 2

def ofCode? : Nat → Option Dialect
  | 1 => some legacy
  | 2 => some modern
  | _ => none

/-- How many slots hold the exception on entry to a handler. -/
def exceptionSlots : Dialect → Nat
  | legacy => 3
  | modern => 1

end Dialect

/-- The dialect of a version; there is none below the minimum. -/
def dialectOf? (v : Version) : Option Dialect :=
  if v.atLeast .exceptionTable then some .modern
  else if v.atLeast .minimum then some .legacy
  else none

/-- How an opcode reads its operand and how much of the stack it takes. -/
structure Behavior where
  /-- Slots of exception state that the opcode consumes. -/
  exceptionSlots : Nat := 0
  /-- The operand is shifted right by this to give the index of a name. -/
  nameShift : Nat := 0
  /-- The lowest operand bit asks for an extra slot below the loaded value. -/
  nullBit : Bool := false
  /-- The operand is shifted right by this to give a comparison. -/
  compareShift : Nat := 0
  /-- Slots below the arguments that a call consumes. -/
  callSlots : Nat := 0
deriving DecidableEq, Repr

/-- The behaviour of an opcode from one version until another, which is open when zero. -/
structure Rule where
  opcode : Opcode
  since : Version
  limit : Version
  behavior : Behavior
deriving DecidableEq, Repr

def Rule.covers (rule : Rule) (v : Version) : Bool :=
  v.atLeast rule.since && (rule.limit.isZero || !v.atLeast rule.limit)

/-- The rules of every opcode. The ranges of one opcode do not overlap. -/
def policy : List Rule :=
  [⟨.nop, .minimum, .zero, {}⟩,
   ⟨.resume, .exceptionTable, .zero, {}⟩,
   ⟨.cache, .exceptionTable, .zero, {}⟩,
   ⟨.popTop, .minimum, .zero, {}⟩,
   ⟨.rotTwo, .minimum, .exceptionTable, {}⟩,
   ⟨.dupTop, .minimum, .exceptionTable, {}⟩,
   ⟨.copy, .exceptionTable, .zero, {}⟩,
   ⟨.swap, .exceptionTable, .zero, {}⟩,
   ⟨.pushNull, .exceptionTable, .zero, {}⟩,
   ⟨.loadConst, .minimum, .zero, {}⟩,
   ⟨.loadFast, .minimum, .zero, {}⟩,
   ⟨.loadGlobal, .minimum, .exceptionTable, {}⟩,
   ⟨.loadGlobal, .exceptionTable, .zero, { nameShift := 1, nullBit := true }⟩,
   ⟨.loadAttr, .minimum, .latest, {}⟩,
   ⟨.loadAttr, .latest, .zero, { nameShift := 1, nullBit := true }⟩,
   ⟨.storeFast, .minimum, .zero, {}⟩,
   ⟨.storeGlobal, .minimum, .zero, {}⟩,
   ⟨.storeAttr, .minimum, .zero, {}⟩,
   ⟨.deleteFast, .minimum, .zero, {}⟩,
   ⟨.unaryNot, .minimum, .zero, {}⟩,
   ⟨.unaryNegative, .minimum, .zero, {}⟩,
   ⟨.binaryAdd, .minimum, .exceptionTable, {}⟩,
   ⟨.binarySubtract, .minimum, .exceptionTable, {}⟩,
   ⟨.binaryMultiply, .minimum, .exceptionTable, {}⟩,
   ⟨.binaryOp, .exceptionTable, .zero, {}⟩,
   ⟨.compareOp, .minimum, .latest, {}⟩,
   ⟨.compareOp, .latest, .zero, { compareShift := 4 }⟩,
   ⟨.isOp, .minimum, .zero, {}⟩,
   ⟨.containsOp, .minimum, .zero, {}⟩,
   ⟨.buildTuple, .minimum, .zero, {}⟩,
   ⟨.buildList, .minimum, .zero, {}⟩,
   ⟨.callFunction, .minimum, .exceptionTable, { callSlots := 1 }⟩,
   ⟨.call, .exceptionTable, .zero, { callSlots := 2 }⟩,
   ⟨.returnValue, .minimum, .zero, {}⟩,
   ⟨.getIter, .minimum, .zero, {}⟩,
   ⟨.forIter, .minimum, .zero, {}⟩,
   ⟨.jumpForward, .minimum, .zero, {}⟩,
   ⟨.jumpAbsolute, .minimum, .exceptionTable, {}⟩,
   ⟨.jumpBackward, .exceptionTable, .zero, {}⟩,
   ⟨.popJumpIfFalse, .minimum, .zero, {}⟩,
   ⟨.popJumpIfTrue, .minimum, .zero, {}⟩,
   ⟨.setupFinally, .minimum, .exceptionTable, { exceptionSlots := 3 }⟩,
   ⟨.popBlock, .minimum, .exceptionTable, {}⟩,
   ⟨.popExcept, .minimum, .exceptionTable, { exceptionSlots := 3 }⟩,
   ⟨.popExcept, .exceptionTable, .zero, { exceptionSlots := 1 }⟩,
   ⟨.reraise, .minimum, .exceptionTable, { exceptionSlots := 3 }⟩,
   ⟨.reraise, .exceptionTable, .zero, { exceptionSlots := 1 }⟩,
   ⟨.raiseVarargs, .minimum, .zero, {}⟩,
   ⟨.jumpIfNotExcMatch, .minimum, .exceptionTable, { exceptionSlots := 3 }⟩,
   ⟨.pushExcInfo, .exceptionTable, .zero, { exceptionSlots := 1 }⟩,
   ⟨.checkExcMatch, .exceptionTable, .zero, {}⟩]

/-- The dialect and the behaviour of an opcode in a version, when it is defined there. -/
def resolve? (opcode : Opcode) (v : Version) : Option (Dialect × Behavior) := do
  let dialect ← dialectOf? v
  let rule ← policy.find? fun rule => rule.opcode == opcode && rule.covers v
  pure (dialect, rule.behavior)

end Lowering.Guest
