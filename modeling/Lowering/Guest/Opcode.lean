/-!
The instruction set of the guest. Every opcode has a number, a name, and four facts about its
operand and the control flow that leaves it.
-/

namespace Lowering.Guest

inductive Opcode
  | nop | resume | cache | popTop | rotTwo | dupTop | copy | swap | pushNull | loadConst
  | loadFast | loadGlobal | loadAttr | storeFast | storeGlobal | storeAttr | deleteFast
  | unaryNot | unaryNegative | binaryAdd | binarySubtract | binaryMultiply | binaryOp
  | compareOp | isOp | containsOp | buildTuple | buildList | callFunction | call | returnValue
  | getIter | forIter | jumpForward | jumpAbsolute | jumpBackward | popJumpIfFalse
  | popJumpIfTrue | setupFinally | popBlock | popExcept | reraise | raiseVarargs
  | jumpIfNotExcMatch | pushExcInfo | checkExcMatch
deriving DecidableEq, Repr

namespace Opcode

def code : Opcode → UInt8
  | nop => 1
  | resume => 2
  | cache => 3
  | popTop => 10
  | rotTwo => 11
  | dupTop => 12
  | copy => 13
  | swap => 14
  | pushNull => 15
  | loadConst => 20
  | loadFast => 21
  | loadGlobal => 22
  | loadAttr => 23
  | storeFast => 30
  | storeGlobal => 31
  | storeAttr => 32
  | deleteFast => 33
  | unaryNot => 40
  | unaryNegative => 41
  | binaryAdd => 42
  | binarySubtract => 43
  | binaryMultiply => 44
  | binaryOp => 45
  | compareOp => 46
  | isOp => 47
  | containsOp => 48
  | buildTuple => 50
  | buildList => 51
  | callFunction => 60
  | call => 61
  | returnValue => 62
  | getIter => 70
  | forIter => 71
  | jumpForward => 80
  | jumpAbsolute => 81
  | jumpBackward => 82
  | popJumpIfFalse => 83
  | popJumpIfTrue => 84
  | setupFinally => 90
  | popBlock => 91
  | popExcept => 92
  | reraise => 93
  | raiseVarargs => 94
  | jumpIfNotExcMatch => 95
  | pushExcInfo => 96
  | checkExcMatch => 97

def name : Opcode → String
  | nop => "NOP"
  | resume => "RESUME"
  | cache => "CACHE"
  | popTop => "POP_TOP"
  | rotTwo => "ROT_TWO"
  | dupTop => "DUP_TOP"
  | copy => "COPY"
  | swap => "SWAP"
  | pushNull => "PUSH_NULL"
  | loadConst => "LOAD_CONST"
  | loadFast => "LOAD_FAST"
  | loadGlobal => "LOAD_GLOBAL"
  | loadAttr => "LOAD_ATTR"
  | storeFast => "STORE_FAST"
  | storeGlobal => "STORE_GLOBAL"
  | storeAttr => "STORE_ATTR"
  | deleteFast => "DELETE_FAST"
  | unaryNot => "UNARY_NOT"
  | unaryNegative => "UNARY_NEGATIVE"
  | binaryAdd => "BINARY_ADD"
  | binarySubtract => "BINARY_SUBTRACT"
  | binaryMultiply => "BINARY_MULTIPLY"
  | binaryOp => "BINARY_OP"
  | compareOp => "COMPARE_OP"
  | isOp => "IS_OP"
  | containsOp => "CONTAINS_OP"
  | buildTuple => "BUILD_TUPLE"
  | buildList => "BUILD_LIST"
  | callFunction => "CALL_FUNCTION"
  | call => "CALL"
  | returnValue => "RETURN_VALUE"
  | getIter => "GET_ITER"
  | forIter => "FOR_ITER"
  | jumpForward => "JUMP_FORWARD"
  | jumpAbsolute => "JUMP_ABSOLUTE"
  | jumpBackward => "JUMP_BACKWARD"
  | popJumpIfFalse => "POP_JUMP_IF_FALSE"
  | popJumpIfTrue => "POP_JUMP_IF_TRUE"
  | setupFinally => "SETUP_FINALLY"
  | popBlock => "POP_BLOCK"
  | popExcept => "POP_EXCEPT"
  | reraise => "RERAISE"
  | raiseVarargs => "RAISE_VARARGS"
  | jumpIfNotExcMatch => "JUMP_IF_NOT_EXC_MATCH"
  | pushExcInfo => "PUSH_EXC_INFO"
  | checkExcMatch => "CHECK_EXC_MATCH"

/-- Every opcode, in the order of the numbers. -/
def all : List Opcode :=
  [nop, resume, cache, popTop, rotTwo, dupTop, copy, swap, pushNull, loadConst, loadFast,
    loadGlobal, loadAttr, storeFast, storeGlobal, storeAttr, deleteFast, unaryNot,
    unaryNegative, binaryAdd, binarySubtract, binaryMultiply, binaryOp, compareOp, isOp,
    containsOp, buildTuple, buildList, callFunction, call, returnValue, getIter, forIter,
    jumpForward, jumpAbsolute, jumpBackward, popJumpIfFalse, popJumpIfTrue, setupFinally,
    popBlock, popExcept, reraise, raiseVarargs, jumpIfNotExcMatch, pushExcInfo,
    checkExcMatch]

def ofCode? (code : UInt8) : Option Opcode := all.find? (·.code == code)

def ofName? (name : String) : Option Opcode := all.find? (·.name == name)

/-- The operand means something. -/
def hasOperand : Opcode → Bool
  | resume | copy | swap | loadConst | loadFast | loadGlobal | loadAttr | storeFast
  | storeGlobal | storeAttr | deleteFast | binaryOp | compareOp | isOp | containsOp
  | buildTuple | buildList | callFunction | call | forIter | jumpForward | jumpAbsolute
  | jumpBackward | popJumpIfFalse | popJumpIfTrue | setupFinally | reraise | raiseVarargs
  | jumpIfNotExcMatch => true
  | _ => false

/-- The operand is the offset of an instruction. -/
def jumps : Opcode → Bool
  | forIter | jumpForward | jumpAbsolute | jumpBackward | popJumpIfFalse | popJumpIfTrue
  | setupFinally | jumpIfNotExcMatch => true
  | _ => false

/-- A jump after which control may also fall through. -/
def conditional : Opcode → Bool
  | forIter | popJumpIfFalse | popJumpIfTrue | setupFinally | jumpIfNotExcMatch => true
  | _ => false

/-- Control never falls through. -/
def terminates : Opcode → Bool
  | returnValue | jumpForward | jumpAbsolute | jumpBackward | reraise | raiseVarargs => true
  | _ => false

/-- The operations of the instruction can raise. -/
def mayRaise : Opcode → Bool
  | nop | resume | cache | popTop | rotTwo | dupTop | copy | swap | pushNull | loadConst | storeFast
  | jumpForward | jumpAbsolute | jumpBackward | setupFinally | popBlock | popExcept | pushExcInfo
  | returnValue => false
  | _ => true

end Opcode

/-- The name of an opcode number, for numbers that name nothing too. -/
def opcodeText (code : UInt8) : String := ((Opcode.ofCode? code).map Opcode.name).getD "INVALID"

end Lowering.Guest
