import Lowering.Guest.Dialect
import Lowering.Value

/-!
A decoded guest function: its instructions with their offsets, its constants and names, and its
exception table.
-/

namespace Lowering.Guest

structure Instruction where
  offset : Int64
  code : UInt8
  /-- For jumps, the offset of the target. -/
  arg : Int64 := 0
  /-- Zero when unknown. -/
  line : Int64 := 0
deriving DecidableEq, Repr, Inhabited

def Instruction.text (i : Instruction) : String :=
  let hasOperand := ((Opcode.ofCode? i.code).map Opcode.hasOperand).getD false
  let head := s!"{i.offset.toInt} {opcodeText i.code}"
  if hasOperand then head ++ s!" {i.arg.toInt}" else head

/-- One row of an exception table. The instructions with offsets from `start` up to `stop` are
protected: an exception cuts the stack to `depth`, pushes the raising offset when `lasti` asks
for it, pushes the exception and goes to `target`. -/
structure TableEntry where
  start : Int64
  stop : Int64
  target : Int64
  depth : Int64
  lasti : Bool := false
deriving DecidableEq, Repr, Inhabited

namespace TableEntry

def contains (e : TableEntry) (offset : Int64) : Bool := e.start ≤ offset && offset < e.stop

/-- The number of offsets an entry spans. -/
def width (e : TableEntry) : Int64 := e.stop - e.start

def text (e : TableEntry) : String :=
  let lasti := if e.lasti then " lasti" else ""
  s!"{e.start.toInt} to {e.stop.toInt} -> {e.target.toInt} [{e.depth.toInt}]" ++ lasti

end TableEntry

structure Function where
  name : String := ""
  filename : String := ""
  firstLine : Int64 := 0
  version : Version := .zero
  argCount : Int64 := 0
  instructions : Array Instruction := #[]
  constants : Array Value := #[]
  names : Array String := #[]
  localNames : Array String := #[]
  table : List TableEntry := []

namespace Function

/-- The function with its exception table in the order of the starts; rows with equal starts
keep their order. -/
def sorted (fn : Function) : Function :=
  { fn with table := fn.table.mergeSort fun a b => a.start ≤ b.start }

/-- The index of the first instruction at an offset. -/
def indexOf? (fn : Function) (offset : Int64) : Option Nat :=
  fn.instructions.findIdx? (·.offset == offset)

/-- Arguments are the first locals, so there are at least as many locals as arguments. -/
def localCount (fn : Function) : Nat := max fn.localNames.size fn.argCount.toInt.toNat

/-- The name of a local, empty when it has none. -/
def localName (fn : Function) (i : Int64) : String :=
  if i < 0 then "" else fn.localNames.getD i.toInt.toNat ""

/-- How often each opcode number occurs, in the order of the numbers. -/
def opcodeCounts (fn : Function) : List (UInt8 × Nat) :=
  ((List.range 256).map UInt8.ofNat).filterMap fun code =>
    let n := fn.instructions.foldl (fun n i => if i.code == code then n + 1 else n) 0
    if n = 0 then none else some (code, n)

end Function
end Lowering.Guest
