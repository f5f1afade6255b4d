import Lowering.Guest.Function
import Lowering.Guest.Operator
import Lowering.Heap.Text
import Lowering.Lowered
import Lowering.Text.Table

/-!
Functions and routines as tables.
-/

namespace Lowering.Disassembly
open Guest Host Text

/-- One disassembled instruction. `info` says what the operand refers to. -/
structure Row where
  offset : Int64
  name : String
  operands : List Value := []
  info : String := ""
  line : Int64 := 0

def nameAt (fn : Function) (index : Int64) : Option String :=
  if index < 0 then none else fn.names[index.toInt.toNat]?

/-- What the operand of an instruction refers to. -/
def describe (h : Heap) (fn : Function) (opcode : Opcode) (arg : Int64) : String :=
  let behavior := ((resolve? opcode fn.version).map Prod.snd).getD {}
  if opcode.jumps then s!"to {arg.toInt}"
  else match opcode with
    | .loadConst =>
      if arg < 0 then ""
      else match fn.constants[arg.toInt.toNat]? with
        | some v => (h.repr? v).getD ""
        | none => ""
    | .loadFast | .storeFast | .deleteFast => fn.localName arg
    | .loadGlobal | .loadAttr =>
      match nameAt fn (arg >>> Int64.ofNat behavior.nameShift) with
      | none => ""
      | some name =>
        if behavior.nullBit && arg &&& 1 == 1 then
          if opcode == .loadGlobal then "NULL + " ++ name else name ++ " (method)"
        else name
    | .storeGlobal | .storeAttr => (nameAt fn arg).getD ""
    | .binaryOp => Arithmetic.operandText arg
    | .compareOp => Comparison.operandText (arg >>> Int64.ofNat behavior.compareShift)
    | .isOp => if arg == 0 then "is" else "is not"
    | .containsOp => if arg == 0 then "in" else "not in"
    | .reraise => if arg == 0 then "" else "lasti"
    | _ => ""

def row (h : Heap) (fn : Function) (inst : Instruction) : Except Fault Row :=
  match Opcode.ofCode? inst.code with
  | none => .error (.invalid inst.offset (.unknownOpcode inst.code))
  | some opcode =>
    if opcode.hasOperand then
      .ok ⟨inst.offset, opcode.name, [.int inst.arg], describe h fn opcode inst.arg, inst.line⟩
    else .ok ⟨inst.offset, opcode.name, [], "", inst.line⟩

/-- The rows of a function, up to the first unknown opcode. -/
def rows (h : Heap) (fn : Function) : Except Fault (List Row) :=
  fn.instructions.toList.mapM (row h fn)

/-- Exception handling stands out from other changes of control flow. -/
def opcodeColor (name : String) : Option Color :=
  match Opcode.ofName? name with
  | none => none
  | some opcode =>
    if Opcode.setupFinally.code ≤ opcode.code && opcode.code ≤ Opcode.checkExcMatch.code then
      some .magenta
    else if opcode.jumps || opcode.terminates then some .yellow
    else none

/-- Instructions as a table. -/
def render (colored : Bool) (h : Heap) (rows : List Row) : String :=
  Table.render
    { header := some ["OFFSET", "OPCODE", "OPERANDS", "INFO"]
      headerAlignment := [.center, .center, .center, .center]
      alignment := [.right, .left, .right, .left]
      rows := rows.map fun r =>
        [toString r.offset.toInt, paint colored (opcodeColor r.name) r.name,
          join ", " (r.operands.map h.plain), paint colored (some .cyan) r.info] }

/-- The exception table of a function; nothing when it is empty. -/
def renderTable (fn : Function) : String :=
  if fn.table.isEmpty then ""
  else Table.render
    { header := some ["START", "END", "TARGET", "DEPTH", "LASTI"]
      alignment := [.right, .right, .right, .right, .left]
      rows := fn.table.map fun e =>
        [toString e.start.toInt, toString e.stop.toInt, toString e.target.toInt,
          toString e.depth.toInt, if e.lasti then "yes" else ""] }

def operationColor : Operation → Option Color
  | .throw | .getHandled | .setHandled => some .magenta
  | .goto _ | .ifTrue _ | .ifFalse _ | .ret => some .yellow
  | .label _ => some .bold
  | _ => none

/-- A routine as a table. Labels have rows of their own. -/
def renderRoutine (colored : Bool) (h : Heap) (r : Routine) : String :=
  Table.render
    { header := some ["INDEX", "OPERATION", "ORIGIN", "HANDLER"]
      alignment := [.right, .left, .right, .left]
      rows := r.ops.toList.zipIdx.map fun (o, i) =>
        let name := paint colored (operationColor o) (h.operationText o)
        match o with
        | .label _ => ["", name, "", ""]
        | _ =>
          let origin := ((r.origins[i]?).map fun n => toString n.toInt).getD ""
          let handler := match r.regionAt? (Int64.ofNat i) with
            | some region => s!"{labelText region.handler} [{region.depth.toInt}]"
            | none => ""
          [toString i, name, origin, handler] }

end Lowering.Disassembly
