import Lowering.Heap.Text
import Lowering.Lowered

/-!
Documents: lowered routines in a plain form for other programs, and the way back.
-/

namespace Lowering.Artifact
open Host

/-- One operation. `a` is the label, local or depth that it refers to; for an invocation `a` and
`b` are the counts of arguments and results. -/
structure Op where
  op : String
  a : Int64 := 0
  b : Int64 := 0
  arg : Int64 := 0
  helper : String := ""
  name : String := ""
  value : Value := .none
  null : Bool := false
  origin : Int64 := 0

/-- One handler region of the guest function. -/
structure Handler where
  id : Int64 := 0
  dialect : String := ""
  start : Int64 := 0
  stop : Int64 := 0
  target : Int64 := 0
  depth : Int64 := 0
  entryDepth : Int64 := 0
  lasti : Bool := false

structure Routine where
  name : String := ""
  filename : String := ""
  version : String := ""
  localCount : Int64 := 0
  maxDepth : Int64 := 0
  ops : List Op := []
  regions : List Protected := []
  handlers : List Handler := []

structure Document where
  routines : List Routine := []

mutual

/-- A constant in plain form. What is neither a scalar nor a sequence becomes text. -/
def constant (h : Heap) : Value → Value
  | .none => .none
  | .bool b => .bool b
  | .int n => .int n
  | .float x => .float x
  | .str s => .str s
  | .word n => .int n
  | .sequence items => .sequence (constantAll h items)
  | v => .str (h.plain v)

def constantAll (h : Heap) : List Value → List Value
  | [] => []
  | v :: rest => constant h v :: constantAll h rest

end

def Op.ofOperation (h : Heap) (o : Operation) (origin : Int64) : Op :=
  let op : Op := { op := o.kind, origin }
  match o with
  | .label id => { op with a := id }
  | .const .null => { op with null := true }
  | .const v => { op with value := constant h v }
  | .loadLocal i | .storeLocal i | .deleteLocal i => { op with a := i }
  | .loadGlobal name | .storeGlobal name => { op with name }
  | .pick depth | .swap depth => { op with a := depth }
  | .invoke inv =>
    { op with helper := inv.helper.name, a := inv.args, b := inv.results, arg := inv.arg,
              name := inv.name }
  | .goto label | .ifTrue label | .ifFalse label => { op with a := label }
  | _ => op

/-- The plain form of a lowered function. -/
def Routine.ofLowered (h : Heap) (l : Lowered) : Routine where
  name := l.routine.name
  filename := l.function.filename
  version := l.function.version.text
  localCount := l.routine.localCount
  maxDepth := l.routine.maxDepth
  ops := l.routine.ops.toList.zipIdx.map fun (o, i) =>
    Op.ofOperation h o (l.routine.origins.getD i 0)
  regions := l.routine.regions
  handlers := l.regions.map fun r =>
    { id := r.id, dialect := r.dialect.text, start := r.start, stop := r.stop, target := r.handler
      depth := r.depth, entryDepth := r.entryDepth, lasti := r.lasti }

/-- The document of a batch, without the functions that failed. -/
def Document.ofResults (h : Heap) (results : List (Option Lowered)) : Document :=
  ⟨results.filterMap fun result => result.map (Routine.ofLowered h)⟩

mutual

/-- A constant as it was before decoding widened its integers. -/
def narrowed : Value → Value
  | .natural n => .int n.toInt64
  | .sequence items => .sequence (narrowedAll items)
  | v => v

def narrowedAll : List Value → List Value
  | [] => []
  | v :: rest => narrowed v :: narrowedAll rest

end

/-- The operation that a plain form stands for, if its name is known. -/
def Op.operation? (o : Op) : Option Operation :=
  match o.op with
  | "Label" => some (.label o.a)
  | "Const" => some (.const (if o.null then .null else narrowed o.value))
  | "LoadLocal" => some (.loadLocal o.a)
  | "StoreLocal" => some (.storeLocal o.a)
  | "DeleteLocal" => some (.deleteLocal o.a)
  | "LoadGlobal" => some (.loadGlobal o.name)
  | "StoreGlobal" => some (.storeGlobal o.name)
  | "Pop" => some .pop
  | "Dup" => some .dup
  | "Pick" => some (.pick o.a)
  | "Swap" => some (.swap o.a)
  | "Invoke" =>
    some (.invoke { helper := .ofName o.helper, args := o.a, results := o.b, arg := o.arg
                    name := o.name })
  | "Goto" => some (.goto o.a)
  | "IfTrue" => some (.ifTrue o.a)
  | "IfFalse" => some (.ifFalse o.a)
  | "Return" => some .ret
  | "Throw" => some .throw
  | "GetHandled" => some .getHandled
  | "SetHandled" => some .setHandled
  | _ => none

def operations (routine : String) : Nat → List Op → Except String (List Operation)
  | _, [] => .ok []
  | i, o :: rest =>
    match o.operation? with
    | none => .error s!"routine {routine}: op {i}: unknown operation {Text.quote o.op}"
    | some operation =>
      match operations routine (i + 1) rest with
      | .error text => .error text
      | .ok rest => .ok (operation :: rest)

/-- The routine that a plain form stands for. -/
def Routine.toRoutine (r : Routine) : Except String Host.Routine :=
  match operations r.name 0 r.ops with
  | .error text => .error text
  | .ok ops =>
    .ok { name := r.name, localCount := r.localCount, maxDepth := r.maxDepth
          ops := ops.toArray, regions := r.regions
          origins := (r.ops.map Op.origin).toArray }

end Lowering.Artifact
