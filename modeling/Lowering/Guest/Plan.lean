import Lowering.Fault
import Lowering.Guest.Function
import Lowering.Shape.Stack

/-!
The handler regions of a function. Legacy functions open a region by an instruction, and its
bounds and depth are found while the function is analysed; modern functions declare their regions
in the exception table.
-/

namespace Lowering.Guest
open Shape

structure Region where
  /-- Counted from one; slots that the handler owns carry this number. -/
  id : Int64
  dialect : Dialect
  /-- The protected offsets run from `start` up to `stop`. -/
  start : Int64
  stop : Int64
  /-- The offset of the first instruction of the handler. -/
  handler : Int64
  /-- The stack depth that is kept below the exception, or -1 while it is unknown. -/
  depth : Int64
  /-- The handler expects the raising offset below the exception. -/
  lasti : Bool := false
  /-- The stack depth on entry to the handler. -/
  entryDepth : Int64 := 0
  /-- The local that saves the exception handled before, or -1. -/
  scratch : Int64 := -1
deriving DecidableEq, Repr, Inhabited

namespace Region

/-- How many slots of exception state the handler finds. -/
def slotCount (r : Region) : Nat := r.dialect.exceptionSlots + (if r.lasti then 1 else 0)

/-- The slots that the handler finds above the depth of the region, the lowest first. -/
def state (r : Region) : List Slot :=
  match r.dialect with
  | .legacy => [.owned .excType r.id, .owned .excValue r.id, .owned .excTraceback r.id]
  | .modern =>
    if r.lasti then [.owned .lasti r.id, .owned .exception r.id] else [.owned .exception r.id]

def text (r : Region) : String :=
  s!"r{r.id.toInt} {r.dialect.text} {r.start.toInt}..{r.stop.toInt} -> {r.handler.toInt} depth={r.depth.toInt}"

end Region

/-- A function with its handler regions. -/
structure Plan where
  function : Function
  dialect : Dialect
  regions : List Region
  /-- For each instruction that opens a region, its offset and the region. -/
  setups : List (Int64 × Int64) := []
  /-- For each instruction the region of the exception table that protects it, or zero. -/
  protectedBy : List Int64 := []

namespace Plan

/-- The regions that instructions open, in program order, with the offsets of these. -/
def scanSetups (fn : Function) : List (Int64 × Region) :=
  let setups := fn.instructions.toList.filter (·.code == Opcode.setupFinally.code)
  setups.zipIdx.map fun (inst, i) =>
    let id := Int64.ofNat (i + 1)
    (inst.offset,
      { id, dialect := .legacy, start := -1, stop := -1, handler := inst.arg, depth := -1,
        scratch := Int64.ofNat fn.localCount + id - 1 })

def ofLegacy (fn : Function) : Except Fault Plan :=
  if fn.table.isEmpty then
    let setups := scanSetups fn
    .ok { function := fn, dialect := .legacy, regions := setups.map Prod.snd,
          setups := setups.map fun (offset, region) => (offset, region.id) }
  else .error (.malformed 0 0 0 0 (.tablePresent fn.version))

/-- A region grown to cover an entry as well. -/
def stretch (r : Region) (e : TableEntry) : Region :=
  { r with
    start := if e.start < r.start then e.start else r.start
    stop := if r.stop < e.stop then e.stop else r.stop }

/-- The region that an entry opens. -/
def opened (e : TableEntry) (id : Int64) : Region :=
  let region : Region :=
    { id, dialect := .modern, start := e.start, stop := e.stop, handler := e.target,
      depth := e.depth, lasti := e.lasti }
  { region with entryDepth := region.depth + Int64.ofNat region.slotCount }

/-- Adds an entry: it joins the region of its target or opens a new one. -/
def addEntry (fn : Function) (regions : List Region) (e : TableEntry) :
    Except Fault (List Region) :=
  if e.stop ≤ e.start || e.depth < 0 then
    .error (.malformed 0 e.target 0 0 (.badEntry e.text))
  else if (fn.indexOf? e.target).isNone then
    .error (.invalid e.start (.handlerTarget e.target))
  else match regions.find? (·.handler == e.target) with
    | none => .ok (regions ++ [opened e (Int64.ofNat (regions.length + 1))])
    | some r =>
      if r.depth ≠ e.depth || r.lasti ≠ e.lasti then
        .error (.malformed r.id e.target r.depth e.depth .sharedHandler)
      else .ok (regions.map fun r => if r.handler == e.target then stretch r e else r)

def addEntries (fn : Function) : List Region → List TableEntry → Except Fault (List Region)
  | regions, [] => .ok regions
  | regions, e :: rest =>
    match addEntry fn regions e with
    | .error fault => .error fault
    | .ok regions => addEntries fn regions rest

/-- The region of the narrowest entry that contains an offset; of equally narrow ones the first.
The width so far is negative as long as there is none. -/
def innermost (regions : List Region) (offset : Int64) : Int64 → Int64 → List TableEntry → Int64
  | _, found, [] => found
  | width, found, e :: rest =>
    if e.contains offset && (width < 0 || e.width < width) then
      let id := ((regions.find? (·.handler == e.target)).map Region.id).getD 0
      innermost regions offset e.width id rest
    else innermost regions offset width found rest

def ofModern (fn : Function) : Except Fault Plan :=
  match addEntries fn [] fn.table with
  | .error fault => .error fault
  | .ok regions =>
    .ok { function := fn, dialect := .modern, regions,
          protectedBy := fn.instructions.toList.map fun inst =>
            innermost regions inst.offset (-1) 0 fn.table }

def ofFunction (fn : Function) : Except Fault Plan :=
  match dialectOf? fn.version with
  | none => .error (.unsupported fn.version "" (-1))
  | some .legacy => ofLegacy fn
  | some .modern => ofModern fn

/-- Regions are found by their number. -/
def regionIn? (regions : List Region) (id : Int64) : Option Region :=
  if id < 1 then none else regions[id.toInt.toNat - 1]?

def region? (plan : Plan) (id : Int64) : Option Region := regionIn? plan.regions id

/-- The region that the instruction at an offset opens. -/
def setupRegion? (plan : Plan) (offset : Int64) : Option Region :=
  match plan.setups.reverse.find? (·.1 == offset) with
  | none => none
  | some (_, id) => plan.region? id

/-- The region of the exception table that protects an instruction, or zero. -/
def protecting (plan : Plan) (index : Nat) : Int64 := plan.protectedBy.getD index 0

/-- The local that saves the exception handled before a legacy region. -/
def scratch (plan : Plan) (region : Int64) : Int64 :=
  Int64.ofNat plan.function.localCount + region - 1

/-- The number of locals that the routine needs. -/
def hostLocals (plan : Plan) : Nat :=
  match plan.dialect with
  | .legacy => plan.function.localCount + plan.regions.length
  | .modern => plan.function.localCount

/-- The offset of the handler of a region, or -1. -/
def handlerOf (plan : Plan) (region : Int64) : Int64 :=
  ((plan.region? region).map Region.handler).getD (-1)

end Plan

/-- The innermost region that owns exception state on a stack, or zero. -/
def enclosing (shape : Stack) : Int64 :=
  match shape.cells.find? fun cell => cell.slot.region != 0 && cell.slot.kind.isExceptionState with
  | some cell => cell.slot.region
  | none => 0

end Lowering.Guest
