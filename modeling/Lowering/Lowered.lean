import Lowering.Analysis
import Lowering.Guest.Expansion
import Lowering.Host.Depths

/-!
Lowering a function: its analysed instructions are written out as operations in program order,
every operation under the protection of its handler. Handlers start with a prologue; a legacy
handler that is left by an exception is unwound by a cleanup, which stands after the instructions.
-/

namespace Lowering
open Guest Shape Host

/-- What lowering reports on the way. -/
inductive Event
  | skippedHandler (region handler : Int64)
  | skippedInstruction (offset : Int64) (opcode : String)
  | finished (instructions operations regions : Nat) (maxDepth : Int64)
deriving DecidableEq, Repr

structure Lowered where
  function : Function
  routine : Routine
  /-- The regions whose handlers are reached. -/
  regions : List Region
  /-- The shape before every offset that is reached. -/
  entry : List (Int64 × Stack)

namespace Lowered

def entry? (l : Lowered) (offset : Int64) : Option Stack :=
  (l.entry.reverse.find? (·.1 == offset)).map (·.2)

/-- The shapes in the order of their offsets. -/
def entries (l : Lowered) : List (Int64 × Stack) :=
  let offsets := (l.entry.map Prod.fst).eraseDups.mergeSort fun a b => a ≤ b
  offsets.filterMap fun offset => (l.entry? offset).map fun shape => (offset, shape)

end Lowered

namespace Emission

/-- Restores the exception that a legacy handler saved, and raises again. -/
structure Cleanup where
  label : Label
  /-- The running block of the handler and those below it. -/
  block : Block
  below : List Block

structure State where
  builder : Builder
  cleanups : Array Cleanup := #[]
  events : Array Event := #[]

/-- What emission works from: the analysis, and the labels of the handlers that are reached. -/
structure Context where
  plan : Plan
  analysis : Analysis.State
  catches : List (Int64 × Label)

namespace Context

def region? (c : Context) (id : Int64) : Option Region := Plan.regionIn? c.analysis.regions id

def catch? (c : Context) (region : Int64) : Option Label :=
  (c.catches.find? (·.1 == region)).map (·.2)

end Context

def reached (fn : Function) (st : Analysis.State) (offset : Int64) : Bool :=
  match fn.indexOf? offset with
  | some i => (st.point? i).isSome
  | none => false

/-- Gives every region whose handler is reached a label. -/
def labelHandlers (fn : Function) (analysis : Analysis.State) :
    State → List Region → State × List (Int64 × Label)
  | st, [] => (st, [])
  | st, r :: rest =>
    if reached fn analysis r.handler then
      match st.builder.newLabel with
      | (label, builder) =>
        match labelHandlers fn analysis { st with builder } rest with
        | (st, catches) => (st, (r.id, label) :: catches)
    else
      labelHandlers fn analysis { st with events := st.events.push (.skippedHandler r.id r.handler) } rest

/-- Protects what follows by the innermost block. A running handler is first unwound by its
cleanup, which is made when it is first needed. -/
def guardBlocks (c : Context) (st : State) : List Block → State
  | [] => { st with builder := st.builder.unprotect }
  | block :: below =>
    let depth := ((c.region? block.region).map Region.depth).getD 0
    if block.running then
      match st.cleanups.find? fun cleanup => cleanup.block = block ∧ cleanup.below = below with
      | some cleanup => { st with builder := st.builder.protect cleanup.label depth }
      | none =>
        match st.builder.newLabel with
        | (label, builder) =>
          { st with builder := builder.protect label depth
                    cleanups := st.cleanups.push ⟨label, block, below⟩ }
    else match c.catch? block.region with
      | some label => { st with builder := st.builder.protect label depth }
      | none => { st with builder := st.builder.unprotect }

/-- Protects the operations of an instruction. -/
def guard (c : Context) (st : State) (i : Nat) (p : Point) : State :=
  match c.plan.dialect with
  | .legacy => guardBlocks c st p.blocks
  | .modern =>
    match c.region? (c.plan.protecting i) with
    | none => { st with builder := st.builder.unprotect }
    | some r =>
      match c.catch? r.id with
      | some label => { st with builder := st.builder.protect label r.depth }
      | none => { st with builder := st.builder.unprotect }

/-- The prologues of the handlers that start at an offset. Control that falls into the
instruction is led around them. -/
def prologues (c : Context) (offset : Int64) : Bool → Builder → List Region → Builder
  | _, b, [] => b
  | falls, b, r :: rest =>
    let b := if falls then b.emit [.goto offset] else b
    let b := b.emit (.label ((c.catch? r.id).getD 0) :: r.prologue)
    prologues c offset true b rest

/-- The regions whose handlers start at an offset. -/
def handlersAt (c : Context) (offset : Int64) : List Region :=
  c.analysis.regions.filter fun r => r.handler == offset && (c.catch? r.id).isSome

/-- What stands in front of an instruction: its protection is set, and the prologues of the handlers
that start there are emitted. -/
def opening (c : Context) (st : State) (i : Nat) (o : Bound) (p : Point) (falls : Bool) : State :=
  let offset := o.inst.offset
  let st := guard c { st with builder := st.builder.setOrigin offset } i p
  { st with builder := prologues c offset falls st.builder (handlersAt c offset) }

/-- Emits one instruction that is reached. Its offset is its label when it is jumped to. -/
def instruction (c : Context) (st : State) (i : Nat) (o : Bound) (p : Point) (falls : Bool) :
    State :=
  let st := opening c st i o p falls
  let offset := o.inst.offset
  let b := if c.analysis.targets.contains offset then st.builder.emit [.label offset] else st.builder
  { st with builder := o.emit c.plan p.shape b }

/-- Emits the instructions from index `i` on. -/
def instructions (c : Context) : State → Nat → Bool → List Bound → State
  | st, _, _, [] => st
  | st, i, falls, o :: rest =>
    match c.analysis.point? i with
    | none =>
      let event := Event.skippedInstruction o.inst.offset o.opcode.name
      instructions c { st with events := st.events.push event } (i + 1) false rest
    | some p =>
      instructions c (instruction c st i o p falls) (i + 1) (c.analysis.falls.getD i false) rest

/-- Emits one cleanup. -/
def cleanup (c : Context) (st : State) (entry : Cleanup) : State :=
  let region := (c.region? entry.block.region).getD default
  let st := { st with builder := st.builder.setOrigin region.handler }
  let st := guardBlocks c st entry.below
  let restore := [.label entry.label, .loadLocal region.scratch, .setHandled, .throw]
  { st with builder := st.builder.emit restore }

/-- Emits the cleanups from number `n` on, including those that come up meanwhile. -/
def cleanups (c : Context) : Nat → State → Nat → State
  | 0, st, _ => st
  | fuel + 1, st, n =>
    match st.cleanups[n]? with
    | none => st
    | some entry => cleanups c fuel (cleanup c st entry) (n + 1)

/-- A cleanup asks for at most one more, and that one has fewer blocks below it. -/
def cleanupFuel (st : State) : Nat :=
  st.cleanups.foldl (fun total cleanup => total + cleanup.below.length + 2) 1

/-- The operations of a function, without the check of their depths. -/
def emit (plan : Plan) (bound : Array Bound) (analysis : Analysis.State) : State :=
  let builder := Builder.start plan.function.name (Int64.ofNat plan.hostLocals)
  match labelHandlers plan.function analysis { builder } analysis.regions with
  | (st, catches) =>
    let c : Context := ⟨plan, analysis, catches⟩
    let st := instructions c st 0 false bound.toList
    cleanups c (cleanupFuel st) st 0

/-- The first labelled instruction whose label is not at the depth of its shape. -/
def disagreement? (fn : Function) (analysis : Analysis.State) (depths : Depths) :
    Option Analysis.Stop :=
  let found := fn.instructions.toList.zipIdx.filterMap fun (inst, i) =>
    match analysis.point? i, depths.label? inst.offset with
    | some p, some depth =>
      if analysis.targets.contains inst.offset && depth ≠ p.shape.height then
        some (⟨.disagreement depth p.shape.height inst.offset, some i⟩ : Analysis.Stop)
      else none
    | _, _ => none
  found.head?

end Emission

/-- Binds every instruction, up to the first that fails. -/
def bindAll (fn : Function) : Nat → List Instruction → Except Analysis.Stop (List Bound)
  | _, [] => .ok []
  | i, inst :: rest =>
    match Bound.ofInstruction fn inst with
    | .error fault => .error ⟨fault, some i⟩
    | .ok bound =>
      match bindAll fn (i + 1) rest with
      | .error stop => .error stop
      | .ok bounds => .ok (bound :: bounds)

/-- The tables that a function needs can be addressed. -/
def fits (fn : Function) (plan : Plan) : Bool :=
  fn.instructions.size ≤ addressable && plan.hostLocals ≤ addressable
    && plan.regions.length ≤ addressable

/-- Everything that precedes emission. -/
def prepare (fn : Function) : Except Analysis.Stop (Plan × Array Bound × Analysis.State) :=
  match Plan.ofFunction fn with
  | .error fault => .error ⟨fault, none⟩
  | .ok plan =>
    if fn.instructions.isEmpty then .error ⟨.invalid 0 .noInstructions, none⟩
    else if !fits fn plan then .error ⟨.plain "function too large", none⟩
    else match bindAll fn 0 fn.instructions.toList with
      | .error stop => .error stop
      | .ok bounds =>
        match Analysis.analyze plan bounds.toArray with
        | .error stop => .error stop
        | .ok analysis => .ok (plan, bounds.toArray, analysis)

/-- Attributes a fault to the instruction it was reported at, if any. -/
def attributed (fn : Function) (stop : Analysis.Stop) : LoweringError :=
  let inst? := stop.index.bind fun i => fn.instructions[i]?
  { function := fn.name, filename := fn.filename
    offset := (inst?.map Instruction.offset).getD (-1)
    opcode := (inst?.map fun inst => opcodeText inst.code).getD ""
    line := (inst?.map Instruction.line).getD 0
    version := fn.version, cause := stop.fault }

/-- Emits an analysed function and checks the depths of its operations. -/
def finish (fn : Function) (plan : Plan) (bound : Array Bound) (analysis : Analysis.State) :
    Except Analysis.Stop Lowered × List Event :=
  let st := Emission.emit plan bound analysis
  let events := st.events.toList
  let routine := st.builder.build
  if addressable < routine.ops.size then (.error ⟨.plain "routine too large", none⟩, events)
  else match Depths.ofRoutine routine with
  | .error fault => (.error ⟨fault, none⟩, events)
  | .ok depths =>
    match Emission.disagreement? fn analysis depths with
    | some stop => (.error stop, events)
    | none =>
      let routine := { routine with maxDepth := depths.max }
      let regions := analysis.regions.filter fun r => Emission.reached fn analysis r.handler
      let entry := fn.instructions.toList.zipIdx.filterMap fun (inst, i) =>
        (analysis.point? i).map fun p => (inst.offset, p.shape)
      let done := Event.finished bound.size routine.ops.size regions.length routine.maxDepth
      (.ok { function := fn, routine, regions, entry }, events ++ [done])

/-- Lowers a function to a routine, and reports what happened on the way. -/
def lower (fn : Function) : Except LoweringError Lowered × List Event :=
  match prepare fn with
  | .error stop => (.error (attributed fn stop), [])
  | .ok (plan, bound, analysis) =>
    match finish fn plan bound analysis with
    | (.error stop, events) => (.error (attributed fn stop), events)
    | (.ok lowered, events) => (.ok lowered, events)

end Lowering
