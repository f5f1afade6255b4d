import Lowering.Guest.Flow

/-!
The analysis of a function: shapes are carried along the edges from the entry until the shape
before every instruction that is reached is stable. Legacy functions also carry a stack of
blocks, one for every handler that is set up or running.
-/

namespace Lowering
open Guest Shape

/-- A region that is set up, or whose handler is running. -/
structure Block where
  region : Int64
  running : Bool
deriving DecidableEq, Repr

/-- The blocks from the innermost one that is set up; running handlers in front are skipped. -/
def setupBlocks (blocks : List Block) : List Block := blocks.dropWhile Block.running

/-- What is known before an instruction. The innermost block comes first. -/
structure Point where
  shape : Stack
  blocks : List Block
deriving DecidableEq

instance : Inhabited Point := ⟨⟨default, []⟩⟩

namespace Analysis

/-- The state of an analysis. Instructions are named by their index. -/
structure State where
  points : Array (Option Point)
  /-- Control falls through the instruction. -/
  falls : Array Bool
  queued : Array Bool
  /-- The instructions to be processed, the next one first. -/
  work : List Nat
  /-- The offsets that need a label. -/
  targets : List Int64
  regions : List Region
  /-- The next stamp for pushed slots. -/
  stamp : Nat

/-- A fault and the instruction it is reported at, if any. -/
structure Stop where
  fault : Fault
  index : Option Nat

namespace State

def start (plan : Plan) : State :=
  let n := plan.function.instructions.size
  { points := Array.replicate n none, falls := Array.replicate n false
    queued := Array.replicate n false, work := [], targets := [], regions := plan.regions
    stamp := 0 }

def point? (st : State) (i : Nat) : Option Point := (st.points[i]?).join

def enqueue (st : State) (j : Nat) : State :=
  if st.queued.getD j false then st
  else { st with queued := st.queued.setIfInBounds j true, work := j :: st.work }

def target (st : State) (offset : Int64) : State :=
  if st.targets.contains offset then st else { st with targets := offset :: st.targets }

/-- Joins what an edge carries into what is known before instruction `j`, and queues `j` when
that changes. Failures are reported at `j`. -/
def merge (fn : Function) (st : State) (j : Nat) (p : Point) : Except Stop State :=
  match st.point? j with
  | none =>
    if addressable < p.shape.depth then .error ⟨.plain "stack too deep", some j⟩
    else .ok ({ st with points := st.points.setIfInBounds j (some p) }.enqueue j)
  | some known =>
    if known.blocks ≠ p.blocks then
      let offset := (fn.instructions.getD j default).offset
      .error ⟨.malformed 0 (-1) 0 0 (.blocksDiffer offset), some j⟩
    else match Stack.unify st.stamp known.shape p.shape with
      | .error fault => .error ⟨fault, some j⟩
      | .ok merged =>
        let st := { st with stamp := st.stamp + 1 }
        if known.shape.same merged then .ok st
        else .ok ({ st with points := st.points.setIfInBounds j (some ⟨merged, known.blocks⟩) }.enqueue j)

def mapRegion (st : State) (id : Int64) (f : Region → Region) : State :=
  { st with regions := st.regions.map fun r => if r.id == id then f r else r }

/-- Stretches the regions of all blocks that are set up over the offsets of an instruction. -/
def cover (st : State) (blocks : List Block) (offset stop : Int64) : State :=
  (blocks.filter fun b => !b.running).foldl (fun st b =>
    st.mapRegion b.region fun r =>
      { r with
        start := if r.start < 0 || offset < r.start then offset else r.start
        stop := if r.stop < stop then stop else r.stop }) st

end State

/-- The index of the instruction at an offset. -/
def indexOf (fn : Function) (offset : Int64) : Nat := (fn.indexOf? offset).getD 0

/-- The region that protects an instruction. -/
def protecting? (plan : Plan) (st : State) (i : Nat) (p : Point) : Option Region :=
  match plan.dialect with
  | .legacy =>
    match setupBlocks p.blocks with
    | [] => none
    | block :: _ => Plan.regionIn? st.regions block.region
  | .modern => Plan.regionIn? st.regions (plan.protecting i)

/-- Where the offsets of an instruction end. -/
def stopOf (fn : Function) (i : Nat) (offset : Int64) : Int64 :=
  match fn.instructions[i + 1]? with
  | some next => next.offset
  | none => offset + 2

/-- Checks an instruction against the depth of its handler and, when it may raise, follows the
edge to the handler. -/
def protect (plan : Plan) (st : State) (i : Nat) (inst : Instruction) (p : Point) (r : Region)
    (raises : Bool) : Except Stop State :=
  if p.shape.height < r.depth then
    .error ⟨.malformed r.id r.handler r.depth p.shape.height .shallowInstruction, some i⟩
  else
    let st := match r.dialect with
      | .legacy => st.cover p.blocks inst.offset (stopOf plan.function i inst.offset)
      | .modern => st
    if raises then
      let blocks := match r.dialect with
        | .legacy => ⟨r.id, true⟩ :: (setupBlocks p.blocks).tail
        | .modern => []
      let shape := (p.shape.truncate r.depth).pushAll st.stamp r.state
      let st := { st with stamp := st.stamp + 1 }.target r.handler
      st.merge plan.function (indexOf plan.function r.handler) ⟨shape, blocks⟩
    else .ok st

/-- The blocks after an instruction on its normal paths. A region that is set up learns its
depth. -/
def blocksAfter (plan : Plan) (st : State) (i : Nat) (o : Bound) (p : Point) :
    Except Stop (List Block × State) :=
  match o.opcode with
  | .setupFinally =>
    match (plan.setupRegion? o.inst.offset).bind fun r => Plan.regionIn? st.regions r.id with
    | none => .error ⟨.invalid o.inst.offset .setupWithoutRegion, some i⟩
    | some r =>
      let height := p.shape.height
      if 0 ≤ r.depth && r.depth ≠ height then
        .error ⟨.malformed r.id r.handler r.depth height .setupDepths, some i⟩
      else
        let st := st.mapRegion r.id fun r =>
          { r with depth := height, entryDepth := height + Int64.ofNat r.slotCount }
        .ok (⟨r.id, false⟩ :: p.blocks, st)
  | .popBlock =>
    match p.blocks with
    | ⟨_, false⟩ :: below => .ok (below, st)
    | _ => .error ⟨.malformed 0 (-1) 0 0 .noBlock, some i⟩
  | .popExcept =>
    match plan.dialect, p.blocks with
    | .modern, blocks => .ok (blocks, st)
    | .legacy, ⟨_, true⟩ :: below => .ok (below, st)
    | .legacy, _ => .error ⟨.malformed 0 (-1) 0 0 .outsideHandler, some i⟩
  | _ => .ok (p.blocks, st)

/-- Follows the branches of an instruction. The edge to a handler that is set up carries a
running block of its region. -/
def follow (plan : Plan) (o : Bound) (p : Point) (next : List Block) :
    State → List Edge → Except Stop State
  | st, [] => .ok st
  | st, e :: edges =>
    let blocks :=
      if e.handler then
        match plan.setupRegion? o.inst.offset with
        | some r => ⟨r.id, true⟩ :: p.blocks
        | none => p.blocks
      else next
    match (st.target e.target).merge plan.function (indexOf plan.function e.target)
        ⟨e.shape, blocks⟩ with
    | .error stop => .error stop
    | .ok st => follow plan o p next st edges

/-- Follows the edge of an instruction to the handler that protects it, if there is one. -/
def raise (plan : Plan) (st : State) (i : Nat) (o : Bound) (p : Point) : Except Stop State :=
  match protecting? plan st i p with
  | none => .ok st
  | some r => protect plan st i o.inst p r o.opcode.mayRaise

/-- Carries the flow of an instruction along its branches and its fall-through. -/
def carry (plan : Plan) (st : State) (i : Nat) (o : Bound) (p : Point) : Except Stop State := do
  let flow ← match o.flow plan st.stamp p.shape with
    | .error fault => throw ⟨fault, some i⟩
    | .ok flow => pure flow
  let st := { st with stamp := st.stamp + 1, falls := st.falls.setIfInBounds i flow.falls }
  let (next, st) ← blocksAfter plan st i o p
  let st ← follow plan o p next st flow.branches
  if flow.falls then
    if i + 1 < plan.function.instructions.size then
      st.merge plan.function (i + 1) ⟨flow.next, next⟩
    else throw ⟨.invalid o.inst.offset .endOfFunction, some i⟩
  else pure st

/-- Processes one instruction: its exceptional edge, its branches and its fall-through. -/
def process (plan : Plan) (st : State) (i : Nat) (o : Bound) (p : Point) : Except Stop State :=
  match raise plan st i o p with
  | .error stop => .error stop
  -- The edge of the handler may lead back to this very instruction, but what was known before it
  -- is still what its flow starts from.
  | .ok st => carry plan st i o p

/-- Processes queued instructions until none is left. -/
def run (plan : Plan) (bound : Array Bound) : Nat → State → Except Stop State
  | 0, _ => .error ⟨.plain "analysis did not settle", none⟩
  | fuel + 1, st =>
    match st.work with
    | [] => .ok st
    | i :: work =>
      let st := { st with work, queued := st.queued.setIfInBounds i false }
      match bound[i]?, st.point? i with
      | some o, some p =>
        match process plan st i o p with
        | .error stop => .error stop
        | .ok st => run plan bound fuel st
      | _, _ => run plan bound fuel st

/-- An instruction is queued again only when its shape widens. A stack is at most three slots
deep per instruction, a slot widens at most twice and a local at most three times. -/
def fuel (fn : Function) : Nat :=
  let n := fn.instructions.size
  n * (2 + 6 * n + 3 * fn.localCount) + n + 1

/-- Analyses a function from its entry. -/
def analyze (plan : Plan) (bound : Array Bound) : Except Stop State :=
  let fn := plan.function
  let entry : Point := ⟨Stack.entry fn.localCount fn.argCount, []⟩
  match (State.start plan).merge fn 0 entry with
  | .error stop => .error stop
  | .ok st => run plan bound (fuel fn) st

end Analysis
end Lowering
