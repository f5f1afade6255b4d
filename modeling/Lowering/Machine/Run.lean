import Lowering.Machine.State
import Lowering.Word

/-!
Execution. A run is a sequence of steps on a frame and the frames that wait for it. An operation
goes on, raises, calls, or ends its frame; an exception looks for a protected range frame by frame.
-/

namespace Lowering.Machine
open Host

/-- How a frame ended. -/
inductive Ending
  | returned (v : Value)
  | thrown (exception : Nat)
  /-- A snippet ran past its last operation. -/
  | fellThrough
  /-- A snippet jumped to a label that it does not define. -/
  | exited (label : Label)
  | failed (fault : Fault)

/-- What an operation does to its frame. -/
inductive Effect
  | next (f : Frame)
  | raise (f : Frame) (exception : Nat)
  | enter (f : Frame) (callee : Frame)
  | finish (f : Frame) (ending : Ending)

/-- A run in progress, or its end. -/
inductive Status
  /-- A frame and the frames that wait for it, the nearest first. -/
  | running (f : Frame) (callers : List Frame)
  | ended (f : Frame) (ending : Ending)

/-- Ends a frame by a fault. -/
def abort (st : State) (f : Frame) (fault : Fault) : State × Effect := (st, .finish f (.failed fault))

/-- Raises a new exception of a standard class. -/
def raiseNew (st : State) (f : Frame) (cls : Standard) (message : String) : State × Effect :=
  match st.heap.newError cls message with
  | (ref, heap) => ({ st with heap }, .raise f ref)

def jump (st : State) (f : Frame) (label : Label) : State × Effect :=
  match f.routine.labelIndex? label with
  | some target => (st, .next { f with ip := target })
  | none =>
    if f.snippet then (st, .finish f (.exited label)) else abort st f (.undefinedLabel label)

/-- Pushes the results of a helper, the last one on top. They must be as many as announced, and
there is never room for more than the stack holds. -/
def pushResults (st : State) (f : Frame) (inv : Invocation) (results : List Value) :
    State × Effect :=
  if inv.results.toInt ≠ results.length ∨ maxStackDepth < results.length + f.stack.length then
    abort st f (.wrongResults inv.helper.name results.length inv.results)
  else (st, .next { f with stack := results.reverse ++ f.stack })

/-- Calls a value on behalf of an invocation. -/
def callValue (setup : Setup) (st : State) (f : Frame) (inv : Invocation) (callee : Value)
    (args : List Value) : State × Effect :=
  match callee with
  | .builtin ref =>
    let builtin := st.heap.builtin ref
    match notifyCall setup st builtin.name args.length f.depth with
    | (false, st) => abort st f .halted
    | (true, st) =>
      match act setup.custom st.heap builtin.name builtin.action args with
      | (reply, heap) =>
        let st := { st with heap }
        match reply with
        | .values results =>
          match notifyReturn setup st builtin.name f.depth with
          | (false, st) => abort st f .halted
          | (true, st) => pushResults st f inv results
        | .raised exception => (st, .raise f exception)
        | .failed failure => abort st f (.gaveUp failure)
        | .call .. => abort st f (.gaveUp (.missingArguments builtin.name))
  | .function ref =>
    let routine := st.heap.functionRoutine ref
    if f.depth ≥ maxFrameDepth then
      raiseNew st f .recursionError "maximum recursion depth exceeded"
    else match notifyCall setup st routine.name args.length f.depth with
      | (false, st) => abort st f .halted
      | (true, st) =>
        match Frame.enter st.heap routine args (f.depth + 1) with
        | (callee, heap) => ({ st with heap }, .enter f callee)
  | .cls ref =>
    match st.heap.newException { cls := ref, args } with
    | (exception, heap) => pushResults { st with heap } f inv [.exception exception]
  | v => raiseNew st f .typeError s!"'{st.heap.typeName v}' object is not callable"

/-- Invokes a helper on the arguments that were taken from the stack. -/
def invoke (setup : Setup) (st : State) (f : Frame) (inv : Invocation) (args : List Value) :
    State × Effect :=
  match setup.helper inv.helper st f.depth inv args with
  | (reply, st) =>
    match reply with
    | .values results => pushResults st f inv results
    | .raised exception => (st, .raise f exception)
    | .failed failure => abort st f (.gaveUp failure)
    | .call callee args => callValue setup st f inv callee args

/-- The item `depth` positions below the top. -/
def itemAt? {α : Type} (depth : Int64) (stack : List α) : Option α :=
  if depth < 0 then none else stack[depth.toInt.toNat]?

/-- Exchanges the top with the item `depth` positions below it. -/
def swapTop? {α : Type} (depth : Int64) (stack : List α) : Option (List α) :=
  match stack, itemAt? depth stack with
  | top :: _, some other => some ((stack.set depth.toInt.toNat top).set 0 other)
  | _, _ => none

/-- An unbound local was used. -/
def unboundLocal (st : State) (f : Frame) (index : Int64) : State × Effect :=
  raiseNew st f .unboundLocalError
    s!"local variable {index.toInt} referenced before assignment"

/-- Executes an operation whose operands are on the stack. The frame already points to the
operation that follows. -/
def perform (setup : Setup) (st : State) (f : Frame) (o : Operation) : State × Effect :=
  match o, f.stack with
  | .label _, _ => (st, .next f)
  | .const v, stack =>
    match st.heap.normalize v with
    | (v, heap) => ({ st with heap }, .next { f with stack := v :: stack })
  | .loadLocal i, stack =>
    if i < 0 then abort st f (.localOutOfRange i)
    else match f.locals[i.toInt.toNat]? with
      | none => abort st f (.localOutOfRange i)
      | some .unbound => unboundLocal st f i
      | some v => (st, .next { f with stack := v :: stack })
  | .storeLocal i, v :: stack =>
    if i < 0 || f.locals.size ≤ i.toInt.toNat then abort st f (.localOutOfRange i)
    else (st, .next { f with stack, locals := f.locals.setIfInBounds i.toInt.toNat v })
  | .deleteLocal i, _ =>
    if i < 0 then abort st f (.localOutOfRange i)
    else match f.locals[i.toInt.toNat]? with
      | none => abort st f (.localOutOfRange i)
      | some .unbound => unboundLocal st f i
      | some _ =>
        (st, .next { f with locals := f.locals.setIfInBounds i.toInt.toNat .unbound })
  | .loadGlobal name, stack =>
    match st.global? name with
    | some v => (st, .next { f with stack := v :: stack })
    | none => raiseNew st f .nameError s!"name '{name}' is not defined"
  | .storeGlobal name, v :: stack => (st.setGlobal name v, .next { f with stack })
  | .pop, _ :: stack => (st, .next { f with stack })
  | .dup, v :: stack => (st, .next { f with stack := v :: v :: stack })
  | .pick depth, stack =>
    match itemAt? depth stack with
    | some v => (st, .next { f with stack := v :: stack })
    | none => abort st f (.outOfStack (f.ip - 1))
  | .swap depth, stack =>
    match swapTop? depth stack with
    | some stack => (st, .next { f with stack })
    | none => abort st f (.outOfStack (f.ip - 1))
  | .invoke inv, stack =>
    if inv.args < 0 then abort st f (.outOfStack (f.ip - 1))
    else
      let count := inv.args.toInt.toNat
      invoke setup st { f with stack := stack.drop count } inv (stack.take count).reverse
  | .goto label, _ => jump st f label
  | .ifTrue label, v :: stack =>
    if st.heap.truthy v then jump st { f with stack } label else (st, .next { f with stack })
  | .ifFalse label, v :: stack =>
    if st.heap.truthy v then (st, .next { f with stack }) else jump st { f with stack } label
  | .ret, v :: stack => (st, .finish { f with stack } (.returned v))
  | .throw, v :: stack =>
    match asException st.heap v with
    | (exception, heap) => ({ st with heap }, .raise { f with stack } exception)
  | .getHandled, stack => (st, .next { f with stack := st.handled :: stack })
  | .setHandled, v :: stack => ({ st with handled := v }, .next { f with stack })
  | _, [] => abort st f (.underflow (f.ip - 1) (st.heap.operationText o))

/-- Checks the depth of the stack and executes an operation. -/
def execute (setup : Setup) (st : State) (f : Frame) (o : Operation) : State × Effect :=
  let depth := Int64.ofNat f.stack.length
  if depth < o.pops then abort st f (.underflow (f.ip - 1) (st.heap.operationText o))
  else if Int64.ofNat maxStackDepth < depth - o.pops + o.pushes then
    abort st f (.overflow (f.ip - 1))
  else perform setup st f o

/-- Notes where an exception passed. -/
def pass (h : Heap) (exception : Nat) (origin : Int64) : Heap :=
  { h with exceptions := h.exceptions.modify exception fun e =>
      { e with
        lasti := if e.lasti < 0 then origin else e.lasti
        traceback := if 0 ≤ origin then e.traceback.push origin else e.traceback } }

/-- What a frame does with an exception that its last operation raised. -/
inductive Reception
  | caught (f : Frame)
  | passed
  | failed (fault : Fault)

/-- A protected frame cuts its stack, pushes the exception and goes on at the handler. -/
def receive (exception : Nat) (f : Frame) : Reception :=
  let index := f.ip - 1
  match f.routine.regionAt? (Int64.ofNat index) with
  | none => .passed
  | some region =>
    match f.routine.labelIndex? region.handler with
    | none => .failed (.undefinedHandler region.handler)
    | some target =>
      if Int64.ofNat f.stack.length < region.depth then
        .failed (.belowProtected f.stack.length region.depth index)
      else if region.depth < 0 || addressable < f.stack.length then .failed (.outOfStack index)
      else
        let kept := f.stack.drop (f.stack.length - region.depth.toInt.toNat)
        .caught { f with stack := .exception exception :: kept, ip := target }

/-- Delivers an exception to the frame that raised it or to the nearest waiting frame that is
protected. -/
def deliver (st : State) (exception : Nat) (f : Frame) : List Frame → State × Status
  | [] =>
    let st := { st with heap := pass st.heap exception (f.routine.origin (f.ip - 1)) }
    match receive exception f with
    | .caught f => (st, .running f [])
    | .passed => (st, .ended f (.thrown exception))
    | .failed fault => (st, .ended f (.failed fault))
  | caller :: callers =>
    let st := { st with heap := pass st.heap exception (f.routine.origin (f.ip - 1)) }
    match receive exception f with
    | .caught f => (st, .running f (caller :: callers))
    | .passed => deliver st exception caller callers
    | .failed fault => (st, .ended f (.failed fault))

/-- Hands a result to the frame that waits for it. -/
def resume (st : State) (v : Value) : List Frame → Frame → State × Status
  | [], f => (st, .ended f (.returned v))
  | caller :: callers, _ =>
    match caller.routine.ops[caller.ip - 1]? with
    | some (.invoke inv) =>
      match pushResults st caller inv [v] with
      | (st, .next caller) => (st, .running caller callers)
      | (st, .finish caller ending) => (st, .ended caller ending)
      | (st, _) => (st, .running caller callers)
    | _ => (st, .ended caller (.failed (.endOfRoutine caller.routine.name)))

/-- Lets the effect of an operation take place. -/
def settle (setup : Setup) (st : State) (callers : List Frame) : Effect → State × Status
  | .next f => (st, .running f callers)
  | .raise f exception => deliver st exception f callers
  | .enter f callee => (st, .running callee (f :: callers))
  | .finish f (.returned v) =>
    if f.snippet then (st, .ended f (.returned v))
    else match notifyReturn setup st f.routine.name f.depth with
      | (false, st) => (st, .ended f (.failed .halted))
      | (true, st) => resume st v callers f
  | .finish f ending => (st, .ended f ending)

/-- Whether it is time to look if the run is cancelled, and the count since then. -/
def checkTime (setup : Setup) (f : Frame) : Bool × Frame :=
  if setup.cancelled && 0 < setup.checkInterval then
    let since := f.sinceCheck + 1
    if since ≥ setup.checkInterval.toInt.toNat then (true, { f with sinceCheck := 0 })
    else (false, { f with sinceCheck := since })
  else (false, f)

/-- Executes one operation. -/
def step (setup : Setup) (st : State) (f : Frame) (callers : List Frame) : State × Status :=
  match f.routine.ops[f.ip]? with
  | none =>
    if f.snippet then (st, .ended f .fellThrough)
    else (st, .ended f (.failed (.endOfRoutine f.routine.name)))
  | some o =>
    match checkTime setup f with
    | (true, f) => (st, .ended f (.failed .cancelled))
    | (false, f) =>
      let st := { st with steps := st.steps + 1 }
      if 0 < setup.maxSteps && setup.maxSteps.toInt < st.steps then
        (st, .ended f (.failed .stepLimit))
      else match notifyStep setup st f o with
        | (false, st) => (st, .ended f (.failed .halted))
        | (true, st) =>
          match execute setup st { f with ip := f.ip + 1 } o with
          | (st, effect) => settle setup st callers effect

/-- Executes up to `fuel` operations. -/
def run (setup : Setup) : Nat → State → Frame → List Frame → State × Frame × Ending
  | 0, st, f, _ => (st, f, .failed .outOfFuel)
  | fuel + 1, st, f, callers =>
    match step setup st f callers with
    | (st, .running f callers) => run setup fuel st f callers
    | (st, .ended f ending) => (st, f, ending)

/-- Calls a routine below so many activations. -/
def runRoutine (setup : Setup) (fuel : Nat) (st : State) (depth : Nat) (routine : Routine)
    (args : List Value) : State × Ending :=
  if maxFrameDepth ≤ depth then
    match st.heap.newError .recursionError "maximum recursion depth exceeded" with
    | (exception, heap) => ({ st with heap }, .thrown exception)
  else match notifyCall setup st routine.name args.length depth with
    | (false, st) => (st, .failed .halted)
    | (true, st) =>
      match Frame.enter st.heap routine args (depth + 1) with
      | (f, heap) =>
        match run setup fuel { st with heap } f [] with
        | (st, _, ending) => (st, ending)

/-- Runs a routine. The count of steps starts anew. -/
def start (setup : Setup) (fuel : Nat) (st : State) (routine : Routine) (args : List Value) :
    State × Ending :=
  runRoutine setup fuel { st with steps := 0 } 0 routine args

/-- Calls a value below so many activations, as a helper may: a built-in function, a function or an
exception class. -/
def callFrom (setup : Setup) (fuel : Nat) (st : State) (depth : Nat) (callee : Value)
    (args : List Value) : State × Ending :=
  match callee with
  | .function ref => runRoutine setup fuel st depth (st.heap.functionRoutine ref) args
  | callee =>
    let f : Frame := { routine := default, locals := #[], depth }
    match callValue setup st f { helper := .call, args := 0, results := 1 } callee args with
    | (st, .next f) => (st, .returned (f.stack.headD .none))
    | (st, .raise _ exception) => (st, .thrown exception)
    | (st, .finish _ ending) => (st, ending)
    | (st, .enter f _) => (st, .returned (f.stack.headD .none))

/-- Calls a value from outside. -/
def call (setup : Setup) (fuel : Nat) (st : State) (callee : Value) (args : List Value) :
    State × Ending :=
  callFrom setup fuel st 0 callee args

/-- What a snippet left behind. -/
structure Snippet where
  /-- The lowest first. -/
  stack : List Value
  locals : List Value
  ending : Ending

/-- Executes operations on a stack, given from the lowest, and locals. A jump to a label that they
do not define ends the execution. -/
def exec (setup : Setup) (fuel : Nat) (st : State) (ops : List Operation)
    (stack locals : List Value) : State × Snippet :=
  match st.heap.normalizeAll stack with
  | (stack, heap) =>
    match heap.normalizeAll locals with
    | (locals, heap) =>
      let routine : Routine :=
        { name := "<snippet>", localCount := Int64.ofNat locals.length, ops := ops.toArray }
      let f : Frame :=
        { routine, stack := stack.reverse, locals := locals.toArray, depth := 0, snippet := true }
      match run setup fuel { st with heap, steps := 0 } f [] with
      | (st, f, ending) => (st, ⟨f.stack.reverse, f.locals.toList, ending⟩)

end Lowering.Machine
