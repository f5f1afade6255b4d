import Lowering.Machine.StandardHelper
import Lowering.Machine.Observer

/-!
The machine: what is fixed for its lifetime, what a run changes, and the frames of a run.
-/

namespace Lowering.Machine
open Host

structure State where
  heap : Heap
  globals : List (String × Value)
  /-- The exception that is being handled, or none. -/
  handled : Value := .none
  /-- The number of operations of the current run. -/
  steps : Nat := 0
  /-- The origin that was reported last. -/
  lastOrigin : Int64 := -2
  trace : Trace := {}

instance : Inhabited State := ⟨⟨default, [], .none, 0, -2, {}⟩⟩

namespace State

/-- A machine with the standard globals on a heap. -/
def start (h : Heap) : State :=
  match standardGlobals h with
  | (globals, h) => { heap := h, globals }

def global? (st : State) (name : String) : Option Value :=
  (st.globals.find? (·.1 == name)).map (·.2)

def setGlobal (st : State) (name : String) (v : Value) : State :=
  { st with globals := insertEntry name v st.globals }

/-- Sets a global to the normalised form of a constant. -/
def define (st : State) (name : String) (v : Value) : State :=
  match st.heap.normalize v with
  | (v, heap) => { st with heap }.setGlobal name v

end State

/-- A helper sees the whole machine, the depth of the frame that invokes it, the invocation and its
arguments, the lowest first. It may leave any other state behind, also one that it got to by
calling values on the machine (`callFrom`), as often as it likes and whatever became of the calls. -/
abbrev HelperFunction := State → Nat → Invocation → List Value → Reply × State

/-- A helper that looks at nothing but the heap and leaves the rest of the machine alone. -/
def ofHeap (answer : Heap → Invocation → List Value → Reply × Heap) : HelperFunction :=
  fun st _ inv args =>
    match answer st.heap inv args with
    | (reply, heap) => (reply, { st with heap })

structure Setup where
  /-- Helpers that take the place of the standard ones of the same name. -/
  helpers : List (String × HelperFunction) := []
  /-- The built-in functions from outside. -/
  custom : Nat → BuiltinFunction := fun _ h _ => (.value .none, h)
  /-- No limit unless positive. -/
  maxSteps : Int64 := 0
  /-- The number of operations between two looks at whether the run is cancelled; never unless
  positive. -/
  checkInterval : Int64 := 1000
  cancelled : Bool := false
  observer : Option Observer := none

def maxStackDepth : Nat := 1024

def maxFrameDepth : Nat := 256

/-- The implementation of a helper. -/
def Setup.helper (setup : Setup) (helper : Helper) : HelperFunction :=
  match setup.helpers.find? (·.1 == helper.name) with
  | some (_, implementation) => implementation
  | none => ofHeap standardHelper

/-- The activation of a routine. -/
structure Frame where
  routine : Routine
  /-- The next operation. -/
  ip : Nat := 0
  /-- The top comes first. -/
  stack : List Value := []
  locals : Array Value
  /-- How many activations there are, up to this one. A snippet is none. -/
  depth : Nat
  /-- Operations since the last look at whether the run is cancelled. -/
  sinceCheck : Nat := 0
  /-- A snippet may leave its operations; a routine must return. -/
  snippet : Bool := false

instance : Inhabited Frame := ⟨{ routine := default, locals := #[], depth := 0 }⟩

/-- The activation of a routine with arguments; the other locals are unbound. -/
def Frame.enter (h : Heap) (routine : Routine) (args : List Value) (depth : Nat) : Frame × Heap :=
  let count := routine.localCount.toInt.toNat
  match h.normalizeAll (args.take count) with
  | (bound, h) =>
    let locals := bound.toArray ++ Array.replicate (count - bound.length) Value.unbound
    ({ routine, locals, depth }, h)

/-- Reports an event to the observer, if there is one. -/
def State.report (st : State) (o : Observer) (e : Event) : Bool × State :=
  match st.trace.report o e with
  | (permitted, trace) => (permitted, { st with trace })

/-- Asks for permission to call. -/
def notifyCall (setup : Setup) (st : State) (name : String) (argCount depth : Nat) : Bool × State :=
  match setup.observer with
  | some o => if o.calls then st.report o (.call name argCount depth) else (true, st)
  | none => (true, st)

/-- Asks for permission to return. -/
def notifyReturn (setup : Setup) (st : State) (name : String) (depth : Nat) : Bool × State :=
  match setup.observer with
  | some o => if o.returns then st.report o (.ret name depth) else (true, st)
  | none => (true, st)

/-- Asks for permission to execute an operation. -/
def notifyStep (setup : Setup) (st : State) (f : Frame) (operation : Operation) : Bool × State :=
  match setup.observer with
  | none => (true, st)
  | some o =>
    let origin := f.routine.origin f.ip
    let event (st : State) : Bool × State :=
      st.report o (.step f.ip (st.heap.operationText operation) origin f.stack.length f.depth)
    match o.mode with
    | .never => (true, st)
    | .all => event st
    | .sampled => if st.steps % o.period = 0 then event st else (true, st)
    | .onOrigin =>
      if origin == st.lastOrigin then (true, st) else event { st with lastOrigin := origin }

end Lowering.Machine
