/-!
Observers: what a run reports while it executes, and when it asks for permission to go on.
-/

namespace Lowering.Machine

/-- When steps are reported. -/
inductive StepMode
  | all
  | never
  /-- Every so many steps. -/
  | sampled
  /-- When execution moves on to another guest instruction. -/
  | onOrigin
deriving DecidableEq, Repr

inductive Event
  | step (index : Nat) (operation : String) (origin : Int64) (stackDepth frameDepth : Nat)
  | call (name : String) (argCount frameDepth : Nat)
  | ret (name : String) (frameDepth : Nat)
deriving DecidableEq, Repr

/-- How many events of each sort were reported so far. -/
structure Tally where
  steps : Nat := 0
  calls : Nat := 0
  returns : Nat := 0
deriving DecidableEq, Repr

structure Observer where
  mode : StepMode
  /-- The number of steps between reports of sampled steps. -/
  interval : Int64 := 1000
  calls : Bool := true
  returns : Bool := true
  /-- Whether events are kept. -/
  records : Bool := true
  /-- Whether the run may go on after an event, given the events up to and with it. -/
  permits : Tally → Event → Bool := fun _ _ => true

namespace Observer

/-- An observer that reports everything and keeps nothing. -/
def silent : Observer := { mode := .all, records := false }

/-- Intervals below one count as one. -/
def period (o : Observer) : Nat := if o.interval.toInt ≤ 0 then 1 else o.interval.toInt.toNat

end Observer

/-- What has been reported. -/
structure Trace where
  tally : Tally := {}
  events : Array Event := #[]

namespace Trace

def count (t : Tally) : Event → Tally
  | .step .. => { t with steps := t.steps + 1 }
  | .call .. => { t with calls := t.calls + 1 }
  | .ret .. => { t with returns := t.returns + 1 }

/-- Reports an event and says whether the run may go on. -/
def report (t : Trace) (o : Observer) (e : Event) : Bool × Trace :=
  let tally := count t.tally e
  (o.permits tally e, { tally, events := if o.records then t.events.push e else t.events })

end Trace
end Lowering.Machine
