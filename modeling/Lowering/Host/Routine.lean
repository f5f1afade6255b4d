import Lowering.Host.Operation

/-!
Routines: the operations of one function, the ranges of operations that are protected by a
handler, and the guest offset each operation comes from.
-/

namespace Lowering.Host

/-- Exceptions raised by the operations from `start` up to `stop` cut the stack to `depth`, are
pushed, and go to the label `handler`. -/
structure Protected where
  start : Int64
  stop : Int64
  handler : Label
  depth : Int64
deriving DecidableEq, Repr, Inhabited

namespace Protected

def covers (r : Protected) (i : Int64) : Bool := r.start ≤ i && i < r.stop

def text (r : Protected) : String :=
  s!"{r.start.toInt}..{r.stop.toInt} -> {labelText r.handler} [{r.depth.toInt}]"

end Protected

structure Routine where
  name : String := ""
  localCount : Int64 := 0
  maxDepth : Int64 := 0
  ops : Array Operation := #[]
  regions : List Protected := []
  /-- For each operation the guest offset it was emitted for; missing ones count as -1. -/
  origins : Array Int64 := #[]
deriving Inhabited

namespace Routine

/-- Searches the operations below `n` for a label, the last one first. -/
def findLabel (ops : Array Operation) (label : Label) : Nat → Option Nat
  | 0 => none
  | n + 1 =>
    match ops[n]? with
    | some (.label id) => if id == label then some n else findLabel ops label n
    | _ => findLabel ops label n

/-- The index of the last operation that defines a label. -/
def labelIndex? (r : Routine) (label : Label) : Option Nat := findLabel r.ops label r.ops.size

/-- The labels that are defined, with their indices, in the order of the operations. -/
def labels (r : Routine) : List (Label × Nat) :=
  r.ops.toList.zipIdx.filterMap fun
    | (.label id, i) => some (id, i)
    | _ => none

/-- The constants that the operations push, in their order. -/
def constants (r : Routine) : List Value :=
  r.ops.toList.filterMap fun
    | .const v => some v
    | _ => none

/-- The first region that covers an operation. -/
def regionAt? (r : Routine) (i : Int64) : Option Protected := r.regions.find? (·.covers i)

/-- The guest offset of an operation, or -1. -/
def origin (r : Routine) (i : Nat) : Int64 := r.origins.getD i (-1)

end Routine
end Lowering.Host
