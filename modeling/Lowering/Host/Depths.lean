import Lowering.Fault
import Lowering.Host.Routine

/-!
The stack depth before every operation of a routine, found by following normal and exceptional
control flow from the first operation. All paths that reach an operation must agree.
-/

namespace Lowering.Host

structure Depths where
  /-- The depth before each operation, negative when it is not reached. -/
  before : Array Int64
  /-- The depth at each label that is reached, in the order of the operations. -/
  labels : List (Label × Int64) := []
  /-- The deepest the stack gets. -/
  max : Int64 := 0

namespace Depths

def label? (d : Depths) (label : Label) : Option Int64 :=
  (d.labels.reverse.find? (·.1 == label)).map (·.2)

/-- A walk in progress: the depths found so far and the operations still to be visited, the one
to be visited next first. -/
structure Walk where
  before : Array Int64
  max : Int64 := 0
  work : List Nat := []

namespace Walk

/-- Records that control gets from one operation to another at a depth. -/
def reach (w : Walk) (source target : Nat) (depth : Int64) : Except Fault Walk :=
  match w.before[target]? with
  | none => .error (.invalid (Int64.ofNat source) .endOfRoutine)
  | some known =>
    if 0 ≤ known then
      if known == depth then .ok w else .error (.conflict known depth (-1) "" "")
    else .ok
      { before := w.before.setIfInBounds target depth
        max := if w.max < depth then depth else w.max
        work := target :: w.work }

def jump (w : Walk) (r : Routine) (source : Nat) (label : Label) (depth : Int64) :
    Except Fault Walk :=
  match r.labelIndex? label with
  | none => .error (.invalid (Int64.ofNat source) (.undefinedLabel (labelText label)))
  | some target => w.reach source target depth

/-- The exceptional edge of an operation. -/
def raise (w : Walk) (r : Routine) (i : Nat) (depth : Int64) : Except Fault Walk :=
  match r.regionAt? (Int64.ofNat i) with
  | none => .ok w
  | some region =>
    if depth < region.depth then
      .error (.malformed 0 region.handler region.depth depth (.shallowOperation i))
    else w.jump r i region.handler (region.depth + 1)

/-- Follows the edges that leave an operation. -/
def visit (w : Walk) (r : Routine) (i : Nat) (o : Operation) (depth : Int64) :
    Except Fault Walk := do
  let w ← w.raise r i depth
  if depth < o.pops then throw (.underflow o.pops depth)
  let after := depth - o.pops + o.pushes
  let w := { w with max := if w.max < after then after else w.max }
  let w ← match o.target? with
    | some label => w.jump r i label after
    | none => pure w
  if o.terminates then pure w else w.reach i (i + 1) after

/-- Visits operations until none is left. -/
def run (r : Routine) : Nat → Walk → Except Fault Walk
  | 0, _ => .error (.plain "walk did not settle")
  | fuel + 1, w =>
    match w.work with
    | [] => .ok w
    | i :: work =>
      match r.ops[i]?, w.before[i]? with
      | some o, some depth =>
        match visit { w with work } r i o depth with
        | .error fault => .error fault
        | .ok next => run r fuel next
      | _, _ => run r fuel { w with work }

end Walk

/-- No operation is visited twice when the operands are not negative, so that the number of
operations bounds the walk; the square leaves room for the others. -/
def fuel (r : Routine) : Nat := (r.ops.size + 1) * (r.ops.size + 1)

def ofRoutine (r : Routine) : Except Fault Depths :=
  let start : Walk := { before := Array.replicate r.ops.size (-1) }
  if r.ops.isEmpty then .ok { before := #[] }
  else
    match start.reach 0 0 0 with
    | .error fault => .error fault
    | .ok first =>
      match Walk.run r (fuel r) first with
      | .error fault => .error fault
      | .ok w =>
        let labels := r.labels.filterMap fun (label, i) =>
          match w.before[i]? with
          | some depth => if 0 ≤ depth then some (label, depth) else none
          | none => none
        .ok { before := w.before, labels, max := w.max }

end Depths
end Lowering.Host
