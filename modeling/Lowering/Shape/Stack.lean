import Lowering.Fault
import Lowering.Shape.Slot

/-!
Shapes: the abstract operand stack and locals before an instruction. A stack is a list of cells,
the top first. Every cell carries the stamp of the event that pushed it, so that two stacks which
grew out of one another are recognised as sharing their lower part. Sharing shows only for known
values that differ from themselves.
-/

namespace Lowering.Shape

structure Cell where
  stamp : Nat
  slot : Slot
deriving DecidableEq

structure Stack where
  cells : List Cell := []
  locals : List Slot := []
deriving DecidableEq

instance : Inhabited Stack := ⟨⟨[], []⟩⟩

namespace Stack

/-- An empty stack. The arguments are bound objects, the other locals are unbound. -/
def entry (localCount : Nat) (argCount : Int64) : Stack :=
  let bound := min argCount.toInt.toNat localCount
  ⟨[], List.replicate bound (Slot.ofKind .object)
    ++ List.replicate (localCount - bound) (Slot.ofKind .unbound)⟩

def depth (s : Stack) : Nat := s.cells.length

/-- The depth as a machine number, for messages. -/
def height (s : Stack) : Int64 := Int64.ofNat s.depth

def push (stamp : Nat) (slot : Slot) (s : Stack) : Stack :=
  { s with cells := ⟨stamp, slot⟩ :: s.cells }

/-- Pushes the slots in turn, so that the last one is on top. -/
def pushAll (stamp : Nat) (slots : List Slot) (s : Stack) : Stack :=
  slots.foldl (fun s slot => s.push stamp slot) s

/-- Drops the top `n` slots; a negative count drops nothing. -/
def pop (n : Int64) (s : Stack) : Except Fault Stack :=
  if n.toInt > s.depth then .error (.underflow n s.height)
  else .ok { s with cells := s.cells.drop n.toInt.toNat }

/-- The slot `i` positions below the top. -/
def peek (i : Int64) (s : Stack) : Except Fault Slot :=
  if i.toInt < 0 then .error (.underflow (i + 1) s.height)
  else match s.cells[i.toInt.toNat]? with
    | some cell => .ok cell.slot
    | none => .error (.underflow (i + 1) s.height)

/-- The top `n` slots, the lowest first. -/
def top (n : Int64) (s : Stack) : Except Fault (List Slot) :=
  if n.toInt > s.depth then .error (.underflow n s.height)
  else .ok ((s.cells.take n.toInt.toNat).map Cell.slot).reverse

/-- Keeps the lowest `depth` slots. -/
def truncate (depth : Int64) (s : Stack) : Stack :=
  { s with cells := s.cells.drop (s.depth - depth.toInt.toNat) }

/-- Every slot, the lowest first. -/
def slots (s : Stack) : List Slot := (s.cells.map Cell.slot).reverse

/-- A local; those out of range are unbound. -/
def local? (i : Int64) (s : Stack) : Slot :=
  if i.toInt < 0 then Slot.ofKind .unbound else s.locals.getD i.toInt.toNat (Slot.ofKind .unbound)

/-- Exactly `n` locals, cut off or filled up with unbound ones. -/
def withLocals (n : Nat) (s : Stack) : Stack :=
  { s with locals :=
      s.locals.take n ++ List.replicate (n - s.locals.length) (Slot.ofKind .unbound) }

/-- Sets a local, after growing the table to hold it. -/
def setLocal (i : Nat) (slot : Slot) (s : Stack) : Stack :=
  let grown := s.withLocals (max s.locals.length (i + 1))
  { grown with locals := grown.locals.set i slot }

/-- The index, from the bottom, of the lowest slot that a region owns, or -1. -/
def regionBase (region : Int64) (s : Stack) : Int64 :=
  match s.slots.findIdx? (·.region == region) with
  | some index => Int64.ofNat index
  | none => -1

/-- Compares from the top down to where the stacks are shared. -/
def sameCells : List Cell → List Cell → Bool
  | a :: as, b :: bs =>
    if a :: as = b :: bs then true else a.slot.same b.slot && sameCells as bs
  | [], [] => true
  | _, _ => false

def sameLocals : List Slot → List Slot → Bool
  | a :: as, b :: bs => a.same b && sameLocals as bs
  | [], [] => true
  | _, _ => false

/-- Two shapes have the same stack and the same locals. -/
def same (a b : Stack) : Bool := sameCells a.cells b.cells && sameLocals a.locals b.locals

/-- Merges two stacks of equal depth from the top down to where they are shared. The result is
the merged slots, the top first, and the shared part. The error is the first position, counted
from the bottom, that does not merge. -/
def mergeCells : List Cell → List Cell → Except (Nat × Slot × Slot) (List Slot × List Cell)
  | a :: as, b :: bs =>
    if a :: as = b :: bs then .ok ([], a :: as)
    else match a.slot.merge? b.slot with
      | none => .error (as.length, a.slot, b.slot)
      | some slot =>
        match mergeCells as bs with
        | .error e => .error e
        | .ok (slots, shared) => .ok (slot :: slots, shared)
  | _, _ => .ok ([], [])

/-- Merges two tables of locals; the shorter one is filled up with unbound ones. -/
def mergeLocals : List Slot → List Slot → List Slot
  | [], bs => bs.map (Slot.ofKind .unbound).mergeLocal
  | a :: as, [] => a.mergeLocal (.ofKind .unbound) :: mergeLocals as []
  | a :: as, b :: bs => a.mergeLocal b :: mergeLocals as bs

/-- Merges the shapes of two ways to reach an instruction. -/
def unify (stamp : Nat) (a b : Stack) : Except Fault Stack :=
  if a.depth ≠ b.depth then .error (.conflict a.height b.height (-1) "" "")
  else match mergeCells a.cells b.cells with
    | .error (position, left, right) =>
      .error (.conflict a.height b.height (Int64.ofNat position) left.text right.text)
    | .ok (slots, shared) =>
      .ok ⟨slots.map (Cell.mk stamp) ++ shared, mergeLocals a.locals b.locals⟩

def text (s : Stack) : String := "[" ++ Text.join ", " (s.slots.map Slot.text) ++ "]"

end Stack
end Lowering.Shape
