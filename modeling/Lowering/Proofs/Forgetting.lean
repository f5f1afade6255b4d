import Lowering.Proofs.Loosening

/-! Flows do not look at known values. A shape whose known values are forgotten has a flow where the shape
has one, with slots of the same kinds and owners. -/

namespace Lowering.Proofs
open Guest Shape

/-- A slot without its known value. -/
def bareSlot (slot : Slot) : Slot := { slot with known := none }

def bareCell (cell : Cell) : Cell := { cell with slot := bareSlot cell.slot }

/-- A shape without known values. -/
def bare (s : Stack) : Stack := ⟨s.cells.map bareCell, s.locals.map bareSlot⟩

@[simp] theorem bareSlot_region (slot : Slot) : (bareSlot slot).region = slot.region := rfl

@[simp] theorem bareSlot_bareSlot (slot : Slot) : bareSlot (bareSlot slot) = bareSlot slot := rfl

@[simp] theorem bareSlot_untagged (slot : Slot) : bareSlot slot.untagged = (bareSlot slot).untagged := rfl

variable {plan : Plan} {stamp : Nat} {s : Stack} {flow : Flow} {o : Bound}

theorem enclosing_bare : enclosing (bare s) = enclosing s := by
  unfold enclosing
  rw [bare, List.find?_map]
  have same : ((fun cell : Cell => cell.slot.region != 0 && cell.slot.kind.isExceptionState) ∘ bareCell) =
      fun cell => cell.slot.region != 0 && cell.slot.kind.isExceptionState := rfl
  rw [same]
  cases s.cells.find? _ <;> rfl

end Lowering.Proofs
