import Lowering.Proofs.Fixpoint

/-! Orders of processing. The analysis processes the instruction that was queued last, but any rule
that chooses among the queued ones gives an analysis, and each of them ends in a fixpoint. -/

namespace Lowering.Proofs
open Guest Shape Analysis

/-- A rule for choosing the instruction that is processed next. -/
structure Order where
  choose : Analysis.State → Nat
  queued : ∀ st, st.work ≠ [] → choose st ∈ st.work

namespace Order

/-- The instruction that was queued last. -/
def newest : Order where
  choose st := st.work.headD 0
  queued st some := by
    cases work : st.work with
    | nil => exact absurd work some
    | cons i rest => exact List.mem_cons_self

/-- The instruction that was queued first. -/
def oldest : Order where
  choose st := st.work.getLastD 0
  queued st some := by
    rw [List.getLastD_eq_getLast?, List.getLast?_eq_getLast_of_ne_nil some]
    exact List.getLast_mem some

end Order

/-- Takes an instruction off the worklist. -/
def taken (st : Analysis.State) (i : Nat) : Analysis.State :=
  { st with work := st.work.erase i, queued := st.queued.setIfInBounds i false }

/-- Processes a queued instruction. -/
def advance (plan : Plan) (bound : Array Bound) (st : Analysis.State) (i : Nat) :
    Except Stop Analysis.State :=
  match bound[i]?, st.point? i with
  | some o, some p => process plan (taken st i) i o p
  | _, _ => .ok (taken st i)

/-- Processes queued instructions in some order until none is left. -/
def runBy (order : Order) (plan : Plan) (bound : Array Bound) :
    Nat → Analysis.State → Except Stop Analysis.State
  | 0, _ => .error ⟨.plain "analysis did not settle", none⟩
  | fuel + 1, st =>
    if st.work = [] then .ok st
    else match advance plan bound st (order.choose st) with
      | .error stop => .error stop
      | .ok st => runBy order plan bound fuel st

/-- Analyses a function from its entry, in some order. -/
def analyzeBy (order : Order) (plan : Plan) (bound : Array Bound) : Except Stop Analysis.State :=
  let fn := plan.function
  match (State.start plan).merge fn 0 ⟨Stack.entry fn.localCount fn.argCount, []⟩ with
  | .error stop => .error stop
  | .ok st => runBy order plan bound (fuel fn) st

variable {plan : Plan} {bound : Array Bound}

private theorem runBy_newest (fuel : Nat) (st : Analysis.State) :
    runBy .newest plan bound fuel st = Analysis.run plan bound fuel st := by
  induction fuel generalizing st with
  | zero => rfl
  | succ fuel ih =>
    rw [runBy, Analysis.run]
    cases work : st.work with
    | nil => rfl
    | cons i rest =>
      have chosen : Order.newest.choose st = i := by simp [Order.newest, work]
      have same : taken st i = { st with work := rest, queued := st.queued.setIfInBounds i false } := by
        simp [taken, work]
      have point : ({ st with work := rest, queued := st.queued.setIfInBounds i false } :
          Analysis.State).point? i = st.point? i := rfl
      rw [if_neg (by simp), chosen, advance, same]
      dsimp only
      rw [point]
      cases bound[i]? with
      | none => exact ih _
      | some o =>
        cases st.point? i with
        | none => exact ih _
        | some p =>
          dsimp only
          cases process plan _ i o p with
          | error stop => rfl
          | ok next => exact ih next

/-- The analysis processes the instruction that was queued last. -/
theorem analyzeBy_newest : analyzeBy .newest plan bound = analyze plan bound := by
  unfold analyzeBy analyze
  dsimp only
  generalize (State.start plan).merge plan.function 0 _ = entered
  cases entered with
  | error => rfl
  | ok st => exact runBy_newest _ st

theorem taken_work {st : Analysis.State} (i : Nat) : ∀ j ∈ st.work, j = i ∨ j ∈ (taken st i).work := by
  intro j member
  by_cases same : j = i
  · exact .inl same
  · exact .inr ((List.mem_erase_of_ne same).mpr member)

/-- Whichever instruction is processed, nothing is forgotten. -/
theorem Progress.advance (planned : Planned plan bound) {st later : Analysis.State} {i : Nat}
    (valid : Progress plan bound st) (done : Proofs.advance plan bound st i = .ok later) :
    Progress plan bound later ∧ ∀ j q, Covers st j q → Covers later j q := by
  unfold Proofs.advance at done
  split at done
  · next o p found known => exact valid.process planned (taken_work i) found known done
  · next missing =>
    cases done
    exact ⟨valid.skip (taken_work i) fun o p found known => missing o p found known,
      fun _ _ covers => covers⟩

theorem runBy_induction {order : Order} (holds : Analysis.State → Prop)
    (kept : ∀ st later, holds st → st.work ≠ [] →
      advance plan bound st (order.choose st) = .ok later → holds later)
    {fuel : Nat} {st last : Analysis.State} (start : holds st)
    (ended : runBy order plan bound fuel st = .ok last) : holds last ∧ last.work = [] := by
  induction fuel generalizing st with
  | zero => cases ended
  | succ fuel ih =>
    rw [runBy] at ended
    split at ended
    · next empty =>
      cases ended
      exact ⟨start, empty⟩
    · next more =>
      split at ended
      · cases ended
      · next next done => exact ih (kept st next start more done) ended

theorem analyzeBy_stable (planned : Planned plan bound) {order : Order} {last : Analysis.State}
    (analysed : analyzeBy order plan bound = .ok last) : Stable plan bound last := by
  unfold analyzeBy at analysed
  dsimp only at analysed
  split at analysed
  · cases analysed
  · next st entered =>
    obtain ⟨start, covers⟩ := Progress.entered planned entered
    obtain ⟨⟨settled, kept⟩, empty⟩ := runBy_induction
      (fun st => Progress plan bound st ∧ Covers st 0
        ⟨Stack.entry plan.function.localCount plan.function.argCount, []⟩)
      (fun st later held _ done => by
        obtain ⟨valid, grown⟩ := held.1.advance planned done
        exact ⟨valid, grown _ _ held.2⟩)
      ⟨start, covers⟩ analysed
    exact settled.stable empty kept

end Lowering.Proofs
