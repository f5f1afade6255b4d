import Mathlib.Algebra.Order.BigOperators.Group.Finset
import Lowering.Proofs.Orders
import Lowering.Proofs.Ranks

/-! How long an analysis takes. An instruction is queued when it is first reached and whenever what is
known before it widens, so that what an analysis has processed and may still have to process is paid
for by the instructions that it has reached, whatever the order. -/

namespace Lowering.Proofs
open Guest Shape Analysis

variable {plan : Plan} {bound : Array Bound}

/-- A stage of an analysis that is reached by joining in shapes, at instructions of the function. -/
inductive Joins (fn : Function) (carried : Stack → Prop) : Analysis.State → Analysis.State → Prop
  | idle {st later : Analysis.State} (points : later.points = st.points) (work : later.work = st.work) :
      Joins fn carried st later
  | merge {st before later : Analysis.State} {j : Nat} {p : Point} (first : Joins fn carried st before)
      (inside : j < fn.instructions.size) (carries : carried p.shape)
      (merged : before.merge fn j p = .ok later) : Joins fn carried st later
  | rest {st before later : Analysis.State} (first : Joins fn carried st before)
      (points : later.points = before.points) (work : later.work = before.work) :
      Joins fn carried st later

section
variable {fn : Function} {carried : Stack → Prop}

theorem Joins.refl (st : Analysis.State) : Joins fn carried st st := .idle rfl rfl

theorem Joins.trans {a b c : Analysis.State} (first : Joins fn carried a b)
    (second : Joins fn carried b c) : Joins fn carried a c := by
  induction second with
  | idle points work => exact .rest first points work
  | merge _ inside carries merged ih => exact .merge ih inside carries merged
  | rest _ points work ih => exact .rest ih points work

private theorem target_idle (st : Analysis.State) (offset : Int64) :
    (st.target offset).points = st.points ∧ (st.target offset).work = st.work := by
  unfold Analysis.State.target
  split <;> exact ⟨rfl, rfl⟩

private theorem cover_idle (st : Analysis.State) (blocks : List Block) (offset stop : Int64) :
    (st.cover blocks offset stop).points = st.points ∧ (st.cover blocks offset stop).work = st.work := by
  unfold Analysis.State.cover
  generalize blocks.filter (fun b => !b.running) = opened
  induction opened generalizing st with
  | nil => exact ⟨rfl, rfl⟩
  | cons b rest ih => exact ih _

end

private theorem raise_joins (positive : 0 < plan.function.instructions.size)
    {st covered later : Analysis.State} {o : Bound} {p : Point} {r : Region} {blocks : List Block}
    {raises : Bool} (points : covered.points = st.points) (work : covered.work = st.work)
    (done : (if raises = true then
        ({ covered with stamp := covered.stamp + 1 }.target r.handler).merge plan.function
          (indexOf plan.function r.handler)
          ⟨(p.shape.truncate r.depth).pushAll covered.stamp r.state, blocks⟩
      else .ok covered) = .ok later) : Joins plan.function (Carried plan o p.shape) st later := by
  split at done
  · obtain ⟨same, kept⟩ := target_idle { covered with stamp := covered.stamp + 1 } r.handler
    exact .merge (.idle (same.trans points) (kept.trans work)) (indexOf_lt positive _)
      (.caught covered.stamp r) done
  · cases done
    exact .idle points work

private theorem protect_joins (positive : 0 < plan.function.instructions.size)
    {st later : Analysis.State} {i : Nat} {o : Bound} {p : Point} {r : Region} {raises : Bool}
    (done : protect plan st i o.inst p r raises = .ok later) :
    Joins plan.function (Carried plan o p.shape) st later := by
  unfold protect at done
  split at done
  · cases done
  · cases dialect : r.dialect with
    | legacy =>
      simp only [dialect] at done
      obtain ⟨points, work⟩ := cover_idle st p.blocks o.inst.offset
        (stopOf plan.function i o.inst.offset)
      exact raise_joins positive points work done
    | modern =>
      simp only [dialect] at done
      exact raise_joins positive rfl rfl done

private theorem blocksAfter_joins {st later : Analysis.State} {i : Nat} {o : Bound} {p : Point}
    {next : List Block} (done : blocksAfter plan st i o p = .ok (next, later)) :
    later.points = st.points ∧ later.work = st.work := by
  unfold blocksAfter at done
  split at done
  · split at done
    · cases done
    · dsimp only at done
      split at done
      · cases done
      · cases done
        exact ⟨rfl, rfl⟩
  · split at done
    · cases done
      exact ⟨rfl, rfl⟩
    · cases done
  · split at done
    · cases done
      exact ⟨rfl, rfl⟩
    · cases done
      exact ⟨rfl, rfl⟩
    · cases done
  · cases done
    exact ⟨rfl, rfl⟩

private theorem follow_joins (positive : 0 < plan.function.instructions.size) {carried : Stack → Prop}
    {st later : Analysis.State} {o : Bound} {p : Point} {next : List Block} {edges : List Edge}
    (carries : ∀ e ∈ edges, carried e.shape) (done : follow plan o p next st edges = .ok later) :
    Joins plan.function carried st later := by
  induction edges generalizing st with
  | nil =>
    cases done
    exact .refl _
  | cons e edges ih =>
    rw [follow] at done
    split at done
    · cases done
    · next merged merging =>
      obtain ⟨points, work⟩ := target_idle st e.target
      have first : Joins plan.function carried st merged :=
        .merge (.idle points work) (indexOf_lt positive _) (carries e List.mem_cons_self) merging
      exact first.trans (ih (fun f listed => carries f (List.mem_cons_of_mem _ listed)) done)

private theorem carry_joins (positive : 0 < plan.function.instructions.size)
    {st later : Analysis.State} {i : Nat} {o : Bound} {p : Point}
    (done : carry plan st i o p = .ok later) :
    Joins plan.function (Carried plan o p.shape) st later := by
  unfold carry at done
  simp only [bind, Except.bind, pure, Except.pure, throw, throwThe, MonadExceptOf.throw] at done
  split at done
  · cases done
  · next flow flows =>
    split at done
    · cases done
    · next result after =>
      obtain ⟨next, st₁⟩ := result
      dsimp only at done
      obtain ⟨points, work⟩ := blocksAfter_joins after
      split at done
      · cases done
      · next st₂ following =>
        have before : Joins plan.function (Carried plan o p.shape) st st₂ := Joins.trans
          (.idle points work) (follow_joins positive (fun e listed => .branch flows listed) following)
        split at done
        · split at done
          · next inside => exact before.merge inside (.next flows) done
          · cases done
        · cases done
          exact before

theorem process_joins (positive : 0 < plan.function.instructions.size) {st later : Analysis.State}
    {i : Nat} {o : Bound} {p : Point} (done : process plan st i o p = .ok later) :
    Joins plan.function (Carried plan o p.shape) st later := by
  unfold process at done
  split at done
  · cases done
  · next raised raising =>
    refine Joins.trans ?_ (carry_joins positive done)
    unfold raise at raising
    split at raising
    · cases raising
      exact .refl _
    · exact protect_joins positive raising

/-- The sum of what instructions count for. -/
def total (n : Nat) (f : Option Point → Nat) (st : Analysis.State) : Nat :=
  ∑ j ∈ Finset.range n, f (st.point? j)

theorem total_congr {n : Nat} {f : Option Point → Nat} {st later : Analysis.State}
    (points : later.points = st.points) : total n f later = total n f st := by
  simp only [total, Analysis.State.point?, points]

theorem total_update {n : Nat} (f : Option Point → Nat) {st later : Analysis.State} {j : Nat}
    (inside : j < n) (elsewhere : ∀ i, i ≠ j → later.point? i = st.point? i) :
    total n f later + f (st.point? j) = total n f st + f (later.point? j) := by
  have member := Finset.mem_range.mpr inside
  have same : ∑ i ∈ (Finset.range n).erase j, f (later.point? i) =
      ∑ i ∈ (Finset.range n).erase j, f (st.point? i) := by
    apply Finset.sum_congr rfl
    intro i other
    rw [elsewhere i (Finset.mem_erase.mp other).1]
  unfold total
  rw [← Finset.add_sum_erase _ _ member, ← Finset.add_sum_erase (Finset.range n) _ member, same]
  omega

theorem total_le {n limit : Nat} {f : Option Point → Nat} {st : Analysis.State}
    (each : ∀ j, f (st.point? j) ≤ limit) : total n f st ≤ n * limit := by
  simpa [total] using Finset.sum_le_card_nsmul (Finset.range n) (fun j => f (st.point? j)) limit
    fun j _ => each j

/-- An instruction counts once it is reached. -/
def counts : Option Point → Nat
  | none => 0
  | some _ => 1

/-- How often an instruction that is reached may have to be processed. -/
def affords (plan : Plan) : Option Point → Nat
  | none => 0
  | some p => 1 + 2 * p.shape.depth + 3 * plan.function.localCount

/-- How often what is known before an instruction can still widen. -/
def owes : Option Point → Nat
  | none => 0
  | some p => rank p.shape

def reach (plan : Plan) (st : Analysis.State) : Nat :=
  total plan.function.instructions.size counts st

def budget (plan : Plan) (st : Analysis.State) : Nat :=
  total plan.function.instructions.size (affords plan) st

def debt (plan : Plan) (st : Analysis.State) : Nat :=
  st.work.length + total plan.function.instructions.size owes st

/-- An analysis whose stacks are no deeper than the instructions it has reached can make them. -/
structure Paced (plan : Plan) (st : Analysis.State) : Prop where
  size : st.points.size = plan.function.instructions.size
  framed : ∀ j p, st.point? j = some p → Framed plan p.shape
  depth : ∀ j p, st.point? j = some p → p.shape.depth + 3 ≤ 3 * reach plan st

/-- What is owed grows by no more than what is paid for. -/
structure Pays (plan : Plan) (st later : Analysis.State) : Prop where
  reach : reach plan st ≤ reach plan later
  account : debt plan later + budget plan st ≤ debt plan st + budget plan later

theorem Pays.trans {a b c : Analysis.State} (first : Pays plan a b) (second : Pays plan b c) :
    Pays plan a c := by
  refine ⟨first.reach.trans second.reach, ?_⟩
  have := first.account
  have := second.account
  omega

private theorem Paced.idle {st later : Analysis.State} (paced : Paced plan st)
    (points : later.points = st.points) (work : later.work = st.work) :
    Paced plan later ∧ Pays plan st later := by
  have same : ∀ j, later.point? j = st.point? j := fun j => by
    simp only [Analysis.State.point?, points]
  have reached : reach plan later = reach plan st := total_congr points
  refine ⟨⟨points ▸ paced.size, fun j p known => paced.framed j p (same j ▸ known),
    fun j p known => reached ▸ paced.depth j p (same j ▸ known)⟩, Nat.le_of_eq reached.symm, ?_⟩
  unfold debt budget
  rw [total_congr points, total_congr points, work]

private theorem enqueue_point (st : Analysis.State) (j : Nat) :
    (st.enqueue j).points = st.points ∧ (st.enqueue j).work.length ≤ st.work.length + 1 := by
  unfold Analysis.State.enqueue
  split
  · exact ⟨rfl, Nat.le_succ _⟩
  · exact ⟨rfl, Nat.le_refl _⟩

private theorem Paced.replace {st : Analysis.State} (paced : Paced plan st) {j : Nat} {p : Point}
    (inside : j < plan.function.instructions.size) (framed : Framed plan p.shape)
    (depth : ∀ q, st.point? j = some q → p.shape.depth = q.shape.depth ∧ rank p.shape < rank q.shape)
    (first : st.point? j = none → p.shape.depth ≤ 3 * reach plan st) :
    Paced plan ({ st with points := st.points.setIfInBounds j (some p) }.enqueue j) ∧
      Pays plan st ({ st with points := st.points.setIfInBounds j (some p) }.enqueue j) := by
  obtain ⟨points, work⟩ := enqueue_point { st with points := st.points.setIfInBounds j (some p) } j
  generalize ({ st with points := st.points.setIfInBounds j (some p) } :
    Analysis.State).enqueue j = later at *
  have here : later.point? j = some p := by
    simp [Analysis.State.point?, points, paced.size ▸ inside]
  have elsewhere : ∀ i, i ≠ j → later.point? i = st.point? i := by
    intro i apart
    simp [Analysis.State.point?, points, Ne.symm apart]
  have reached : reach plan later + _ = reach plan st + _ := total_update counts inside elsewhere
  have paid : budget plan later + _ = budget plan st + _ :=
    total_update (affords plan) inside elsewhere
  have owed := total_update owes inside elsewhere
  rw [here] at reached paid owed
  have grows : reach plan st ≤ reach plan later := by
    have once : counts (st.point? j) ≤ 1 := by
      unfold counts
      split <;> omega
    simp only [counts] at reached once
    omega
  refine ⟨⟨by simp [points, paced.size], fun i q known => ?_, fun i q known => ?_⟩, grows, ?_⟩
  · by_cases same : i = j
    · subst same
      rw [here] at known
      cases known
      exact framed
    · exact paced.framed i q (elsewhere i same ▸ known)
  · by_cases same : i = j
    · subst same
      rw [here] at known
      cases known
      cases before : st.point? i with
      | none =>
        have few := first before
        simp only [before, counts] at reached
        omega
      | some q =>
        have held := paced.depth i q before
        rw [(depth q before).1]
        omega
    · have held := paced.depth i q (elsewhere i same ▸ known)
      omega
  · have room := rank_le p.shape
    rw [framed.1] at room
    unfold debt
    dsimp only at work
    cases before : st.point? j with
    | none =>
      simp only [before, affords, owes] at paid owed
      omega
    | some q =>
      obtain ⟨deep, less⟩ := depth q before
      simp only [before, deep, affords, owes] at paid owed
      omega

/-- Joining in a shape is paid for. -/
theorem Paced.merge {st later : Analysis.State} (paced : Paced plan st) {j : Nat} {p : Point}
    (inside : j < plan.function.instructions.size) (framed : Framed plan p.shape)
    (depth : p.shape.depth ≤ 3 * reach plan st) (merged : st.merge plan.function j p = .ok later) :
    Paced plan later ∧ Pays plan st later := by
  unfold Analysis.State.merge at merged
  split at merged
  · next missing =>
    split at merged
    · cases merged
    · cases merged
      exact paced.replace inside framed (by simp [missing]) fun _ => depth
  · next known present =>
    split at merged
    · cases merged
    · split at merged
      · cases merged
      · next result unified =>
        dsimp only at merged
        have before := paced.framed j known present
        have idle : Paced plan { st with stamp := st.stamp + 1 } ∧ Pays plan st _ := paced.idle rfl rfl
        obtain ⟨stamped, paid⟩ := idle
        split at merged
        · cases merged
          exact ⟨stamped, paid⟩
        · next changed =>
          cases merged
          obtain ⟨same, deep⟩ := unify_framed before framed unified
          have less := (unify_rank before framed unified).resolve_left changed
          have widened := stamped.replace (p := ⟨result, known.blocks⟩) inside same
            (fun q other => by
              have found : st.point? j = some q := other
              rw [present] at found
              cases found
              exact ⟨deep, less⟩)
            (fun none => by
              have found : st.point? j = Option.none := none
              rw [present] at found
              cases found)
          exact ⟨widened.1, paid.trans widened.2⟩

theorem Paced.joins {carried : Stack → Prop} {st later : Analysis.State} (paced : Paced plan st)
    (fits : ∀ s, carried s → Framed plan s ∧ s.depth ≤ 3 * reach plan st)
    (joins : Joins plan.function carried st later) : Paced plan later ∧ Pays plan st later := by
  induction joins with
  | idle points work => exact paced.idle points work
  | merge _ inside carries merged ih =>
    obtain ⟨before, paid⟩ := ih
    obtain ⟨framed, depth⟩ := fits _ carries
    have grown := paid.reach
    obtain ⟨after, also⟩ := before.merge inside framed (by omega) merged
    exact ⟨after, paid.trans also⟩
  | rest _ points work ih =>
    obtain ⟨before, paid⟩ := ih
    obtain ⟨after, also⟩ := before.idle points work
    exact ⟨after, paid.trans also⟩

private theorem Paced.taken {st : Analysis.State} (paced : Paced plan st) {i : Nat}
    (queued : i ∈ st.work) : Paced plan (taken st i) ∧ debt plan (taken st i) + 1 = debt plan st := by
  refine ⟨⟨paced.size, paced.framed, paced.depth⟩, ?_⟩
  have shorter := List.length_erase_of_mem queued
  have positive := List.length_pos_of_mem queued
  have same : total plan.function.instructions.size owes (Proofs.taken st i) =
      total plan.function.instructions.size owes st := total_congr rfl
  have work : (Proofs.taken st i).work.length = (st.work.erase i).length := rfl
  unfold debt
  omega

/-- Processing an instruction pays off what is owed. -/
theorem Paced.advance (planned : Planned plan bound) {st later : Analysis.State} {i : Nat}
    (paced : Paced plan st) (queued : i ∈ st.work)
    (done : Proofs.advance plan bound st i = .ok later) :
    Paced plan later ∧ debt plan later + 1 + budget plan st ≤ debt plan st + budget plan later := by
  obtain ⟨shorter, less⟩ := paced.taken queued
  have kept : budget plan (Proofs.taken st i) = budget plan st := total_congr rfl
  have reached : reach plan (Proofs.taken st i) = reach plan st := total_congr rfl
  unfold Proofs.advance at done
  split at done
  · next o p found known =>
    obtain ⟨_, _, _, checked⟩ := ofInstruction_spec (planned.bounds found).2
    obtain ⟨after, paid⟩ := shorter.joins (fun s carried => by
      have deep := paced.depth i p known
      have more := carried.depth
      exact ⟨carried.framed (paced.framed i p known) checked, by omega⟩)
      (process_joins planned.positive done)
    have account := paid.account
    exact ⟨after, by omega⟩
  · cases done
    exact ⟨shorter, by omega⟩

theorem Paced.entered (planned : Planned plan bound) {st : Analysis.State}
    (entered : (Analysis.State.start plan).merge plan.function 0
      ⟨Stack.entry plan.function.localCount plan.function.argCount, []⟩ = .ok st) :
    Paced plan st ∧ debt plan st ≤ budget plan st := by
  have none : ∀ j, (Analysis.State.start plan).point? j = Option.none := by
    intro j
    simp only [Analysis.State.point?, Analysis.State.start, Array.getElem?_replicate]
    split <;> rfl
  have start : Paced plan (Analysis.State.start plan) :=
    ⟨by simp [Analysis.State.start], by simp [none], by simp [none]⟩
  have framed : Framed plan (Stack.entry plan.function.localCount plan.function.argCount) := by
    refine ⟨by simp [Stack.entry], fun i => ?_⟩
    simp only [Stack.entry, localSlot, List.getD_eq_getElem?_getD, List.getElem?_append,
      List.getElem?_replicate]
    split <;> split <;> rfl
  obtain ⟨after, paid⟩ := start.merge planned.positive framed (Nat.zero_le _) entered
  have nothing : debt plan (Analysis.State.start plan) = 0 := by
    have work : (Analysis.State.start plan).work = [] := rfl
    simp [debt, total, none, work, owes]
  have account := paid.account
  exact ⟨after, by omega⟩

/-- What the instructions of a function pay for at most. -/
def limit (fn : Function) : Nat :=
  fn.instructions.size * (1 + 6 * fn.instructions.size + 3 * fn.localCount)

theorem Paced.limited {st : Analysis.State} (paced : Paced plan st) :
    budget plan st ≤ limit plan.function := by
  have few : reach plan st ≤ plan.function.instructions.size * 1 := total_le fun j => by
    unfold counts
    split <;> omega
  refine total_le fun j => ?_
  cases known : st.point? j with
  | none => exact Nat.zero_le _
  | some p =>
    have deep := paced.depth j p known
    simp only [affords]
    omega

private theorem merge_index {fn : Function} {st : Analysis.State} {j : Nat} {p : Point} {stop : Stop}
    (failed : st.merge fn j p = .error stop) : stop.index = some j := by
  unfold Analysis.State.merge at failed
  split at failed
  · split at failed <;> cases failed
    rfl
  · split at failed
    · cases failed
      rfl
    · split at failed
      · cases failed
        rfl
      · dsimp only at failed
        split at failed <;> cases failed

private theorem follow_index {st : Analysis.State} {o : Bound} {p : Point} {next : List Block}
    {edges : List Edge} {stop : Stop} (failed : follow plan o p next st edges = .error stop) :
    ∃ j, stop.index = some j := by
  induction edges generalizing st with
  | nil => cases failed
  | cons e edges ih =>
    rw [follow] at failed
    split at failed
    · next merging =>
      cases failed
      exact ⟨_, merge_index merging⟩
    · exact ih failed

private theorem blocksAfter_index {st : Analysis.State} {i : Nat} {o : Bound} {p : Point} {stop : Stop}
    (failed : blocksAfter plan st i o p = .error stop) : stop.index = some i := by
  unfold blocksAfter at failed
  split at failed
  · split at failed
    · cases failed
      rfl
    · dsimp only at failed
      split at failed <;> cases failed
      rfl
  · split at failed <;> cases failed
    rfl
  · split at failed <;> cases failed
    rfl
  · cases failed

private theorem raise_index {st : Analysis.State} {i : Nat} {o : Bound} {p : Point} {stop : Stop}
    (failed : raise plan st i o p = .error stop) : ∃ j, stop.index = some j := by
  unfold raise protect at failed
  split at failed
  · cases failed
  · split at failed
    · cases failed
      exact ⟨i, rfl⟩
    · dsimp only at failed
      split at failed
      · exact ⟨_, merge_index failed⟩
      · cases failed

theorem process_index {st : Analysis.State} {i : Nat} {o : Bound} {p : Point} {stop : Stop}
    (failed : process plan st i o p = .error stop) : ∃ j, stop.index = some j := by
  unfold process at failed
  split at failed
  · next raising =>
    cases failed
    exact raise_index raising
  · unfold carry at failed
    simp only [bind, Except.bind, pure, Except.pure, throw, throwThe, MonadExceptOf.throw] at failed
    split at failed
    · cases failed
      exact ⟨i, rfl⟩
    · split at failed
      · next after =>
        cases failed
        exact ⟨i, blocksAfter_index after⟩
      · split at failed
        · next following =>
          cases failed
          exact follow_index following
        · split at failed
          · split at failed
            · exact ⟨_, merge_index failed⟩
            · cases failed
              exact ⟨i, rfl⟩
          · cases failed

private theorem runBy_settles (planned : Planned plan bound) (order : Order) {fuel : Nat} (steps : Nat)
    {st : Analysis.State} {stop : Stop} (paced : Paced plan st)
    (account : steps + debt plan st ≤ budget plan st) (enough : limit plan.function < steps + fuel)
    (failed : runBy order plan bound fuel st = .error stop) : ∃ j, stop.index = some j := by
  induction fuel generalizing st steps with
  | zero =>
    have limited := paced.limited
    omega
  | succ fuel ih =>
    rw [runBy] at failed
    split at failed
    · cases failed
    · next more =>
      split at failed
      · next stopped =>
        cases failed
        unfold advance at stopped
        split at stopped
        · exact process_index stopped
        · cases stopped
      · next later done =>
        obtain ⟨after, paid⟩ := paced.advance planned (order.queued st more) done
        exact ih (steps + 1) after (by omega) (by omega) failed

/-- In any order an analysis ends before it runs out of steps: where it fails, it does so at an
instruction. -/
theorem analyzeBy_settles (planned : Planned plan bound) (order : Order) {stop : Stop}
    (failed : analyzeBy order plan bound = .error stop) : ∃ j, stop.index = some j := by
  unfold analyzeBy at failed
  dsimp only at failed
  split at failed
  · next entering =>
    cases failed
    exact ⟨0, merge_index entering⟩
  · next st entered =>
    obtain ⟨paced, account⟩ := Paced.entered planned entered
    refine runBy_settles planned order 0 paced (by omega) ?_ failed
    simp only [limit, fuel, Nat.mul_add]
    omega

end Lowering.Proofs
