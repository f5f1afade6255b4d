import Lowering.Proofs.Pacing
import Lowering.Proofs.Plans

/-! How long the loop of the analysis runs. It ends, and an instruction is taken from the worklist no
more often than its shape can widen: each time it is queued again, a slot of its stack has lost its
known value or become an object, or a local has lost its known value, become an object or become
unbound. The depth of its stack and its blocks stay what they were when it was first reached. -/

namespace Lowering.Proofs
open Guest Shape Analysis

variable {plan : Plan} {bound : Array Bound}

/-- A slot of the stack loses its known value, or its kind gives way to object. -/
structure StrictlyWidens (a b : Slot) : Prop where
  widens : Widens a b
  change : (a.known ≠ none ∧ b.known = none) ∨ (a.kind ≠ .object ∧ b.kind = .object)

/-- A local loses its known value, or its kind gives way to object, or it becomes unbound. -/
structure LocalStrictlyWidens (a b : Slot) : Prop where
  widens : LocalWidens a b
  change : (a.known ≠ none ∧ b.known = none) ∨
    (a.kind ≠ .object ∧ a.kind ≠ .unbound ∧ b.kind = .object) ∨
    (a.kind ≠ .unbound ∧ b.kind = .unbound)

/-- No slot becomes narrower, and one becomes wider. -/
structure ShapeStrictlyWidens (s t : Stack) : Prop where
  widens : ShapeWidens s t
  slot : (∃ (k : Nat) (a b : Cell), s.cells[k]? = some a ∧ t.cells[k]? = some b ∧
      StrictlyWidens a.slot b.slot) ∨
    ∃ (k : Nat) (a b : Slot), s.locals[k]? = some a ∧ t.locals[k]? = some b ∧ LocalStrictlyWidens a b

private theorem certain {a : Slot} (positive : 0 < certainty a) : a.known ≠ none := by
  intro unknown
  simp [certainty, unknown] at positive

private theorem fades_certainty {a b : Slot} (fades : Fades a.known b.known) :
    (a.known ≠ none ∧ b.known = none) ∨ certainty b = certainty a := by
  unfold certainty
  rcases fades with lost | same | agrees
  · cases known : a.known with
    | none => exact .inr (by simp [lost])
    | some => exact .inl ⟨nofun, lost⟩
  · exact .inr (by rw [same])
  · cases known : a.known <;> cases other : b.known <;> simp_all [agree]

theorem Widens.strict {a b : Slot} (widens : Widens a b) (less : slack b < slack a) :
    StrictlyWidens a b := by
  refine ⟨widens, ?_⟩
  cases widens with
  | fades kind region known =>
    refine .inl ((fades_certainty known).resolve_right fun same => ?_)
    simp [slack, kind, same] at less
  | object free value =>
    by_cases object : a.kind = .object
    · have positive : 0 < certainty a := by simpa [slack, certainty, Slot.ofKind, object] using less
      exact .inl ⟨certain positive, rfl⟩
    · exact .inr ⟨object, rfl⟩

theorem LocalWidens.strict {a b : Slot} (widens : LocalWidens a b)
    (less : localSlack b < localSlack a) : LocalStrictlyWidens a b := by
  refine ⟨widens, ?_⟩
  cases widens with
  | fades kind region known =>
    refine .inl ((fades_certainty known).resolve_right fun same => ?_)
    simp [localSlack, kind, same] at less
  | unbound =>
    by_cases unbound : a.kind = .unbound
    · have positive : 0 < certainty a := by
        simpa [localSlack, certainty, Slot.ofKind, unbound] using less
      exact .inl ⟨certain positive, rfl⟩
    · exact .inr (.inr ⟨unbound, rfl⟩)
  | object bound =>
    by_cases object : a.kind = .object
    · have positive : 0 < certainty a := by
        simpa [localSlack, certainty, Slot.ofKind, object] using less
      exact .inl ⟨certain positive, rfl⟩
    · exact .inr (.inl ⟨object, bound, rfl⟩)

private theorem sum_decreases {α : Type} {related : α → α → Prop} {measure : α → Nat} {a b : List α}
    (all : List.Forall₂ related a b) (less : (b.map measure).sum < (a.map measure).sum) :
    ∃ (k : Nat) (x y : α), a[k]? = some x ∧ b[k]? = some y ∧ related x y ∧ measure y < measure x := by
  induction all with
  | nil => simp at less
  | @cons x y a b head _ ih =>
    simp only [List.map_cons, List.sum_cons] at less
    by_cases here : measure y < measure x
    · exact ⟨0, x, y, rfl, rfl, head, here⟩
    · obtain ⟨k, found⟩ := ih (by omega)
      exact ⟨k + 1, found⟩

private theorem ShapeWidens.forall₂_locals {s t : Stack} (widens : ShapeWidens s t)
    (length : s.locals.length = t.locals.length) : List.Forall₂ LocalWidens s.locals t.locals := by
  refine List.forall₂_iff_get.mpr ⟨length, fun i inside also => ?_⟩
  simpa [localSlot, inside, also] using widens.locals i

theorem ShapeWidens.strict {s t : Stack} (widens : ShapeWidens s t)
    (length : s.locals.length = t.locals.length) (less : rank t < rank s) :
    ShapeStrictlyWidens s t := by
  refine ⟨widens, ?_⟩
  unfold rank at less
  by_cases cells : (t.cells.map fun cell => slack cell.slot).sum <
      (s.cells.map fun cell => slack cell.slot).sum
  · obtain ⟨k, a, b, before, after, wider, fewer⟩ := sum_decreases widens.cells cells
    exact .inl ⟨k, a, b, before, after, wider.strict fewer⟩
  · have locals : (t.locals.map localSlack).sum < (s.locals.map localSlack).sum := by omega
    obtain ⟨k, a, b, before, after, wider, fewer⟩ :=
      sum_decreases (widens.forall₂_locals length) locals
    exact .inr ⟨k, a, b, before, after, wider.strict fewer⟩

/-- Points only widen, and that of an instruction which is queued uses up slack. -/
private def Spends (st later : Analysis.State) : Prop :=
  ∀ j p, st.point? j = some p → ∃ q, later.point? j = some q ∧ q.blocks = p.blocks ∧
    ShapeWidens p.shape q.shape ∧ rank q.shape ≤ rank p.shape ∧
    (st.work.count j < later.work.count j → rank q.shape < rank p.shape)

private theorem Spends.idle {st later : Analysis.State} (points : later.points = st.points)
    (work : later.work = st.work) : Spends st later := by
  intro j p known
  refine ⟨p, by simpa [Analysis.State.point?, points] using known, rfl, .refl _, Nat.le_refl _, ?_⟩
  rw [work]
  exact fun more => absurd more (Nat.lt_irrefl _)

private theorem Spends.trans {a b c : Analysis.State} (first : Spends a b) (second : Spends b c) :
    Spends a c := by
  intro j p known
  obtain ⟨q, between, blocks, widens, less, spent⟩ := first j p known
  obtain ⟨r, found, also, wider, fewer, paid⟩ := second j q between
  refine ⟨r, found, also.trans blocks, widens.trans wider, fewer.trans less, fun more => ?_⟩
  -- An instruction that is queued on the way is queued by one of the two.
  by_cases early : a.work.count j < b.work.count j
  · exact Nat.lt_of_le_of_lt fewer (spent early)
  · exact Nat.lt_of_lt_of_le (paid (by omega)) less

private theorem enqueue_other (st : Analysis.State) {i j : Nat} (apart : i ≠ j) :
    (st.enqueue j).work.count i = st.work.count i := by
  unfold Analysis.State.enqueue
  split
  · rfl
  · simp [Ne.symm apart]

private theorem points_enqueue (st : Analysis.State) (j : Nat) : (st.enqueue j).points = st.points := by
  unfold Analysis.State.enqueue
  split <;> rfl

private theorem Spends.replace {st : Analysis.State} {j : Nat} {q : Point} (inside : j < st.points.size)
    (wider : ∀ p, st.point? j = some p →
      q.blocks = p.blocks ∧ ShapeWidens p.shape q.shape ∧ rank q.shape < rank p.shape) :
    Spends st ({ st with points := st.points.setIfInBounds j (some q) }.enqueue j) := by
  intro i p known
  simp only [Analysis.State.point?, points_enqueue]
  by_cases same : i = j
  · subst same
    obtain ⟨blocks, widens, less⟩ := wider p known
    exact ⟨q, by simp [inside], blocks, widens, Nat.le_of_lt less, fun _ => less⟩
  · have kept : ((st.points.setIfInBounds j (some q))[i]?).join = some p := by
      rw [Array.getElem?_setIfInBounds_ne (Ne.symm same)]
      exact known
    refine ⟨p, kept, rfl, .refl _, Nat.le_refl _, ?_⟩
    rw [enqueue_other _ same]
    exact fun more => absurd more (Nat.lt_irrefl _)

private theorem Spends.merge {st later : Analysis.State} (paced : Paced plan st) {j : Nat} {p : Point}
    (inside : j < plan.function.instructions.size) (framed : Framed plan p.shape)
    (merged : st.merge plan.function j p = .ok later) : Spends st later := by
  have within : j < st.points.size := paced.size ▸ inside
  unfold Analysis.State.merge at merged
  split at merged
  · next missing =>
    split at merged
    · cases merged
    · cases merged
      exact .replace within (by simp [missing])
  · next known present =>
    split at merged
    · cases merged
    · split at merged
      · cases merged
      · next result unified =>
        dsimp only at merged
        have stamped : Spends st { st with stamp := st.stamp + 1 } := .idle rfl rfl
        split at merged
        · cases merged
          exact stamped
        · next changed =>
          cases merged
          refine stamped.trans (.replace within fun q other => ?_)
          have found : st.point? j = some q := other
          rw [present] at found
          cases found
          exact ⟨rfl, (unify_widens unified).1,
            (unify_rank (paced.framed j known present) framed unified).resolve_left changed⟩

private theorem Spends.joins {carried : Stack → Prop} {st later : Analysis.State}
    (paced : Paced plan st) (fits : ∀ s, carried s → Framed plan s ∧ s.depth ≤ 3 * reach plan st)
    (joins : Joins plan.function carried st later) : Spends st later := by
  induction joins with
  | idle points work => exact .idle points work
  | merge first inside carries merged ih =>
    exact ih.trans (.merge (paced.joins fits first).1 inside (fits _ carries).1 merged)
  | rest _ points work ih => exact ih.trans (.idle points work)

private theorem Spends.advance (planned : Planned plan bound) {st later : Analysis.State} {i : Nat}
    (paced : Paced plan st) (done : Proofs.advance plan bound st i = .ok later) :
    Spends (taken st i) later := by
  have held : Paced plan (taken st i) := ⟨paced.size, paced.framed, paced.depth⟩
  unfold Proofs.advance at done
  split at done
  · next o p found known =>
    obtain ⟨_, _, _, checked⟩ := ofInstruction_spec (planned.bounds found).2
    refine .joins held (fun s carried => ?_) (process_joins planned.positive done)
    have deep := held.depth i p known
    have more := carried.depth
    exact ⟨carried.framed (held.framed i p known) checked, by omega⟩
  · cases done
    exact .idle rfl rfl

/-- What becomes of the instructions that have been reached: the depths of their stacks and their
blocks stay the same, and the shape of one that is queued strictly widens. -/
def Requeues (st later : Analysis.State) : Prop :=
  ∀ j p, st.point? j = some p → ∃ q, later.point? j = some q ∧ q.shape.depth = p.shape.depth ∧
    q.blocks = p.blocks ∧ (st.work.count j < later.work.count j → ShapeStrictlyWidens p.shape q.shape)

private theorem Spends.requeues {st later : Analysis.State} (spends : Spends st later)
    (before : ∀ j p, st.point? j = some p → Framed plan p.shape)
    (after : ∀ j p, later.point? j = some p → Framed plan p.shape) : Requeues st later := by
  intro j p known
  obtain ⟨q, found, blocks, widens, _, less⟩ := spends j p known
  have length := (before j p known).1.trans (after j q found).1.symm
  exact ⟨q, found, widens.cells.length_eq.symm, blocks, fun more => widens.strict length (less more)⟩

/-- So many instructions have been taken from the worklist, each time the one that was queued last. -/
inductive Draws (plan : Plan) (bound : Array Bound) (st : Analysis.State) : Nat → Analysis.State → Prop
  | none : Draws plan bound st 0 st
  | take {n i : Nat} {before later : Analysis.State} {rest : List Nat}
      (drawn : Draws plan bound st n before) (newest : before.work = i :: rest)
      (done : advance plan bound before i = .ok later) : Draws plan bound st (n + 1) later

private theorem Draws.account (planned : Planned plan bound) {st last : Analysis.State} {n : Nat}
    (paced : Paced plan st) (start : debt plan st ≤ budget plan st)
    (drawn : Draws plan bound st n last) : Paced plan last ∧ n + debt plan last ≤ budget plan last := by
  induction drawn with
  | none => exact ⟨paced, by omega⟩
  | take _ newest done ih =>
    obtain ⟨held, paid⟩ := ih
    obtain ⟨after, more⟩ := held.advance planned (newest ▸ List.mem_cons_self) done
    exact ⟨after, by omega⟩

/-- How the loop ends. -/
def Concludes (plan : Plan) (bound : Array Bound) (last : Analysis.State)
    (result : Except Stop Analysis.State) : Prop :=
  last.work = [] ∧ result = .ok last ∨ ∃ i rest stop, last.work = i :: rest ∧
    advance plan bound last i = .error stop ∧ result = .error stop

private theorem run_draws {start st : Analysis.State} {n : Nat} (fuel : Nat)
    (drawn : Draws plan bound start n st) :
    (∃ m last, Draws plan bound start m last ∧ Concludes plan bound last (runBy .newest plan bound fuel st)) ∨
      runBy .newest plan bound fuel st = .error ⟨.plain "analysis did not settle", none⟩ := by
  induction fuel generalizing st n with
  | zero => exact .inr rfl
  | succ fuel ih =>
    rw [runBy]
    cases work : st.work with
    | nil => exact .inl ⟨n, st, drawn, .inl ⟨work, rfl⟩⟩
    | cons i rest =>
      have newest : Order.newest.choose st = i := by simp [Order.newest, work]
      rw [if_neg (by simp), newest]
      cases done : advance plan bound st i with
      | error stop => exact .inl ⟨n, st, drawn, .inr ⟨i, rest, stop, work, done, rfl⟩⟩
      | ok later => exact ih (drawn.take work done)

private theorem entered (plan : Plan) : ∃ st, (State.start plan).merge plan.function 0
    ⟨Stack.entry plan.function.localCount plan.function.argCount, []⟩ = .ok st := by
  have none : (State.start plan).point? 0 = Option.none := by
    simp only [Analysis.State.point?, Analysis.State.start, Array.getElem?_replicate]
    split <;> rfl
  unfold Analysis.State.merge
  rw [none]
  exact ⟨_, if_neg (by simp [Stack.entry, Stack.depth])⟩

/-- The loop of the analysis ends. At every point of it, what has been taken from the worklist and what
is still on it is at most what the instructions that have been reached can afford, and an instruction
that had been reached and is queued again has strictly widened. -/
theorem analysis_duration {fn : Function} (ready : Ready fn plan bound) :
    ∃ st, (State.start plan).merge fn 0 ⟨Stack.entry fn.localCount fn.argCount, []⟩ = .ok st ∧
      (∃ n last, Draws plan bound st n last ∧ Concludes plan bound last (analyze plan bound)) ∧
      (∀ n last, Draws plan bound st n last → n + last.work.length ≤
        ∑ j ∈ Finset.range fn.instructions.size, affords plan (last.point? j)) ∧
      ∀ n before i rest later, Draws plan bound st n before → before.work = i :: rest →
        advance plan bound before i = .ok later → Requeues (taken before i) later := by
  obtain ⟨rfl, planned⟩ := ready.planned
  obtain ⟨st, entering⟩ := entered plan
  obtain ⟨paced, start⟩ := Paced.entered planned entering
  refine ⟨st, entering, ?_, fun n last drawn => ?_, fun n before i rest later drawn work done => ?_⟩
  · have same : analyze plan bound = runBy .newest plan bound (fuel plan.function) st := by
      rw [← analyzeBy_newest, analyzeBy]
      simp only [entering]
    rcases run_draws (fuel plan.function) .none with ⟨n, last, drawn, ends⟩ | exhausted
    · exact ⟨n, last, drawn, same ▸ ends⟩
    · obtain ⟨j, located⟩ := analyzeBy_settles planned .newest
        (analyzeBy_newest.trans (same.trans exhausted))
      cases located
  · have account := (drawn.account planned paced start).2
    unfold debt budget total at account
    omega
  · have held := (drawn.account planned paced start).1
    have after := (held.advance planned (work ▸ List.mem_cons_self) done).1
    exact (Spends.advance planned held done).requeues held.framed after.framed

/-- A function that keeps a number or a text in a local around a loop, and forgets the local on one way
around it. -/
def forgetful : Function where
  name := "f"
  version := ⟨3, 9⟩
  argCount := 1
  localNames := #["a", "b"]
  constants := #[.int 1, .str "a"]
  instructions := #[{ offset := 0, code := Opcode.loadConst.code },
    { offset := 2, code := Opcode.storeFast.code, arg := 1 },
    { offset := 4, code := Opcode.loadFast.code },
    { offset := 6, code := Opcode.popJumpIfTrue.code, arg := 14 },
    { offset := 8, code := Opcode.loadConst.code, arg := 1 },
    { offset := 10, code := Opcode.storeFast.code, arg := 1 },
    { offset := 12, code := Opcode.jumpAbsolute.code, arg := 4 },
    { offset := 14, code := Opcode.deleteFast.code, arg := 1 },
    { offset := 16, code := Opcode.jumpAbsolute.code, arg := 4 }]

theorem forgetful_ends : ∃ plan bound st last n, Ready forgetful plan bound ∧
    analyze plan bound = .ok last ∧ Draws plan bound st n last ∧ n ≤ 69 := by
  obtain ⟨plan, bound, last, prepared, sum⟩ : ∃ plan bound last,
      prepare forgetful = .ok (plan, bound, last) ∧
        ∑ j ∈ Finset.range forgetful.instructions.size, affords plan (last.point? j) = 69 := by
    have checked : preparesTo forgetful (fun plan _ last =>
        decide (∑ j ∈ Finset.range forgetful.instructions.size, affords plan (last.point? j) = 69)) =
        true := by decide +kernel
    obtain ⟨plan, bound, last, prepared, holds⟩ := preparesTo_spec checked
    exact ⟨plan, bound, last, prepared, of_decide_eq_true holds⟩
  obtain ⟨ready, analysed⟩ := prepare_ready prepared
  obtain ⟨st, _, ⟨n, final, drawn, ends⟩, within, _⟩ := analysis_duration ready
  rw [analysed] at ends
  rcases ends with ⟨_, same⟩ | ⟨_, _, _, _, _, failed⟩
  · cases same
    have account := within n last drawn
    exact ⟨plan, bound, st, last, n, ready, analysed, drawn, by omega⟩
  · cases failed

end Lowering.Proofs
