import Lowering.Proofs.WellFormed

/-! Labels that the operations of a function refer to. Every handler has a label, and so has every jump,
except around the prologue of a handler that control only falls into: the jump names an offset to which
nothing else leads, and no label is put there. -/

namespace Lowering.Proofs
open Host Shape Guest Emission

variable {fn : Function} {plan : Plan} {bound : Array Bound} {analysis : Analysis.State} {maxDepth : Int64}
  {i : Nat} {o : Bound} {p : Point} {c : Context} {st : Emission.State}

/-- A label is defined by exactly one operation. -/
def DefinedOnce (r : Routine) (label : Label) : Prop := ∃! k : Nat, r.ops[k]? = some (.label label)

theorem DefinedOnce.defined {r : Routine} {label : Label} (once : DefinedOnce r label) : Defined r label := by
  obtain ⟨k, defines, _⟩ := once
  exact findLabel_isSome (Array.getElem?_eq_some_iff.mp defines).1 defines

theorem Defined.once {r : Routine} {label : Label} (defined : Defined r label)
    (nodup : (labelsOf r.ops.toList).Nodup) : DefinedOnce r label := by
  obtain ⟨k, found⟩ := Option.isSome_iff_exists.mp defined
  refine ⟨k, (findLabel_some found).2, fun j defines => ?_⟩
  exact Option.some.inj ((labelIndex?_of_nodup nodup defines).symm.trans found)

/-- Control falls into an instruction from the one in front of it. -/
def FallsInto (analysis : Analysis.State) (i : Nat) : Prop :=
  ∃ j, i = j + 1 ∧ (analysis.point? j).isSome ∧ analysis.falls[j]? = some true

theorem stage_fallen (inside : i ≤ bound.size) :
    (stage c st bound i).2 = true ↔ FallsInto c.analysis i := by
  cases i with
  | zero => simp [stage, FallsInto]
  | succ i =>
    obtain ⟨o, found⟩ : ∃ o, bound[i]? = some o := ⟨_, Array.getElem?_eq_getElem (by omega)⟩
    simp only [stage, found, FallsInto, Nat.add_right_cancel_iff, exists_eq_left']
    cases point : c.analysis.point? i with
    | none => simp
    | some p => cases falls : c.analysis.falls[i]? <;> simp [Array.getD_eq_getD_getElem?, falls]

/-- In front of prologues there is a jump when control falls into them, or another prologue stands
there. -/
theorem goto_mem_lead {offset : Int64} {falls : Bool} {regions : List Region} :
    .goto offset ∈ lead c offset falls regions ↔
      ∃ r rest, regions = r :: rest ∧ (rest ≠ [] ∨ falls = true) := by
  cases regions with
  | nil => simp [lead]
  | cons r rest =>
    have around : .goto offset ∉ r.prologue := fun inside => by
      cases (prologue_straight inside).2.1
    cases rest with
    | nil => cases falls <;> simp [lead, around]
    | cons s rest => simp [lead]

/-- The index of an instruction is found from its offset. -/
theorem Setting.index (setting : Setting plan bound analysis) (found : bound[i]? = some o) :
    plan.function.indexOf? o.inst.offset = some i := by
  have present := (setting.planned.bounds found).1
  obtain ⟨inside, same⟩ := Array.getElem?_eq_some_iff.mp present
  refine Array.findIdx?_eq_some_iff_getElem.mpr ⟨inside, by simp [same], fun j before => ?_⟩
  obtain ⟨other, also⟩ : ∃ other, bound[j]? = some other :=
    ⟨_, Array.getElem?_eq_getElem (by rw [setting.planned.size]; omega)⟩
  have own := (setting.planned.bounds also).1
  rw [Array.getElem?_eq_getElem (by omega), Option.some.injEq] at own
  rw [own, Bool.not_eq_true, beq_eq_false_iff_ne]
  exact fun equal => absurd (setting.separate.distinct j i other o also found equal) (by omega)

theorem Setting.handlersAt_eq (setting : Setting plan bound analysis) (reached : Reached bound analysis i o p) :
    handlersAt (contextOf plan analysis) o.inst.offset =
      analysis.regions.filter fun r => r.handler == o.inst.offset := by
  refine List.filter_congr fun r member => ?_
  by_cases place : r.handler = o.inst.offset
  · have known : Emission.reached plan.function analysis r.handler = true := by
      rw [Emission.reached, place, setting.index reached.found]
      simp [reached.point]
    simpa [place] using (setting.labelled.reached r member).mpr known
  · simp [place]

/-- An offset to which nothing leads but the instruction in front of it, and where the prologue of a handler
stands. -/
structure Stranded (fn : Function) (analysis : Analysis.State) (offset : Int64) : Prop where
  unmarked : offset ∉ analysis.targets
  around : ∃ i inst, fn.instructions[i]? = some inst ∧ inst.offset = offset ∧ (analysis.point? i).isSome ∧
    ∃ r rest, (analysis.regions.filter fun r => r.handler == offset) = r :: rest ∧
      (rest ≠ [] ∨ FallsInto analysis i)

theorem goto_mem_leadAt (setting : Setting plan bound analysis) (reached : Reached bound analysis i o p) :
    .goto o.inst.offset ∈ leadAt plan bound analysis i o ↔
      ∃ r rest, (analysis.regions.filter fun r => r.handler == o.inst.offset) = r :: rest ∧
        (rest ≠ [] ∨ FallsInto analysis i) := by
  have inside := (Array.getElem?_eq_some_iff.mp reached.found).1
  rw [leadAt, goto_mem_lead, setting.handlersAt_eq reached, stage_fallen (Nat.le_of_lt inside)]
  rfl

/-- An operation of a routine jumps to a label, or is protected by a handler with that label. -/
def RefersTo (r : Routine) (label : Label) : Prop :=
  (∃ op ∈ r.ops, op.target? = some label) ∨ ∃ region ∈ r.regions, region.handler = label

/-- A fault that cites an undefined label cites one that is referred to and is not defined. -/
def Cites (r : Routine) : Fault → Prop
  | .invalid _ (.undefinedLabel text) => ∃ label, RefersTo r label ∧ ¬ Defined r label ∧ text = labelText label
  | _ => True

/-- Whatever a computation fails with, it cites no label wrongly. -/
def Citing (r : Routine) {α : Type} : Except Fault α → Prop
  | .error fault => Cites r fault
  | .ok _ => True

section
variable {r : Routine} {w : Depths.Walk} {k : Nat} {depth : Int64} {op : Operation} {label : Label}

theorem Citing.fault {α : Type} {result : Except Fault α} {fault : Fault} (citing : Citing r result)
    (failed : result = .error fault) : Cites r fault := by
  subst failed
  exact citing

theorem Citing.bind {α β : Type} {first : Except Fault α} {next : α → Except Fault β}
    (citing : Citing r first) (later : ∀ a, Citing r (next a)) : Citing r (first >>= next) := by
  cases first with
  | error => exact citing
  | ok a => exact later a

private theorem reach_citing (target : Nat) : Citing r (w.reach k target depth) := by
  unfold Depths.Walk.reach
  repeat' split
  all_goals trivial

private theorem jump_citing (refers : RefersTo r label) : Citing r (w.jump r k label depth) := by
  unfold Depths.Walk.jump
  split
  next missing => exact ⟨label, refers, by simp [Defined, missing], rfl⟩
  next => exact reach_citing _

private theorem raise_citing : Citing r (w.raise r k depth) := by
  unfold Depths.Walk.raise
  split
  next => trivial
  next region found =>
    split
    · trivial
    · exact jump_citing (.inr ⟨region, List.mem_of_find?_eq_some found, rfl⟩)

private theorem visit_citing (member : op ∈ r.ops) : Citing r (w.visit r k op depth) := by
  have fall : ∀ (w : Depths.Walk) (after : Int64), Citing r
      (if op.terminates = true then pure w else w.reach k (k + 1) after) := by
    intro w after
    split
    · trivial
    · exact reach_citing _
  unfold Depths.Walk.visit
  refine raise_citing.bind fun _ => ?_
  dsimp only
  split
  · trivial
  · split
    next label named => exact (jump_citing (.inl ⟨op, member, named⟩)).bind fun _ => fall _ _
    next => exact fall _ _

private theorem run_citing (fuel : Nat) : Citing r (Depths.Walk.run r fuel w) := by
  induction fuel generalizing w with
  | zero => trivial
  | succ fuel ih =>
    rw [Depths.Walk.run]
    split
    · trivial
    · split
      next operation _ =>
        split
        next failed => exact (visit_citing (Array.mem_of_getElem? operation)).fault failed
        next => exact ih
      next => exact ih

theorem ofRoutine_citing (r : Routine) : Citing r (Depths.ofRoutine r) := by
  unfold Depths.ofRoutine
  dsimp only
  split
  · trivial
  · split
    next failed => exact (reach_citing _).fault failed
    next =>
      split
      next failed => exact (run_citing _).fault failed
      next => trivial

end

/-- What holds of the labels of an emitted routine. -/
structure Resolved (fn : Function) (analysis : Analysis.State) (r : Routine) : Prop where
  handlers : ∀ region ∈ r.regions, DefinedOnce r region.handler
  jumps : ∀ op ∈ r.ops, ∀ label, op.target? = some label →
    DefinedOnce r label ∨ (op = .goto label ∧ Stranded fn analysis label)
  stranded : ∀ offset, Stranded fn analysis offset → .goto offset ∈ r.ops ∧ .label offset ∉ r.ops
  walk : ∀ k text, Depths.ofRoutine r = .error (.invalid k (.undefinedLabel text)) →
    ∃ offset, Stranded fn analysis offset ∧ text = labelText offset

/-- A jump leads to a label that is defined, or around the prologue of a handler that control only falls
into. -/
theorem Setting.jumps_stranded (setting : Setting plan bound analysis) {e : Emitted}
    (source : Source plan bound analysis e) {label : Label} (target : e.operation.target? = some label) :
    Defined (routineOf plan bound analysis maxDepth) label ∨
      (e.operation = .goto label ∧ Stranded plan.function analysis label) := by
  rcases setting.jumps_defined source target with known | ⟨around, place, aside, _⟩
  · exact .inl known
  · cases source with
    | @lead i o p op _ reached member =>
      dsimp only at around place
      subst around place
      have present := (setting.planned.bounds reached.found).1
      exact .inr ⟨rfl, aside, i, o.inst, present, rfl, by simp [reached.point],
        (goto_mem_leadAt setting reached).mp member⟩
    | own reached member => exact .inl (setting.jump_defined reached member target)
    | cleanup _ _ _ member =>
      simp only [restore, List.mem_cons, List.not_mem_nil, or_false] at member
      rcases member with rfl | rfl | rfl | rfl <;> cases target

theorem Setting.stranded_missing (setting : Setting plan bound analysis) {offset : Int64}
    (stranded : Stranded plan.function analysis offset) :
    .goto offset ∈ (routineOf plan bound analysis maxDepth).ops ∧
      .label offset ∉ (routineOf plan bound analysis maxDepth).ops := by
  obtain ⟨unmarked, i, inst, present, rfl, point, around⟩ := stranded
  obtain ⟨p, point⟩ := Option.isSome_iff_exists.mp point
  have inside := (Array.getElem?_eq_some_iff.mp present).1
  obtain ⟨o, found⟩ : ∃ o, bound[i]? = some o :=
    ⟨_, Array.getElem?_eq_getElem (by rw [setting.planned.size]; exact inside)⟩
  have own := (setting.planned.bounds found).1
  rw [present, Option.some.injEq] at own
  subst own
  have reached : Reached bound analysis i o p := ⟨found, point⟩
  constructor
  · obtain ⟨_, _, _, stands, _⟩ := setting.instruction reached maxDepth
    obtain ⟨m, jump⟩ := List.mem_iff_getElem?.mp ((goto_mem_leadAt setting reached).mpr around)
    exact Array.mem_of_getElem? (stands m _ jump).1
  · intro member
    obtain ⟨k, defines⟩ := Array.mem_iff_getElem?.mp member
    obtain ⟨_, _, tidy⟩ := emissionOf_tidy setting.separate setting.numbered
      (setting.planned.size ▸ setting.planned.small) setting.small
    have listed : o.inst.offset ∈ labelsOf (opsOf (emissionOf plan bound analysis)) := by
      refine mem_labelsOf.mpr ?_
      simpa [routineOf, Builder.build, opsOf] using member
    exact unmarked (tidy.guest _ listed (setting.separate.positive i o found)).1

/-- The labels that the operations of a function refer to. Handlers have labels, each defined once; so do
jumps, but for those around the prologues of handlers that control only falls into. Only where there is
such a handler can a walk come to a label that is not defined. -/
theorem emit_resolved (fn : Function) (offsets : OwnOffsets fn)
    (prepared : prepare fn = .ok (plan, bound, analysis))
    (small : (emit plan bound analysis).builder.build.ops.size ≤ addressable) :
    Resolved fn analysis (emit plan bound analysis).builder.build := by
  have setting := prepare_setting offsets prepared small
  obtain ⟨same, _, _⟩ := prepare_planned prepared
  obtain ⟨maxDepth, routine⟩ : ∃ maxDepth, (emit plan bound analysis).builder.build =
      routineOf plan bound analysis maxDepth := ⟨_, by rw [emit_emission]; rfl⟩
  rw [routine]
  have jumps : ∀ op ∈ (routineOf plan bound analysis maxDepth).ops, ∀ label, op.target? = some label →
      Defined (routineOf plan bound analysis maxDepth) label ∨
        (op = .goto label ∧ Stranded fn analysis label) := by
    intro op member label target
    obtain ⟨k, operation⟩ := Array.mem_iff_getElem?.mp member
    obtain ⟨e, source, rfl, _⟩ := setting.source operation
    exact same ▸ setting.jumps_stranded source target
  refine
    { handlers := fun region member => (setting.region_defined member).once setting.distinct
      jumps := fun op member label target => (jumps op member label target).imp_left (·.once setting.distinct)
      stranded := fun offset stranded => setting.stranded_missing (same ▸ stranded)
      walk := ?_ }
  intro k text failed
  obtain ⟨label, refers, missing, rfl⟩ := (ofRoutine_citing _).fault failed
  rcases refers with ⟨op, member, target⟩ | ⟨region, member, rfl⟩
  · exact ⟨label, ((jumps op member label target).resolve_left missing).2, rfl⟩
  · exact absurd (setting.region_defined member) missing

/-- A function with a handler at its last instruction, for its second one. -/
def tabled (code : Opcode) : Function where
  name := "f"
  version := ⟨3, 11⟩
  constants := #[.int 1]
  instructions := #[{ offset := 0, code := Opcode.loadConst.code },
    { offset := 2, code := code.code, arg := 1 }, { offset := 4, code := Opcode.returnValue.code }]
  table := [{ start := 2, stop := 4, target := 4, depth := 0 }]

theorem tabled_resolved : ∃ plan bound analysis,
    OwnOffsets (tabled .raiseVarargs) ∧ prepare (tabled .raiseVarargs) = .ok (plan, bound, analysis) ∧
      (emit plan bound analysis).builder.build.regions.length = 1 ∧
      Resolved (tabled .raiseVarargs) analysis (emit plan bound analysis).builder.build := by
  have offsets : OwnOffsets (tabled .raiseVarargs) := ⟨by decide, by decide⟩
  obtain ⟨plan, bound, analysis, prepared, small, protected'⟩ : ∃ plan bound analysis,
      prepare (tabled .raiseVarargs) = .ok (plan, bound, analysis) ∧
        (emit plan bound analysis).builder.build.ops.size ≤ addressable ∧
        (emit plan bound analysis).builder.build.regions.length = 1 := by
    have checked : preparesTo (tabled .raiseVarargs) (fun plan bound analysis =>
        decide ((emit plan bound analysis).builder.build.ops.size ≤ addressable) &&
        (emit plan bound analysis).builder.build.regions.length == 1) = true := by decide +kernel
    obtain ⟨plan, bound, analysis, prepared, holds⟩ := preparesTo_spec checked
    simp only [Bool.and_eq_true, decide_eq_true_eq, beq_iff_eq] at holds
    exact ⟨plan, bound, analysis, prepared, holds⟩
  exact ⟨plan, bound, analysis, offsets, prepared, protected',
    emit_resolved (tabled .raiseVarargs) offsets prepared small⟩

/-- No exception reaches the handler, so that its offset gets no label, but control falls into it and is
led around its prologue. -/
theorem tabled_unresolved : OwnOffsets (tabled .nop) ∧ ∃ plan bound analysis,
    prepare (tabled .nop) = .ok (plan, bound, analysis) ∧
      (emit plan bound analysis).builder.build.ops[1]? = some (Operation.goto 4) ∧
      ¬ DefinedOnce (emit plan bound analysis).builder.build 4 ∧
      Depths.ofRoutine (emit plan bound analysis).builder.build =
        .error (.invalid 1 (.undefinedLabel "@4")) := by
  obtain ⟨plan, bound, analysis, prepared, jumps, missing, walk⟩ : ∃ plan bound analysis,
      prepare (tabled .nop) = .ok (plan, bound, analysis) ∧
        (emit plan bound analysis).builder.build.ops[1]? = some (Operation.goto 4) ∧
        (emit plan bound analysis).builder.build.labelIndex? 4 = none ∧
        Depths.ofRoutine (emit plan bound analysis).builder.build =
          .error (.invalid 1 (.undefinedLabel "@4")) :=
    ⟨_, _, _, by cbv, by cbv, by decide +kernel, by cbv⟩
  refine ⟨⟨by decide, by decide⟩, plan, bound, analysis, prepared, jumps, fun once => ?_, walk⟩
  have defined := once.defined
  rw [Defined, missing] at defined
  cases defined

end Lowering.Proofs
