import Lowering.Proofs.BlockDepths
import Lowering.Proofs.Faults

/-! The depths that a walk finds in a routine are those of the shapes of its function, so that lowering
never fails because they disagree. -/

namespace Lowering.Proofs
open Host Shape Guest Emission

variable {plan : Plan} {bound : Array Bound} {analysis : Analysis.State} {d : Depths}
  {i : Nat} {o : Bound} {p : Point}

/-- The calls of a function take slots that can be counted. -/
def CountableCalls (fn : Function) : Prop :=
  ∀ inst ∈ fn.instructions.toList, ∀ o, Bound.ofInstruction fn inst = .ok o → Countable o

instance (o : Bound) : Decidable (Countable o) :=
  inferInstanceAs (Decidable (o.opcode = .callFunction ∨ o.opcode = .call → 0 ≤ o.callWidth))

instance (fn : Function) : Decidable (CountableCalls fn) :=
  decidable_of_iff (∀ inst ∈ fn.instructions.toList,
      ((Bound.ofInstruction fn inst).toOption.all fun o => decide (Countable o)) = true) <| by
    refine forall₂_congr fun inst _ => ?_
    cases Bound.ofInstruction fn inst with
    | error => exact ⟨fun _ => nofun, fun _ => rfl⟩
    | ok o => exact ⟨fun all _ same => Except.ok.inj same ▸ of_decide_eq_true all,
        fun all => decide_eq_true (all o rfl)⟩

/-- The index at which the operations of an instruction start, past its label. -/
def bodyOf (fn : Function) (i : Nat) : Option Nat :=
  match prepare fn with
  | .error _ => none
  | .ok (_, bound, analysis) =>
    match bound[i]?, spanOf fn i with
    | some o, some (first, _) => some (first + (markOf analysis o).length)
    | _, _ => none

/-- A walk that gets to an instruction gets past its label. -/
theorem Measured.unmarked {maxDepth : Int64} (measured : Measured plan bound analysis maxDepth d)
    (reached : Reached bound analysis i o p) {n : Nat} (small : n ≤ addressable)
    (here : d.before[ownStart plan bound analysis i o]? = some (Int64.ofNat n)) :
    d.before[ownStart plan bound analysis i o + (markOf analysis o).length]? =
      some (Int64.ofNat n) := by
  obtain ⟨_, _, _, _, stands⟩ := measured.instruction reached maxDepth
  have short := stands.append.1.short
  have size := measured.size maxDepth
  simp only [addressable] at small size
  have counts : (markOf analysis o).all fair = true :=
    List.all_eq_true.mpr fun op member => mem_markOf member ▸ rfl
  refine (measured.agreeing.passage stands.append.1 counts (by omega) here).2 none n ?_
  split
  · exact ⟨Int.natCast_nonneg n, .inr ⟨rfl, rfl, rfl⟩⟩
  · exact ⟨rfl, rfl⟩

/-- Depths of a function whose routine a walk accepts. -/
structure Walked (fn : Function) (plan : Plan) (bound : Array Bound) (analysis : Analysis.State)
    (d : Depths) : Prop extends Setting plan bound analysis where
  offsets : OwnOffsets fn
  prepared : prepare fn = .ok (plan, bound, analysis)
  countable : ∀ (i : Nat) (o : Bound), bound[i]? = some o → Countable o
  accepted : Depths.ofRoutine (emit plan bound analysis).builder.build = .ok d

theorem prepare_setting {fn : Function} (offsets : OwnOffsets fn)
    (prepared : prepare fn = .ok (plan, bound, analysis))
    (small : (emit plan bound analysis).builder.build.ops.size ≤ addressable) :
    Setting plan bound analysis := by
  obtain ⟨same, planned, analysed⟩ := prepare_planned prepared
  have emitted : (emissionOf plan bound analysis).builder.emitted.size ≤ addressable := by
    rw [emit_emission] at small
    simpa [Builder.build] using small
  exact ⟨⟨planned, analyze_stable planned analysed, emitted⟩, planned.separate (same ▸ offsets)⟩

theorem prepare_walked {fn : Function} (offsets : OwnOffsets fn) (calls : CountableCalls fn)
    (prepared : prepare fn = .ok (plan, bound, analysis))
    (small : (emit plan bound analysis).builder.build.ops.size ≤ addressable)
    (accepted : Depths.ofRoutine (emit plan bound analysis).builder.build = .ok d) :
    Walked fn plan bound analysis d := by
  refine ⟨prepare_setting offsets prepared small, offsets, prepared, fun i o found => ?_, accepted⟩
  obtain ⟨same, planned, _⟩ := prepare_planned prepared
  obtain ⟨present, made⟩ := planned.bounds found
  rw [same] at present made
  exact calls o.inst (Array.mem_of_getElem? present).val o made

/-- The walk gets to the label of an instruction, and past it, with the depth of its shape, or it does not
get there. -/
theorem Walked.depths {fn : Function} (walked : Walked fn plan bound analysis d)
    (reached : Reached bound analysis i o p) {k : Nat} (place : k = ownStart plan bound analysis i o ∨
      k = ownStart plan bound analysis i o + (markOf analysis o).length) :
    d.before[k]? = some (-1) ∨ d.before[k]? = some p.shape.height := by
  have accepted : Depths.ofRoutine (routineOf plan bound analysis
      (emissionOf plan bound analysis).builder.build.maxDepth) = .ok d := by
    rw [← walked.accepted, emit_emission]
    rfl
  cases dialect : plan.dialect with
  | legacy =>
    have blocked := walked.toSetting.blocked walked.offsets walked.prepared dialect
    rcases place with rfl | rfl
    · exact blocked.walked (m := 0) walked.countable accepted reached (Nat.zero_le _)
    · exact blocked.walked walked.countable accepted reached (Nat.le_refl _)
  | modern =>
    have measured : Measured plan bound analysis _ d :=
      ⟨walked.toSetting, walked.countable, ofRoutine_agrees (walked.present _) accepted⟩
    have here := measured.walked dialect reached
    rcases place with rfl | rfl
    · exact .inr here
    · exact .inr (measured.unmarked reached (walked.stable.sane i p reached.point).1 here)

theorem label?_before {r : Routine} (accepted : Depths.ofRoutine r = .ok d) {label : Label}
    {depth : Int64} (found : d.label? label = some depth) :
    ∃ k : Nat, r.ops[k]? = some (.label label) ∧ d.before[k]? = some depth ∧ 0 ≤ depth := by
  obtain ⟨⟨other, noted⟩, search, rfl⟩ := Option.map_eq_some_iff.mp found
  have same : other = label := by simpa using List.find?_some search
  subst same
  have listed : (other, noted) ∈ d.labels := by simpa using List.mem_of_find?_eq_some search
  unfold Depths.ofRoutine at accepted
  dsimp only at accepted
  split at accepted
  · cases accepted
    cases listed
  · split at accepted
    · cases accepted
    · split at accepted
      · cases accepted
      · cases accepted
        obtain ⟨⟨named, k⟩, defined, shown⟩ := List.mem_filterMap.mp listed
        have here : r.ops[k]? = some (.label named) := by
          unfold Routine.labels at defined
          obtain ⟨⟨op, index⟩, present, marked⟩ := List.mem_filterMap.mp defined
          have operation := List.mem_zipIdx_iff_getElem?.mp present
          cases op <;> cases marked
          simpa using operation
        dsimp only at shown
        split at shown
        next depth before =>
          split at shown
          next positive =>
            cases shown
            exact ⟨k, here, before, positive⟩
          next => cases shown
        next => cases shown

/-- A label that a walk gets to has the depth of the shape. -/
theorem Walked.label {fn : Function} (walked : Walked fn plan bound analysis d)
    (reached : Reached bound analysis i o p) {depth : Int64}
    (found : d.label? o.inst.offset = some depth) : depth = p.shape.height := by
  obtain ⟨k, defined, before, positive⟩ := label?_before walked.accepted found
  rw [emit_emission] at defined
  have index : (routineOf plan bound analysis 0).labelIndex? o.inst.offset = some k :=
    walked.toSetting.label defined
  rcases walked.depths reached (.inl (walked.target reached index)) with missing | same
  · cases before.symm.trans missing
    exact absurd positive (by decide)
  · exact Option.some.inj (before.symm.trans same)

/-- The depths of the labels are those of the shapes. -/
theorem Walked.agree {fn : Function} (walked : Walked fn plan bound analysis d) :
    disagreement? fn analysis d = none := by
  unfold disagreement?
  refine List.head?_eq_none_iff.mpr (List.filterMap_eq_nil_iff.mpr ?_)
  rintro ⟨inst, i⟩ member
  have present : fn.instructions[i]? = some inst := by
    simpa using List.mem_zipIdx_iff_getElem?.mp member
  dsimp only
  split
  next p depth point found =>
    obtain ⟨same, planned, _⟩ := prepare_planned walked.prepared
    have inside := (Array.getElem?_eq_some_iff.mp present).1
    obtain ⟨o, bounded⟩ : ∃ o, bound[i]? = some o :=
      ⟨_, Array.getElem?_eq_getElem (by rw [planned.size, same]; exact inside)⟩
    have own := (planned.bounds bounded).1
    rw [same, present, Option.some.injEq] at own
    have level := walked.label ⟨bounded, point⟩ (own ▸ found)
    simp [level]
  next => rfl

/-- Host depths and shapes. Wherever the analysis of a function gets, the walk of its routine does not get,
or finds the depth of the shape. So lowering never fails for a disagreement between the two, and what
it checks at labels holds at every instruction. -/
theorem host_depths (fn : Function) (offsets : OwnOffsets fn) (calls : CountableCalls fn) :
    (∀ plan bound analysis depths, prepare fn = .ok (plan, bound, analysis) →
      (emit plan bound analysis).builder.build.ops.size ≤ addressable →
      Depths.ofRoutine (emit plan bound analysis).builder.build = .ok depths →
      ∀ i p, analysis.point? i = some p → ∃ k, bodyOf fn i = some k ∧
        (depths.before[k]? = some (-1) ∨ depths.before[k]? = some p.shape.height)) ∧
    ∀ e host guest offset, (lower fn).1 = .error e → e.cause ≠ .disagreement host guest offset := by
  constructor
  · intro plan bound analysis depths prepared small accepted i p point
    have walked := prepare_walked offsets calls prepared small accepted
    have inside : i < bound.size := by
      rw [walked.planned.size, ← walked.stable.size]
      unfold Analysis.State.point? at point
      by_contra outside
      rw [Array.getElem?_eq_none (by omega)] at point
      cases point
    have reached : Reached bound analysis i _ p := ⟨Array.getElem?_eq_getElem inside, point⟩
    refine ⟨_, ?_, walked.depths reached (.inr rfl)⟩
    unfold bodyOf
    rw [prepared]
    dsimp only
    rw [reached.found, spanOf_reached prepared reached]
  · intro e host guest offset failed same
    have agree : agrees e.cause = true := by
      unfold lower at failed
      split at failed
      next stop stopped =>
        cases failed
        exact (prepare_agrees fn).fault stopped
      next plan bound analysis prepared =>
        split at failed
        next stop events finished =>
          cases failed
          unfold finish at finished
          dsimp only at finished
          split at finished
          · cases finished
            rfl
          · next small =>
            split at finished
            next fault walked =>
              cases finished
              exact (depths_agrees _).fault walked
            next depths accepted =>
              have walked := prepare_walked offsets calls prepared (Nat.not_lt.mp small) accepted
              rw [walked.agree] at finished
              cases finished
        next => cases failed
    rw [same] at agree
    cases agree

/-- Two calls, and a jump to what is returned. -/
def calling (args : Int64) : Function where
  name := "f"
  version := ⟨3, 11⟩
  constants := #[.int 1]
  instructions := #[{ offset := 0, code := Opcode.loadConst.code },
    { offset := 2, code := Opcode.loadConst.code }, { offset := 4, code := Opcode.loadConst.code },
    { offset := 6, code := Opcode.call.code, arg := args },
    { offset := 8, code := Opcode.call.code, arg := args },
    { offset := 10, code := Opcode.jumpForward.code, arg := 12 },
    { offset := 12, code := Opcode.returnValue.code }]

theorem calling_depths : ∃ plan bound analysis depths p,
    prepare (calling 0) = .ok (plan, bound, analysis) ∧
    Depths.ofRoutine (emit plan bound analysis).builder.build = .ok depths ∧
    analysis.point? 4 = some p ∧ p.shape.height = 2 ∧ ∃ k, bodyOf (calling 0) 4 = some k ∧
      (depths.before[k]? = some (-1) ∨ depths.before[k]? = some 2) := by
  have offsets : OwnOffsets (calling 0) := ⟨by decide, by decide⟩
  obtain ⟨plan, bound, analysis, depths, p, prepared, small, accepted, point, height⟩ :
      ∃ plan bound analysis depths p, prepare (calling 0) = .ok (plan, bound, analysis) ∧
        (emit plan bound analysis).builder.build.ops.size ≤ addressable ∧
        Depths.ofRoutine (emit plan bound analysis).builder.build = .ok depths ∧
        analysis.point? 4 = some p ∧ p.shape.height = 2 := by
    have checked : preparesTo (calling 0) (fun plan bound analysis =>
        decide ((emit plan bound analysis).builder.build.ops.size ≤ addressable) &&
        (Depths.ofRoutine (emit plan bound analysis).builder.build).toOption.isSome &&
        (analysis.point? 4).any (·.shape.height == 2)) = true := by decide +kernel
    obtain ⟨plan, bound, analysis, prepared, holds⟩ := preparesTo_spec checked
    simp only [Bool.and_eq_true, decide_eq_true_eq, beq_iff_eq, Option.any_eq_true] at holds
    obtain ⟨⟨small, accepted⟩, p, point, height⟩ := holds
    obtain ⟨depths, walked⟩ := Option.isSome_iff_exists.mp accepted
    exact ⟨plan, bound, analysis, depths, p, prepared, small, ok_of_toOption walked, point, height⟩
  refine ⟨plan, bound, analysis, depths, p, prepared, accepted, point, height, ?_⟩
  rw [← height]
  exact (host_depths (calling 0) offsets (by decide +kernel)).1 plan bound analysis depths prepared small accepted
    4 p point

/-- A call that takes more slots than can be counted takes none from the shape, and one from the stack. -/
theorem calling_disagrees : ¬ CountableCalls (calling 9223372036854775807) ∧
    ∃ e, (lower (calling 9223372036854775807)).1 = .error e ∧ e.cause = .disagreement 3 5 12 := by
  have checked : (((lower (calling 9223372036854775807)).1.map fun _ => false).tryCatch
      fun e => .ok (e.cause == .disagreement 3 5 12)).toOption = some true := by decide +kernel
  cases failed : (lower (calling 9223372036854775807)).1 with
  | ok => rw [failed] at checked; cases checked
  | error e =>
    rw [failed] at checked
    exact ⟨by decide, e, rfl, eq_of_beq (Option.some.inj checked)⟩

end Lowering.Proofs
