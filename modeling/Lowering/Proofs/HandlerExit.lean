import Lowering.Proofs.Protection
import Lowering.Proofs.ShapeSafety

/-! Where handlers are left. The blocks say which handler is left; the code restores the value that the
region saved whose exception state is innermost on the stack. The two agree as long as the state
of a handler stays where its region put it. -/

namespace Lowering.Proofs
open Machine Host Shape Guest Emission

variable {plan : Plan} {bound : Array Bound} {analysis : Analysis.State}

/-- The operation that loads what the innermost exception state on the stack belongs with. -/
def restored (plan : Plan) (s : Stack) : Operation :=
  if enclosing s == 0 then .const .none else .loadLocal (plan.scratch (enclosing s))

/-- Some operations stand between two indices. -/
def Between (r : Routine) (first last : Nat) (operations : List Operation) : Prop :=
  last = first + operations.length ∧
    ∀ (m : Nat) (op : Operation), operations[m]? = some op → r.ops[first + m]? = some op

theorem restored_iff {s : Stack} {region : Int64} (known : region ≠ 0) :
    restored plan s = .loadLocal (plan.scratch region) ↔ enclosing s = region := by
  unfold restored
  constructor
  · intro same
    split at same
    · cases same
    · simp only [Operation.loadLocal.injEq, Plan.scratch] at same
      grind
  · rintro rfl
    simp [known]

/-- The block that ends is that of a handler that runs. -/
theorem Turns.left {o : Bound} {blocks next : List Block} (turns : Turns plan o blocks next)
    (legacy : plan.dialect = .legacy) (leaves : o.opcode = .popExcept) :
    ∃ region, blocks = ⟨region, true⟩ :: next := by
  cases turns with
  | opens other | closes other => cases leaves.symm.trans other
  | leaves => exact ⟨_, rfl⟩
  | keeps _ _ modern => cases legacy.symm.trans (modern leaves)

theorem leaves_three {o : Bound} {p : Point} {stamp : Nat} {flow : Flow}
    (valid : Followable plan o p) (legacy : plan.dialect = .legacy) (leaves : o.opcode = .popExcept)
    (flows : o.flow plan stamp p.shape = .ok flow) :
    flow.falls = true ∧ flow.next.depth + 3 = p.shape.depth := by
  have slots : o.behavior.exceptionSlots = 3 := by
    rw [valid.popExcept leaves, legacy]
    rfl
  simp only [Bound.flow, leaves, slots] at flows
  split at flows
  · cases flows
  · obtain ⟨enough, rfl⟩ := replace_spec flows
    have count : (Int64.ofNat 3).toInt = 3 := rfl
    rw [count] at enough
    simp only [Flow.through, Stack.depth, count, List.map_nil, List.reverse_nil, List.nil_append,
      List.length_drop, true_and] at enough ⊢
    omega

/-- The label of an instruction that is jumped to. -/
def markOf (analysis : Analysis.State) (o : Bound) : List Operation :=
  if analysis.targets.contains o.inst.offset then [.label o.inst.offset] else []

/-- The operations of an instruction that leaves a handler. -/
theorem ownAt_leaves {i : Nat} {o : Bound} {p : Point} (valid : Followable plan o p)
    (legacy : plan.dialect = .legacy) (leaves : o.opcode = .popExcept) :
    ownAt plan bound analysis i o p =
      markOf analysis o ++ [.pop, .pop, .pop, restored plan p.shape, .setHandled] := by
  have expanded : o.expand plan (iterationLabel plan bound analysis i o p) p.shape =
      [.pop, .pop, .pop, restored plan p.shape, .setHandled] := by
    simp only [Bound.expand, leaves, Plan.leave, legacy, restored, valid.popExcept leaves]
    rfl
  rw [ownAt, own, show (contextOf plan analysis).plan = plan from rfl, expanded]
  rfl

/-- A handler is left with the value that the innermost exception state on the stack belongs with.
The block that ends is that of a handler that runs, and the code is protected by the cleanup of
this handler, which restores what the handler saved. So the value is that of the handler, and the
stack is as it was when its block was set up, just when its state is innermost on the stack and
stands where the block was set up. No run has less on its stack than the block keeps. -/
theorem handler_exit {fn : Function} {l : Lowered} {events : List Lowering.Event}
    (lowered : lower fn = (.ok l, events)) (prepared : prepare fn = .ok (plan, bound, analysis))
    (legacy : plan.dialect = .legacy) {i : Nat} {o : Bound} {p : Point}
    (reached : Reached bound analysis i o p) (leaves : o.opcode = .popExcept) :
    ∃ r below q first last cleanup, p.blocks = ⟨r.id, true⟩ :: below ∧
      Plan.regionIn? analysis.regions r.id = some r ∧ analysis.point? (i + 1) = some q ∧
      q.blocks = below ∧ q.shape.depth + 3 = p.shape.depth ∧ spanOf fn i = some (first, last) ∧
      Between l.routine first last
        (markOf analysis o ++ [.pop, .pop, .pop, restored plan p.shape, .setHandled]) ∧
      cleanup ∈ cleanupsOf plan bound analysis ∧ restore (contextOf plan analysis) cleanup =
        [.label cleanup.label, .loadLocal r.scratch, .setHandled, .throw] ∧
      (∀ k, first ≤ k → k < last → ∃ region, l.routine.regionAt? (Int64.ofNat k) = some region ∧
        region.handler = cleanup.label ∧ region.depth = r.depth) ∧
      ((restored plan p.shape = .loadLocal r.scratch ∧ q.shape.height = r.depth) ↔
        enclosing p.shape = r.id ∧ p.shape.height = r.depth + 3) ∧
      ∀ (setup : Setup) (st : Machine.State) (entered : Routine) (args : List Value) (depth : Nat)
        (c : Config), Reaches setup (.enter st entered args depth) c → c.frame.routine = l.routine →
        first ≤ c.frame.ip → c.frame.ip < last → r.depth.toInt.toNat ≤ c.frame.stack.length := by
  obtain ⟨_, _, _, lowers⟩ := lower_lowers lowered
  have same := lowers.prepared.symm.trans prepared
  cases same
  have settled := lowers.settled
  have routine : l.routine = routineOf plan bound analysis l.routine.maxDepth := lowers.routine
  obtain ⟨stamp, flow, next, flows, edges⟩ := settled.processed reached
  obtain ⟨falls, lower⟩ := leaves_three (settled.followable reached) legacy leaves flows
  obtain ⟨_, q, point, blocks, widens⟩ := edges.falls falls
  have level : q.shape.depth + 3 = p.shape.depth := by
    rw [← lower, Stack.depth, Stack.depth, widens.cells.length_eq]
  obtain ⟨region, here⟩ := edges.turns.left legacy leaves
  obtain ⟨r, member, id, positive, found⟩ :=
    settled.block reached (b := ⟨region, true⟩) (here ▸ List.mem_cons_self)
  dsimp only at id found
  subst id
  obtain ⟨place, _⟩ := (settled.stable.placing settled.planned member).scratch legacy
  obtain ⟨following, protection, guarded, _, stands⟩ :=
    settled.instruction reached l.routine.maxDepth
  rw [← routine] at stands
  simp only [Guarded, show (contextOf plan analysis).plan.dialect = .legacy from legacy, here]
    at guarded
  obtain ⟨cleanup, listed, block, _, rfl⟩ := guarded.cleanup rfl
  have protects : ∀ k, ownStart plan bound analysis i o ≤ k → k < leadStart plan bound analysis (i + 1) →
      ∃ op region, l.routine.ops[k]? = some op ∧ l.routine.regionAt? (Int64.ofNat k) = some region ∧
        region.handler = cleanup.label ∧ region.depth = r.depth := by
    intro k lower upper
    obtain ⟨m, rfl⟩ := Nat.exists_eq_add_of_le lower
    have inside : m < (ownAt plan bound analysis i o p).length := by omega
    obtain ⟨operation, _, protection⟩ := stands m _ (List.getElem?_eq_getElem inside)
    obtain ⟨region, present, same⟩ := Option.map_eq_some_iff.mp protection
    rw [Protection.mk.injEq, depthOf, found, Option.map_some, Option.getD_some] at same
    exact ⟨_, region, operation, present, same⟩
  refine ⟨r, next, q, _, _, cleanup, here, found, point, blocks, level,
    spanOf_reached prepared reached, ?_, listed, ?_, ?_, ?_, ?_⟩
  · rw [← ownAt_leaves (settled.followable reached) legacy leaves]
    exact ⟨following, fun m op present => (stands m op present).1⟩
  · rw [restore, block, found]
    rfl
  · intro k lower upper
    obtain ⟨_, region, _, present, same⟩ := protects k lower upper
    exact ⟨region, present, same⟩
  · have known : r.id ≠ 0 := by
      intro zero
      rw [zero] at found
      cases found
    rw [place, restored_iff known, Stack.height, Stack.height, ← level, Int64.ofNat_add]
    refine and_congr_right fun _ => ⟨fun same => by rw [same]; rfl, fun same => ?_⟩
    exact (Int64.add_left_inj _).mp same
  · intro setup st entered args depth c reaches same lower upper
    obtain ⟨op, region, operation, present, _, kept⟩ := protects _ lower upper
    obtain ⟨depths, walked⟩ := lowers.depths
    have some : l.routine.ops.isEmpty = false := by
      have inside := (Array.getElem?_eq_some_iff.mp operation).1
      simp only [Array.isEmpty, decide_eq_false_iff_not]
      omega
    have agreeing := ofRoutine_agrees some walked
    obtain ⟨small, before⟩ := (Levelled.reaches agreeing reaches).frame.known same
    have followed := agreeing.followed _ op _ (depth_positive small) before operation
    simp only [fullStack, addressable] at small
    exact toNat_le_of_not_lt (by omega) (kept ▸ (followed.raises region present).1)

/-- A function that leaves its handler at once. -/
def recovering : Function where
  name := "f"
  version := ⟨3, 9⟩
  constants := #[.int 1]
  instructions := #[{ offset := 0, code := Opcode.setupFinally.code, arg := 6 },
    { offset := 2, code := Opcode.loadConst.code },
    { offset := 4, code := Opcode.raiseVarargs.code, arg := 1 },
    { offset := 6, code := Opcode.popExcept.code },
    { offset := 8, code := Opcode.loadConst.code },
    { offset := 10, code := Opcode.returnValue.code }]

theorem recovering_exit : ∃ plan bound analysis p q, ∃ r : Region,
    prepare recovering = .ok (plan, bound, analysis) ∧ analysis.point? 3 = some p ∧
    analysis.point? 4 = some q ∧ p.blocks = [⟨r.id, true⟩] ∧
    restored plan p.shape = .loadLocal r.scratch ∧ q.shape.height = r.depth := by
  have checked : lowersTo recovering (fun plan bound analysis _ => plan.dialect == .legacy &&
      (bound[3]?).any (fun o : Bound => o.opcode == .popExcept) &&
      (analysis.point? 3).any (fun p => p.blocks == [⟨1, true⟩] && enclosing p.shape == 1 && p.shape.height == 3) &&
      (Plan.regionIn? analysis.regions 1).any (·.depth == 0)) = true := by decide +kernel
  obtain ⟨plan, bound, analysis, l, events, prepared, finished, holds⟩ := lowersTo_spec checked
  simp only [Bool.and_eq_true, beq_iff_eq, Option.any_eq_true] at holds
  obtain ⟨⟨⟨legacy, o, found, leaves⟩, p, point, ⟨blocks, inner⟩, high⟩, s, region, depth⟩ := holds
  obtain ⟨r, below, q, _, _, _, here, known, next, _, _, _, _, _, _, _, agree, _⟩ :=
    handler_exit (lower_of_finish prepared finished) prepared legacy ⟨found, point⟩ leaves
  have same : r.id = 1 := by
    rw [blocks, List.cons.injEq, Block.mk.injEq] at here
    exact here.1.1.symm
  rw [same, region] at known
  cases known
  obtain ⟨restores, level⟩ := agree.mpr ⟨inner.trans same.symm, by rw [high, depth]; rfl⟩
  exact ⟨plan, bound, analysis, p, q, s, prepared, point, next, by rw [blocks, same], restores, level⟩

/-- A function that exchanges what two handlers have left on the stack. -/
def misplaced : Function where
  name := "f"
  version := ⟨3, 9⟩
  constants := #[.int 1]
  instructions := #[{ offset := 0, code := Opcode.setupFinally.code, arg := 6 },
    { offset := 2, code := Opcode.loadConst.code },
    { offset := 4, code := Opcode.raiseVarargs.code, arg := 1 },
    { offset := 6, code := Opcode.popTop.code },
    { offset := 8, code := Opcode.popTop.code },
    { offset := 10, code := Opcode.setupFinally.code, arg := 16 },
    { offset := 12, code := Opcode.loadConst.code },
    { offset := 14, code := Opcode.raiseVarargs.code, arg := 1 },
    { offset := 16, code := Opcode.popTop.code },
    { offset := 18, code := Opcode.popTop.code },
    { offset := 20, code := Opcode.rotTwo.code },
    { offset := 22, code := Opcode.loadConst.code },
    { offset := 24, code := Opcode.loadConst.code },
    { offset := 26, code := Opcode.popExcept.code },
    { offset := 28, code := Opcode.loadConst.code },
    { offset := 30, code := Opcode.returnValue.code }]

/-- The inner handler is left, but the value that the outer one saved is restored. -/
theorem misplaced_exit : (∃ l events, lower misplaced = (.ok l, events)) ∧
    ∃ plan bound analysis, ∃ (o : Bound) (p : Point) (r s : Region), prepare misplaced = .ok (plan, bound, analysis) ∧
      plan.dialect = .legacy ∧ bound[13]? = some o ∧ o.opcode = .popExcept ∧
      analysis.point? 13 = some p ∧ p.blocks = [⟨2, true⟩, ⟨1, true⟩] ∧
      Plan.regionIn? analysis.regions 2 = some r ∧ Plan.regionIn? analysis.regions 1 = some s ∧
      enclosing p.shape = 1 ∧ restored plan p.shape = .loadLocal s.scratch ∧
      s.scratch ≠ r.scratch := by
  have checked : lowersTo misplaced (fun plan bound analysis _ => plan.dialect == .legacy &&
      (bound[13]?).any (fun o : Bound => o.opcode == .popExcept) &&
      (analysis.point? 13).any (fun p => p.blocks == [⟨2, true⟩, ⟨1, true⟩] && enclosing p.shape == 1) &&
      (Plan.regionIn? analysis.regions 2).any fun r => (Plan.regionIn? analysis.regions 1).any fun s =>
        plan.scratch 1 == s.scratch && s.scratch != r.scratch) = true := by decide +kernel
  obtain ⟨plan, bound, analysis, l, events, prepared, finished, holds⟩ := lowersTo_spec checked
  simp only [Bool.and_eq_true, beq_iff_eq, bne_iff_ne, Option.any_eq_true] at holds
  obtain ⟨⟨⟨legacy, o, found, leaves⟩, p, point, blocks, inner⟩, r, here, s, there, scratch, apart⟩ := holds
  have restores : restored plan p.shape = .loadLocal s.scratch := by
    rw [← scratch]
    exact (restored_iff (by decide)).mpr inner
  exact ⟨⟨l, events, lower_of_finish prepared finished⟩, plan, bound, analysis, o, p, r, s, prepared, legacy,
    found, leaves, point, blocks, here, there, inner, restores, apart⟩

end Lowering.Proofs
