import Lowering.Proofs.Invocations
import Lowering.Proofs.Origins

/-! Lowered routines are well formed. What the machine does without a check (it looks up labels, locals
and the arguments of helpers) it may do, apart from jumps around the prologue of a handler that no
exception reaches: where no walk gets to such a jump, its label may be missing. -/

namespace Lowering.Proofs
open Machine Host Shape Guest Emission

variable {fn : Function} {l : Lowered} {plan : Plan} {bound : Array Bound} {analysis : Analysis.State}
  {maxDepth : Int64} {i : Nat} {o : Bound} {p : Point}

/-- A label is defined. -/
def Defined (r : Routine) (label : Label) : Prop := (r.labelIndex? label).isSome

theorem Setting.catch_defined (setting : Setting plan bound analysis) {r : Region}
    (member : r ∈ analysis.regions) {label : Label}
    (found : (contextOf plan analysis).catch? r.id = some label) :
    Defined (routineOf plan bound analysis maxDepth) label := by
  have known := (setting.labelled.reached r member).mp (Option.isSome_iff_exists.mpr ⟨label, found⟩)
  unfold Emission.reached at known
  split at known
  next j index =>
    obtain ⟨q, point⟩ := Option.isSome_iff_exists.mp known
    obtain ⟨o, there, place⟩ := setting.located index point
    obtain ⟨_, _, _, here⟩ := setting.prologue member found there place maxDepth
    exact Option.isSome_iff_exists.mpr ⟨_, here⟩
  next => cases known

theorem Setting.guards_defined (setting : Setting plan bound analysis)
    (reached : Reached bound analysis i o p) {blocks : List Block} (part : blocks <:+ p.blocks)
    {kept : Protection}
    (guards : Guards (contextOf plan analysis) (cleanupsOf plan bound analysis) blocks (some kept)) :
    Defined (routineOf plan bound analysis maxDepth) kept.handler := by
  cases guards with
  | caught found =>
    obtain ⟨r, member, same, _, _⟩ := setting.block reached (part.subset List.mem_cons_self)
    exact setting.catch_defined member (same ▸ found)
  | unwound member =>
    obtain ⟨start, _, _, _, _, _, place⟩ := setting.cleanup member maxDepth
    exact Option.isSome_iff_exists.mpr ⟨start, place⟩

theorem Setting.guarded_defined (setting : Setting plan bound analysis)
    (reached : Reached bound analysis i o p) {kept : Protection}
    (guarded : Guarded (contextOf plan analysis) (cleanupsOf plan bound analysis) i p (some kept)) :
    Defined (routineOf plan bound analysis maxDepth) kept.handler := by
  unfold Guarded at guarded
  split at guarded
  next => exact setting.guards_defined reached List.suffix_rfl guarded
  next =>
    obtain ⟨r, region, rest⟩ := Option.bind_eq_some_iff.mp guarded.symm
    obtain ⟨label, labelled, same⟩ := Option.map_eq_some_iff.mp rest
    cases same
    exact setting.catch_defined (regionIn?_mem region) labelled

theorem Setting.handler_defined (setting : Setting plan bound analysis) {e : Emitted}
    (source : Source plan bound analysis e) {kept : Protection} (protects : e.protection = some kept) :
    Defined (routineOf plan bound analysis maxDepth) kept.handler := by
  cases source with
  | lead reached _ guarded | own reached _ guarded =>
    dsimp only at protects
    subst protects
    exact setting.guarded_defined reached guarded
  | cleanup _ inner _ _ guards =>
    dsimp only at protects
    subst protects
    obtain ⟨_, i, o, p, reached, part⟩ := inner
    exact setting.guards_defined reached ((List.suffix_cons _ _).trans part) guards

theorem Setting.region_defined (setting : Setting plan bound analysis) {region : Protected}
    (member : region ∈ (routineOf plan bound analysis maxDepth).regions) :
    Defined (routineOf plan bound analysis maxDepth) region.handler := by
  obtain ⟨_, _, _, e, listed, protects⟩ :=
    (build_regions _ (small_word setting.small)).1 region member
  exact setting.handler_defined (setting.sourced.emitted e listed) protects

/-- No label is defined twice. -/
theorem Setting.distinct (setting : Setting plan bound analysis) :
    (labelsOf (routineOf plan bound analysis maxDepth).ops.toList).Nodup := by
  obtain ⟨_, _, tidy⟩ := emissionOf_tidy setting.separate setting.numbered
    (setting.planned.size ▸ setting.planned.small) setting.small
  simpa [routineOf, Builder.build, opsOf] using tidy.nodup

theorem Setting.jump_defined (setting : Setting plan bound analysis)
    (reached : Reached bound analysis i o p) {op : Operation}
    (member : op ∈ ownAt plan bound analysis i o p) {label : Label} (target : op.target? = some label) :
    Defined (routineOf plan bound analysis maxDepth) label := by
  have checked := (setting.followable reached).checked
  rcases (ownAt_ordinary checked member).jumps label target with ⟨rfl, jumps, other⟩ | ⟨rfl, iterates⟩
  · obtain ⟨j, o', q, there, place, listed, _⟩ := setting.branch reached jumps other
    rw [← place] at listed ⊢
    exact Option.isSome_iff_exists.mpr ⟨_, setting.marked there listed⟩
  · obtain ⟨before, _, split⟩ := ownAt_iteration plan bound analysis i p iterates
    obtain ⟨_, _, _, _, stands⟩ := setting.instruction reached maxDepth
    have last := stands before.length _ (by rw [split]; exact List.getElem?_concat_length)
    exact Option.isSome_iff_exists.mpr ⟨_, setting.label last.1⟩

/-- A jump leads to a label that is defined, or around the prologue of a handler that starts at an offset
which is no target. -/
theorem Setting.jumps_defined (setting : Setting plan bound analysis) {e : Emitted}
    (source : Source plan bound analysis e) {label : Label}
    (target : e.operation.target? = some label) :
    Defined (routineOf plan bound analysis maxDepth) label ∨
      (e.operation = .goto label ∧ e.origin = label ∧ label ∉ analysis.targets ∧
        ∃ r ∈ analysis.regions, r.handler = label) := by
  cases source with
  | @lead i o p op _ reached member =>
    obtain ⟨first, listed⟩ : ∃ r, r ∈ handlersAt (contextOf plan analysis) o.inst.offset := by
      refine List.exists_mem_of_ne_nil _ fun empty => ?_
      rw [leadAt, empty] at member
      cases member
    obtain ⟨known, place, _⟩ := mem_handlersAt.mp listed
    rcases mem_lead member with rfl | ⟨r, _, rfl | inside⟩
    · cases target
      by_cases marked : o.inst.offset ∈ analysis.targets
      · exact .inl (Option.isSome_iff_exists.mpr ⟨_, setting.marked reached marked⟩)
      · exact .inr ⟨rfl, rfl, marked, first, known, place⟩
    · cases target
    · have straight := (prologue_straight inside).2.1
      cases straight.symm.trans target
  | own reached member => exact .inl (setting.jump_defined reached member target)
  | cleanup _ _ _ member =>
    simp only [restore, List.mem_cons, List.not_mem_nil, or_false] at member
    rcases member with rfl | rfl | rfl | rfl <;> cases target

theorem Setting.iteration_negative (setting : Setting plan bound analysis)
    (reached : Reached bound analysis i o p) : iterationLabel plan bound analysis i o p < 0 := by
  have labelling : Labelling plan.function analysis _ _ _ _ := labelledHandlers_labelling setting.numbered
  have count := setting.numbered.1
  have few := setting.planned.small
  have inside := (Array.getElem?_eq_some_iff.mp reached.found).1
  have size := setting.planned.size
  simp only [addressable] at count few
  have tidy := stage_tidy (labelling.labelled setting.numbered) setting.separate
    (labelling.tidy bound rfl rfl rfl) (by omega) (Nat.le_of_lt inside)
  have opened : Tidy (contextOf plan analysis) bound i 0 _
    { (stage (contextOf plan analysis) (labelledHandlers plan analysis).1 bound i).1 with
      builder := (stage (contextOf plan analysis) (labelledHandlers plan analysis).1 bound
        i).1.builder.setOrigin o.inst.offset } := { tidy with }
  exact (opened.guard (by omega) (guard_guarded _ _ i p).1).negative

theorem Setting.label_kinds (setting : Setting plan bound analysis) {e : Emitted}
    (source : Source plan bound analysis e) {label : Label} (defines : e.operation = .label label) :
    label < 0 ∨ (0 ≤ label ∧ e.origin = label) := by
  obtain ⟨_, _, tidy⟩ := emissionOf_tidy setting.separate setting.numbered
    (setting.planned.size ▸ setting.planned.small) setting.small
  cases source with
  | @lead i o p op _ reached member =>
    dsimp only at defines
    subst defines
    rcases mem_lead member with jump | ⟨r, listed, same | inside⟩
    · cases jump
    · obtain ⟨_, _, known, found⟩ := mem_handlersAt.mp listed
      rw [found, Option.getD_some, Operation.label.injEq] at same
      exact .inl (same ▸ (tidy.catching _ _ found).1)
    · exact absurd rfl ((prologue_straight inside).2.2 label)
  | @own i o p op _ reached member =>
    dsimp only at defines
    subst defines
    rcases mem_own member with mark | expanded
    · cases mark
      exact .inr ⟨setting.separate.positive i o reached.found, rfl⟩
    · have listed := mem_labelsOf.mpr expanded
      rw [labelsOf_expand] at listed
      split at listed
      · rw [List.mem_singleton.mp listed]
        exact .inl (setting.iteration_negative reached)
      · cases listed
  | cleanup asked _ _ member =>
    dsimp only at defines
    subst defines
    simp only [restore, List.mem_cons, Operation.label.injEq, reduceCtorEq, List.not_mem_nil, or_false]
      at member
    exact .inl (member ▸ (tidy.unwinding _ asked).1)

/-- The local that an operation refers to. -/
def localOf? : Operation → Option Int64
  | .loadLocal n | .storeLocal n | .deleteLocal n => some n
  | _ => none

/-- A number of one of so many locals. -/
def Indexes (n : Int64) (count : Nat) : Prop := 0 ≤ n.toInt ∧ n.toInt < count

theorem hostLocals_le (plan : Plan) : plan.function.localCount ≤ plan.hostLocals := by
  unfold Plan.hostLocals
  split <;> omega

/-- An instruction refers to locals of its function, but for a handler that is left: it may load the
exception that another one saved. -/
theorem expand_locals {fresh : Label} {s : Stack} (checked : Bound.check plan.function o = none)
    {op : Operation} (member : op ∈ o.expand plan fresh s) {n : Int64} (uses : localOf? op = some n) :
    Indexes n plan.function.localCount ∨ (o.opcode = .popExcept ∧ plan.dialect = .legacy ∧
      enclosing s ≠ 0 ∧ op = .loadLocal (plan.scratch (enclosing s))) := by
  have operand : Bound.badOperand plan.function o = none := by
    unfold Bound.check at checked
    split at checked
    · cases checked
    · exact checked
  have quiet : ∀ operations : List Operation, (operations.all fun op => (localOf? op).isNone) = true →
      op ∉ operations := by
    intro operations all listed
    have none := List.all_eq_true.mp all op listed
    rw [uses] at none
    cases none
  cases opcode : o.opcode <;> simp only [Bound.expand, Bound.badOperand, opcode] at operand member
  case loadFast | storeFast | deleteFast =>
    rw [List.mem_singleton.mp member] at uses
    cases uses
    have range := inRange_none operand
    exact .inl ⟨range.1, by omega⟩
  case popExcept =>
    unfold Plan.leave at member
    split at member
    · exact absurd member (quiet _ rfl)
    · next legacy =>
      simp only [List.mem_append, List.mem_replicate, List.mem_cons, List.not_mem_nil, or_false] at member
      rcases member with ⟨_, rfl⟩ | loaded | rfl
      · cases uses
      · split at loaded
        · rw [loaded] at uses
          cases uses
        · next owned => exact .inr ⟨rfl, legacy, by simpa using owned, loaded⟩
      · cases uses
  case reraise =>
    unfold Guest.reraise at member
    split at member
    · exact absurd member (quiet _ rfl)
    · split at member <;> exact absurd member (quiet _ rfl)
  case raiseVarargs =>
    split at member
    · exact absurd member (quiet _ rfl)
    · split at member <;> exact absurd member (quiet _ rfl)
  case loadGlobal | loadAttr => split at member <;> exact absurd member (quiet _ rfl)
  all_goals exact absurd member (quiet _ rfl)

theorem Settled.own_locals (settled : Settled plan bound analysis)
    (reached : Reached bound analysis i o p) {op : Operation}
    (member : op ∈ ownAt plan bound analysis i o p) {n : Int64} (uses : localOf? op = some n) :
    Indexes n plan.function.localCount ∨
      (o.opcode = .popExcept ∧ op = .loadLocal n ∧ Indexes n plan.hostLocals) := by
  rcases mem_own member with rfl | expanded
  · cases uses
  · rcases expand_locals (settled.followable reached).checked expanded uses with
      own | ⟨opcode, legacy, owned, rfl⟩
    · exact .inl own
    · cases uses
      obtain ⟨cell, listed, tagged, same⟩ := enclosing_mem owned
      obtain ⟨_, rooted, _⟩ := settled.stable.sane i p reached.point
      obtain ⟨r, found⟩ := rooted.shape cell listed tagged
      have placing := settled.stable.placing settled.planned (regionIn?_mem found)
      have place := (placing.scratch legacy).1
      rw [(regionIn?_spec settled.numbered found).1, same] at place
      have room := placing.room legacy
      rw [place, Int64.le_iff_toInt_le, Int64.toInt_zero] at room
      exact .inr ⟨opcode, rfl, room.1, by omega⟩

private theorem prologue_locals {r : Region} {op : Operation} (member : op ∈ r.prologue) {n : Int64}
    (uses : localOf? op = some n) : r.dialect = .legacy ∧ op = .storeLocal n ∧ n = r.scratch := by
  unfold Region.prologue at member
  split at member
  · next legacy =>
    simp only [List.mem_cons, List.not_mem_nil, or_false] at member
    rcases member with rfl | rfl | rfl | rfl | rfl | rfl | rfl | rfl | rfl <;> cases uses
    exact ⟨legacy, rfl, rfl⟩
  · split at member
    · simp only [List.mem_cons, List.not_mem_nil, or_false] at member
      rcases member with rfl | rfl | rfl <;> cases uses
    · cases member

/-- An operation refers to a local of the routine; what it deletes is a local of the function. -/
theorem Settled.locals (settled : Settled plan bound analysis) {e : Emitted}
    (source : Source plan bound analysis e) {n : Int64} (uses : localOf? e.operation = some n) :
    Indexes n plan.hostLocals ∧
      (e.operation = .deleteLocal n → Indexes n plan.function.localCount) := by
  have more := hostLocals_le plan
  have saves : ∀ {r : Region}, r ∈ analysis.regions → plan.dialect = .legacy →
      Indexes r.scratch plan.hostLocals := by
    intro r listed legacy
    have room := (settled.stable.placing settled.planned listed).room legacy
    rw [Int64.le_iff_toInt_le, Int64.toInt_zero] at room
    exact ⟨room.1, by omega⟩
  cases source with
  | lead _ member =>
    rcases mem_lead member with rfl | ⟨r, listed, rfl | inside⟩
    · cases uses
    · cases uses
    · obtain ⟨legacy, rfl, rfl⟩ := prologue_locals inside uses
      have known := (mem_handlersAt.mp listed).1
      rw [(settled.stable.placing settled.planned known).dialect] at legacy
      exact ⟨saves known legacy, by rintro ⟨⟩⟩
  | own reached member =>
    rcases settled.own_locals reached member uses with own | ⟨_, rfl, saved⟩
    · obtain ⟨positive, less⟩ := own
      exact ⟨⟨positive, by omega⟩, fun _ => ⟨positive, less⟩⟩
    · exact ⟨saved, by rintro ⟨⟩⟩
  | cleanup _ inner region member =>
    simp only [restore, region, List.mem_cons, List.not_mem_nil, or_false] at member
    rcases member with rfl | rfl | rfl | rfl <;> cases uses
    exact ⟨saves (regionIn?_mem region) inner.1, by rintro ⟨⟩⟩

theorem Settled.served (settled : Settled plan bound analysis)
    (countable : ∀ (i : Nat) (o : Bound), bound[i]? = some o → Countable o) {e : Emitted}
    (source : Source plan bound analysis e) {inv : Invocation} (invokes : e.operation = .invoke inv) :
    Served inv := by
  cases source with
  | lead _ member =>
    dsimp only at invokes
    subst invokes
    rcases mem_lead member with jump | ⟨r, _, label | inside⟩
    · cases jump
    · cases label
    · exact (prologue_invocation inside).served
  | @own i o p _ _ reached member =>
    dsimp only at invokes
    subst invokes
    rcases mem_own member with mark | expanded
    · cases mark
    · obtain ⟨_, made⟩ := settled.planned.bounds reached.found
      exact expand_served made (countable i o reached.found) expanded
  | cleanup _ _ _ member =>
    dsimp only at invokes
    subst invokes
    simp [restore] at member

theorem Settled.pops (settled : Settled plan bound analysis)
    (countable : ∀ (i : Nat) (o : Bound), bound[i]? = some o → Countable o) {e : Emitted}
    (source : Source plan bound analysis e) : 0 ≤ e.operation.pops := by
  have counts : Proofs.fair e.operation = true := by
    cases source with
    | lead _ member => exact List.all_eq_true.mp (lead_fair ..) _ member
    | own reached member =>
      exact List.all_eq_true.mp (settled.fair reached (countable _ _ reached.found)) _ member
    | @cleanup entry _ _ _ _ _ _ member =>
      have all : (restore (contextOf plan analysis) entry).all Proofs.fair = true := rfl
      exact List.all_eq_true.mp all _ member
  simp only [Proofs.fair, decide_eq_true_eq] at counts
  simpa [Int64.le_iff_toInt_le] using counts.1

/-- A jump around the prologue of a handler that starts at an offset to which nothing leads. The walk does
not get to it. -/
structure Astray (analysis : Analysis.State) (depths : Depths) (k : Nat) (op : Operation) (label : Label) :
    Prop where
  around : op = .goto label
  starts : ∃ r ∈ analysis.regions, r.handler = label
  aside : label ∉ analysis.targets
  unseen : ∀ depth, depths.before[k]? = some depth → depth < 0

/-- What holds of the routine of a function. -/
structure WellFormed (fn : Function) (l : Lowered) (analysis : Analysis.State) (depths : Depths) :
    Prop where
  origins : l.routine.origins.size = l.routine.ops.size ∧
    ∀ origin ∈ l.routine.origins, ∃ shape, (origin, shape) ∈ l.entry
  distinct : (labelsOf l.routine.ops.toList).Nodup
  kinds : ∀ (k : Nat) (label : Label), l.routine.ops[k]? = some (.label label) →
    label < 0 ∨ (0 ≤ label ∧ l.routine.origin k = label)
  jumps : ∀ (k : Nat) (op : Operation) (label : Label), l.routine.ops[k]? = some op →
    op.target? = some label → Defined l.routine label ∨ Astray analysis depths k op label
  handlers : ∀ region ∈ l.routine.regions, Defined l.routine region.handler
  locals : ∀ op ∈ l.routine.ops, ∀ n, localOf? op = some n → 0 ≤ n ∧ n < l.routine.localCount
  guest : ∀ (i first last k : Nat) (op : Operation) (n : Int64), spanOf fn i = some (first, last) →
    first ≤ k → k < last → l.routine.ops[k]? = some op → localOf? op = some n →
    Indexes n fn.localCount ∨ (op = .loadLocal n ∧
      ∃ inst, fn.instructions[i]? = some inst ∧ Opcode.ofCode? inst.code = some .popExcept)
  deletes : ∀ n, .deleteLocal n ∈ l.routine.ops → Indexes n fn.localCount
  invokes : ∀ inv, .invoke inv ∈ l.routine.ops → Served inv ∧
    ∀ (h : Heap) (args : List Value), inv.args.toInt = args.length →
      Yields inv.results (standardHelper h inv args).1
  regions : ∀ region ∈ l.routine.regions, 0 ≤ region.start ∧ region.start < region.stop ∧
    region.stop ≤ Int64.ofNat l.routine.ops.size ∧ 0 ≤ region.depth
  disjoint : l.routine.regions.Pairwise fun first second => first.stop ≤ second.start
  walked : Depths.ofRoutine l.routine = .ok depths
  deepest : l.routine.maxDepth = depths.max
  bounded : ∀ (k : Nat) (op : Operation) (depth : Int64), l.routine.ops[k]? = some op →
    depths.before[k]? = some depth → 0 ≤ depth →
    depth ≤ depths.max ∧ depth - op.pops + op.pushes ≤ depths.max
  attained : Attained l.routine depths.before depths.max

theorem Lowers.entered (lowers : Lowers fn l plan bound analysis) (reached : Reached bound analysis i o p) :
    (o.inst.offset, p.shape) ∈ l.entry := by
  have present := (lowers.planned.bounds reached.found).1
  rw [lowers.function] at present
  rw [lowers.entries]
  refine List.mem_filterMap.mpr ⟨(o.inst, i), ?_, by simp [reached.point]⟩
  simpa [List.mem_zipIdx_iff_getElem?] using present

/-- The origin of an operation is an offset that is reached. -/
theorem Lowers.origin (lowers : Lowers fn l plan bound analysis) (offsets : OwnOffsets fn) {e : Emitted}
    (source : Source plan bound analysis e) : ∃ shape, (e.origin, shape) ∈ l.entry := by
  cases source with
  | lead reached | own reached => exact ⟨_, lowers.entered reached⟩
  | cleanup _ inner region =>
    obtain ⟨legacy, i, o, p, reached, part⟩ := inner
    have blocked := (lowers.setting offsets).blocked offsets lowers.prepared legacy
    obtain ⟨r, j, o', q, found, landing⟩ := blocked.landed reached _ (part.subset List.mem_cons_self)
    cases region.symm.trans found
    exact ⟨_, landing.place ▸ lowers.entered landing.reached⟩

/-- Where an operation of a routine comes from. -/
theorem Lowers.source (lowers : Lowers fn l plan bound analysis) {k : Nat} {op : Operation}
    (operation : l.routine.ops[k]? = some op) :
    ∃ e, Source plan bound analysis e ∧ e.operation = op ∧ l.routine.origin k = e.origin ∧
      (l.routine.regionAt? (Int64.ofNat k)).map (fun region =>
        (⟨region.handler, region.depth⟩ : Protection)) = e.protection := by
  rw [lowers.routine] at operation ⊢
  exact lowers.settled.source operation

/-- Every operation has its origin. -/
theorem Lowers.origins (lowers : Lowers fn l plan bound analysis) (offsets : OwnOffsets fn) :
    l.routine.origins.size = l.routine.ops.size ∧
      ∀ origin ∈ l.routine.origins, ∃ shape, (origin, shape) ∈ l.entry := by
  rw [lowers.routine]
  constructor
  · simp [Builder.build]
  · intro origin member
    obtain ⟨e, listed, rfl⟩ := Array.mem_map.mp member
    exact lowers.origin offsets (lowers.settled.sourced.emitted e listed.val)

/-- A jump whose label is missing is not walked. -/
theorem Lowers.jumps (lowers : Lowers fn l plan bound analysis) (offsets : OwnOffsets fn) {depths : Depths}
    (agreeing : Agreeing l.routine depths) {k : Nat} {op : Operation} {label : Label}
    (operation : l.routine.ops[k]? = some op) (target : op.target? = some label) :
    Defined l.routine label ∨ Astray analysis depths k op label := by
  obtain ⟨e, source, rfl, _⟩ := lowers.source operation
  have routine : l.routine = routineOf plan bound analysis l.routine.maxDepth := lowers.routine
  by_cases defined : Defined l.routine label
  · exact .inl defined
  · rcases (lowers.setting offsets).jumps_defined source target with known | ⟨around, _, aside, starts⟩
    · rw [routine] at defined
      exact absurd known defined
    · refine .inr ⟨around, starts, aside, ?_⟩
      intro depth known
      by_contra positive
      obtain ⟨ip, found, _⟩ :=
        (agreeing.followed k _ depth (Int64.not_lt.mp positive) known operation).jumps label target
      exact defined (Option.isSome_iff_exists.mpr ⟨ip, found⟩)

/-- The operations of an instruction refer to the locals of the function. -/
theorem Lowers.guest (lowers : Lowers fn l plan bound analysis) {first last k : Nat} {op : Operation}
    {n : Int64} (span : spanOf fn i = some (first, last)) (lower : first ≤ k) (upper : k < last)
    (operation : l.routine.ops[k]? = some op) (uses : localOf? op = some n) :
    Indexes n fn.localCount ∨ (op = .loadLocal n ∧
      ∃ inst, fn.instructions[i]? = some inst ∧ Opcode.ofCode? inst.code = some .popExcept) := by
  obtain ⟨o, p, reached, rfl, rfl⟩ := spanOf_some span lowers.prepared
  obtain ⟨next, _, _, _, stands⟩ := lowers.settled.instruction reached l.routine.maxDepth
  obtain ⟨m, rfl⟩ := Nat.exists_eq_add_of_le lower
  rw [lowers.routine] at operation
  have member := List.mem_of_getElem? (stands.found (by omega) operation)
  obtain ⟨present, made⟩ := lowers.planned.bounds reached.found
  rw [lowers.function] at present made
  rcases lowers.settled.own_locals reached member uses with own | ⟨leaves, loads, _⟩
  · exact .inl (lowers.function ▸ own)
  · exact .inr ⟨loads, o.inst, present, leaves ▸ (ofInstruction_spec made).2.1⟩

/-- Regions are ranges of operations, and their handlers have labels. -/
theorem Lowers.regions (lowers : Lowers fn l plan bound analysis) (offsets : OwnOffsets fn)
    {region : Protected}
    (member : region ∈ l.routine.regions) :
    (0 ≤ region.start ∧ region.start < region.stop ∧ region.stop ≤ Int64.ofNat l.routine.ops.size ∧
      0 ≤ region.depth) ∧ Defined l.routine region.handler := by
  rw [lowers.routine] at member ⊢
  obtain ⟨first, filled, inside, e, listed, protects⟩ :=
    (build_regions _ (small_word lowers.small)).1 region member
  have kept := (emissionOf_kept lowers.planned lowers.stable).emitted e listed _ protects
  exact ⟨⟨first, filled, inside, kept⟩, (lowers.setting offsets).region_defined member⟩

theorem lowered_wellFormed (fn : Function) (l : Lowered) (events : List Lowering.Event)
    (lowered : lower fn = (.ok l, events)) (offsets : OwnOffsets fn) (calls : CountableCalls fn) :
    ∃ plan bound analysis depths, prepare fn = .ok (plan, bound, analysis) ∧
      WellFormed fn l analysis depths := by
  obtain ⟨plan, bound, analysis, lowers⟩ := lower_lowers lowered
  obtain ⟨depths, walked⟩ := lowers.depths
  have settled := lowers.settled
  have setting := lowers.setting offsets
  have present : l.routine.ops.isEmpty = false := by
    rw [lowers.routine]
    exact setting.present l.routine.maxDepth
  have agreeing := ofRoutine_agrees present walked
  have countable : ∀ (i : Nat) (o : Bound), bound[i]? = some o → Countable o := by
    intro i o found
    obtain ⟨present, made⟩ := lowers.planned.bounds found
    rw [lowers.function] at present made
    exact calls o.inst (Array.mem_of_getElem? present).val o made
  have sources : ∀ {op : Operation}, op ∈ l.routine.ops →
      ∃ e, Source plan bound analysis e ∧ e.operation = op := by
    intro op member
    obtain ⟨k, operation⟩ := Array.mem_iff_getElem?.mp member
    obtain ⟨e, source, same, _⟩ := lowers.source operation
    exact ⟨e, source, same⟩
  have count := lowers.localCount
  refine ⟨plan, bound, analysis, depths, lowers.prepared, ?_⟩
  refine
    { origins := lowers.origins offsets
      distinct := by
        rw [lowers.routine]
        exact setting.distinct
      kinds := ?_
      jumps := fun k op label => lowers.jumps offsets agreeing
      handlers := fun region member => (lowers.regions offsets member).2
      locals := ?_
      guest := fun i first last k op n => lowers.guest
      deletes := ?_
      invokes := ?_
      regions := fun region member => (lowers.regions offsets member).1
      disjoint := ?_
      walked
      deepest := lowers.deepest depths walked
      bounded := ?_
      attained := ofRoutine_attained ?_ present walked }
  · intro k label defines
    obtain ⟨e, source, same, origin, _⟩ := lowers.source defines
    rw [origin]
    exact setting.label_kinds source same
  · intro op member n uses
    obtain ⟨e, source, rfl⟩ := sources member
    obtain ⟨positive, less⟩ := (settled.locals source uses).1
    rw [Int64.le_iff_toInt_le, Int64.lt_iff_toInt_lt, Int64.toInt_zero]
    exact ⟨positive, by omega⟩
  · intro n member
    obtain ⟨e, source, same⟩ := sources member
    rw [← lowers.function]
    exact (settled.locals source (by rw [same]; rfl)).2 same
  · intro inv member
    obtain ⟨e, source, same⟩ := sources member
    have served := settled.served countable source same
    exact ⟨served, fun h args enough => served.yields h enough⟩
  · rw [lowers.routine]
    exact (build_regions _ (small_word lowers.small)).2
  · intro k op depth operation known positive
    exact ⟨agreeing.bounded k depth positive known,
      (agreeing.followed k op depth positive known operation).bounded⟩
  · intro op member
    obtain ⟨e, source, rfl⟩ := sources member
    exact settled.pops countable source

/-- A function that sets up two handlers, the second one where nothing leads. Control falls into the second
handler from the first one. -/
def bypassed : Function where
  name := "f"
  version := ⟨3, 9⟩
  constants := #[.int 1]
  instructions := #[{ offset := 0, code := Opcode.setupFinally.code, arg := 10 },
    { offset := 2, code := Opcode.popBlock.code }, { offset := 4, code := Opcode.loadConst.code },
    { offset := 6, code := Opcode.returnValue.code },
    { offset := 8, code := Opcode.setupFinally.code, arg := 12 },
    { offset := 10, code := Opcode.nop.code }, { offset := 12, code := Opcode.popExcept.code },
    { offset := 14, code := Opcode.loadConst.code }, { offset := 16, code := Opcode.returnValue.code }]

private theorem bypassed_lowered : ∃ l events, lower bypassed = (.ok l, events) ∧
    .goto 12 ∈ l.routine.ops ∧ l.routine.labelIndex? 12 = none := by
  have checked : lowersTo bypassed (fun _ _ _ l => l.routine.ops.any (alike (.goto 12)) &&
      l.routine.labelIndex? 12 == none) = true := by decide +kernel
  obtain ⟨_, _, _, l, events, prepared, finished, holds⟩ := lowersTo_spec checked
  simp only [Bool.and_eq_true, beq_iff_eq, Array.any_eq_true'] at holds
  obtain ⟨⟨o, member, jumps⟩, undefined⟩ := holds
  exact ⟨l, events, lower_of_finish prepared finished, alike_eq jumps ▸ member, undefined⟩

theorem bypassed_wellFormed : ∃ l events plan bound analysis depths,
    lower bypassed = (.ok l, events) ∧ OwnOffsets bypassed ∧ CountableCalls bypassed ∧
      prepare bypassed = .ok (plan, bound, analysis) ∧ WellFormed bypassed l analysis depths := by
  have offsets : OwnOffsets bypassed := ⟨by decide, by decide⟩
  have calls : CountableCalls bypassed := by decide +kernel
  obtain ⟨l, events, lowered, _⟩ := bypassed_lowered
  obtain ⟨plan, bound, analysis, depths, prepared, formed⟩ :=
    lowered_wellFormed bypassed l events lowered offsets calls
  exact ⟨l, events, plan, bound, analysis, depths, lowered, offsets, calls, prepared, formed⟩

/-- The jump around the prologue of the second handler has no label to go to. -/
theorem bypassed_undefined : ∃ l events, lower bypassed = (.ok l, events) ∧
    .goto 12 ∈ l.routine.ops ∧ l.routine.labelIndex? 12 = none := bypassed_lowered

end Lowering.Proofs
