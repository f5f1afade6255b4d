import Lowering.Proofs.FunctionChart

/-! The shapes of a lowered function are what happens. Each time an activation of its routine is about
to execute the operations of an instruction, its stack and its locals are what the shape before
that instruction says. -/

namespace Lowering.Proofs
open Machine Host Shape Guest Emission

variable {absent : Nat → Bool} {plan : Plan} {bound : Array Bound} {analysis : Analysis.State}
  {maxDepth : Int64}

/-- The offset of every instruction is its own and can be a label. -/
structure OwnOffsets (fn : Function) : Prop where
  positive : ∀ inst ∈ fn.instructions.toList, 0 ≤ inst.offset
  distinct : (fn.instructions.toList.map Instruction.offset).Nodup

theorem OwnOffsets.unique {fn : Function} (offsets : OwnOffsets fn) {i j : Nat} {a b : Instruction}
    (first : fn.instructions[i]? = some a) (second : fn.instructions[j]? = some b)
    (same : a.offset = b.offset) : i = j := by
  have inside : i < (fn.instructions.toList.map Instruction.offset).length := by
    simpa using (Array.getElem?_eq_some_iff.mp first).1
  refine (List.getElem?_inj inside offsets.distinct).mp ?_
  simp [first, second, same]

theorem Planned.separate (planned : Planned plan bound) (offsets : OwnOffsets plan.function) :
    Separate bound where
  positive _ _ found := offsets.positive _ (by
    simpa using Array.mem_of_getElem? (planned.bounds found).1)
  distinct _ _ _ _ first second same :=
    offsets.unique (planned.bounds first).1 (planned.bounds second).1 same

theorem Lowers.settled {fn : Function} {l : Lowered} (lowers : Lowers fn l plan bound analysis) :
    Settled plan bound analysis :=
  ⟨lowers.planned, lowers.stable, lowers.small⟩

theorem Lowers.setting {fn : Function} {l : Lowered} (lowers : Lowers fn l plan bound analysis)
    (offsets : OwnOffsets fn) : Setting plan bound analysis :=
  ⟨lowers.settled, lowers.planned.separate (lowers.function ▸ offsets)⟩

theorem lead_enters (c : Context) {o : Bound} {p : Point} {out : Outline} (regions : List Region)
    (empty : out.stack = []) (refines : OutlineRefines out (outlineAt absent plan p)) :
    Follows (leadExits absent plan o p) (lead c o.inst.offset false regions) out := by
  cases regions with
  | nil => exact refines
  | cons r rest =>
    rw [lead]
    simp only [Bool.false_eq_true, if_false, List.nil_append, List.cons_append]
    refine ⟨by rintro ⟨⟩, fun same after => ⟨by rintro _ ⟨⟩, fun _ => ?_⟩⟩
    cases after
    have starved : ∀ {more : List Operation} {out : Outline}, out.stack = [] →
        Follows (leadExits absent plan o p) (.dup :: more) out := by
      intro more out empty
      refine ⟨by rintro ⟨⟩, fun next after => ?_⟩
      simp only [Outline.after?, empty] at after
      cases after
    unfold Region.prologue
    split
    · refine ⟨by rintro ⟨⟩, fun first after => ⟨by rintro _ ⟨⟩, fun _ => ?_⟩⟩
      cases after
      refine ⟨by rintro ⟨⟩, fun second after => ⟨by rintro _ ⟨⟩, fun _ => ?_⟩⟩
      cases after
      exact starved empty
    · split
      · exact starved empty
      · exact lead_arrives c rest refines

/-- The first instruction, and what is known there. -/
theorem Setting.entry (setting : Setting plan bound analysis) : ∃ o p,
    Reached bound analysis 0 o p ∧ OutlineRefines
      (outlineAt absent plan ⟨Stack.entry plan.function.localCount plan.function.argCount, []⟩)
      (outlineAt absent plan p) := by
  obtain ⟨p, point, blocks, refines⟩ := setting.stable.entry
  have inside : 0 < bound.size := setting.planned.size ▸ setting.planned.positive
  exact ⟨_, p, ⟨Array.getElem?_eq_getElem inside, point⟩, outlineAt_refines blocks refines.refines⟩

/-- Control can be at the start of the routine with what a function is entered with. -/
theorem Setting.enters (setting : Setting plan bound analysis) (maxDepth : Int64) :
    Lands (PieceOf absent plan bound analysis maxDepth) 0
      (outlineAt absent plan ⟨Stack.entry plan.function.localCount plan.function.argCount, []⟩) := by
  obtain ⟨o, p, reached, refines⟩ := setting.entry
  have start : leadStart plan bound analysis 0 = 0 := by
    simp only [leadStart, place, stage]
    exact congrArg Array.size (labelledHandlers_labelling setting.numbered).emitted
  by_cases empty : leadAt plan bound analysis 0 o = []
  · have lands := setting.lands maxDepth reached refines
    rwa [ownStart, start, empty] at lands
  · obtain ⟨_, protection, _, stands, _⟩ := setting.instruction reached maxDepth
    refine Placed.lands ⟨_, 0, .lead reached stands, List.length_pos_iff.mpr empty, start.symm,
      fun _ => trivial, ?_⟩
    exact lead_enters _ _ rfl refines

private theorem expand_constants {fresh : Label} {o : Bound} {s : Stack} {v : Value}
    (member : .const v ∈ o.expand plan fresh s) :
    v = .none ∨ v = .null ∨ v ∈ plan.function.constants := by
  cases opcode : o.opcode <;> simp only [Bound.expand, opcode] at member
  case loadConst =>
    simp only [List.mem_singleton, Operation.const.injEq] at member
    rw [member, Array.getD_eq_getD_getElem?]
    cases found : plan.function.constants[o.arg.toInt.toNat]? with
    | none => exact .inl rfl
    | some constant => exact .inr (.inr (Array.mem_of_getElem? found))
  case popExcept =>
    unfold Plan.leave at member
    split at member
    · simp at member
    · simp only [List.mem_append, List.mem_replicate, List.mem_cons, reduceCtorEq, and_false,
        List.not_mem_nil, or_false, false_or] at member
      split at member <;> simp_all
  case reraise =>
    unfold reraise at member
    split at member
    · simp at member
    · split at member <;> simp at member
  all_goals first
    | (simp at member; done)
    | (simp at member; simp [member])
    | (split at member <;> simp at member; done)
    | (split at member
       · simp at member
       · split at member <;> simp at member)

private theorem emission_constants {st : Emission.State} (empty : opsOf st = []) {v : Value}
    (member : .const v ∈ opsOf (emission (contextOf plan analysis) st bound)) :
    v = .none ∨ v = .null ∨ v ∈ plan.function.constants := by
  have prologue : ∀ r : Region, .const v ∉ r.prologue := by
    intro r listed
    unfold Region.prologue at listed
    split at listed
    · simp at listed
    · split at listed <;> simp at listed
  rcases emission_ops member with old | ⟨o, p, fresh, falls, regions, new⟩ | ⟨entry, new⟩
  · rw [empty] at old
    cases old
  · rcases List.mem_append.mp new with first | second
    · rcases mem_lead first with jump | ⟨r, _, label | listed⟩
      · cases jump
      · cases label
      · exact absurd listed (prologue r)
    · rcases mem_own second with label | expanded
      · cases label
      · exact expand_constants expanded
  · simp [restore] at new

theorem entry_fits {f : Frame} (empty : f.stack = [])
    (given : ∀ i < plan.function.argCount.toInt.toNat, i < plan.function.localCount →
      f.locals.getD i .unbound = .unbound → absent i = true) :
    Fits f (outlineAt absent plan
      ⟨Stack.entry plan.function.localCount plan.function.argCount, []⟩) := by
  refine ⟨empty ▸ .nil, fun i => ?_⟩
  have unsaved : saves plan ⟨Stack.entry plan.function.localCount plan.function.argCount, []⟩ i =
      false := by
    simp [saves, Stack.entry]
  simp only [Outline.Allows, outlineAt, unsaved, Bool.false_eq_true, if_false]
  by_cases inside : i < plan.function.localCount
  · rw [if_pos inside]
    by_cases argument : i < plan.function.argCount.toInt.toNat
    · by_cases missing : f.locals.getD i .unbound = .unbound
      · exact .inl ⟨missing, by simp [inside, given i argument inside missing]⟩
      · have slot : localSlot (Stack.entry plan.function.localCount
            plan.function.argCount).locals i = .ofKind .object := by
          simp only [localSlot, Stack.entry, List.getD_eq_getElem?_getD]
          rw [List.getElem?_append_left (by rw [List.length_replicate]; omega),
            List.getElem?_replicate, if_pos (by omega)]
          rfl
        rw [slot]
        exact .inr (.inr ⟨missing, conforms_ofKind rfl⟩)
    · right
      left
      simp only [localSlot, Stack.entry, List.getD_eq_getElem?_getD]
      rw [List.getElem?_append_right (by rw [List.length_replicate]; omega), List.getElem?_replicate]
      split <;> rfl
  · rw [if_neg inside]
    exact .inr (.inl rfl)

private theorem enter_bound {heap : Heap} (valid : ProperHeap heap) {routine : Routine}
    {args : List Value} (given : allProper args = true) (depth : Nat) {i : Nat}
    (argument : i < args.length) (inside : i < routine.localCount.toInt.toNat) :
    (Frame.enter heap routine args depth).1.locals.getD i .unbound ≠ .unbound := by
  obtain ⟨bound, _⟩ := normalizeAll_proper valid (args.take routine.localCount.toInt.toNat)
    (allProper_sublist (List.take_sublist _ _) given)
  have among : i < ((heap.normalizeAll (args.take routine.localCount.toInt.toNat)).1).length := by
    rw [normalizeAll_length, List.length_take]
    omega
  have here : (Frame.enter heap routine args depth).1.locals.getD i .unbound =
      (heap.normalizeAll (args.take routine.localCount.toInt.toNat)).1[i] := by
    simp only [Frame.enter]
    rw [Array.getD_eq_getD_getElem?, Array.getElem?_append_left (by simpa using among),
      List.getElem?_toArray, List.getElem?_eq_getElem among, Option.getD_some]
  rw [allProper_iff] at bound
  have proper := bound _ (List.getElem_mem among)
  rw [here]
  intro unbound
  rw [unbound] at proper
  cases proper

/-- The operations of an instruction in the routine of its function: the index of the first one, and
the index after the last one. Prologues that stand in front of it are not among them. -/
def spanOf (fn : Function) (i : Nat) : Option (Nat × Nat) :=
  match prepare fn with
  | .error _ => none
  | .ok (plan, bound, analysis) =>
    let c := contextOf plan analysis
    let before := stage c (labelledHandlers plan analysis).1 bound i
    match bound[i]?, analysis.point? i with
    | some o, some p => some ((opening c before.1 i o p before.2).builder.size,
        (instruction c before.1 i o p before.2).builder.size)
    | _, _ => none

theorem spanOf_reached {fn : Function} (prepared : prepare fn = .ok (plan, bound, analysis)) {i : Nat}
    {o : Bound} {p : Point} (reached : Reached bound analysis i o p) :
    spanOf fn i = some (ownStart plan bound analysis i o, leadStart plan bound analysis (i + 1)) := by
  obtain ⟨found, point⟩ := reached
  have emitted := (guardedState_guards (contextOf plan analysis)
    (stage (contextOf plan analysis) (labelledHandlers plan analysis).1 bound i).1 i o p).1
  have opened : (opening (contextOf plan analysis)
      (stage (contextOf plan analysis) (labelledHandlers plan analysis).1 bound i).1 i o p
      (stage (contextOf plan analysis) (labelledHandlers plan analysis).1 bound i).2).builder =
      (guardedState (contextOf plan analysis)
        (stage (contextOf plan analysis) (labelledHandlers plan analysis).1 bound i).1 i o
        p).builder.emit (leadAt plan bound analysis i o) := prologues_emit ..
  unfold spanOf
  rw [prepared]
  dsimp only
  rw [found, point]
  simp only [Option.some.injEq, Prod.mk.injEq]
  constructor
  · rw [opened, emit_eq, Builder.size, emitted, ← Array.length_toList, Array.toList_appendList]
    simp [marked, ownStart, leadStart, place]
  · simp only [leadStart, place]
    rw [stage, found]
    dsimp only
    rw [show (contextOf plan analysis).analysis.point? i = some p from point]
    rfl

theorem spanOf_some {fn : Function} {i first last : Nat} (span : spanOf fn i = some (first, last))
    (prepared : prepare fn = .ok (plan, bound, analysis)) :
    ∃ o p, Reached bound analysis i o p ∧ first = ownStart plan bound analysis i o ∧
      last = leadStart plan bound analysis (i + 1) := by
  have looked := span
  unfold spanOf at looked
  rw [prepared] at looked
  dsimp only at looked
  cases found : bound[i]? with
  | none =>
    rw [found] at looked
    cases looked
  | some o =>
    cases point : analysis.point? i with
    | none =>
      rw [found, point] at looked
      cases looked
    | some p =>
      have reached : Reached bound analysis i o p := ⟨found, point⟩
      rw [spanOf_reached prepared reached] at span
      cases span
      exact ⟨o, p, reached, rfl, rfl⟩

/-- Control among the operations of an instruction is in the piece of this instruction. -/
theorem Setting.owned (setting : Setting plan bound analysis) {i : Nat} {o : Bound} {p : Point}
    {out : Outline} {ip : Nat} (reached : Reached bound analysis i o p)
    (first : ownStart plan bound analysis i o ≤ ip) (last : ip < leadStart plan bound analysis (i + 1))
    (placed : Placed (PieceOf absent plan bound analysis maxDepth) ip out) :
    ∃ m protection flow next, ip = ownStart plan bound analysis i o + m ∧
      m < (ownAt plan bound analysis i o p).length ∧
      Stands (routineOf plan bound analysis maxDepth) (ownStart plan bound analysis i o)
        (ownAt plan bound analysis i o p) o.inst.offset protection ∧
      Guarded (contextOf plan analysis) (cleanupsOf plan bound analysis) i p protection ∧
      (m = 0 → out = outlineAt absent plan p) ∧
      Follows (flowExits absent plan (iterationLabel plan bound analysis i o p) o p flow next)
        ((ownAt plan bound analysis i o p).drop m) out := by
  have order : ∀ {j k : Nat}, j ≤ k →
      leadStart plan bound analysis j ≤ leadStart plan bound analysis k := place_mono
  have within : ∀ (j : Nat) (b : Bound),
      leadStart plan bound analysis j ≤ ownStart plan bound analysis j b :=
    fun _ _ => Nat.le_add_right _ _
  have inside := (Array.getElem?_eq_some_iff.mp reached.found).1
  obtain ⟨piece, m, member, short, here, entry, follows⟩ := placed
  cases member with
  | @lead j o' q _ _ other stands =>
    have ends := (setting.instruction other 0).1
    dsimp only at short here
    rcases Nat.lt_trichotomy j i with less | rfl | more
    · have before := order (show j + 1 ≤ i from less)
      have after := within i o
      rw [ownStart] at ends
      omega
    · have same := reached.found.symm.trans other.found
      cases same
      rw [ownStart] at first
      omega
    · have before := order (show i + 1 ≤ j from more)
      omega
  | @own j o' q _ _ _ _ other stands guarded flows edges =>
    have ends := (setting.instruction other 0).1
    dsimp only at short here
    rcases Nat.lt_trichotomy j i with less | rfl | more
    · have before := order (show j + 1 ≤ i from less)
      have after := within i o
      omega
    · have same := reached.found.symm.trans other.found
      have known := reached.point.symm.trans other.point
      cases same
      cases known
      exact ⟨m, _, _, _, here, short, stands, guarded, entry, follows⟩
    · have before := order (show i + 1 ≤ j from more)
      have after := within j o'
      omega
  | cleanup _ _ _ _ after =>
    have before := order (show i + 1 ≤ bound.size from inside)
    dsimp only at short here
    omega

theorem entry_found {fn : Function} {l : Lowered} (offsets : OwnOffsets fn)
    (entries : l.entry = fn.instructions.toList.zipIdx.filterMap fun (inst, i) =>
      (analysis.point? i).map fun p => (inst.offset, p.shape))
    {i : Nat} {inst : Instruction} {p : Point} (found : fn.instructions[i]? = some inst)
    (point : analysis.point? i = some p) : l.entry? inst.offset = some p.shape := by
  have listed : ∀ {entry : Int64 × Stack}, entry ∈ l.entry ↔ ∃ j other q,
      fn.instructions[j]? = some other ∧ analysis.point? j = some q ∧
        (other.offset, q.shape) = entry := by
    intro entry
    simp only [entries, List.mem_filterMap, Prod.exists, List.mem_zipIdx_iff_getElem?,
      Array.getElem?_toList, Option.map_eq_some_iff]
    constructor
    · rintro ⟨other, j, present, q, known, same⟩
      exact ⟨j, other, q, present, known, same⟩
    · rintro ⟨j, other, q, present, known, same⟩
      exact ⟨other, j, present, q, known, same⟩
  have unique : ∀ j other, fn.instructions[j]? = some other → other.offset = inst.offset → j = i :=
    fun j other present same => offsets.unique present found same
  unfold Lowered.entry?
  cases search : l.entry.reverse.find? (·.1 == inst.offset) with
  | none =>
    have missing := List.find?_eq_none.mp search (inst.offset, p.shape)
      (List.mem_reverse.mpr (listed.mpr ⟨i, inst, p, found, point, rfl⟩))
    simp at missing
  | some entry =>
    obtain ⟨j, other, q, present, known, rfl⟩ :=
      listed.mp (List.mem_reverse.mp (List.mem_of_find?_eq_some search))
    have same : other.offset = inst.offset := by simpa using List.find?_some search
    cases unique j other present same
    rw [point] at known
    cases known
    rfl

/-- A routine has all the locals of its function, and those that save exceptions. -/
theorem Lowers.localCount {fn : Function} {l : Lowered} (lowers : Lowers fn l plan bound analysis) :
    l.routine.localCount.toInt.toNat = plan.hostLocals := by
  have labelling : Labelling plan.function analysis _ _ _ _ :=
    labelledHandlers_labelling (lowers.planned.numbered.later lowers.stable.regions)
  have small := lowers.planned.locals
  have locals : l.routine.localCount = Int64.ofNat plan.hostLocals := by
    rw [lowers.routine]
    exact (emission_localCount _ _ bound).trans labelling.localCount
  simp only [addressable] at small
  rw [locals, Int64.toInt_ofNat_of_lt (by omega), Int.toNat_natCast]

/-- The call of a routine while other frames wait. -/
def Config.call (st : Machine.State) (routine : Routine) (args : List Value) (depth : Nat)
    (waiting : List Frame) : Config :=
  { Config.enter st routine args depth with waiting }

/-- A function that was lowered is called with enough arguments, on a machine that has the standard
helpers. Neither the machine nor the function nor the frames that wait hold the sentinel, and no built-in
function brings it in. -/
structure Activation (setup : Setup) (fn : Function) (l : Lowered) (st : Machine.State)
    (args : List Value) (waiting : List Frame) : Prop where
  plain : setup.helpers = []
  clean : Clean setup.custom
  offsets : OwnOffsets fn
  lowered : ∃ events, lower fn = (.ok l, events)
  enough : fn.argCount.toInt ≤ args.length
  args : allProper args = true
  constants : ∀ v ∈ fn.constants, proper v = true
  state : ProperState st
  frames : ∀ g ∈ waiting, ProperFrame g

theorem Activation.active {setup : Setup} {fn : Function} {l : Lowered} {st : Machine.State}
    {args : List Value} {waiting : List Frame} (activation : Activation setup fn l st args waiting)
    {depth : Nat} {c : Config} (stays : Stays setup (.call st l.routine args depth waiting) c) :
    ∃ plan bound analysis, Lowers fn l plan bound analysis ∧ Setting plan bound analysis ∧
      ProperConfig c ∧ Active l.routine
        (PieceOf (fun _ => false) plan bound analysis l.routine.maxDepth) waiting c := by
  obtain ⟨events, lowered⟩ := activation.lowered
  obtain ⟨plan, bound, analysis, lowers⟩ := lower_lowers lowered
  have setting := lowers.setting activation.offsets
  have routine : l.routine = routineOf plan bound analysis l.routine.maxDepth := lowers.routine
  have labelling : Labelling plan.function analysis _ _ _ _ :=
    labelledHandlers_labelling setting.numbered
  have empty : opsOf (labelledHandlers plan analysis).1 = [] := by
    rw [opsOf, labelling.emitted]
    rfl
  have proper : ProperRoutine l.routine := by
    intro v member
    rw [routine] at member
    have listed : .const v ∈ opsOf (emissionOf plan bound analysis) := by
      simpa [routineOf, Builder.build, opsOf] using member
    rcases emission_constants empty listed with rfl | rfl | constant
    · rfl
    · rfl
    · exact activation.constants v (lowers.function ▸ constant)
  obtain ⟨frame, heap⟩ := enter_proper activation.state.heap proper activation.args depth
  have start : ProperConfig (.call st l.routine args depth waiting) :=
    ⟨activation.state.withHeap heap, frame, activation.frames⟩
  have charted : Charted _ (PieceOf (fun _ => false) plan bound analysis l.routine.maxDepth) :=
    setting.charted l.routine.maxDepth
  rw [← routine] at charted
  have bound : ∀ i < plan.function.argCount.toInt.toNat, i < plan.function.localCount →
      (Config.call st l.routine args depth waiting).frame.locals.getD i .unbound ≠ .unbound := by
    intro i argument inside
    have enough := activation.enough
    rw [← lowers.function] at enough
    have wide : plan.function.localCount ≤ plan.hostLocals := by
      unfold Plan.hostLocals
      split <;> omega
    exact enter_bound activation.state.heap activation.args depth (by omega)
      (by rw [lowers.localCount]; omega)
  have going : Going (PieceOf (fun _ => false) plan _ analysis l.routine.maxDepth)
      (Config.call st l.routine args depth waiting).frame :=
    Lands.going (setting.enters _)
      (entry_fits rfl fun i argument inside missing => absurd missing (bound i argument inside))
  obtain ⟨proper, active⟩ := stays.active charted activation.plain activation.clean rfl going start
  exact ⟨plan, _, analysis, lowers, setting, proper, active⟩

/-- Shapes are sound. Each time an activation of a lowered function is about to execute the operations
of an instruction, there is a shape before the instruction; the stack is as deep as this shape,
and every value on it and every local is what the shape says. -/
theorem activation_conforms (setup : Setup) (fn : Function) (l : Lowered) (st : Machine.State)
    (args : List Value) (waiting : List Frame) (activation : Activation setup fn l st args waiting)
    (depth : Nat) (c : Config) (stays : Stays setup (.call st l.routine args depth waiting) c)
    (executing : c.waiting.length = waiting.length) (i : Nat) (inst : Instruction)
    (found : fn.instructions[i]? = some inst) (first last : Nat)
    (span : spanOf fn i = some (first, last)) (operations : first < last)
    (here : c.frame.ip = first) :
    c.frame.routine = l.routine ∧ ∃ shape, l.entry? inst.offset = some shape ∧
      c.frame.stack.length = shape.depth ∧
      List.Forall₂ Conforms c.frame.stack (shape.cells.map Cell.slot) ∧
      ∀ j < fn.localCount,
        LocalConforms (c.frame.locals.getD j .unbound) (localSlot shape.locals j) := by
  obtain ⟨plan, bound, analysis, lowers, setting, _, active⟩ := activation.active stays
  obtain ⟨o, p, reached, rfl, rfl⟩ := spanOf_some span lowers.prepared
  obtain ⟨_, own, out, fits, placed⟩ | ⟨above, g, more, _⟩ := active
  · rw [here] at placed
    obtain ⟨m, _, _, _, start, _, _, _, arrived, _⟩ :=
      setting.owned reached (Nat.le_refl _) operations placed
    have outline := arrived (by omega)
    subst outline
    have same := (setting.planned.bounds reached.found).1
    rw [lowers.function, found] at same
    cases same
    refine ⟨own, p.shape,
      entry_found activation.offsets lowers.entries found reached.point, ?_, fits.stack,
      fun j inside => ?_⟩
    · rw [fits.stack.length_eq]
      simp [outlineAt, Stack.depth]
    · have conforms := (fits.locals j).resolve_left fun missing => by simp [outlineAt] at missing
      rw [← lowers.function] at inside
      simpa only [outlineAt, if_pos inside] using conforms
  · rw [more, List.length_append, List.length_cons] at executing
    omega

/-- The function that returns its argument. -/
def identity : Function where
  name := "f"
  version := ⟨3, 9⟩
  argCount := 1
  localNames := #["a"]
  instructions := #[{ offset := 0, code := Opcode.loadFast.code },
    { offset := 2, code := Opcode.returnValue.code }]

def loweredIdentity : Lowered where
  function := identity
  routine :=
    { name := "f", localCount := 1, maxDepth := 1, ops := #[.loadLocal 0, .ret], origins := #[0, 2] }
  regions := []
  entry := [(0, ⟨[], [.ofKind .object]⟩), (2, ⟨[⟨0, .ofKind .object⟩], [.ofKind .object]⟩)]

theorem lower_identity : lower identity = (.ok loweredIdentity, [.finished 2 2 0 1]) := by
  have checked : lowersTo identity (fun _ _ _ l => alikeRoutine l.routine loweredIdentity.routine &&
      l.regions == [] && l.entry == loweredIdentity.entry) = true := by decide +kernel
  have reported : (lower identity).2 = [.finished 2 2 0 1] := by decide +kernel
  obtain ⟨_, _, _, l, events, prepared, finished, holds⟩ := lowersTo_spec checked
  simp only [Bool.and_eq_true, beq_iff_eq] at holds
  obtain ⟨⟨routine, regions⟩, entry⟩ := holds
  have lowered := lower_of_finish prepared finished
  have function := lower_function lowered
  have same := alikeRoutine_eq routine
  rw [lowered] at reported ⊢
  cases l
  subst function same regions entry
  exact congrArg (Prod.mk (Except.ok loweredIdentity)) reported

theorem identity_offsets : OwnOffsets identity := ⟨by decide, by decide⟩

/-- The machine before the identity returns the number it was given. -/
def returning : Config where
  state := { bareState with steps := 1 }
  frame := { routine := loweredIdentity.routine, ip := 1, stack := [.int 7], locals := #[.int 7],
             depth := 1 }
  waiting := []

theorem identity_conforms : ∃ shape, loweredIdentity.entry? 2 = some shape ∧
    returning.frame.stack.length = shape.depth ∧
    List.Forall₂ Conforms returning.frame.stack (shape.cells.map Cell.slot) ∧
    ∀ j < identity.localCount,
      LocalConforms (returning.frame.locals.getD j .unbound) (localSlot shape.locals j) := by
  have bare : ProperState bareState :=
    ⟨.empty, by rintro _ ⟨⟩, rfl⟩
  have goes : Goes {} (.call bareState loweredIdentity.routine [.int 7] 1 []) returning := by
    unfold Goes
    cbv
  have span : spanOf identity 1 = some (1, 2) := by decide +kernel
  exact (activation_conforms {} identity loweredIdentity bareState [.int 7] []
    ⟨rfl, clean_none, identity_offsets, ⟨_, lower_identity⟩, by decide, rfl, by decide, bare,
      by rintro _ ⟨⟩⟩ 1
    returning (.step .refl goes (Nat.le_refl 0)) rfl 1 _ rfl 1 2 span (by decide) rfl).2

/-- A function that stores what a built-in function gives it. -/
def keeping : Function where
  name := "f"
  version := ⟨3, 9⟩
  names := #["b"]
  localNames := #["a"]
  instructions := #[{ offset := 0, code := Opcode.loadGlobal.code },
    { offset := 2, code := Opcode.callFunction.code }, { offset := 4, code := Opcode.storeFast.code },
    { offset := 6, code := Opcode.loadFast.code }, { offset := 8, code := Opcode.returnValue.code }]

def keepingRoutine : Routine where
  name := "f"
  localCount := 1
  maxDepth := 1
  ops := #[.loadGlobal "b", .invoke { helper := .call, args := 1, results := 1 }, .storeLocal 0,
    .loadLocal 0, .ret]
  origins := #[0, 2, 4, 6, 8]

/-- A machine with a built-in function. -/
def suppliedState : Machine.State where
  heap := { builtins := #[⟨"b", .custom 0⟩] }
  globals := [("b", .builtin 0)]

/-- The built-in function gives the sentinel. -/
def straying : Setup := { custom := fun _ h _ => (.value .unbound, h) }

/-- The function before so many of its operations. -/
def keepingAt (n : Nat) (stack : List Value) : Config where
  state := { suppliedState with steps := n }
  frame := { routine := keepingRoutine, ip := n, stack, locals := #[.unbound], depth := 1 }
  waiting := []

private theorem builtin_strays : ∃ l events, lower keeping = (.ok l, events) ∧
    l.routine = keepingRoutine ∧ ProperState suppliedState ∧ spanOf keeping 3 = some (3, 4) ∧
    ∃ c, Stays straying (.call suppliedState keepingRoutine [] 1 []) c ∧ c.frame.ip = 3 ∧
      ∃ shape, l.entry? 6 = some shape ∧
        ¬ LocalConforms (c.frame.locals.getD 0 .unbound) (localSlot shape.locals 0) := by
  obtain ⟨l, events, lowered, routine, shape, found, object⟩ : ∃ l events,
      lower keeping = (.ok l, events) ∧ l.routine = keepingRoutine ∧
      ∃ shape, l.entry? 6 = some shape ∧ (localSlot shape.locals 0).kind = .object := by
    have checked : lowersTo keeping (fun _ _ _ l => alikeRoutine l.routine keepingRoutine &&
        (l.entry? 6).any fun shape => (localSlot shape.locals 0).kind == .object) = true := by decide +kernel
    obtain ⟨_, _, _, l, events, prepared, finished, holds⟩ := lowersTo_spec checked
    simp only [Bool.and_eq_true, beq_iff_eq, Option.any_eq_true] at holds
    exact ⟨l, events, lower_of_finish prepared finished, alikeRoutine_eq holds.1, holds.2⟩
  have proper : ProperState suppliedState := ⟨{ ProperHeap.empty with }, by decide, rfl⟩
  have loads : Goes straying (keepingAt 0 []) (keepingAt 1 [.builtin 0]) := by
    unfold Goes
    cbv
  have calls : Goes straying (keepingAt 1 [.builtin 0]) (keepingAt 2 [.unbound]) := by
    unfold Goes
    cbv
  have stores : Goes straying (keepingAt 2 [.unbound]) (keepingAt 3 []) := by
    unfold Goes
    cbv
  have stays : Stays straying (.call suppliedState keepingRoutine [] 1 []) (keepingAt 3 []) :=
    ((Stays.refl.step loads (Nat.le_refl 0)).step calls (Nat.le_refl 0)).step stores (Nat.le_refl 0)
  refine ⟨l, events, lowered, routine, proper, by decide +kernel, _, stays, rfl, shape, found, ?_⟩
  rintro (free | ⟨bound, _⟩)
  · cases object.symm.trans free
  · exact bound rfl

/-- With the sentinel as its argument, the identity does not find the bound local that its first shape
promises. Where a built-in function gives the sentinel, a function that stores it does not either. -/
theorem unbound_argument_strays : (identity.argCount.toInt ≤ [Value.unbound].length ∧
    lower identity = (.ok loweredIdentity, [.finished 2 2 0 1]) ∧
    spanOf identity 0 = some (0, 1) ∧
    (Config.call bareState loweredIdentity.routine [.unbound] 1 []).frame.ip = 0 ∧
    ∃ shape, loweredIdentity.entry? 0 = some shape ∧
      ¬ LocalConforms ((Config.call bareState loweredIdentity.routine [.unbound] 1
        []).frame.locals.getD 0 .unbound) (localSlot shape.locals 0)) ∧
    ∃ l events, lower keeping = (.ok l, events) ∧
      l.routine = keepingRoutine ∧ ProperState suppliedState ∧ spanOf keeping 3 = some (3, 4) ∧
      ∃ c, Stays straying (.call suppliedState keepingRoutine [] 1 []) c ∧ c.frame.ip = 3 ∧
        ∃ shape, l.entry? 6 = some shape ∧
          ¬ LocalConforms (c.frame.locals.getD 0 .unbound) (localSlot shape.locals 0) := by
  refine ⟨⟨by decide, lower_identity, by decide +kernel, rfl, _, rfl, ?_⟩, builtin_strays⟩
  rintro (free | ⟨bound, _⟩)
  · cases free
  · exact bound rfl

end Lowering.Proofs
