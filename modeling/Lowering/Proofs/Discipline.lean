import Lowering.Proofs.Tending

/-! The discipline of handled exceptions in legacy functions. -/

namespace Lowering.Proofs
open Machine Host Shape Guest Emission

variable {setup : Setup} {plan : Plan} {bound : Array Bound} {analysis : Analysis.State}
  {maxDepth : Int64} {c : Config}

/-- No handler starts where a function does: its prologue would find no exception. -/
theorem Lowers.bare {fn : Function} {l : Lowered} (lowers : Lowers fn l plan bound analysis)
    (legacy : plan.dialect = .legacy) {o : Bound} {p : Point} (reached : Reached bound analysis 0 o p)
    (start : leadStart plan bound analysis 0 = 0) : leadAt plan bound analysis 0 o = [] := by
  cases handlers : handlersAt (contextOf plan analysis) o.inst.offset with
  | nil =>
    rw [leadAt, handlers]
    rfl
  | cons r rest =>
    have known : r ∈ analysis.regions := by
      have member : r ∈ handlersAt (contextOf plan analysis) o.inst.offset :=
        handlers ▸ List.mem_cons_self
      exact (mem_handlersAt.mp member).1
    have dialect := (lowers.stable.placing lowers.planned known).dialect.trans legacy
    obtain ⟨depths, walked⟩ := lowers.depths
    obtain ⟨_, _, _, stands, _⟩ := lowers.settled.instruction reached l.routine.maxDepth
    have routine : l.routine = routineOf plan bound analysis l.routine.maxDepth := lowers.routine
    have front : ∃ label more, leadAt plan bound analysis 0 o =
        .label label :: .getHandled :: .storeLocal r.scratch :: .dup :: more := by
      rw [leadAt, handlers, lead, Region.prologue, dialect]
      exact ⟨_, _, rfl⟩
    obtain ⟨label, more, front⟩ := front
    rw [front, start, ← routine] at stands
    have code : ∀ (m : Nat) (op : Operation), (.label label :: .getHandled :: .storeLocal r.scratch ::
        .dup :: more : List Operation)[m]? = some op → l.routine.ops[m]? = some op := by
      intro m op found
      simpa using (stands m op found).1
    have present : l.routine.ops.isEmpty = false := by
      have inside := (Array.getElem?_eq_some_iff.mp (code 0 _ rfl)).1
      simp only [Array.isEmpty, decide_eq_false_iff_not]
      omega
    have agreeing := ofRoutine_agrees present walked
    have falls : ∀ {i : Nat} {op : Operation} {level next : Int64}, op.terminates = false →
        level - op.pops + op.pushes = next → 0 ≤ next →
        Followed l.routine depths.before depths.max i op level → depths.before[i + 1]? = some next :=
      fun falls same positive followed => same ▸ (followed.falls falls).2 (same ▸ positive)
    have first := agreeing.followed 0 _ 0 (by decide) agreeing.entry (code 0 _ rfl)
    have second := agreeing.followed 1 _ 0 (by decide)
      (falls rfl (by simp [Operation.pops, Operation.pushes]) (by decide) first) (code 1 _ rfl)
    have third := agreeing.followed 2 _ 1 (by decide)
      (falls rfl (by simp [Operation.pops, Operation.pushes]) (by decide) second) (code 2 _ rfl)
    have fourth := agreeing.followed 3 _ 0 (by decide)
      (falls rfl (by simp [Operation.pops, Operation.pushes]) (by decide) third) (code 3 _ rfl)
    exact absurd (by decide) fourth.enough

private theorem Lowers.begins {fn : Function} {l : Lowered} (lowers : Lowers fn l plan bound analysis)
    (blocked : Blocked plan bound analysis) (st : Machine.State) (args : List Value) (depth : Nat)
    (waiting : List Frame) :
    Tending setup plan bound analysis l.routine.maxDepth (.call st l.routine args depth waiting)
      (.call st l.routine args depth waiting) := by
  obtain ⟨p, point, blocks, _⟩ := blocked.stable.entry
  have inside : 0 < bound.size := blocked.planned.size ▸ blocked.planned.positive
  have reached : Reached bound analysis 0 bound[0] p := ⟨Array.getElem?_eq_getElem inside, point⟩
  have first : leadStart plan bound analysis 0 = 0 := by
    simp only [leadStart, place, stage]
    exact congrArg Array.size (labelledHandlers_labelling blocked.numbered).emitted
  have bare := lowers.bare blocked.legacy reached first
  have here : (Config.call st l.routine args depth waiting).frame.ip =
      ownStart plan bound analysis 0 bound[0] := by
    rw [ownStart, first, bare]
    rfl
  have tells : (ledgerOf setup plan analysis (.call st l.routine args depth waiting)
      (.call st l.routine args depth waiting)
      (Config.call st l.routine args depth waiting).frame.locals).Tells p.blocks st.handled := by
    rw [blocks]
    exact .outside
  exact .executing rfl lowers.routine (here ▸ blocked.arrives reached tells)

/-- An activation handles exceptions properly. Where it executes an instruction, the register holds the
exception with which the innermost of the handlers that run there was entered, or what it held when the
function was called; and the local of every such handler holds what is handled below it. When an
exception leaves the activation, the register is as it was found. -/
structure Disciplined (setup : Setup) (fn : Function) (plan : Plan) (analysis : Analysis.State)
    (start c : Config) : Prop where
  told : ∀ i p first last, analysis.point? i = some p → spanOf fn i = some (first, last) →
    c.waiting.length = start.waiting.length → first ≤ c.frame.ip → c.frame.ip < last →
    (ledgerOf setup plan analysis start c c.frame.locals).Tells p.blocks c.state.handled
  left : ∀ exception h rest, Raising setup c exception h rest →
    rest.length = start.waiting.length → receive exception h = .passed →
    c.state.handled = start.state.handled ∧
      (Machine.step setup c.state c.frame c.waiting).1.handled = start.state.handled

/-- As long as its calls return and raise with the register as they found it, a legacy function handles
exceptions properly, through any nesting of handlers, if each handler is left with its own exception
state innermost. -/
theorem handled_discipline {fn : Function} {l : Lowered} {events : List Lowering.Event}
    (lowered : lower fn = (.ok l, events)) (offsets : OwnOffsets fn)
    (prepared : prepare fn = .ok (plan, bound, analysis)) (legacy : plan.dialect = .legacy)
    (aligned : Aligned bound analysis) {st : Machine.State} (value : st.handled ≠ .unbound)
    {args : List Value} {depth : Nat} {waiting : List Frame}
    (discreet : Discreet setup (.call st l.routine args depth waiting))
    (stays : Stays setup (.call st l.routine args depth waiting) c) :
    Disciplined setup fn plan analysis (.call st l.routine args depth waiting) c := by
  obtain ⟨_, _, _, lowers⟩ := lower_lowers lowered
  have same := lowers.prepared.symm.trans prepared
  cases same
  have blocked := lowers.blocked offsets legacy
  have tending := stays.tending blocked aligned discreet value lowers.routine
    (lowers.begins blocked st args depth waiting)
  constructor
  case told =>
    intro i p first last point span executing lower upper
    obtain ⟨o, q, reached, rfl, rfl⟩ := spanOf_some span prepared
    have known := reached.point.symm.trans point
    cases known
    cases tending with
    | executing _ _ spot => exact spot.owned blocked reached lower upper
    | entering _ _ caught =>
      cases caught with
      | arrived there _ _ split _ _ here =>
        rw [here] at lower upper
        exact (blocked.lead_apart reached there (by rw [split]; simp) lower upper).elim
    | calling more =>
      rw [more] at executing
      simp only [Config.call, List.length_append, List.length_cons] at executing
      omega
  case left =>
    intro exception h rest raising count passed
    have resumes : Resumes setup c waiting.length := .inr ⟨exception, h, rest, raising, count⟩
    obtain ⟨o, st₀, f, st₁, g, raises, offered⟩ := raising
    obtain ⟨_, _, blocks, seated, guards, tells⟩ :=
      tending.offered blocked discreet value raises.issued raises.executed offered count resumes
    have register : c.state.handled = st.handled := seated.passed guards tells passed
    refine ⟨register, Eq.trans ?_ register⟩
    have after : (Machine.step setup c.state c.frame c.waiting).1.handled = st₁.handled := by
      rw [raises.step, deliver_handled]
    exact after.trans (discreet.register stays raises.issued raises.executed raises.other after)

private theorem discreet_of_flat {start : Config} {n : Nat} (plain : setup.helpers = [])
    (flat : always setup (fun d => d.waiting.isEmpty) n start = true) : Discreet setup start where
  helpers _ _ _ operation := step_register plain (by rw [operation]; nofun)
  calls := by
    intro c e d stays _ goes deeper
    have empty := always_reaches flat (stays.reaches.step goes)
    rw [List.isEmpty_iff.mp empty] at deeper
    cases deeper

/-- Every handler that is left has its exception state innermost. -/
def aligns (bound : Array Bound) (analysis : Analysis.State) : Bool :=
  (List.range bound.size).all fun i =>
    match bound[i]?, analysis.point? i with
    | some o, some p =>
      o.opcode ≠ .popExcept || p.blocks.head?.map Block.region == some (enclosing p.shape)
    | _, _ => true

private theorem aligned_of_aligns (aligns : aligns bound analysis = true) : Aligned bound analysis := by
  intro i o p reached leaves
  have inside := (Array.getElem?_eq_some_iff.mp reached.found).1
  have checked := List.all_eq_true.mp aligns i (List.mem_range.mpr inside)
  simpa [reached.found, reached.point, leaves] using checked

/-- While the handler of the function runs, its exception is handled, and it has saved what was handled
before. -/
theorem recovering_disciplined : ∃ l events, lower recovering = (.ok l, events) ∧
    ∃ start c, start = Config.call { bareState with handled := .int 5 } l.routine [] 1 [] ∧
      Stays {} start c ∧ c.frame.ip = 13 ∧ c.frame.locals[0]? = some (Value.int 5) ∧
      ∃ exception, c.state.handled = .exception exception ∧ LastAt {} start 3 exception c := by
  have span : spanOf recovering 3 = some (13, 19) := by decide +kernel
  have checked : lowersTo recovering (fun plan bound analysis l =>
      let start := Config.call { bareState with handled := .int 5 } l.routine [] 1 []
      let c := start.later {} 13
      plan.dialect == .legacy && aligns bound analysis &&
        (analysis.point? 3).map Point.blocks == some [⟨1, true⟩] &&
        (contextOf plan analysis).catch? 1 == some (-1) && plan.scratch 1 == 0 &&
        always {} (fun d => d.waiting.isEmpty) 40 start && c.frame.ip == 13 && c.waiting.isEmpty &&
        l.routine.labelIndex? (-1) == some 3) = true := by decide +kernel
  obtain ⟨plan, bound, analysis, l, events, prepared, finished, holds⟩ := lowersTo_spec checked
  simp only [Bool.and_eq_true, beq_iff_eq, List.isEmpty_iff, Option.map_eq_some_iff] at holds
  obtain ⟨⟨⟨⟨⟨⟨⟨⟨legacy, aligned⟩, p, point, blocks⟩, catches⟩, scratch⟩, flat⟩, place⟩, waiting⟩, label⟩ :=
    holds
  have lowered := lower_of_finish prepared finished
  have stays := (reaches_later {} (.call { bareState with handled := .int 5 } l.routine [] 1 []) 13).stays rfl
  generalize (Config.call { bareState with handled := .int 5 } l.routine [] 1 []).later {} 13 = c
    at place waiting stays
  have disciplined := handled_discipline lowered ⟨by decide, by decide⟩ prepared legacy
    (aligned_of_aligns aligned) (by simp) (discreet_of_flat rfl flat) stays
  have tells := disciplined.told 3 p 13 19 point span (by rw [waiting]; rfl) (Nat.le_of_eq place.symm)
    (by rw [place]; decide)
  rw [blocks] at tells
  refine ⟨l, events, lowered, _, c, rfl, stays, place, ?_⟩
  generalize c.state.handled = handled at tells ⊢
  cases tells with
  | running entered saved tells =>
    obtain ⟨mark, index, caught, defined, last⟩ := entered
    cases catches.symm.trans caught
    cases label.symm.trans defined
    cases tells
    simp only [ledgerOf, scratch] at saved
    exact ⟨saved, _, rfl, last⟩

/-- A function that raises in a handler inside a block, and leaves the handler of this block. -/
def relapsing : Function where
  name := "f"
  version := ⟨3, 9⟩
  constants := #[.int 1]
  instructions := #[{ offset := 0, code := Opcode.setupFinally.code, arg := 12 },
    { offset := 2, code := Opcode.setupFinally.code, arg := 8 },
    { offset := 4, code := Opcode.loadConst.code },
    { offset := 6, code := Opcode.raiseVarargs.code, arg := 1 },
    { offset := 8, code := Opcode.loadConst.code },
    { offset := 10, code := Opcode.raiseVarargs.code, arg := 1 },
    { offset := 12, code := Opcode.popExcept.code },
    { offset := 14, code := Opcode.loadConst.code },
    { offset := 16, code := Opcode.returnValue.code }]

/-- A function with two instructions at the offset 20, one in a handler and one outside. -/
def doubled : Function where
  name := "f"
  version := ⟨3, 9⟩
  names := #["g"]
  instructions := #[{ offset := 0, code := Opcode.setupFinally.code, arg := 12 },
    { offset := 2, code := Opcode.loadGlobal.code },
    { offset := 4, code := Opcode.popBlock.code },
    { offset := 6, code := Opcode.jumpAbsolute.code, arg := 22 },
    { offset := 12, code := Opcode.popTop.code },
    { offset := 14, code := Opcode.popTop.code },
    { offset := 16, code := Opcode.jumpAbsolute.code, arg := 20 },
    { offset := 20, code := Opcode.returnValue.code },
    { offset := 22, code := Opcode.nop.code },
    { offset := 20, code := Opcode.returnValue.code }]

/-- A function with an instruction at the offset -2, which is also the label of its second handler. -/
def belowZero : Function where
  name := "f"
  version := ⟨3, 9⟩
  names := #["g"]
  constants := #[.int 1]
  instructions := #[{ offset := 0, code := Opcode.setupFinally.code, arg := 20 },
    { offset := 2, code := Opcode.loadGlobal.code },
    { offset := 4, code := Opcode.popTop.code },
    { offset := 6, code := Opcode.popBlock.code },
    { offset := 8, code := Opcode.setupFinally.code, arg := 30 },
    { offset := 10, code := Opcode.loadGlobal.code },
    { offset := 12, code := Opcode.popBlock.code },
    { offset := 14, code := Opcode.returnValue.code },
    { offset := 20, code := Opcode.popTop.code },
    { offset := 22, code := Opcode.popTop.code },
    { offset := 24, code := Opcode.jumpAbsolute.code, arg := -2 },
    { offset := -2, code := Opcode.returnValue.code },
    { offset := 30, code := Opcode.popExcept.code },
    { offset := 32, code := Opcode.loadConst.code },
    { offset := 34, code := Opcode.returnValue.code }]

/-- A call of a legacy function on a bare machine that handles exceptions improperly, though its own
calls do not and its handlers are left with their own exception state innermost. -/
def Strays (fn : Function) (handled : Value) : Prop :=
  ∃ l events plan bound analysis c, lower fn = (.ok l, events) ∧
    prepare fn = .ok (plan, bound, analysis) ∧ plan.dialect = .legacy ∧ Aligned bound analysis ∧
    Discreet {} (.call { bareState with handled } l.routine [] 1 []) ∧
    Stays {} (.call { bareState with handled } l.routine [] 1 []) c ∧
    ¬ Disciplined {} fn plan analysis (.call { bareState with handled } l.routine [] 1 []) c

/-- After so many steps, the run of a routine is at an index, and an exception is in the register. It
makes no calls. -/
private def handlesAt (r : Routine) (handled : Value) (steps index : Nat) : Bool :=
  let start := Config.call { bareState with handled } r [] 1 []
  let c := start.later {} steps
  always {} (fun d => d.waiting.isEmpty) 40 start && c.frame.ip == index &&
    (c.state.handled matches .exception _)

/-- A legacy function has an exception in the register, after so many steps, at an instruction outside the
blocks. The operations of the instruction stand between two indices. -/
private def handlesOutside (handled : Value) (steps i first last : Nat) (plan : Plan) (bound : Array Bound)
    (analysis : Analysis.State) (l : Lowered) : Bool :=
  plan.dialect == .legacy && aligns bound analysis && handlesAt l.routine handled steps first &&
    match bound[i]?, analysis.point? i with
    | some o, some p => p.blocks.isEmpty && ownStart plan bound analysis i o == first &&
        leadStart plan bound analysis (i + 1) == last && decide (first < last)
    | _, _ => false

private theorem strays_of_handlesOutside {fn : Function} {handled : Value} {steps i first last : Nat}
    (holds : lowersTo fn (handlesOutside handled steps i first last) = true)
    (found : ∀ exception, handled ≠ .exception exception) : Strays fn handled := by
  obtain ⟨plan, bound, analysis, l, events, prepared, finished, holds⟩ := lowersTo_spec holds
  simp only [handlesOutside, handlesAt, Bool.and_eq_true, beq_iff_eq] at holds
  obtain ⟨⟨⟨legacy, aligned⟩, ⟨flat, place⟩, register⟩, here⟩ := holds
  split at here
  next o p known point =>
    simp only [Bool.and_eq_true, List.isEmpty_iff, beq_iff_eq, decide_eq_true_eq] at here
    obtain ⟨⟨⟨outside, rfl⟩, rfl⟩, inside⟩ := here
    have reaches := reaches_later {} (Config.call { bareState with handled } l.routine [] 1 []) steps
    refine ⟨l, events, plan, bound, analysis, _, lower_of_finish prepared finished, prepared, legacy,
      aligned_of_aligns aligned, discreet_of_flat rfl flat, reaches.stays rfl, fun disciplined => ?_⟩
    have waiting := List.isEmpty_iff.mp (always_reaches flat reaches)
    have tells := disciplined.told i p _ _ point (spanOf_reached prepared ⟨known, point⟩)
      (by rw [waiting]; rfl) (Nat.le_of_eq place.symm) (by rw [place]; exact inside)
    rw [outside] at tells
    split at register
    next exception same =>
      rw [same] at tells
      generalize value : Value.exception exception = v at tells
      cases tells
      exact found exception value.symm
    next => cases register
  next => cases here

private theorem relapsing_strays : Strays relapsing .unbound := by
  have handles : lowersTo relapsing (handlesOutside .unbound 35 7 33 34) = true := by decide +kernel
  exact strays_of_handlesOutside handles (by rintro _ ⟨⟩)

private theorem doubled_strays : Strays doubled .none := by
  have handles : lowersTo doubled (handlesOutside .none 15 9 19 21) = true := by decide +kernel
  exact strays_of_handlesOutside handles (by rintro _ ⟨⟩)

private theorem belowZero_strays : Strays belowZero .none := by
  have handles : lowersTo belowZero (handlesOutside .none 32 14 37 38) = true := by decide +kernel
  exact strays_of_handlesOutside handles (by rintro _ ⟨⟩)

/-- Proper handling needs a register that does not hold the sentinel, offsets that are not shared, and
offsets that are not negative. With the sentinel, a cleanup raises instead of restoring it; a label
that is not unique leads out of a handler that is not left. -/
theorem improper_handling : (OwnOffsets relapsing ∧ Strays relapsing .unbound) ∧
    ((∀ inst ∈ doubled.instructions.toList, 0 ≤ inst.offset) ∧ Strays doubled .none) ∧
    (belowZero.instructions.toList.map Instruction.offset).Nodup ∧ Strays belowZero .none :=
  ⟨⟨⟨by decide, by decide⟩, relapsing_strays⟩, ⟨by decide, doubled_strays⟩, by decide, belowZero_strays⟩

end Lowering.Proofs
