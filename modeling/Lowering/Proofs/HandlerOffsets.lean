import Lowering.Proofs.ModernDispatch
import Lowering.Proofs.Origins
import Lowering.Proofs.Recordings
import Lowering.Proofs.WellFormed

/-! The offset that a handler is given. A handler of an exception table that asks for the offset of the
instruction that raised finds the one that the exception has recorded: the first at which it was raised
or passed in any frame, unless a built-in function wrote another one. The instruction that leads to the
handler is always contained in an entry for it, and its offset is the one that is found when nothing was
recorded before. -/

namespace Lowering.Proofs
open Machine Host Guest Emission

variable {plan : Plan} {bound : Array Bound} {analysis : Analysis.State} {fn : Function} {l : Lowered}
  {setup : Setup} {c : Config} {exception : Nat} {h : Frame} {rest : List Frame}

/-- An instruction whose operation raises an exception, or lets it through, leads to the handler of an entry
that contains it. -/
theorem Lowers.leads (lowers : Lowers fn l plan bound analysis) (modern : plan.dialect = .modern)
    (own : h.routine = l.routine) {op : Operation} (operation : h.routine.ops[h.ip - 1]? = some op)
    {k : Frame} (caught : receive exception h = .caught k) : ∃ i inst r label entry,
      fn.instructions[i]? = some inst ∧ h.routine.origin (h.ip - 1) = inst.offset ∧
      plan.region? (plan.protecting i) = some r ∧ (contextOf plan analysis).catch? r.id = some label ∧
      entry ∈ fn.table ∧ entry.contains inst.offset = true ∧ entry.target = r.handler ∧
      k.stack = .exception exception :: h.stack.drop (h.stack.length - r.depth.toInt.toNat) ∧
      k.stack.length ≤ addressable + 1 := by
  obtain ⟨region, target, found, _, _, small, _, rfl⟩ := receive_caught caught
  rw [own] at operation found
  obtain ⟨e, source, _, origin, protects⟩ := lowers.source operation
  rw [found, Option.map_some] at protects
  obtain ⟨i, o, p, reached, same, guarded⟩ : ∃ i o p, Reached bound analysis i o p ∧
      e.origin = o.inst.offset ∧
      Guarded (contextOf plan analysis) (cleanupsOf plan bound analysis) i p e.protection := by
    cases source with
    | lead reached _ guarded | own reached _ guarded => exact ⟨_, _, _, reached, rfl, guarded⟩
    | cleanup _ inner => cases modern.symm.trans inner.1
  rw [← protects] at guarded
  have tabled : ∃ r, plan.region? (plan.protecting i) = some r := by
    cases planned : plan.region? (plan.protecting i) with
    | none => cases lowers.settled.untabled modern guarded planned
    | some r => exact ⟨r, rfl⟩
  obtain ⟨r, planned⟩ := tabled
  obtain ⟨label, labelled, same'⟩ :=
    Option.map_eq_some_iff.mp (lowers.settled.tabled modern guarded planned).symm
  rw [Protection.mk.injEq] at same'
  have numbered : plan.protecting i ≠ 0 := by
    intro zero
    rw [zero, region?_zero] at planned
    cases planned
  obtain ⟨inst, entry, r', present, member, contains, listed, number, handler⟩ :=
    ofModern_protects (prepare_tabled lowers.prepared modern) numbered
  have unique : plan.region? r'.id = some r' := lowers.planned.numbered.find listed
  rw [number, planned, Option.some.injEq] at unique
  have here := (lowers.planned.bounds reached.found).1
  rw [lowers.function, present, Option.some.injEq] at here
  refine ⟨i, inst, r, label, entry, present, ?_, planned, labelled, member, contains, ?_, ?_, ?_⟩
  · rw [own, origin, same, here]
  · rw [unique, handler]
  · rw [same'.2]
  · simp only [List.length_cons, List.length_drop]
    omega

private theorem Passed.size {before after : Heap} (passed : Passed exception before after) :
    after.exceptions.size = before.exceptions.size :=
  passed (·.exceptions.size = before.exceptions.size)
    (fun _ _ same => (Array.size_modify ..).trans same) rfl

private theorem exception_lasti {heap : Heap} (present : exception < heap.exceptions.size) :
    (heap.exception exception).lasti = recorded heap exception := by
  simp [Heap.exception, recorded, Array.getD_eq_getD_getElem?, Array.getElem?_eq_getElem present]

theorem Enters.finds (plain : setup.helpers = []) {label : Label} {r : Region} {d : Config}
    (enters : Enters setup fn label r c d) (modern : r.dialect = .modern)
    (raising : Raising setup c exception h rest) {k : Frame} (caught : receive exception h = .caught k)
    {kept : List Value} (stack : k.stack = .exception exception :: kept)
    (small : k.stack.length ≤ addressable + 1) :
    ∃ arrived, Goes setup c arrived ∧ d.frame.stack = handed arrived.state.heap exception r ++ kept := by
  obtain ⟨arrived, skip, goes, skips, executes⟩ := enters.runs
  obtain ⟨_, also, frame, _⟩ := raising.caught plain caught
  cases goes.deterministic also
  refine ⟨arrived, goes, ?_⟩
  rw [← frame] at stack small
  obtain ⟨middle, prologue, jump⟩ : ∃ middle, Executes setup (.label label :: r.prologue) arrived middle ∧
      Executes setup skip middle d := Executes.split executes
  have straight : ∀ o ∈ .label label :: r.prologue, o.terminates = false := by
    intro o listed
    rcases List.mem_cons.mp listed with rfl | inside
    · rfl
    · exact (prologue_straight inside).1
  have short := prologue_length r
  have left := prologue.leaves plain rfl (v := arrived.view)
    (prologue_hands modern (v := { arrived.view with ip := arrived.view.ip + 1 }) stack) straight (by
      simp only [Config.view, List.length_cons, addressable] at small ⊢
      omega)
  have before : middle.frame.stack = handed arrived.state.heap exception r ++ kept :=
    congrArg View.stack left
  rcases skips with rfl | rfl
  · cases jump
    exact before
  · cases jump with
    | cons operation goes later =>
      cases later
      exact (goes.jumps operation).trans before

/-- The offset that a handler of an exception table is given. An exception that a frame of the function
catches was raised or let through by an instruction that an entry for the handler contains. If the handler
asks for an offset, it finds below the exception what the marks of the run have left in its record, the
last of which is that the exception is offered the offset of this instruction. It finds this offset exactly
if nothing was recorded before, or the same. With built-in functions that change no record there are no
marks but offers: it finds what was recorded when the run began, or else the first offset at which the
exception was raised or passed in any frame since. -/
theorem handler_given_first {events : List Lowering.Event} (lowered : lower fn = (.ok l, events))
    (prepared : prepare fn = .ok (plan, bound, analysis)) (modern : plan.dialect = .modern)
    (plain : setup.helpers = []) {st st' : Machine.State} {entered : Routine} {args : List Value}
    {depth : Nat} {trail : List Mark} (travels : Travels setup exception (.enter st entered args depth) trail c)
    {g k : Frame} (raised : c.raised? setup = some (st', g, exception))
    (present : exception < st'.heap.exceptions.size) (offered : Offered exception g c.waiting h rest)
    (own : h.routine = l.routine) (caught : receive exception h = .caught k) :
    ∃ i inst r label entry earlier, fn.instructions[i]? = some inst ∧
      l.routine.origin (h.ip - 1) = inst.offset ∧
      plan.region? (plan.protecting i) = some r ∧ (contextOf plan analysis).catch? r.id = some label ∧
      entry ∈ fn.table ∧ entry.contains inst.offset = true ∧ entry.target = r.handler ∧
      trail ++ c.marks setup exception = earlier ++ [Mark.offered inst.offset] ∧
      (Quiet setup.custom → ∃ offsets : List Int64, earlier = offsets.map .offered) ∧
      ∀ d, Enters setup fn label r c d → r.lasti = true → ∃ v,
        d.frame.stack = .exception exception :: .int v ::
          h.stack.drop (h.stack.length - r.depth.toInt.toNat) ∧
        v = noted (recorded st.heap exception) (earlier ++ [Mark.offered inst.offset]) ∧
        (v = inst.offset ↔ noted (recorded st.heap exception) earlier < 0 ∨
          noted (recorded st.heap exception) earlier = inst.offset) := by
  obtain ⟨plan', bound', analysis', lowers⟩ := lower_lowers lowered
  cases lowers.prepared.symm.trans prepared
  have committed : Committed c := travels.reaches.keeps (Committed.step plain) nofun
  obtain ⟨o, before, f, raises⟩ := raised?_raises raised
  have raising : Raising setup c exception h rest := ⟨o, before, f, st', g, raises, offered⟩
  obtain ⟨op, operation, _⟩ := raises.risky plain committed offered
  obtain ⟨i, inst, r, label, entry, instruction, origin, planned, labelled, member, contains, target, stack,
    small⟩ := lowers.leads modern own operation caught
  have held : receive exception h ≠ .passed := by
    rw [caught]
    exact nofun
  obtain ⟨crossing, last⟩ := offered.crossed held
  have offers : c.offers setup exception = crossing ++ [inst.offset] := by
    simp only [Config.offers, raised, present, and_self, if_true, last, origin]
  obtain ⟨earlier, marks, silent⟩ : ∃ earlier, c.marks setup exception =
      earlier ++ [Mark.offered inst.offset] ∧ (Quiet setup.custom → earlier = crossing.map .offered) := by
    cases issued : c.issued? setup with
    | none =>
      rw [Config.raised?, issued] at raised
      cases raised
    | some =>
      simp only [Config.marks, issued, offers, List.map_append, List.map_cons, List.map_nil]
      refine ⟨_, (List.append_assoc ..).symm, fun quiet => ?_⟩
      rw [rewriting, if_pos (congrFun (execute_recorded quiet plain ..) exception)]
      rfl
  have dialect : r.dialect = .modern :=
    (lowers.planned.regions r (regionIn?_mem planned)).own.trans modern
  have all : trail ++ c.marks setup exception = (trail ++ earlier) ++ [Mark.offered inst.offset] := by
    rw [marks, List.append_assoc]
  refine ⟨i, inst, r, label, entry, _, instruction, own ▸ origin, planned, labelled, member, contains,
    target, all, fun quiet => ?_, fun d enters asks => ?_⟩
  · obtain ⟨offsets, before⟩ := travels.offered quiet plain
    rw [before, silent quiet, ← List.map_append]
    exact ⟨_, rfl⟩
  obtain ⟨arrived, goes, finds⟩ := enters.finds plain dialect raising caught stack small
  have there : exception < arrived.state.heap.exceptions.size := by
    obtain ⟨_, delivered, passed, _⟩ := offered.caught caught st'
    have same : arrived.state = _ := congrArg Prod.fst (goes.symm.trans (raises.step.trans delivered))
    rw [same, passed.size]
    exact present
  have value : (arrived.state.heap.exception exception).lasti =
      noted (recorded st.heap exception) ((trail ++ earlier) ++ [Mark.offered inst.offset]) := by
    rw [exception_lasti there, (travels.step goes).recorded, all]
    exact congrArg (noted · _) (congrFun (enter_recorded st.heap entered args depth) exception)
  refine ⟨_, ?_, value, ?_⟩
  · rw [finds, handed, asks]
    rfl
  · rw [value]
    exact noted_last _ _ _

/-- A function that raises, lets the handler raise the exception again, and returns the offset that the
handler of that is given. -/
def reraising : Function where
  name := "f"
  version := ⟨3, 11⟩
  constants := #[.int 1]
  instructions := #[{ offset := 0, code := Opcode.loadConst.code },
    { offset := 2, code := Opcode.raiseVarargs.code, arg := 1 },
    { offset := 4, code := Opcode.reraise.code }, { offset := 6, code := Opcode.popTop.code },
    { offset := 8, code := Opcode.returnValue.code }]
  table := [⟨2, 4, 4, 0, false⟩, ⟨4, 6, 6, 0, true⟩]

/-- Its routine. -/
def reraisingRoutine : Routine where
  name := "f"
  maxDepth := 2
  ops := #[.const (.int 1), .invoke { helper := .makeException, args := 1, results := 1 }, .throw,
    .label (-1), .label 4, .throw, .label (-2), .dup,
    .invoke { helper := .excLasti, args := 1, results := 1 }, .swap 1, .label 6, .pop, .ret]
  regions := [⟨1, 3, -1, 0⟩, ⟨3, 6, -2, 0⟩]
  origins := #[0, 2, 2, 4, 4, 4, 6, 6, 6, 6, 6, 6, 8]

/-- Its run after so many steps; the fifth raises the exception again, and ten lead to the second handler. -/
def reraisingAt (n : Nat) : Config := (Config.enter bareState reraisingRoutine [] 1).later {} n

private theorem reraising_lowered : ∃ l events, lower reraising = (.ok l, events) ∧
    l.routine = reraisingRoutine := lowers_alike (by decide +kernel)

private theorem reraising_prepared : ∃ plan bound analysis,
    prepare reraising = .ok (plan, bound, analysis) ∧ plan.dialect = .modern ∧
      ∃ r, plan.region? (plan.protecting 2) = some r ∧ r.handler = 6 ∧ r.depth = 0 ∧ r.lasti = true ∧
        r.dialect = .modern ∧ (contextOf plan analysis).catch? r.id = some (-2) := by
  have checked : lowersTo reraising (fun plan _ analysis _ => plan.dialect == .modern &&
      (plan.region? (plan.protecting 2)).any fun r => r.handler == 6 && r.depth == 0 && r.lasti == true &&
        r.dialect == .modern && (contextOf plan analysis).catch? r.id == some (-2)) = true := by
    decide +kernel
  obtain ⟨plan, bound, analysis, _, _, prepared, _, holds⟩ := lowersTo_spec checked
  simp only [Bool.and_eq_true, beq_iff_eq, Option.any_eq_true] at holds
  obtain ⟨modern, r, found, ⟨⟨⟨handler, depth⟩, lasti⟩, dialect⟩, labelled⟩ := holds
  exact ⟨plan, bound, analysis, prepared, modern, r, found, handler, depth, lasti, dialect, labelled⟩

private theorem reraising_enters {r : Region} (handler : r.handler = 6) (lasti : r.lasti = true)
    (modern : r.dialect = .modern) : Enters {} reraising (-2) r (reraisingAt 5) (reraisingAt 10) := by
  have prologue : r.prologue = [.dup, .invoke { helper := .excLasti, args := 1, results := 1 }, .swap 1] := by
    rw [Region.prologue, modern, lasti]
    rfl
  refine ⟨⟨reraisingAt 6, [], rfl, .inl rfl, ?_⟩, 3, 12, ?_, ?_⟩
  · rw [prologue]
    exact .cons (d := reraisingAt 7) rfl rfl <| .cons (d := reraisingAt 8) rfl rfl <|
      .cons (d := reraisingAt 9) rfl rfl <| .cons (d := reraisingAt 10) rfl rfl <| .nil _
  · rw [handler]
    decide +kernel
  · decide +kernel

/-- The second handler is given the offset at which the exception was raised first. -/
theorem reraising_given_first : ∃ plan bound analysis r d,
    prepare reraising = .ok (plan, bound, analysis) ∧ plan.region? (plan.protecting 2) = some r ∧
      Enters {} reraising (-2) r (reraisingAt 5) d ∧ r.lasti = true ∧
      (reraisingAt 0).trail {} 0 5 ++ (reraisingAt 5).marks {} 0 = [Mark.offered 2] ++ [Mark.offered 4] ∧
      d.frame.stack = [.exception 0, .int (noted (-1) ([Mark.offered 2] ++ [Mark.offered 4]))] := by
  obtain ⟨l, events, lowered, routine⟩ := reraising_lowered
  obtain ⟨plan, bound, analysis, prepared, modern, r, found, handler, depth, lasti, dialect, labelled⟩ :=
    reraising_prepared
  have enters := reraising_enters handler lasti dialect
  have raised : (reraisingAt 5).raised? {} = some ({ (reraisingAt 5).state with steps := 6 },
      { (reraisingAt 5).frame with ip := 6, stack := [] }, 0) := rfl
  obtain ⟨i, inst, r', label, entry, earlier, present, origin, planned, named, _, _, _, marks, _, finds⟩ :=
    handler_given_first lowered prepared modern rfl (travels_later {} (reraisingAt 0) 0 5) raised (by decide)
      (.here _ _) routine.symm rfl
  have third : i = 2 := by
    have own : OwnOffsets reraising := ⟨by decide, by decide⟩
    rw [routine] at origin
    exact own.unique present (j := 2) rfl origin.symm
  subst third
  cases found.symm.trans planned
  cases labelled.symm.trans named
  obtain ⟨v, stack, value, _⟩ := finds _ enters lasti
  have passed : (reraisingAt 0).trail {} 0 5 ++ (reraisingAt 5).marks {} 0 =
      [Mark.offered 2] ++ [Mark.offered 4] := rfl
  rw [← marks.symm.trans passed]
  refine ⟨plan, bound, analysis, r, _, prepared, found, enters, lasti, marks, ?_⟩
  rw [stack, value, depth]
  rfl

/-- The offset that the second handler is given is not that of the instruction that raises to it, and no
entry for the handler contains it. -/
theorem reraised_offset_stays : ∃ l events plan bound analysis r,
    lower reraising = (.ok l, events) ∧ prepare reraising = .ok (plan, bound, analysis) ∧
      plan.dialect = .modern ∧ Reaches {} (.enter bareState l.routine [] 1) (reraisingAt 5) ∧
      l.routine.origin (reraisingAt 5).frame.ip = 4 ∧ plan.region? (plan.protecting 2) = some r ∧
      r.lasti = true ∧ Enters {} reraising (-2) r (reraisingAt 5) (reraisingAt 10) ∧
      (reraisingAt 10).frame.stack = [.exception 0, .int 2] ∧
      ∀ entry ∈ reraising.table, entry.target = r.handler → entry.contains 2 = false := by
  obtain ⟨l, events, lowered, routine⟩ := reraising_lowered
  obtain ⟨plan, bound, analysis, prepared, modern, r, found, handler, _, lasti, dialect, _⟩ :=
    reraising_prepared
  refine ⟨l, events, plan, bound, analysis, r, lowered, prepared, modern, ?_, ?_, found, lasti,
    reraising_enters handler lasti dialect, rfl, ?_⟩
  · rw [routine]
    exact reaches_later {} _ 5
  · rw [routine]
    rfl
  · rw [handler]
    decide

end Lowering.Proofs
