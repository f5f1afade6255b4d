import Lowering.Proofs.Dispatch

/-! Dispatch by exception tables. The operations of an instruction are protected by the region that the
table has for it, and by nothing when the handler of this region is not reached; such an
instruction cannot raise. An exception that is caught arrives at the handler with the part of the
stack that the region keeps. -/

namespace Lowering.Proofs
open Machine Host Shape Guest Emission

variable {plan : Plan} {bound : Array Bound} {analysis : Analysis.State} {maxDepth : Int64}

theorem protecting_exists {fn : Function} (prepared : prepare fn = .ok (plan, bound, analysis))
    (modern : plan.dialect = .modern) {i : Nat} (protected_ : plan.protecting i ≠ 0) :
    ∃ r, plan.region? (plan.protecting i) = some r := by
  obtain ⟨_, _, r, _, _, _, listed, same, _⟩ :=
    ofModern_protects (prepare_tabled prepared modern) protected_
  exact ⟨r, same ▸ (prepare_planned prepared).2.1.numbered.find listed⟩

theorem entry_reached {fn : Function} {l : Lowered} (offsets : OwnOffsets fn)
    (lowers : Lowers fn l plan bound analysis) (offset : Int64) :
    (l.entry? offset).isSome ↔ Emission.reached fn analysis offset = true := by
  have listed : (l.entry? offset).isSome ↔ ∃ j inst q, fn.instructions[j]? = some inst ∧
      analysis.point? j = some q ∧ inst.offset = offset := by
    simp only [Lowered.entry?, Option.isSome_map, List.find?_isSome, List.mem_reverse, beq_iff_eq,
      lowers.entries, List.mem_filterMap, Prod.exists, List.mem_zipIdx_iff_getElem?,
      Array.getElem?_toList, Option.map_eq_some_iff, Prod.mk.injEq]
    constructor
    · rintro ⟨_, _, ⟨inst, j, present, q, known, rfl, rfl⟩, same⟩
      exact ⟨j, inst, q, present, known, same⟩
    · rintro ⟨j, inst, q, present, known, same⟩
      exact ⟨_, _, ⟨inst, j, present, q, known, rfl, rfl⟩, same⟩
  rw [listed]
  unfold Emission.reached
  constructor
  · rintro ⟨j, inst, q, present, known, same⟩
    cases index : fn.indexOf? offset with
    | none =>
      have missing := Array.findIdx?_eq_none_iff.mp index inst (Array.mem_of_getElem? present)
      simp [same] at missing
    | some i =>
      obtain ⟨inside, here, _⟩ := Array.findIdx?_eq_some_iff_getElem.mp index
      have equal : i = j := offsets.unique (Array.getElem?_eq_getElem inside) present
        ((by simpa using here : fn.instructions[i].offset = offset).trans same.symm)
      simp [equal, known]
  · intro reached
    cases index : fn.indexOf? offset with
    | none => simp [index] at reached
    | some i =>
      obtain ⟨inside, here, _⟩ := Array.findIdx?_eq_some_iff_getElem.mp index
      simp only [index, Option.isSome_iff_exists] at reached
      obtain ⟨q, known⟩ := reached
      exact ⟨i, _, q, Array.getElem?_eq_getElem inside, known, by simpa using here⟩

theorem expand_risks (modern : plan.dialect = .modern) {fresh : Label} {o : Bound} {s : Stack}
    {op : Operation} (member : op ∈ o.expand plan fresh s) (risky : risks op = true) :
    o.opcode.mayRaise = true := by
  cases opcode : o.opcode <;> first | rfl | (simp only [Bound.expand, opcode] at member)
  case popExcept =>
    rw [Plan.leave, modern] at member
    rw [List.mem_singleton.mp member] at risky
    cases risky
  case pushExcInfo =>
    simp only [List.mem_cons, List.not_mem_nil, or_false] at member
    rcases member with rfl | rfl | rfl | rfl <;> cases risky
  all_goals first
    | (rw [List.mem_singleton.mp member] at risky; cases risky)
    | cases member

theorem code_risks (modern : plan.dialect = .modern) {i : Nat} {o : Bound} {p : Point} {op : Operation}
    (risky : risks op = true)
    (member : op ∈ leadAt plan bound analysis i o ∨ op ∈ ownAt plan bound analysis i o p) :
    o.opcode.mayRaise = true := by
  rcases member with front | inside
  · have quiet := lead_quiet front
    rw [risky] at quiet
    cases quiet
  · unfold ownAt own at inside
    rcases List.mem_append.mp inside with label | expanded
    · split at label
      · rw [List.mem_singleton.mp label] at risky
        cases risky
      · cases label
    · exact expand_risks modern expanded risky

/-- What the prologue of a handler leaves on the stack above what its region keeps. -/
def handed (heap : Heap) (exception : Nat) (r : Region) : List Value :=
  .exception exception :: if r.lasti then [.int (heap.exception exception).lasti] else []

theorem prologue_hands {r : Region} (modern : r.dialect = .modern) {v : View} {exception : Nat}
    {kept : List Value} (stack : v.stack = .exception exception :: kept) :
    v.run? r.prologue = some { v with
      ip := v.ip + r.prologue.length
      stack := handed v.heap exception r ++ kept } := by
  obtain ⟨routine, ip, _, locals, waiting, heap, handled⟩ := v
  dsimp only at stack
  subst stack
  unfold Region.prologue handed
  rw [modern]
  cases r.lasti <;> rfl

/-- A region of the table, as the analysis has it. -/
theorem Settled.region (settled : Settled plan bound analysis) (modern : plan.dialect = .modern)
    {id : Int64} {r : Region} (found : plan.region? id = some r) :
    ∃ s, Plan.regionIn? analysis.regions id = some s ∧ s ∈ analysis.regions ∧ s.id = r.id ∧
      s.handler = r.handler ∧ s.depth = r.depth ∧ s.lasti = r.lasti ∧ s.prologue = r.prologue := by
  obtain ⟨s, present, later⟩ := regionIn?_later settled.stable.regions found
  have known := (settled.planned.regions r (regionIn?_mem found)).modern modern
  refine ⟨s, present, regionIn?_mem present, later.id, later.handler, later.depth known, later.lasti, ?_⟩
  simp only [Region.prologue, later.dialect, later.lasti, later.scratch]

/-- The protection of the operations of an instruction. -/
theorem Settled.tabled (settled : Settled plan bound analysis) (modern : plan.dialect = .modern)
    {i : Nat} {p : Point} {protection : Option Protection} {r : Region}
    (guarded : Guarded (contextOf plan analysis) (cleanupsOf plan bound analysis) i p protection)
    (found : plan.region? (plan.protecting i) = some r) :
    protection = ((contextOf plan analysis).catch? r.id).map fun label => ⟨label, r.depth⟩ := by
  obtain ⟨s, present, _, id, _, depth, _⟩ := settled.region modern found
  have present : (contextOf plan analysis).region? ((contextOf plan analysis).plan.protecting i) =
      some s := present
  simp only [Guarded, show (contextOf plan analysis).plan.dialect = .modern from modern] at guarded
  rw [guarded, present, Option.bind_some, id, depth]

theorem Settled.untabled (settled : Settled plan bound analysis)
    (modern : plan.dialect = .modern) {i : Nat} {p : Point} {protection : Option Protection}
    (guarded : Guarded (contextOf plan analysis) (cleanupsOf plan bound analysis) i p protection)
    (missing : plan.region? (plan.protecting i) = none) : protection = none := by
  have absent : (contextOf plan analysis).region? ((contextOf plan analysis).plan.protecting i) =
      none := by
    cases found : (contextOf plan analysis).region? (plan.protecting i) with
    | none => exact found
    | some s =>
      obtain ⟨_, before, _⟩ := regionIn?_earlier settled.stable.regions found
      have before : plan.region? (plan.protecting i) = some _ := before
      rw [missing] at before
      cases before
  simp only [Guarded, show (contextOf plan analysis).plan.dialect = .modern from modern] at guarded
  rw [guarded, absent, Option.bind_none]

/-- Exception tables are realised. All operations of an instruction, and of the prologues in front of
it, are protected by the region that the table has for the instruction, provided that its handler
is reached, else by none; and an instruction with a region whose handler is not reached raises
nothing. An exception goes through the prologue of the handler to the instruction at which the
handler starts, with what the region keeps of the stack, the offset of the raising instruction
where the region asks for it, and the exception; nothing else changes. Without a region, it leaves
the frame. -/
theorem table_dispatch {fn : Function} {l : Lowered} {events : List Lowering.Event}
    (lowered : lower fn = (.ok l, events)) (offsets : OwnOffsets fn)
    (prepared : prepare fn = .ok (plan, bound, analysis)) (modern : plan.dialect = .modern)
    {i first last : Nat} (code : codeOf fn i = some (first, last)) :
    (plan.protecting i ≠ 0 → ∃ r, plan.region? (plan.protecting i) = some r) ∧
    (∀ r, plan.region? (plan.protecting i) = some r → (l.entry? r.handler).isSome →
      ∃ label, (contextOf plan analysis).catch? r.id = some label ∧ ∀ k, first ≤ k → k < last →
        ∃ region, l.routine.regionAt? (Int64.ofNat k) = some region ∧ region.handler = label ∧
          region.depth = r.depth) ∧
    ((∀ r, plan.region? (plan.protecting i) = some r → l.entry? r.handler = none) →
      ∀ k, first ≤ k → k < last → l.routine.regionAt? (Int64.ofNat k) = none) ∧
    ∀ (setup : Setup) (st : Machine.State) (entered : Routine) (args : List Value) (depth : Nat)
      (c : Config) (exception : Nat) (h : Frame) (rest : List Frame), setup.helpers = [] →
      Avoids disturbs setup (.enter st entered args depth) →
      Reaches setup (.enter st entered args depth) c → Raising setup c exception h rest →
      h.routine = l.routine → first ≤ h.ip - 1 → h.ip - 1 < last →
      (∀ r, plan.region? (plan.protecting i) = some r → (l.entry? r.handler).isSome ∧
        (r.depth.toInt.toNat ≤ h.stack.length → ∃ label d,
          (contextOf plan analysis).catch? r.id = some label ∧ Enters setup fn label r c d ∧
          d.waiting = rest ∧ d.frame.routine = l.routine ∧
          d.frame.stack = handed d.state.heap exception r ++
            h.stack.drop (h.stack.length - r.depth.toInt.toNat) ∧
          d.frame.locals = h.locals ∧ d.state.handled = c.state.handled)) ∧
      (l.routine.regionAt? (Int64.ofNat (h.ip - 1)) = none → Leaves setup c exception h rest) := by
  obtain ⟨plan', bound', analysis', lowers⟩ := lower_lowers lowered
  have same := lowers.prepared.symm.trans prepared
  cases same
  have setting := lowers.setting offsets
  have routine : l.routine = routineOf plan bound analysis l.routine.maxDepth := lowers.routine
  obtain ⟨o, p, reached, rfl, rfl⟩ := codeOf_some code prepared
  obtain ⟨protection, guarded, operations⟩ := setting.code reached l.routine.maxDepth
  rw [← routine] at operations
  have known : ∀ {r : Region}, plan.region? (plan.protecting i) = some r →
      ((l.entry? r.handler).isSome ↔ ((contextOf plan analysis).catch? r.id).isSome) := by
    intro r found
    obtain ⟨s, _, member, id, handler, _⟩ := setting.region modern found
    have labelled := setting.labelled.reached s member
    rw [id, handler] at labelled
    rw [labelled, entry_reached offsets lowers r.handler, ← lowers.function]
    rfl
  refine ⟨protecting_exists prepared modern, fun r found entered => ?_, fun unreached k lower upper => ?_, ?_⟩
  · obtain ⟨label, labelled⟩ := Option.isSome_iff_exists.mp ((known found).mp entered)
    refine ⟨label, labelled, fun k lower upper => ?_⟩
    obtain ⟨_, _, _, protects⟩ := operations k lower upper
    rw [setting.tabled modern guarded found, labelled] at protects
    obtain ⟨region, present, same⟩ := Option.map_eq_some_iff.mp protects
    rw [Protection.mk.injEq] at same
    exact ⟨region, present, same.1, same.2⟩
  · obtain ⟨_, _, _, protects⟩ := operations k lower upper
    have none : protection = none := by
      cases found : plan.region? (plan.protecting i) with
      | none => exact setting.untabled modern guarded found
      | some r =>
        have missing := unreached r found
        have uncaught : (contextOf plan analysis).catch? r.id = none := by
          rw [← Option.not_isSome_iff_eq_none, ← known found, missing]
          simp
        rw [setting.tabled modern guarded found, uncaught, Option.map_none]
    rw [none] at protects
    exact Option.map_eq_none_iff.mp protects
  · intro setup st entered args depth c exception h rest plain undisturbed reaches raising own lower upper
    obtain ⟨op, operation, member, protects⟩ := operations _ lower upper
    have protects : protectionOf h = protection := by rw [protectionOf, own, protects]
    have committed : Committed c := reaches.keeps (Committed.step plain) nofun
    have raises : o.opcode.mayRaise = true := by
      obtain ⟨_, _, _, _, _, raised, offered⟩ := raising
      obtain ⟨op', present, risky⟩ := raised.risky plain committed offered
      rw [own, operation] at present
      cases present
      exact code_risks modern risky (member.imp id And.left)
    refine ⟨fun r found => ?_, fun free => ?_⟩
    · obtain ⟨s, present, _, id, place, kept, lasti, prologue⟩ := setting.region modern found
      have protecting : Analysis.protecting? plan analysis i p = some s := by
        simp only [Analysis.protecting?, modern]
        exact present
      obtain ⟨_, _, dialect, _, _, _, _, label, _, _, _, labelled⟩ :=
        setting.handler reached protecting raises
      rw [id] at labelled
      rw [modern] at dialect
      refine ⟨(known found).mpr (by rw [labelled]; rfl), fun enough => ?_⟩
      rw [setting.tabled modern guarded found, labelled, ← kept] at protects
      have room := lowers.room reaches raising own operation
      obtain ⟨ip, heap, enters⟩ := setting.delivers plain reached protecting raises (id ▸ labelled)
        (own.trans routine) protects (kept ▸ enough) room (undisturbed.at reaches) raising prepared
      obtain ⟨d, ⟨runs, starts⟩, leaves⟩ := enters _ (prologue_hands dialect rfl)
      simp only [Config.view, View.mk.injEq] at leaves
      obtain ⟨again, _, stack, locals, waits, same, register⟩ := leaves
      rw [place, prologue] at runs
      rw [place] at starts
      rw [kept, ← same, handed, lasti] at stack
      exact ⟨label, d, labelled, ⟨runs, starts⟩, waits, again.trans own, stack, locals, register⟩
    · apply raising.leaves
      apply receive_unprotected
      rw [protectionOf, own, free, Option.map_none]

private theorem raising_undisturbed : Avoids disturbs {} (.enter bareState (raisingRoutine 0 1) [] 1) :=
  always_avoids (n := 6) rfl

theorem raising_dispatched : ∃ label r d, r.handler = 4 ∧
    Enters {} (raising 0) label r (throwing 0 1) d ∧ d.frame.stack = [.exception 0] ∧
    d.frame.ip = 4 := by
  obtain ⟨l, events, lowered, routine⟩ := raising_lowered
  have checked : lowersTo (raising 0) (fun plan _ _ _ => plan.dialect == .modern &&
      (plan.region? (plan.protecting 1)).any fun r => r.depth == 0 && r.lasti == false && r.handler == 4) =
      true := by decide +kernel
  obtain ⟨plan, bound, analysis, _, _, prepared, _, holds⟩ := lowersTo_spec checked
  simp only [Bool.and_eq_true, beq_iff_eq, Option.any_eq_true] at holds
  obtain ⟨modern, r, found, ⟨depth, lasti⟩, handler⟩ := holds
  have code : codeOf (raising 0) 1 = some (1, 3) := by decide +kernel
  have offsets : OwnOffsets (raising 0) := ⟨by decide, by decide⟩
  obtain ⟨_, _, _, dispatch⟩ := table_dispatch lowered offsets prepared modern code
  obtain ⟨delivers, _⟩ := dispatch {} bareState (raisingRoutine 0 1) [] 1 (throwing 0 1) 0
    _ [] rfl raising_undisturbed (reaches_later {} _ 2)
    ⟨_, _, _, _, _, throwing_raises, .here _ _⟩ routine.symm (by decide) (by decide)
  obtain ⟨label, d, _, enters, _, _, stack, _⟩ :=
    (delivers r found).2 (by rw [depth]; exact Nat.zero_le _)
  obtain ⟨j, stop, index, span⟩ := enters.starts
  refine ⟨label, r, d, handler, enters, ?_, ?_⟩
  · rw [stack, depth, handed, lasti]
    rfl
  · have place : (raising 0).indexOf? 4 = some 2 := by decide +kernel
    have third : spanOf (raising 0) 2 = some (4, 6) := by decide +kernel
    rw [handler, place] at index
    cases index
    rw [third] at span
    simp only [Option.some.injEq, Prod.mk.injEq] at span
    exact span.1.symm

end Lowering.Proofs
