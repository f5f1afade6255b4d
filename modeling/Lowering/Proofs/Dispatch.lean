import Lowering.Proofs.Executions
import Lowering.Proofs.Protection
import Lowering.Proofs.Registers
import Lowering.Proofs.ShapeSafety

/-! Dispatch of exceptions in the frames of a lowered function: what a step that raises leads to, and
how control gets from the label of a handler through its prologue to the instruction at which the
handler starts. -/

namespace Lowering.Proofs
open Machine Host Shape Guest Emission

variable {setup : Setup} {c : Config} {exception : Nat} {h : Frame} {rest : List Frame}

/-- The next step raises an exception, and it is offered to a frame: the one that executes, or one
that waits and whose callees do not catch it. -/
def Raising (setup : Setup) (c : Config) (exception : Nat) (h : Frame) (rest : List Frame) : Prop :=
  ∃ o st f st' g, Raises setup c o st f st' g exception ∧ Offered exception g c.waiting h rest

/-- Setting the register does not raise. -/
theorem Raises.other {o : Operation} {st st' : Machine.State} {f g : Frame}
    (raises : Raises setup c o st f st' g exception) : o ≠ .setHandled := by
  rintro rfl
  have within := raises.executed
  unfold execute at within
  dsimp only at within
  split at within
  · cases within
  · split at within
    · cases within
    · unfold perform at within
      cases top : f.stack <;> simp only [top] at within <;> cases within

theorem deliver_handled (st : Machine.State) (exception : Nat) (f : Frame) (callers : List Frame) :
    (deliver st exception f callers).1.handled = st.handled := by
  obtain ⟨_, _, _, _, _, _, kept, ⟨_, _, same⟩ | ⟨_, _, same⟩ | ⟨_, _, same⟩⟩ :=
    deliver_cases st exception f callers
  all_goals
    rw [same]
    exact kept

private theorem resume_handled (st : Machine.State) (v : Value) (callers : List Frame) (f : Frame) :
    (resume st v callers f).1.handled = st.handled := by
  unfold resume
  split
  · rfl
  · split
    · next caller _ _ inv _ =>
      have same := pushResults_state st caller inv [v]
      split <;> (next pushed => rw [pushed] at same; exact congrArg State.handled same)
    · rfl

theorem settle_handled (setup : Setup) (st : Machine.State) (callers : List Frame) (effect : Effect) :
    (settle setup st callers effect).1.handled = st.handled := by
  cases effect with
  | next | enter => rfl
  | raise f exception => exact deliver_handled st exception f callers
  | finish f ending =>
    cases ending with
    | returned v =>
      simp only [settle]
      split
      · rfl
      · split
        · next asked => exact (notifyReturn_keeps asked).2.2
        · next asked => exact (resume_handled _ v callers f).trans (notifyReturn_keeps asked).2.2
    | thrown | fellThrough | exited | failed => rfl

theorem step_register (plain : setup.helpers = [])
    (other : c.frame.routine.ops[c.frame.ip]? ≠ some .setHandled) :
    (Machine.step setup c.state c.frame c.waiting).1.handled = c.state.handled := by
  rcases step_cases setup c with ⟨_, _, _, stopped, _, _, same⟩ | ⟨o, st, f, issued, stepped⟩
  · rw [stopped]
    exact same
  · have quiet : o ≠ .setHandled := fun sets => other (sets ▸ issued.operation)
    have done : execute setup st f o = ((execute setup st f o).1, (execute setup st f o).2) := rfl
    rw [stepped, settle_handled, execute_standard plain done quiet, issued.handled]

/-- An exception that is caught leaves the register alone. -/
theorem Raising.caught (plain : setup.helpers = []) (raising : Raising setup c exception h rest)
    {g : Frame} (received : receive exception h = .caught g) : ∃ d, Goes setup c d ∧ d.frame = g ∧
      d.waiting = rest ∧ d.state.handled = c.state.handled := by
  obtain ⟨o, st, f, st', _, raises, offered⟩ := raising
  obtain ⟨last, delivered, _, handled⟩ := offered.caught received st'
  refine ⟨⟨last, g, rest⟩, raises.step.trans delivered, rfl, rfl, ?_⟩
  rw [handled, execute_standard plain raises.executed raises.other, raises.issued.handled]

theorem Raising.failed (raising : Raising setup c exception h rest) {fault : Machine.Fault}
    (received : receive exception h = .failed fault) :
    ∃ st, Machine.step setup c.state c.frame c.waiting = (st, .ended h (.failed fault)) := by
  obtain ⟨o, st, f, st', _, raises, offered⟩ := raising
  obtain ⟨last, delivered⟩ := offered.failed received st'
  exact ⟨last, raises.step.trans delivered⟩

/-- The exception leaves the frame that it is offered to: it is offered to the one that waits for this
frame, or it ends the run. -/
def Leaves (setup : Setup) (c : Config) (exception : Nat) (h : Frame) : List Frame → Prop
  | [] => ∃ st, Machine.step setup c.state c.frame c.waiting = (st, .ended h (.thrown exception))
  | caller :: callers => Raising setup c exception caller callers

private theorem Offered.further {f g caller : Frame} {callers others : List Frame}
    (offered : Offered exception f callers g (caller :: others))
    (passed : receive exception g = .passed) : Offered exception f callers caller others := by
  generalize same : caller :: others = left at offered
  induction offered with
  | here f callers =>
    subst same
    exact .passed passed (.here _ _)
  | passed unprotected _ ih => exact .passed unprotected (ih passed same)

private theorem Offered.thrown {f g : Frame} {callers : List Frame}
    (offered : Offered exception f callers g []) (passed : receive exception g = .passed)
    (st : Machine.State) :
    ∃ st', deliver st exception f callers = (st', .ended g (.thrown exception)) := by
  generalize none : ([] : List Frame) = left at offered
  induction offered generalizing st with
  | here f callers =>
    subst none
    exact ⟨_, by rw [deliver, passed]⟩
  | passed unprotected _ ih =>
    rw [deliver, unprotected]
    exact ih passed _ none

theorem Raising.leaves (raising : Raising setup c exception h rest)
    (passed : receive exception h = .passed) : Leaves setup c exception h rest := by
  obtain ⟨o, st, f, st', g, raises, offered⟩ := raising
  cases rest with
  | nil =>
    obtain ⟨last, ended⟩ := offered.thrown passed st'
    exact ⟨last, raises.step.trans ended⟩
  | cons caller callers => exact ⟨o, st, f, st', g, raises, offered.further passed⟩

/-- The protection that the operation has which a frame executed last. -/
def protectionOf (f : Frame) : Option Protection :=
  (f.routine.regionAt? (Int64.ofNat (f.ip - 1))).map fun region => ⟨region.handler, region.depth⟩

theorem receive_unprotected (free : protectionOf h = none) (exception : Nat) :
    receive exception h = .passed := by
  have none : h.routine.regionAt? (Int64.ofNat (h.ip - 1)) = none := Option.map_eq_none_iff.mp free
  simp only [receive, none]

theorem receive_protected {handler : Label} {depth : Int64} {target : Nat}
    (protection : protectionOf h = some ⟨handler, depth⟩)
    (defined : h.routine.labelIndex? handler = some target) (positive : 0 ≤ depth)
    (kept : depth ≤ Int64.ofNat h.stack.length) (room : h.stack.length ≤ maxStackDepth)
    (exception : Nat) : receive exception h = .caught { h with
      ip := target
      stack := .exception exception :: h.stack.drop (h.stack.length - depth.toInt.toNat) } := by
  obtain ⟨region, found, same⟩ := Option.map_eq_some_iff.mp protection
  cases same
  exact receive_kept found defined positive kept room exception

variable {plan : Plan} {bound : Array Bound} {analysis : Analysis.State} {maxDepth : Int64}

/-- A frame of a lowered routine that is offered an exception has room for it. -/
theorem Lowers.room {fn : Function} {l : Lowered} (lowers : Lowers fn l plan bound analysis)
    {st : Machine.State} {entered : Routine} {args : List Value} {depth : Nat}
    (reached : Reaches setup (.enter st entered args depth) c)
    (raising : Raising setup c exception h rest) (own : h.routine = l.routine)
    {o : Operation} (operation : l.routine.ops[h.ip - 1]? = some o) :
    h.stack.length ≤ maxStackDepth := by
  obtain ⟨depths, walked⟩ := lowers.depths
  obtain ⟨_, _, _, _, _, raises, offered⟩ := raising
  have some : l.routine.ops.isEmpty = false := by
    have inside := (Array.getElem?_eq_some_iff.mp operation).1
    simp only [Array.isEmpty, decide_eq_false_iff_not]
    omega
  obtain ⟨levelled, roomy⟩ := lowers.keeps some walked reached
  exact (raises.roomy (fun inv => lowers.results) levelled roomy offered own).1

/-- The code of an instruction in the routine of its function, with the prologues in front of it: the
index of the first operation, and the index after the last one. -/
def codeOf (fn : Function) (i : Nat) : Option (Nat × Nat) :=
  match prepare fn with
  | .error _ => none
  | .ok (plan, bound, analysis) =>
    let c := contextOf plan analysis
    let before := stage c (labelledHandlers plan analysis).1 bound i
    match bound[i]?, analysis.point? i with
    | some o, some p => some (before.1.builder.size, (instruction c before.1 i o p before.2).builder.size)
    | _, _ => none

theorem codeOf_reached {fn : Function} (prepared : prepare fn = .ok (plan, bound, analysis)) {i : Nat}
    {o : Bound} {p : Point} (reached : Reached bound analysis i o p) :
    codeOf fn i = some (leadStart plan bound analysis i, leadStart plan bound analysis (i + 1)) := by
  obtain ⟨found, point⟩ := reached
  have known : (contextOf plan analysis).analysis.point? i = some p := point
  unfold codeOf
  rw [prepared]
  dsimp only
  rw [found, point]
  simp only [leadStart, place, Builder.size]
  rw [stage, found]
  dsimp only
  rw [known]

theorem codeOf_some {fn : Function} {i first last : Nat} (code : codeOf fn i = some (first, last))
    (prepared : prepare fn = .ok (plan, bound, analysis)) :
    ∃ o p, Reached bound analysis i o p ∧ first = leadStart plan bound analysis i ∧
      last = leadStart plan bound analysis (i + 1) := by
  have looked := code
  unfold codeOf at looked
  rw [prepared] at looked
  dsimp only at looked
  cases found : bound[i]? with
  | none =>
    rw [found] at looked
    cases looked
  | some o =>
    cases point : analysis.point? i with
    | none =>
      rw [found, point] at looked
      cases looked
    | some p =>
      have reached : Reached bound analysis i o p := ⟨found, point⟩
      rw [codeOf_reached prepared reached] at code
      cases code
      exact ⟨o, p, reached, rfl, rfl⟩

/-- An operation of the code of an instruction, and its protection. -/
theorem Setting.code (setting : Setting plan bound analysis) {i : Nat} {o : Bound} {p : Point}
    (reached : Reached bound analysis i o p) (maxDepth : Int64) : ∃ protection,
      Guarded (contextOf plan analysis) (cleanupsOf plan bound analysis) i p protection ∧
      ∀ k, leadStart plan bound analysis i ≤ k → k < leadStart plan bound analysis (i + 1) →
        ∃ op, (routineOf plan bound analysis maxDepth).ops[k]? = some op ∧
          (op ∈ leadAt plan bound analysis i o ∨ op ∈ ownAt plan bound analysis i o p ∧
            ownStart plan bound analysis i o ≤ k) ∧
          ((routineOf plan bound analysis maxDepth).regionAt? (Int64.ofNat k)).map (fun region =>
            (⟨region.handler, region.depth⟩ : Protection)) = protection := by
  obtain ⟨next, protection, guarded, leads, owns⟩ := setting.instruction reached maxDepth
  refine ⟨protection, guarded, fun k first last => ?_⟩
  by_cases front : k < ownStart plan bound analysis i o
  · obtain ⟨m, rfl⟩ := Nat.exists_eq_add_of_le first
    have inside : m < (leadAt plan bound analysis i o).length := by
      rw [ownStart] at front
      omega
    obtain ⟨operation, _, protects⟩ := leads m _ (List.getElem?_eq_getElem inside)
    exact ⟨_, operation, .inl (List.getElem_mem inside), protects⟩
  · obtain ⟨m, rfl⟩ := Nat.exists_eq_add_of_le (Nat.not_lt.mp front)
    have inside : m < (ownAt plan bound analysis i o p).length := by omega
    obtain ⟨operation, _, protects⟩ := owns m _ (List.getElem?_eq_getElem inside)
    exact ⟨_, operation, .inr ⟨List.getElem_mem inside, Nat.le_add_right _ _⟩, protects⟩

/-- Prologues never raise. -/
theorem lead_quiet {context : Context} {offset : Int64} {falls : Bool} {regions : List Region}
    {op : Operation} (member : op ∈ lead context offset falls regions) : risks op = false := by
  rcases mem_lead member with rfl | ⟨r, _, rfl | own⟩
  · rfl
  · rfl
  · unfold Region.prologue at own
    split at own
    · simp only [List.mem_cons, List.not_mem_nil, or_false] at own
      rcases own with rfl | rfl | rfl | rfl | rfl | rfl | rfl | rfl | rfl <;> rfl
    · split at own
      · simp only [List.mem_cons, List.not_mem_nil, or_false] at own
        rcases own with rfl | rfl | rfl <;> rfl
      · cases own

theorem Setting.labelled (setting : Setting plan bound analysis) :
    Labelled (contextOf plan analysis) :=
  (labelledHandlers_labelling setting.numbered).labelled setting.numbered

/-- A handler to which an edge leads is reached, and has a label. -/
theorem Setting.catches (setting : Setting plan bound analysis) {r : Region}
    (member : r ∈ analysis.regions) {q : Point}
    (covers : Covers analysis (Analysis.indexOf plan.function r.handler) q) :
    ∃ j o p label, plan.function.indexOf? r.handler = some j ∧ Reached bound analysis j o p ∧
      o.inst.offset = r.handler ∧ p.blocks = q.blocks ∧
      (contextOf plan analysis).catch? r.id = some label := by
  have somewhere := (setting.stable.placing setting.planned member).handler
  obtain ⟨o, p, there, place, _⟩ := setting.offset somewhere covers
  obtain ⟨_, point, blocks, _⟩ := covers
  have known := there.point.symm.trans point
  cases known
  obtain ⟨j, index⟩ := Option.isSome_iff_exists.mp somewhere
  have same : Analysis.indexOf plan.function r.handler = j := by simp [Analysis.indexOf, index]
  rw [same] at there
  have known : Emission.reached plan.function analysis r.handler = true := by
    simp [Emission.reached, index, there.point]
  obtain ⟨label, found⟩ :=
    Option.isSome_iff_exists.mp ((setting.labelled.reached r member).mpr known)
  exact ⟨j, o, p, label, index, there, place, blocks, found⟩

/-- A handler that an instruction raises to is reached, and has a label. -/
theorem Setting.handler (setting : Setting plan bound analysis) {i : Nat} {o : Bound} {p : Point}
    (reached : Reached bound analysis i o p) {r : Region}
    (protects : Analysis.protecting? plan analysis i p = some r) (raises : o.opcode.mayRaise = true) :
    r ∈ analysis.regions ∧ 0 ≤ r.depth ∧ r.dialect = plan.dialect ∧ r.handler ∈ analysis.targets ∧
      ∃ j o' q label, plan.function.indexOf? r.handler = some j ∧ Reached bound analysis j o' q ∧
        o'.inst.offset = r.handler ∧ (contextOf plan analysis).catch? r.id = some label := by
  obtain ⟨_, rooted, _⟩ := setting.stable.sane i p reached.point
  obtain ⟨member, positive, dialect, _⟩ :=
    protecting?_spec setting.planned setting.stable.regions rooted protects
  obtain ⟨_, edge⟩ :=
    (setting.stable.processed i o p reached.found reached.point).raises r protects
  obtain ⟨target, _, covers⟩ := edge raises
  obtain ⟨j, o', q, label, index, there, place, _, found⟩ := setting.catches member covers
  exact ⟨member, positive, dialect, target, j, o', q, label, index, there, place, found⟩

/-- A raise leads to the label of a handler, through its prologue, and to the instruction at which the
handler starts; where other prologues follow, control jumps over them. -/
structure Enters (setup : Setup) (fn : Function) (label : Label) (r : Region) (c d : Config) : Prop where
  runs : ∃ arrived skip, Goes setup c arrived ∧ (skip = [] ∨ skip = [Operation.goto r.handler]) ∧
    Executes setup (.label label :: (r.prologue ++ skip)) arrived d
  starts : ∃ j stop, fn.indexOf? r.handler = some j ∧ spanOf fn j = some (d.frame.ip, stop)

theorem prologue_straight {r : Region} {o : Operation} (member : o ∈ r.prologue) :
    o.terminates = false ∧ o.target? = none ∧ ∀ label, o ≠ .label label := by
  unfold Region.prologue at member
  split at member
  · simp only [List.mem_cons, List.not_mem_nil, or_false] at member
    rcases member with rfl | rfl | rfl | rfl | rfl | rfl | rfl | rfl | rfl <;> exact ⟨rfl, rfl, nofun⟩
  · split at member
    · simp only [List.mem_cons, List.not_mem_nil, or_false] at member
      rcases member with rfl | rfl | rfl <;> exact ⟨rfl, rfl, nofun⟩
    · cases member

theorem prologue_length (r : Region) : r.prologue.length ≤ 9 := by
  unfold Region.prologue
  split
  · exact Nat.le_refl _
  · split <;> decide

/-- A run at the label of a handler goes through the prologue to the instruction at which the handler
starts. -/
theorem Setting.arrives (setting : Setting plan bound analysis) (plain : setup.helpers = [])
    {r : Region} (member : r ∈ analysis.regions) (listed : r.handler ∈ analysis.targets) {label : Label}
    (labelled : (contextOf plan analysis).catch? r.id = some label) {j : Nat} {o : Bound} {q : Point}
    (target : Reached bound analysis j o q) (place : o.inst.offset = r.handler) {v w : View}
    (undisturbed : Avoids disturbs setup c) (view : c.view = v)
    (own : v.routine = routineOf plan bound analysis maxDepth)
    (here : v.routine.labelIndex? label = some v.ip)
    (ran : View.run? { v with ip := v.ip + 1 } r.prologue = some w)
    (small : v.stack.length < 2 ^ 61) :
    ∃ skip d, (skip = [] ∨ skip = [Operation.goto r.handler]) ∧
      Executes setup (.label label :: (r.prologue ++ skip)) c d ∧ Avoids disturbs setup d ∧
      d.view = { w with ip := ownStart plan bound analysis j o } := by
  obtain ⟨before, others, split, first⟩ := setting.prologue member labelled target place maxDepth
  obtain ⟨_, protection, _, stands, owns⟩ := setting.instruction target maxDepth
  rw [own, first, Option.some.injEq] at here
  -- The prologue with its label is a straight piece of the code in front of the instruction.
  have straight : ∀ o ∈ .label label :: r.prologue, o.terminates = false := by
    intro o listed
    rcases List.mem_cons.mp listed with rfl | inside
    · rfl
    · exact (prologue_straight inside).1
  have standing : Stands (routineOf plan bound analysis maxDepth) v.ip
      ((.label label :: r.prologue) ++ lead (contextOf plan analysis) o.inst.offset true others)
      o.inst.offset protection := by
    rw [split] at stands
    exact here ▸ stands.append.2
  have through : v.run? (.label label :: r.prologue) = some w := ran
  have short := prologue_length r
  obtain ⟨d, executes, still, leaves⟩ := undisturbed.executes plain view through straight
    (by rw [List.length_cons]; omega) fun m op found => by
      rw [own]
      exact (standing.append.1 m op found).1
  obtain ⟨same, ip, deep⟩ := View.run?_falls through straight
  rw [List.length_cons] at ip deep
  cases others with
  | nil =>
    refine ⟨[], d, .inl rfl, by simpa using executes, still, ?_⟩
    have start : ownStart plan bound analysis j o = w.ip := by
      rw [ownStart, split, ip, ← here]
      simp only [lead, List.append_nil, List.length_append, List.length_cons]
      omega
    rw [leaves, start]
  | cons s others =>
    have jump : (routineOf plan bound analysis maxDepth).ops[w.ip]? =
        some (Operation.goto r.handler) := by
      rw [ip]
      exact (standing.append.2 0 (.goto r.handler) (by simp [lead, place])).1
    have goal : (routineOf plan bound analysis maxDepth).labelIndex? r.handler =
        some (ownStart plan bound analysis j o) := by
      rw [← place] at listed ⊢
      exact setting.marked target listed
    obtain ⟨e, jumps, last, ends⟩ := still.steps plain leaves (o := .goto r.handler)
      (w := { w with ip := ownStart plan bound analysis j o })
      (by rw [same, own]; exact jump) (by simp [View.after?, same, own, goal]) (by omega)
    exact ⟨_, e, .inr rfl, by simpa using executes.append jumps, last, ends⟩

/-- An exception of an instruction that is caught enters the handler, with what the prologue leaves of
the part of the stack that its region keeps and the exception. -/
theorem Setting.delivers (setting : Setting plan bound analysis) (plain : setup.helpers = [])
    {i : Nat} {o : Bound} {p : Point} (reached : Reached bound analysis i o p) {r : Region}
    (protects : Analysis.protecting? plan analysis i p = some r) (raises : o.opcode.mayRaise = true)
    {label : Label} (labelled : (contextOf plan analysis).catch? r.id = some label)
    (own : h.routine = routineOf plan bound analysis maxDepth)
    (protection : protectionOf h = some ⟨label, r.depth⟩)
    (enough : r.depth.toInt.toNat ≤ h.stack.length) (room : h.stack.length ≤ maxStackDepth)
    (undisturbed : Avoids disturbs setup c) (raising : Raising setup c exception h rest)
    {fn : Function} (prepared : prepare fn = .ok (plan, bound, analysis)) :
    ∃ ip heap, ∀ w, View.run? ⟨h.routine, ip,
        .exception exception :: h.stack.drop (h.stack.length - r.depth.toInt.toNat), h.locals, rest,
        heap, c.state.handled⟩ r.prologue = some w →
      ∃ d, Enters setup fn label r c d ∧ d.view = { w with ip := d.frame.ip } := by
  obtain ⟨member, positive, _, listed, j, o', q, _, index, target, place, _⟩ :=
    setting.handler reached protects raises
  rw [(prepare_planned prepared).1] at index
  obtain ⟨before, _, _, defined⟩ := setting.prologue member labelled target place maxDepth
  rw [← own] at defined
  have kept : r.depth ≤ Int64.ofNat h.stack.length := by
    simp only [maxStackDepth] at room
    exact Int64.not_lt.mp (ofNat_not_lt (by omega) (by omega))
  obtain ⟨arrived, goes, frame, waiting, handled⟩ :=
    raising.caught plain (receive_protected protection defined positive kept room exception)
  have view : arrived.view = ⟨h.routine, leadStart plan bound analysis j + before.length,
      .exception exception :: h.stack.drop (h.stack.length - r.depth.toInt.toNat), h.locals, rest,
      arrived.state.heap, c.state.handled⟩ := by
    simp only [Config.view, frame, waiting, handled]
  refine ⟨leadStart plan bound analysis j + before.length + 1, arrived.state.heap, fun w ran => ?_⟩
  obtain ⟨skip, d, short, executes, _, leaves⟩ := setting.arrives plain member listed labelled target
    place (undisturbed.after goes) view own defined ran (by
      simp only [List.length_cons, List.length_drop, maxStackDepth] at room ⊢
      omega)
  have ip : d.frame.ip = ownStart plan bound analysis j o' := by
    have seen := congrArg View.ip leaves
    exact seen
  refine ⟨d, ⟨⟨arrived, skip, goes, short, executes⟩, j, leadStart plan bound analysis (j + 1), index,
    ?_⟩, by rw [ip]; exact leaves⟩
  rw [ip]
  exact spanOf_reached prepared target

end Lowering.Proofs
