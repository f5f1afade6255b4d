import Lowering.Proofs.Observation

/-! Steps that are told when execution moves on. An observer that asks for these is told of every operation
whose offset is not that of the operation executed before it, in whatever frame and run. That is less than
every operation that starts a run or belongs to another instruction than the one before: an instruction is
left out when control comes to it from another frame, or from an earlier run, and the offsets happen to be
the same. -/

namespace Lowering.Proofs
open Machine Host

/-- An operation that a run executes. -/
structure Executed where
  /-- The first one of a run has the number one. -/
  number : Nat
  /-- The frame that executes it: those of a run are numbered in the order in which they are entered. -/
  frame : Nat
  index : Nat
  operation : String
  origin : Int64
  stackDepth : Nat
  frameDepth : Nat

/-- What an observer is told of an operation. -/
def Executed.event (e : Executed) : Machine.Event :=
  .step e.index e.operation e.origin e.stackDepth e.frameDepth

/-- The numbers of the frames that are under way, the nearest first, and how many frames were entered. -/
structure Underway where
  frames : List Nat
  entered : Nat

/-- The frames that are under way when so many wait after a step, and so many waited before it: one more
is a new frame, and otherwise the nearest ones may be gone. -/
def Underway.after (u : Underway) (before after : Nat) : Underway :=
  if before < after then ⟨u.entered :: u.frames, u.entered + 1⟩
  else { u with frames := u.frames.drop (before - after) }

/-- The frames that are under way have numbers of their own. -/
structure Underway.Counts (u : Underway) (c : Config) : Prop where
  length : u.frames.length = c.waiting.length + 1
  entered : ∀ n ∈ u.frames, n < u.entered
  distinct : u.frames.Nodup

theorem beginning_counts (setup : Setup) (st : State) (routine : Routine) (args : List Value) :
    Underway.Counts ⟨[0], 1⟩ (beginning setup st routine args) :=
  ⟨rfl, by simp, by simp⟩

/-- A step goes on in its frame, enters a new one, or goes back to one that waits; and it goes on in the
frame of the same number exactly if the same frames wait. -/
theorem Goes.counts {setup : Setup} {c d : Config} (goes : Goes setup c d) {u : Underway}
    (counts : u.Counts c) :
    (u.after c.waiting.length d.waiting.length).Counts d ∧
      ((u.after c.waiting.length d.waiting.length).frames.head? = u.frames.head? ↔
        d.waiting = c.waiting) := by
  obtain ⟨length, entered, distinct⟩ := counts
  obtain ⟨n, frames, same⟩ := List.exists_cons_of_length_eq_add_one length
  have moved : d.waiting = c.waiting ∨ d.waiting.length < c.waiting.length ∨
      ∃ g, d.waiting = g :: c.waiting := by
    obtain ⟨o, st, f, _, move⟩ := goes_cases goes
    cases move with
    | next _ same => exact .inl same
    | enter _ below => exact .inr (.inr ⟨_, below⟩)
    | back _ below => exact .inr (.inl (by rw [below]; exact Nat.lt_succ_self _))
    | raise _ offered =>
      rcases Nat.lt_or_ge d.waiting.length c.waiting.length with fewer | inside
      · exact .inr (.inl fewer)
      · exact .inl (offered.stays inside).2
  rcases moved with kept | fewer | ⟨g, more⟩
  · have after : u.after c.waiting.length d.waiting.length = u := by simp [Underway.after, kept]
    rw [after]
    exact ⟨⟨kept ▸ length, entered, distinct⟩, by simp [kept]⟩
  · obtain ⟨gone, rest⟩ := Nat.exists_eq_add_of_lt fewer
    have after : u.after c.waiting.length d.waiting.length = { u with frames := frames.drop gone } := by
      have dropped : c.waiting.length - d.waiting.length = gone + 1 := by omega
      rw [Underway.after, if_neg (by omega), dropped, same, List.drop_succ_cons]
    rw [same, List.length_cons] at length
    rw [same] at entered distinct ⊢
    obtain ⟨outside, others⟩ := List.nodup_cons.mp distinct
    rw [after]
    refine ⟨⟨by rw [List.length_drop]; omega, ?_, others.sublist (List.drop_sublist _ _)⟩,
      fun head => ?_, fun all => ?_⟩
    · exact fun m member => entered m (.tail _ (List.mem_of_mem_drop member))
    · exact absurd (List.mem_of_mem_drop (List.mem_of_mem_head? head)) outside
    · exact absurd (congrArg List.length all) (Nat.ne_of_lt fewer)
  · have after : u.after c.waiting.length d.waiting.length = ⟨u.entered :: u.frames, u.entered + 1⟩ :=
      if_pos (by rw [more]; exact Nat.lt_succ_self _)
    rw [after]
    refine ⟨⟨by rw [more, List.length_cons, List.length_cons, length], ?_,
      List.nodup_cons.mpr ⟨fun member => Nat.lt_irrefl _ (entered _ member), distinct⟩⟩,
      fun head => ?_, fun all => ?_⟩
    · intro m member
      rcases List.mem_cons.mp member with rfl | old
      · exact Nat.lt_succ_self _
      · exact Nat.lt_succ_of_lt (entered m old)
    · exact absurd (entered _ (List.mem_of_mem_head? head.symm)) (Nat.lt_irrefl _)
    · rw [more] at all
      exact absurd (congrArg List.length all) (Nat.succ_ne_self _)

/-- The operation that is executed next. -/
def Config.executed? (setup : Setup) (u : Underway) (c : Config) : Option Executed :=
  (c.issued? setup).map fun (o, st, f) =>
    let index := f.ip - 1
    ⟨st.steps, u.frames.headD 0, index, st.heap.operationText o, f.routine.origin index, f.stack.length,
      f.depth⟩

/-- The operations that are executed in so many steps. -/
def executions (setup : Setup) : Nat → Underway → Config → List Executed
  | 0, _, _ => []
  | fuel + 1, u, c =>
    match c.executed? setup u with
    | none => []
    | some e =>
      e :: match step setup c.state c.frame c.waiting with
        | (state, .running frame waiting) =>
          executions setup fuel (u.after c.waiting.length waiting.length) ⟨state, frame, waiting⟩
        | (_, .ended ..) => []

theorem history_executed (setup : Setup) (fuel : Nat) (u : Underway) (c : Config) :
    numberedSteps (history setup fuel c) =
      (executions setup fuel u c).map fun e => (e.event, e.number) := by
  induction fuel generalizing u c with
  | zero => rfl
  | succ fuel ih =>
    rw [history, numbered_append, executions, Config.executed?]
    cases issued : c.issued? setup with
    | none =>
      obtain ⟨_, _, _, ended, _⟩ := step_stopped issued
      rw [ended, Config.happens, issued]
      rfl
    | some next =>
      obtain ⟨o, st, f⟩ := next
      rw [numbered_happens issued]
      rcases step setup c.state c.frame c.waiting with ⟨state, ⟨frame, waiting⟩ | ⟨g, ending⟩⟩
      · rw [ih (u.after c.waiting.length waiting.length)]
        rfl
      · rfl

private theorem Underway.Counts.nearest {setup : Setup} {u : Underway} {c : Config} (counts : u.Counts c)
    {e : Executed} (executed : c.executed? setup u = some e) : u.frames.head? = some e.frame := by
  obtain ⟨next, _, rfl⟩ := Option.map_eq_some_iff.mp executed
  obtain ⟨n, frames, same⟩ := List.exists_cons_of_length_eq_add_one counts.length
  simp [same]

private theorem executions_head {setup : Setup} {fuel : Nat} {u : Underway} {c : Config} {e : Executed}
    (first : e ∈ (executions setup fuel u c).head?) : c.executed? setup u = some e := by
  cases fuel with
  | zero => cases first
  | succ fuel =>
    rw [executions] at first
    cases executed : c.executed? setup u with
    | none =>
      rw [executed] at first
      cases first
    | some e' =>
      rw [executed] at first
      exact first

private theorem Underway.Counts.executions {setup : Setup} {u : Underway} {c : Config}
    (counts : u.Counts c) (fuel : Nat) : (executions setup fuel u c).IsChain fun e e' =>
      ∃ v d w d', d.executed? setup v = some e ∧ Goes setup d d' ∧ d'.executed? setup w = some e' ∧
        (e'.frame = e.frame ↔ d'.waiting = d.waiting) := by
  induction fuel generalizing u c with
  | zero => exact .nil
  | succ fuel ih =>
    rw [Proofs.executions]
    cases executed : c.executed? setup u with
    | none => exact .nil
    | some e =>
      dsimp only
      split
      next state frame waiting goes =>
        obtain ⟨counted, same⟩ := Goes.counts (d := ⟨state, frame, waiting⟩) goes counts
        refine List.isChain_cons.mpr ⟨fun e' next => ?_, ih counted⟩
        have following := executions_head next
        rw [counts.nearest executed, counted.nearest following, Option.some.injEq] at same
        exact ⟨_, _, _, ⟨state, frame, waiting⟩, executed, goes, following, same⟩
      next => exact .singleton _

/-- Of two operations that a run executes one after the other, both are executed by the same frame exactly if
the step between them left the same frames waiting: it called nothing, and nothing returned or was raised to
a caller. -/
theorem run_frames (setup : Setup) (fuel : Nat) (st : State) (routine : Routine) (args : List Value) :
    (executions setup fuel ⟨[0], 1⟩ (beginning setup st routine args)).IsChain fun e e' =>
      ∃ v d w d', d.executed? setup v = some e ∧ Goes setup d d' ∧ d'.executed? setup w = some e' ∧
        (e'.frame = e.frame ↔ d'.waiting = d.waiting) :=
  (beginning_counts setup st routine args).executions fuel

/-- A run of a session: a routine is run with arguments, for so many steps. -/
structure Turn where
  fuel : Nat
  routine : Routine
  args : List Value

/-- The machine after some runs, one after the other. -/
def session (setup : Setup) (st : State) : List Turn → State
  | [] => st
  | turn :: later => session setup (start setup turn.fuel st turn.routine turn.args).1 later

/-- The operations that are executed in a session. -/
def sessionExecutions (setup : Setup) (st : State) : List Turn → List Executed
  | [] => []
  | turn :: later =>
    executions (unobserved setup) turn.fuel ⟨[0], 1⟩
        (beginning (unobserved setup) st turn.routine turn.args) ++
      sessionExecutions setup (start setup turn.fuel st turn.routine turn.args).1 later

/-- What happens in a session. -/
def sessionLog (setup : Setup) (st : State) : List Turn → List Happening
  | [] => []
  | turn :: later => chronicle (unobserved setup) turn.fuel st turn.routine turn.args ++
      sessionLog setup (start setup turn.fuel st turn.routine turn.args).1 later

theorem sessionLog_executed (setup : Setup) (st : State) (turns : List Turn) :
    numberedSteps (sessionLog setup st turns) =
      (sessionExecutions setup st turns).map fun e => (e.event, e.number) := by
  induction turns generalizing st with
  | nil => rfl
  | cons turn later ih =>
    have first : numberedSteps (chronicle (unobserved setup) turn.fuel st turn.routine turn.args) =
        numberedSteps (history (unobserved setup) turn.fuel
          (beginning (unobserved setup) st turn.routine turn.args)) := rfl
    rw [sessionLog, sessionExecutions, numbered_append, List.map_append, first, ih, history_executed]

theorem session_seen {setup : Setup} (lenient : Lenient setup) (confined : Confined setup) (st : State)
    (turns : List Turn) :
    (⟨(session setup st turns).trace, (session setup st turns).lastOrigin⟩ : Sight) =
      Sight.after setup ⟨st.trace, st.lastOrigin⟩ (sessionLog setup st turns) := by
  induction turns generalizing st with
  | nil => rfl
  | cons turn later ih =>
    have shows := congrArg Prod.fst (start_lenient lenient confined turn.fuel st turn.routine turn.args)
    rw [session, sessionLog, Sight.after_append, ih]
    congr 1
    rw [shows]
    rfl

/-- The steps at which the offset is another one than before. -/
private def changes : Int64 → List (Machine.Event × Nat) → List Machine.Event
  | last, (.step index operation origin stackDepth frameDepth, _) :: later =>
    if origin = last then changes last later
    else .step index operation origin stackDepth frameDepth :: changes origin later
  | last, _ :: later => changes last later
  | _, [] => []

private theorem after_changes {setup : Setup} {o : Observer} (observed : setup.observer = some o)
    (mode : o.mode = .onOrigin) (records : o.records = true) (seen : Sight)
    (happened : List Happening) :
    (seen.after setup happened).trace.events.toList.filter Event.isStep =
      seen.trace.events.toList.filter Event.isStep ++ changes seen.origin (numberedSteps happened) := by
  have pushed : ∀ (seen : Sight) e,
      (seen.shown o e).trace.events.toList = seen.trace.events.toList ++ [e] := by
    intro seen e
    simp [Sight.shown, Trace.report, records]
  induction happened generalizing seen with
  | nil => simp [Sight.after, numberedSteps, changes]
  | cons h happened ih =>
    have further : seen.after setup (h :: happened) = (seen.watch setup h).after setup happened := rfl
    rw [further, ih]
    cases h with
    | stepped number index operation origin stackDepth frameDepth =>
      simp only [Sight.watch, observed, mode, numberedSteps, List.filterMap_cons, Happening.step?, changes,
        beq_iff_eq]
      split
      next => rfl
      next =>
        simp only [pushed, List.filter_append, List.append_assoc]
        rfl
    | called name argCount depth =>
      simp only [Sight.watch, observed]
      split
      · simp only [pushed, List.filter_append, List.append_assoc]
        rfl
      · rfl
    | returned name depth =>
      simp only [Sight.watch, observed]
      split
      · simp only [pushed, List.filter_append, List.append_assoc]
        rfl
      · rfl
    | left name => rfl

/-- Operations, each with the one that was executed before it. -/
def preceded (before : Option Executed) : List Executed → List (Option Executed × Executed)
  | [] => []
  | e :: later => (before, e) :: preceded (some e) later

/-- Execution moves on to an operation: it is the first one of a run, or belongs to another frame or to
another offset than the operation before it. -/
def due : Option Executed × Executed → Bool
  | (before, e) => e.number == 1 || before.all fun p => p.frame != e.frame || p.origin != e.origin

/-- The offset of an operation is not that of the operation before it or, for the first one, the one that
was told last. -/
def differs (last : Int64) : Option Executed × Executed → Bool
  | (before, e) => e.origin != before.elim last Executed.origin

theorem differs_due {last : Int64} {step : Option Executed × Executed}
    (other : differs last step = true) : due step = true := by
  obtain ⟨before, e⟩ := step
  cases before with
  | none => simp [due]
  | some p =>
    have other : e.origin ≠ p.origin := by simpa [differs] using other
    simp [due, other.symm]

private theorem changes_differ (last : Int64) (before : Option Executed) (executed : List Executed) :
    changes (before.elim last Executed.origin) (executed.map fun e => (e.event, e.number)) =
      ((preceded before executed).filter (differs last)).map fun step => step.2.event := by
  induction executed generalizing before with
  | nil => rfl
  | cons e later ih =>
    have rest := ih (some e)
    rw [Option.elim_some] at rest
    rw [List.map_cons, preceded, Executed.event, changes]
    by_cases same : e.origin = before.elim last Executed.origin
    · rw [if_pos same, List.filter_cons_of_neg (by simp [differs, same]), ← rest, same]
    · rw [if_neg same, List.filter_cons_of_pos (by simp [differs, same]), List.map_cons, ← rest]
      rfl

private theorem filter_map_eq_iff {α β : Type} (f : α → β) {strong weak : α → Bool}
    (implies : ∀ x, strong x = true → weak x = true) (xs : List α) :
    (xs.filter strong).map f = (xs.filter weak).map f ↔ ∀ x ∈ xs, weak x = true → strong x = true := by
  constructor
  · intro same x member holds
    have part := List.monotone_filter_right xs implies
    have equal := part.eq_of_length (by simpa using congrArg List.length same)
    have kept : x ∈ xs.filter strong := equal ▸ List.mem_filter.mpr ⟨member, holds⟩
    exact (List.mem_filter.mp kept).2
  · intro agree
    rw [List.filter_congr fun x member => Bool.eq_iff_iff.mpr ⟨implies x, agree x member⟩]

/-- Let an observer that asks for steps at which execution moves on, and never objects, watch runs one after
the other, with helpers that look at nothing but the heap. It is told of the operations whose offset is not that of the operation executed before them, in
whatever frame and run, and of no other ones. To all of these execution moves on; and they are all to which
it does exactly if every operation that has the offset of the one before it goes on in its run and frame. -/
theorem origin_changes_told {setup : Setup} {o : Observer} (observed : setup.observer = some o)
    (mode : o.mode = .onOrigin) (records : o.records = true) (lenient : Lenient setup)
    (confined : Confined setup) (st : State) (turns : List Turn) :
    let steps := preceded none (sessionExecutions setup st turns)
    let told := (steps.filter (differs st.lastOrigin)).map fun step => step.2.event
    (session setup st turns).trace.events.toList.filter Event.isStep =
        st.trace.events.toList.filter Event.isStep ++ told ∧
      (∀ step ∈ steps, differs st.lastOrigin step = true → due step = true) ∧
      (told = (steps.filter due).map (fun step => step.2.event) ↔
        ∀ step ∈ steps, step.2.origin = step.1.elim st.lastOrigin Executed.origin →
          step.2.number ≠ 1 ∧ ∃ e ∈ step.1, e.frame = step.2.frame) := by
  intro steps told
  refine ⟨?_, fun step _ => differs_due, ?_⟩
  · have seen := congrArg Sight.trace (session_seen lenient confined st turns)
    have changed := after_changes observed mode records ⟨st.trace, st.lastOrigin⟩ (sessionLog setup st turns)
    have first := changes_differ st.lastOrigin none (sessionExecutions setup st turns)
    rw [Option.elim_none] at first
    rw [sessionLog_executed, first, ← seen] at changed
    exact changed
  · rw [filter_map_eq_iff _ fun _ => differs_due]
    refine forall₂_congr fun step _ => ?_
    obtain ⟨before, e⟩ := step
    cases before with
    | none => simp [due, differs]
    | some p =>
      by_cases same : e.origin = p.origin <;> simp [due, differs, same]

/-- A routine that calls a function and returns, at the same offset at which the function returns. -/
def relaying : Routine where
  name := "f"
  ops := #[.loadGlobal "g", .invoke { helper := .call, args := 1, results := 1 }, .ret]
  origins := #[0, 2, 4]

def relayingState : State where
  heap :=
    { functions := #[0]
      routines := #[{ name := "g", ops := #[.const (.int 1), .ret], origins := #[0, 4] }] }
  globals := [("g", .function 0)]

/-- Only changes of the offset are observed. -/
def mover : Observer := { mode := .onOrigin, calls := false, returns := false }

/-- Of two runs with five operations each, four of each are told. -/
theorem relaying_told :
    let steps := preceded none (sessionExecutions (observedBy {} mover) relayingState
      [⟨10, relaying, []⟩, ⟨10, relaying, []⟩])
    ∃ told, (session (observedBy {} mover) relayingState
        [⟨10, relaying, []⟩, ⟨10, relaying, []⟩]).trace.events.toList.filter Event.isStep = told ∧
      told = (steps.filter (differs (-2))).map (fun step => step.2.event) ∧ told.length = 8 ∧
      (steps.filter due).length = 10 := by
  have lenient : Lenient (observedBy {} mover) := by
    intro o same
    cases same
    exact fun _ _ => rfl
  obtain ⟨told, _⟩ := origin_changes_told rfl rfl rfl lenient (confined_standard rfl) relayingState
    [⟨10, relaying, []⟩, ⟨10, relaying, []⟩]
  refine ⟨_, told, rfl, ?_, ?_⟩
  · decide +kernel
  · decide +kernel

/-- The last operation returns from the routine, at the offset at which the function returned before it: it
is not told. -/
theorem shared_offset_untold :
    let steps := preceded none (sessionExecutions (observedBy {} mover) relayingState [⟨10, relaying, []⟩])
    steps.map (fun step => (step.2.frame, step.2.origin)) = [(0, 0), (0, 2), (1, 0), (1, 4), (0, 4)] ∧
      (∀ step ∈ steps, due step = true) ∧
      (session (observedBy {} mover) relayingState [⟨10, relaying, []⟩]).trace.events.toList.filter
        Event.isStep ≠ (steps.filter due).map fun step => step.2.event := by
  refine ⟨by decide +kernel, by decide +kernel, fun same => ?_⟩
  have lengths := congrArg List.length same
  revert lengths
  decide +kernel

end Lowering.Proofs
