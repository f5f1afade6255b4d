import Lowering.Proofs.Histories

/-! What exceptions record. An exception keeps the offset of an instruction, and every frame that it is
raised in or passes through offers the offset of its own. The first one that an exception is offered is
recorded and stays: nothing else changes a record, unless a built-in function from outside does. -/

namespace Lowering.Proofs
open Machine Host

/-- What happens to the record of an exception. -/
inductive Mark
  /-- The exception was raised in a frame, or passed through it, at the instruction of an offset. -/
  | offered (offset : Int64)
  /-- The record was changed by other means. -/
  | written (offset : Int64)

/-- What a record becomes. -/
def noting (before : Int64) : Mark → Int64
  | .offered offset => if before < 0 then offset else before
  | .written offset => offset

/-- What a record becomes with one mark after the other. -/
def noted (before : Int64) (marks : List Mark) : Int64 := marks.foldl noting before

theorem noted_append (before : Int64) (first second : List Mark) :
    noted before (first ++ second) = noted (noted before first) second :=
  List.foldl_append

theorem noted_last (before offset : Int64) (earlier : List Mark) :
    noted before (earlier ++ [Mark.offered offset]) = offset ↔
      noted before earlier < 0 ∨ noted before earlier = offset := by
  rw [noted_append, noted, List.foldl_cons, List.foldl_nil, noting]
  split
  next free => simp [free]
  next taken => simp [taken]

section
variable {setup : Setup}

private theorem raiseNew_recorded (st : State) (f : Frame) (cls : Standard) (message : String) :
    recorded (raiseNew st f cls message).1.heap = recorded st.heap :=
  newError_recorded st.heap cls message

private theorem jump_heap (st : State) (f : Frame) (label : Label) : (jump st f label).1 = st := by
  unfold jump
  split
  · rfl
  · split <;> rfl

theorem enter_recorded (h : Heap) (routine : Routine) (args : List Value) (depth : Nat) :
    recorded (Frame.enter h routine args depth).2 = recorded h :=
  recorded_congr (normalizeAll_exceptions h _)

variable (quiet : Quiet setup.custom)
include quiet

theorem callValue_recorded (st : State) (f : Frame) (inv : Invocation) (callee : Value)
    (args : List Value) :
    recorded (callValue setup st f inv callee args).1.heap = recorded st.heap := by
  unfold callValue
  split
  next ref =>
    dsimp only
    split
    next asked => exact recorded_congr (congrArg Heap.exceptions (notifyCall_keeps asked).1)
    next st₁ asked =>
      have called : recorded (act setup.custom st₁.heap (st.heap.builtin ref).name
          (st.heap.builtin ref).action args).2 = recorded st.heap := by
        rw [(act_keeps setup.custom st₁.heap _ _ args).recorded quiet, (notifyCall_keeps asked).1]
      split
      · split
        next returned =>
          simp only [abort, (notifyReturn_keeps returned).1]
          exact called
        next returned =>
          rw [pushResults_state, (notifyReturn_keeps returned).1]
          exact called
      all_goals exact called
  next ref =>
    dsimp only
    split
    · exact raiseNew_recorded st f _ _
    · split
      next asked => exact recorded_congr (congrArg Heap.exceptions (notifyCall_keeps asked).1)
      next asked =>
        refine (enter_recorded _ _ args (f.depth + 1)).trans ?_
        rw [(notifyCall_keeps asked).1]
  next ref =>
    dsimp only
    rw [pushResults_state]
    exact newException_recorded st.heap rfl
  next => exact raiseNew_recorded st f _ _

variable (plain : setup.helpers = [])
include plain

theorem invoke_recorded (st : State) (f : Frame) (inv : Invocation) (args : List Value) :
    recorded (invoke setup st f inv args).1.heap = recorded st.heap := by
  have answered := (standardHelper_keeps st.heap inv (conforms_objects args)).recorded trivial
  unfold invoke
  rw [helper_standard plain, ofHeap]
  dsimp only
  split
  · rw [pushResults_state]
    exact answered
  · exact answered
  · exact answered
  · exact (callValue_recorded quiet _ f inv _ _).trans answered

theorem perform_recorded (st : State) (f : Frame) (o : Operation) :
    recorded (perform setup st f o).1.heap = recorded st.heap := by
  unfold perform
  split
  case h_2 _ v => exact recorded_congr (normalize_exceptions st.heap v)
  case h_12 =>
    split
    · rfl
    · exact invoke_recorded quiet plain st _ _ _
  case h_13 => rw [jump_heap]
  case h_14 | h_15 =>
    split
    all_goals first
      | rw [jump_heap]
      | rfl
  case h_17 v _ _ => exact asException_recorded st.heap v
  case h_3 | h_5 | h_6 =>
    repeat' split
    all_goals first
      | rfl
      | exact raiseNew_recorded st _ _ _
  case h_4 | h_10 | h_11 => split <;> rfl
  all_goals rfl

theorem execute_recorded (st : State) (f : Frame) (o : Operation) :
    recorded (execute setup st f o).1.heap = recorded st.heap := by
  unfold execute
  dsimp only
  split
  · rfl
  · split
    · rfl
    · exact perform_recorded quiet plain st f o

end

/-- The instructions of the frames that an exception is offered to, up to the one that does not let it
through. -/
def crossed (exception : Nat) (f : Frame) : List Frame → List Int64
  | [] => [f.routine.origin (f.ip - 1)]
  | caller :: callers =>
    f.routine.origin (f.ip - 1) :: match receive exception f with
      | .passed => crossed exception caller callers
      | _ => []

theorem Offered.crossed {exception : Nat} {f h : Frame} {callers rest : List Frame}
    (offered : Offered exception f callers h rest) (held : receive exception h ≠ .passed) :
    ∃ earlier, Proofs.crossed exception f callers = earlier ++ [h.routine.origin (h.ip - 1)] := by
  induction offered with
  | here f callers =>
    refine ⟨[], ?_⟩
    cases callers with
    | nil => rfl
    | cons caller callers =>
      rw [Proofs.crossed]
      split
      next passed => exact absurd passed held
      next => rfl
  | passed unprotected _ ih =>
    obtain ⟨earlier, last⟩ := ih held
    rw [Proofs.crossed, unprotected, last]
    exact ⟨_ :: earlier, rfl⟩

theorem pass_recorded (h : Heap) (exception : Nat) (offset : Int64) (e : Nat) :
    recorded (pass h exception offset) e =
      if exception = e ∧ exception < h.exceptions.size then noting (recorded h e) (.offered offset)
      else recorded h e := by
  simp only [recorded, Machine.pass, Array.getElem?_modify]
  by_cases same : exception = e
  · subst same
    by_cases present : exception < h.exceptions.size
    · rw [if_pos rfl, if_pos ⟨rfl, present⟩, Array.getElem?_eq_getElem present]
      rfl
    · rw [if_pos rfl, if_neg fun both => present both.2, Array.getElem?_eq_none (Nat.not_lt.mp present)]
      rfl
  · rw [if_neg same, if_neg fun both => same both.1]

theorem deliver_recorded (st : State) (exception : Nat) (f : Frame) (callers : List Frame) (e : Nat) :
    recorded (deliver st exception f callers).1.heap e =
      if exception = e ∧ exception < st.heap.exceptions.size then
        noted (recorded st.heap e) ((crossed exception f callers).map Mark.offered)
      else recorded st.heap e := by
  have passed (st : State) := pass_recorded st.heap exception (f.routine.origin (f.ip - 1)) e
  induction callers generalizing st f with
  | nil =>
    rw [deliver]
    split <;> exact passed st
  | cons caller callers ih =>
    rw [deliver, crossed]
    cases received : receive exception f with
    | caught | failed => exact passed st
    | passed =>
      have size (offset : Int64) : (pass st.heap exception offset).exceptions.size =
          st.heap.exceptions.size := Array.size_modify
      dsimp only
      rw [ih _ _ fun st => pass_recorded st.heap exception _ e, passed, size]
      split <;> rfl

/-- A frame that the next step raises an exception in, with the state by then. -/
def Config.raised? (setup : Setup) (c : Config) : Option (State × Frame × Nat) :=
  match c.issued? setup with
  | none => none
  | some (o, st, f) =>
    match execute setup st f o with
    | (st, .raise g exception) => some (st, g, exception)
    | _ => none

theorem raised?_raises {setup : Setup} {c : Config} {st : State} {g : Frame} {exception : Nat}
    (raised : c.raised? setup = some (st, g, exception)) :
    ∃ o before f, Raises setup c o before f st g exception := by
  unfold Config.raised? at raised
  split at raised
  next => cases raised
  next o before f issued =>
    split at raised
    next executed =>
      cases raised
      have stepped := step_issued issued
      rw [executed] at stepped
      exact ⟨o, before, f, issued?_issued issued, executed, stepped⟩
    next => cases raised

/-- The change of a record from one heap to another. -/
def rewriting (before after : Heap) (exception : Nat) : List Mark :=
  if recorded after exception = recorded before exception then []
  else [.written (recorded after exception)]

theorem noted_rewriting (before after : Heap) (exception : Nat) :
    noted (recorded before exception) (rewriting before after exception) = recorded after exception := by
  rw [rewriting]
  split
  next same => exact same.symm
  next => rfl

/-- The offsets that an exception is offered in the next step. -/
def Config.offers (setup : Setup) (c : Config) (exception : Nat) : List Int64 :=
  match c.raised? setup with
  | none => []
  | some (st, g, raised) =>
    if raised = exception ∧ raised < st.heap.exceptions.size then crossed raised g c.waiting else []

/-- What happens to the record of an exception in the next step. -/
def Config.marks (setup : Setup) (c : Config) (exception : Nat) : List Mark :=
  match c.issued? setup with
  | none => []
  | some (o, st, f) =>
    rewriting st.heap (execute setup st f o).1.heap exception ++ (c.offers setup exception).map Mark.offered

/-- What is recorded after a step is what was recorded before it, with the marks of the step. -/
theorem Goes.recorded {setup : Setup} {c d : Config} (goes : Goes setup c d) (e : Nat) :
    Proofs.recorded d.state.heap e = noted (Proofs.recorded c.state.heap e) (c.marks setup e) := by
  cases issued : c.issued? setup with
  | none =>
    obtain ⟨_, _, _, ended, _⟩ := step_stopped issued
    rw [Goes, ended] at goes
    cases goes
  | some next =>
    obtain ⟨o, st, f⟩ := next
    have marks : noted (Proofs.recorded c.state.heap e) (c.marks setup e) =
        noted (Proofs.recorded (execute setup st f o).1.heap e)
          ((c.offers setup e).map Mark.offered) := by
      simp only [Config.marks, issued]
      rw [noted_append, ← (issued?_issued issued).heap, noted_rewriting]
    rw [Goes, step_issued issued] at goes
    rw [marks]
    rcases executed : execute setup st f o with ⟨st', effect⟩
    rw [executed] at goes
    have kept (same : d.state.heap = st'.heap) (calm : c.raised? setup = none) :
        Proofs.recorded d.state.heap e =
          noted (Proofs.recorded st'.heap e) ((c.offers setup e).map Mark.offered) := by
      rw [same, Config.offers, calm]
      rfl
    cases effect with
    | next g | enter g callee =>
      have calm : c.raised? setup = none := by
        rw [Config.raised?, issued]
        simp only [executed]
      exact kept (congrArg (State.heap ∘ Prod.fst) goes).symm calm
    | finish g ending =>
      have calm : c.raised? setup = none := by
        rw [Config.raised?, issued]
        simp only [executed]
      cases ending with
      | returned v =>
        simp only [settle] at goes
        split at goes
        · cases goes
        · split at goes
          · cases goes
          next asked =>
            obtain ⟨_, _, _, _, same, _⟩ := resume_running goes
            exact kept (same ▸ (notifyReturn_keeps asked).1) calm
      | thrown | fellThrough | exited | failed => cases goes
    | raise g exception =>
      have raised : c.raised? setup = some (st', g, exception) := by
        rw [Config.raised?, issued]
        simp only [executed]
      have after : (deliver st' exception g c.waiting).1 = d.state := congrArg Prod.fst goes
      rw [← after, deliver_recorded, Config.offers, raised]
      dsimp only
      split
      next offered => rw [offered.1]
      next => rfl

theorem marks_offered {setup : Setup} (quiet : Quiet setup.custom) (plain : setup.helpers = [])
    (c : Config) (exception : Nat) :
    c.marks setup exception = (c.offers setup exception).map Mark.offered := by
  unfold Config.marks
  split
  next stopped =>
    rw [Config.offers, Config.raised?, stopped]
    rfl
  next =>
    rw [rewriting, if_pos (congrFun (execute_recorded quiet plain ..) exception)]
    rfl

/-- A run from one configuration to another, with what happens to the record of an exception. -/
inductive Travels (setup : Setup) (exception : Nat) (c : Config) : List Mark → Config → Prop
  | refl : Travels setup exception c [] c
  | step {trail : List Mark} {d e : Config} (before : Travels setup exception c trail d)
      (goes : Goes setup d e) : Travels setup exception c (trail ++ d.marks setup exception) e

variable {setup : Setup} {c d : Config} {exception : Nat}

theorem Travels.reaches {trail : List Mark} (travels : Travels setup exception c trail d) :
    Reaches setup c d := by
  induction travels with
  | refl => exact .refl
  | step _ goes ih => exact ih.step goes

theorem Reaches.travels (reaches : Reaches setup c d) (exception : Nat) :
    ∃ trail, Travels setup exception c trail d := by
  induction reaches with
  | refl => exact ⟨_, .refl⟩
  | step _ goes ih =>
    obtain ⟨_, before⟩ := ih
    exact ⟨_, before.step goes⟩

/-- What happens to the record of an exception in so many steps. -/
def Config.trail (setup : Setup) (c : Config) (exception : Nat) : Nat → List Mark
  | 0 => []
  | n + 1 =>
    let d := c.later setup n
    c.trail setup exception n ++ match step setup d.state d.frame d.waiting with
      | (_, .running ..) => d.marks setup exception
      | _ => []

theorem travels_later (setup : Setup) (c : Config) (exception n : Nat) :
    Travels setup exception c (c.trail setup exception n) (c.later setup n) := by
  induction n with
  | zero => exact .refl
  | succ n ih =>
    simp only [Config.trail, Config.later, Config.after]
    rcases stepped : step setup (c.later setup n).state (c.later setup n).frame
      (c.later setup n).waiting with ⟨st, ⟨f, callers⟩ | ⟨f, ending⟩⟩
    · exact ih.step stepped
    · rw [List.append_nil]
      exact ih

/-- After a run an exception has recorded what its marks say. -/
theorem Travels.recorded {trail : List Mark} (travels : Travels setup exception c trail d) :
    Proofs.recorded d.state.heap exception = noted (Proofs.recorded c.state.heap exception) trail := by
  induction travels with
  | refl => rfl
  | step _ goes ih => rw [goes.recorded, ih, ← noted_append]

/-- Nothing but offsets is offered in a run with built-in functions that change no record. -/
theorem Travels.offered (quiet : Quiet setup.custom) (plain : setup.helpers = []) {trail : List Mark}
    (travels : Travels setup exception c trail d) : ∃ offsets : List Int64, trail = offsets.map .offered := by
  induction travels with
  | refl => exact ⟨[], rfl⟩
  | step _ _ ih =>
    obtain ⟨offsets, before⟩ := ih
    rw [before, marks_offered quiet plain, ← List.map_append]
    exact ⟨_, rfl⟩

end Lowering.Proofs
