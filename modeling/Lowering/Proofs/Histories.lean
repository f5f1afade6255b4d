import Lowering.Proofs.DepthSafety
import Lowering.Proofs.Helpers

/-! What happens in a run, told without an observer: the operations it executes, the calls it makes,
the returns, and the calls that an exception leaves. An observer that never objects is shown a part
of this history and changes nothing else. -/

namespace Lowering.Proofs
open Machine Host

/-- The operation that the next step executes, with the state and the frame as they are when it is
executed. There is none if the frame is at its end, the run is cancelled, the limit is reached or
the observer objects. -/
def Config.issued? (setup : Setup) (c : Config) : Option (Operation × State × Frame) :=
  match c.frame.routine.ops[c.frame.ip]? with
  | none => none
  | some o =>
    match checkTime setup c.frame with
    | (true, _) => none
    | (false, f) =>
      let st := { c.state with steps := c.state.steps + 1 }
      if 0 < setup.maxSteps && setup.maxSteps.toInt < st.steps then none
      else match notifyStep setup st f o with
        | (false, _) => none
        | (true, st) => some (o, st, { f with ip := f.ip + 1 })

theorem issued?_issued {setup : Setup} {c : Config} {o : Operation} {st : State} {f : Frame}
    (issued : c.issued? setup = some (o, st, f)) : Issued c o st f := by
  unfold Config.issued? at issued
  split at issued
  next => cases issued
  next present =>
    split at issued
    next => cases issued
    next checked =>
      obtain ⟨routine, ip, stack, locals, depth, snippet⟩ := checkTime_keeps checked
      dsimp only at issued
      split at issued
      next => cases issued
      next =>
        split at issued
        next => cases issued
        next asked =>
          obtain ⟨heap, globals, handled⟩ := notifyStep_keeps asked
          cases issued
          exact ⟨present, routine, by rw [ip], stack, locals, depth, snippet, heap, globals, handled⟩

theorem step_issued {setup : Setup} {c : Config} {o : Operation} {st : State} {f : Frame}
    (issued : c.issued? setup = some (o, st, f)) :
    step setup c.state c.frame c.waiting =
      settle setup (execute setup st f o).1 c.waiting (execute setup st f o).2 := by
  unfold Config.issued? at issued
  unfold step
  cases present : c.frame.routine.ops[c.frame.ip]? with
  | none => simp [present] at issued
  | some o =>
    rw [present] at issued
    dsimp only at issued ⊢
    rcases checked : checkTime setup c.frame with ⟨_ | _, f⟩ <;> rw [checked] at issued
    · dsimp only at issued ⊢
      split at issued
      next => cases issued
      next below =>
        rw [if_neg below]
        rcases asked : notifyStep setup { c.state with steps := c.state.steps + 1 } f o with
          ⟨_ | _, st⟩ <;> rw [asked] at issued <;> cases issued
        rfl
    · cases issued

theorem step_stopped {setup : Setup} {c : Config} (stopped : c.issued? setup = none) :
    ∃ st g ending, step setup c.state c.frame c.waiting = (st, .ended g ending) ∧
      Stopped c ending := by
  unfold Config.issued? at stopped
  unfold step
  cases present : c.frame.routine.ops[c.frame.ip]? with
  | none =>
    dsimp only
    split
    next snippet => exact ⟨_, _, _, rfl, .fellThrough present snippet⟩
    next => exact ⟨_, _, _, rfl, .endOfRoutine present⟩
  | some o =>
    rw [present] at stopped
    dsimp only at stopped ⊢
    rcases checked : checkTime setup c.frame with ⟨_ | _, f⟩ <;> rw [checked] at stopped
    · dsimp only at stopped ⊢
      split at stopped
      next above => exact ⟨_, _, _, if_pos above, .stepLimit⟩
      next below =>
        rw [if_neg below]
        rcases asked : notifyStep setup { c.state with steps := c.state.steps + 1 } f o with
          ⟨_ | _, st⟩ <;> rw [asked] at stopped
        · exact ⟨_, _, _, rfl, .halted⟩
        · cases stopped
    · exact ⟨_, _, _, rfl, .cancelled⟩

/-- What happens in a run. -/
inductive Happening
  /-- An operation is about to be executed. The operations of a run are numbered from one on. -/
  | stepped (number index : Nat) (operation : String) (origin : Int64) (stackDepth frameDepth : Nat)
  | called (name : String) (argCount depth : Nat)
  | returned (name : String) (depth : Nat)
  /-- An exception left the call. -/
  | left (name : String)

/-- What a value that is called does at once: a built-in function runs to its end, a function only
begins. -/
def callingValue (custom : Nat → BuiltinFunction) (h : Heap) (callee : Value) (args : List Value)
    (depth : Nat) : List Happening :=
  match callee with
  | .builtin ref =>
    let name := (h.builtin ref).name
    .called name args.length depth :: match (act custom h name (h.builtin ref).action args).1 with
      | .values _ => [.returned name depth]
      | .raised _ => [.left name]
      | _ => []
  | .function ref =>
    if depth ≥ maxFrameDepth then []
    else [.called (h.functionRoutine ref).name args.length depth]
  | _ => []

/-- The call that an invocation makes. -/
def invoking (setup : Setup) (st : State) (inv : Invocation) (args : List Value) (depth : Nat) :
    List Happening :=
  match setup.helper inv.helper st depth inv args with
  | (.call callee args, st) => callingValue setup.custom st.heap callee args depth
  | _ => []

def performing (setup : Setup) (st : State) (f : Frame) (o : Operation) : List Happening :=
  match o with
  | .invoke inv =>
    if inv.args < 0 then []
    else invoking setup st inv (f.stack.take inv.args.toInt.toNat).reverse f.depth
  | _ => []

/-- The calls that an operation makes. -/
def executing (setup : Setup) (st : State) (f : Frame) (o : Operation) : List Happening :=
  let depth := Int64.ofNat f.stack.length
  if depth < o.pops then []
  else if Int64.ofNat maxStackDepth < depth - o.pops + o.pushes then []
  else performing setup st f o

/-- The calls that an exception leaves. -/
def leaving (exception : Nat) (f : Frame) : List Frame → List Happening
  | [] =>
    match receive exception f with
    | .passed => [.left f.routine.name]
    | _ => []
  | caller :: callers =>
    match receive exception f with
    | .passed => .left f.routine.name :: leaving exception caller callers
    | _ => []

/-- The calls that are over when the effect of an operation has taken place. -/
def settling (callers : List Frame) : Effect → List Happening
  | .raise f exception => leaving exception f callers
  | .finish f (.returned _) => if f.snippet then [] else [.returned f.routine.name f.depth]
  | _ => []

/-- A frame that already points to the next operation executes one. -/
def stepping (st : State) (f : Frame) (o : Operation) : Happening :=
  let index := f.ip - 1
  .stepped st.steps index (st.heap.operationText o) (f.routine.origin index) f.stack.length f.depth

/-- What happens in the next step. -/
def Config.happens (setup : Setup) (c : Config) : List Happening :=
  match c.issued? setup with
  | none => []
  | some (o, st, f) =>
    stepping st f o :: executing setup st f o ++ settling c.waiting (execute setup st f o).2

/-- What happens in so many steps. -/
def history (setup : Setup) : Nat → Config → List Happening
  | 0, _ => []
  | fuel + 1, c => c.happens setup ++
      match step setup c.state c.frame c.waiting with
      | (state, .running frame waiting) => history setup fuel ⟨state, frame, waiting⟩
      | (_, .ended ..) => []

/-- Where a run of a routine begins, after the observer was told of the call. -/
def beginning (setup : Setup) (st : State) (routine : Routine) (args : List Value) : Config :=
  .enter (notifyCall setup { st with steps := 0 } routine.name args.length 0).2 routine args 1

/-- What happens in a whole run: the routine is called, and executed for so many steps. -/
def chronicle (setup : Setup) (fuel : Nat) (st : State) (routine : Routine) (args : List Value) :
    List Happening :=
  .called routine.name args.length 0 :: history setup fuel (beginning setup st routine args)

/-- What an observer has been shown, and where it was shown a step last. -/
structure Sight where
  trace : Trace
  origin : Int64

def Sight.shown (seen : Sight) (o : Observer) (e : Machine.Event) : Sight :=
  { seen with trace := (seen.trace.report o e).2 }

/-- An observer sees the happenings of the sorts that it asked for; without one nothing is seen. -/
def Sight.watch (setup : Setup) (seen : Sight) : Happening → Sight
  | .stepped number index operation origin stackDepth frameDepth =>
    match setup.observer with
    | none => seen
    | some o =>
      let event := .step index operation origin stackDepth frameDepth
      match o.mode with
      | .never => seen
      | .all => seen.shown o event
      | .sampled => if number % o.period = 0 then seen.shown o event else seen
      | .onOrigin => if origin == seen.origin then seen else { seen with origin }.shown o event
  | .called name argCount depth =>
    match setup.observer with
    | some o => if o.calls then seen.shown o (.call name argCount depth) else seen
    | none => seen
  | .returned name depth =>
    match setup.observer with
    | some o => if o.returns then seen.shown o (.ret name depth) else seen
    | none => seen
  | .left _ => seen

def Sight.after (setup : Setup) (seen : Sight) (happened : List Happening) : Sight :=
  happened.foldl (Sight.watch setup) seen

theorem Sight.after_append (setup : Setup) (seen : Sight) (first second : List Happening) :
    seen.after setup (first ++ second) = (seen.after setup first).after setup second :=
  List.foldl_append

/-- A state with another count of steps, and shown to an observer. -/
def counted (st : State) (steps : Nat) (seen : Sight) : State :=
  { st with steps, lastOrigin := seen.origin, trace := seen.trace }

/-- A state that was shown to an observer. -/
def shown (st : State) (seen : Sight) : State := counted st st.steps seen

theorem counted_heap (st : State) (steps : Nat) (seen : Sight) :
    (counted st steps seen).heap = st.heap := rfl

theorem counted_with_heap (st : State) (steps : Nat) (seen : Sight) (heap : Heap) :
    { counted st steps seen with heap } = counted { st with heap } steps seen := rfl

theorem pushResults_counted (st : State) (steps : Nat) (seen : Sight) (f : Frame)
    (inv : Invocation) (results : List Value) :
    pushResults (counted st steps seen) f inv results =
      (counted (pushResults st f inv results).1 steps seen, (pushResults st f inv results).2) := by
  unfold pushResults
  split <;> rfl

theorem jump_counted (st : State) (steps : Nat) (seen : Sight) (f : Frame) (label : Label) :
    jump (counted st steps seen) f label =
      (counted (jump st f label).1 steps seen, (jump st f label).2) := by
  unfold jump abort
  split
  · rfl
  · split <;> rfl

theorem deliver_counted (st : State) (steps : Nat) (seen : Sight) (exception : Nat) (f : Frame)
    (callers : List Frame) :
    deliver (counted st steps seen) exception f callers =
      (counted (deliver st exception f callers).1 steps seen,
       (deliver st exception f callers).2) := by
  induction callers generalizing st f with
  | nil =>
    simp only [deliver, counted_heap, counted_with_heap]
    split <;> rfl
  | cons caller callers ih =>
    simp only [deliver, counted_heap, counted_with_heap]
    split
    · rfl
    · exact ih ..
    · rfl

theorem resume_counted (st : State) (steps : Nat) (seen : Sight) (v : Value)
    (callers : List Frame) (f : Frame) :
    resume (counted st steps seen) v callers f =
      (counted (resume st v callers f).1 steps seen, (resume st v callers f).2) := by
  cases callers with
  | nil => rfl
  | cons caller callers =>
    simp only [resume, pushResults_counted]
    split
    next inv _ =>
      rcases pushResults st caller inv [v] with ⟨pushed, effect⟩
      cases effect <;> rfl
    next => rfl

theorem Sight.after_leaving (setup : Setup) (seen : Sight) (exception : Nat) (f : Frame)
    (callers : List Frame) : seen.after setup (leaving exception f callers) = seen := by
  induction callers generalizing f with
  | nil =>
    unfold leaving
    split <;> rfl
  | cons caller callers ih =>
    unfold leaving
    split
    · exact ih caller
    · rfl

/-- The observer never objects. -/
def Lenient (setup : Setup) : Prop :=
  ∀ o, setup.observer = some o → ∀ tally e, o.permits tally e = true

/-- The same machine without an observer. -/
def unobserved (setup : Setup) : Setup := { setup with observer := none }

theorem notifyCall_unobserved (setup : Setup) (st : State) (name : String) (argCount depth : Nat) :
    notifyCall (unobserved setup) st name argCount depth = (true, st) := rfl

theorem notifyReturn_unobserved (setup : Setup) (st : State) (name : String) (depth : Nat) :
    notifyReturn (unobserved setup) st name depth = (true, st) := rfl

/-- The helpers look at nothing but the heap, and leave the rest of the machine alone. -/
def Confined (setup : Setup) : Prop := ∀ helper, ∃ answer, setup.helper helper = ofHeap answer

theorem confined_standard {setup : Setup} (plain : setup.helpers = []) : Confined setup :=
  fun helper => ⟨_, helper_standard plain helper⟩

theorem unobserved_lenient (setup : Setup) : Lenient (unobserved setup) := nofun

section
variable {setup : Setup} (lenient : Lenient setup)
include lenient

theorem report_lenient {o : Observer} (observed : setup.observer = some o) (st : State)
    (steps : Nat) (seen : Sight) (e : Machine.Event) :
    (counted st steps seen).report o e = (true, counted st steps (seen.shown o e)) := by
  simp only [State.report, Trace.report, lenient o observed]
  rfl

theorem notifyCall_lenient (st : State) (steps : Nat) (seen : Sight) (name : String)
    (argCount depth : Nat) :
    notifyCall setup (counted st steps seen) name argCount depth =
      (true, counted st steps (seen.after setup [.called name argCount depth])) := by
  simp only [notifyCall, Sight.after, List.foldl, Sight.watch]
  cases observed : setup.observer with
  | none => rfl
  | some o =>
    dsimp only
    split
    · exact report_lenient lenient observed ..
    · rfl

theorem notifyReturn_lenient (st : State) (steps : Nat) (seen : Sight) (name : String)
    (depth : Nat) :
    notifyReturn setup (counted st steps seen) name depth =
      (true, counted st steps (seen.after setup [.returned name depth])) := by
  simp only [notifyReturn, Sight.after, List.foldl, Sight.watch]
  cases observed : setup.observer with
  | none => rfl
  | some o =>
    dsimp only
    split
    · exact report_lenient lenient observed ..
    · rfl

theorem notifyStep_lenient (st : State) (steps : Nat) (seen : Sight) (f : Frame) (o : Operation) :
    notifyStep setup (counted st steps seen) f o =
      (true, counted st steps (seen.after setup [.stepped steps f.ip (st.heap.operationText o)
        (f.routine.origin f.ip) f.stack.length f.depth])) := by
  simp only [notifyStep, Sight.after, List.foldl, Sight.watch]
  cases observed : setup.observer with
  | none => rfl
  | some observer =>
    dsimp only
    cases observer.mode with
    | never => rfl
    | all => exact report_lenient lenient observed ..
    | sampled =>
      change (if steps % observer.period = 0 then _ else _) = _
      dsimp only
      split
      · exact report_lenient lenient observed ..
      · rfl
    | onOrigin =>
      change (if (f.routine.origin f.ip == seen.origin) = true then _ else _) = _
      dsimp only
      split
      · rfl
      · exact report_lenient lenient observed st steps { seen with origin := _ } _

theorem callValue_lenient (st : State) (steps : Nat) (seen : Sight) (f : Frame) (inv : Invocation)
    (callee : Value) (args : List Value) :
    callValue setup (counted st steps seen) f inv callee args =
      (counted (callValue (unobserved setup) st f inv callee args).1 steps
        (seen.after setup (callingValue setup.custom st.heap callee args f.depth)),
       (callValue (unobserved setup) st f inv callee args).2) := by
  cases callee with
  | builtin ref =>
    simp only [callValue, callingValue, counted_heap, counted_with_heap, notifyCall_lenient lenient,
      notifyCall_unobserved, notifyReturn_lenient lenient, notifyReturn_unobserved]
    have custom : (unobserved setup).custom = setup.custom := rfl
    rw [custom]
    cases (act setup.custom st.heap (st.heap.builtin ref).name (st.heap.builtin ref).action args).1 with
    | values results =>
      dsimp only
      rw [← Sight.after_append]
      exact pushResults_counted ..
    | raised | failed | call => rfl
  | function ref =>
    simp only [callValue, callingValue, counted_heap, counted_with_heap, notifyCall_lenient lenient,
      notifyCall_unobserved]
    split <;> rfl
  | cls ref =>
    simp only [callValue, counted_heap, counted_with_heap]
    exact pushResults_counted ..
  | _ => rfl

theorem settle_lenient (st : State) (steps : Nat) (seen : Sight) (callers : List Frame)
    (effect : Effect) :
    settle setup (counted st steps seen) callers effect =
      (counted (settle (unobserved setup) st callers effect).1 steps
        (seen.after setup (settling callers effect)),
       (settle (unobserved setup) st callers effect).2) := by
  cases effect with
  | next | enter => rfl
  | raise f exception =>
    simp only [settle, settling, Sight.after_leaving]
    exact deliver_counted ..
  | finish f ending =>
    cases ending with
    | returned v =>
      simp only [settle, settling, notifyReturn_lenient lenient, notifyReturn_unobserved]
      split
      · rfl
      · exact resume_counted ..
    | thrown | fellThrough | exited | failed => rfl

theorem settle_steps (st : State) (callers : List Frame) (effect : Effect) :
    (settle setup st callers effect).1.steps = st.steps := by
  have same := settle_lenient lenient st st.steps ⟨st.trace, st.lastOrigin⟩ callers effect
  exact congrArg (·.1.steps) same

theorem notifyCall_started (st : State) (routine : Routine) (args : List Value) :
    notifyCall setup { st with steps := 0 } routine.name args.length 0 =
      (true, shown { st with steps := 0 }
        (Sight.after setup ⟨st.trace, st.lastOrigin⟩ [.called routine.name args.length 0])) :=
  notifyCall_lenient lenient { st with steps := 0 } 0 ⟨st.trace, st.lastOrigin⟩ ..

theorem start_eq_run (fuel : Nat) (st : State) (routine : Routine) (args : List Value) :
    let c := beginning setup st routine args
    start setup fuel st routine args =
      ((run setup fuel c.state c.frame c.waiting).1,
       (run setup fuel c.state c.frame c.waiting).2.2) := by
  simp only [start, runRoutine, beginning, notifyCall_started lenient, maxFrameDepth]
  rfl

variable (confined : Confined setup)
include confined

theorem invoke_lenient (st : State) (steps : Nat) (seen : Sight) (f : Frame) (inv : Invocation)
    (args : List Value) :
    invoke setup (counted st steps seen) f inv args =
      (counted (invoke (unobserved setup) st f inv args).1 steps
        (seen.after setup (invoking setup st inv args f.depth)),
       (invoke (unobserved setup) st f inv args).2) := by
  have same : (unobserved setup).helper = setup.helper := rfl
  obtain ⟨answer, helper⟩ := confined inv.helper
  simp only [invoke, invoking, same, helper, ofHeap, counted_heap, counted_with_heap]
  rcases answer st.heap inv args with ⟨reply, heap⟩
  cases reply with
  | values results => exact pushResults_counted ..
  | raised | failed => rfl
  | call callee args => exact callValue_lenient lenient ..

theorem perform_lenient (st : State) (steps : Nat) (seen : Sight) (f : Frame) (o : Operation) :
    perform setup (counted st steps seen) f o =
      (counted (perform (unobserved setup) st f o).1 steps
        (seen.after setup (performing setup st f o)),
       (perform (unobserved setup) st f o).2) := by
  rcases f with ⟨routine, ip, stack, locals, depth, since, snippet⟩
  cases o with
  | invoke inv =>
    simp only [perform, performing]
    split
    · rfl
    · exact invoke_lenient lenient confined ..
  | label | const | getHandled => rfl
  | goto label => exact jump_counted ..
  | loadLocal i | deleteLocal i =>
    simp only [perform]
    split
    · rfl
    · split <;> rfl
  | loadGlobal name =>
    simp only [perform, show (counted st steps seen).global? name = st.global? name from rfl]
    split <;> rfl
  | pick | swap =>
    simp only [perform]
    split <;> rfl
  | pop | dup | storeGlobal | ret | throw | setHandled => cases stack <;> rfl
  | storeLocal i =>
    cases stack with
    | nil => rfl
    | cons v stack =>
      simp only [perform]
      split <;> rfl
  | ifTrue label =>
    cases stack with
    | nil => rfl
    | cons v stack =>
      by_cases truth : st.heap.truthy v = true
      · simp only [perform, counted_heap, truth, ↓reduceIte]
        exact jump_counted ..
      · simp only [perform, counted_heap, truth]
        rfl
  | ifFalse label =>
    cases stack with
    | nil => rfl
    | cons v stack =>
      by_cases truth : st.heap.truthy v = true
      · simp only [perform, counted_heap, truth]
        rfl
      · simp only [perform, counted_heap, truth]
        exact jump_counted ..

theorem execute_lenient (st : State) (steps : Nat) (seen : Sight) (f : Frame) (o : Operation) :
    execute setup (counted st steps seen) f o =
      (counted (execute (unobserved setup) st f o).1 steps
        (seen.after setup (executing setup st f o)),
       (execute (unobserved setup) st f o).2) := by
  simp only [execute, executing]
  split
  · rfl
  · split
    · rfl
    · exact perform_lenient lenient confined ..

/-- Only a step counts itself. -/
theorem execute_steps (st : State) (f : Frame) (o : Operation) :
    (execute setup st f o).1.steps = st.steps := by
  have same := execute_lenient lenient confined st st.steps ⟨st.trace, st.lastOrigin⟩ f o
  exact congrArg (·.1.steps) same

/-- A step of a machine whose observer never objects is the step without an observer, and the
observer sees what happens in it. -/
theorem step_lenient (c : Config) (seen : Sight) :
    step setup (shown c.state seen) c.frame c.waiting =
      (shown (step (unobserved setup) c.state c.frame c.waiting).1
        (seen.after setup (c.happens (unobserved setup))),
       (step (unobserved setup) c.state c.frame c.waiting).2) := by
  have alike : Confined (unobserved setup) := confined
  have check : checkTime (unobserved setup) = checkTime setup := rfl
  have limit : (unobserved setup).maxSteps = setup.maxSteps := rfl
  have steps : (shown c.state seen).steps = c.state.steps := rfl
  cases present : c.frame.routine.ops[c.frame.ip]? with
  | none =>
    simp only [step, Config.happens, Config.issued?, present]
    split <;> rfl
  | some o =>
    rcases checked : checkTime setup c.frame with ⟨due, f⟩
    cases due with
    | true =>
      simp only [step, Config.happens, Config.issued?, present, check, checked]
      rfl
    | false =>
      by_cases above : (decide (0 < setup.maxSteps) &&
          decide (setup.maxSteps.toInt < (c.state.steps + 1 : Nat))) = true
      · simp only [step, Config.happens, Config.issued?, present, check, checked, limit, steps, above,
          ↓reduceIte]
        rfl
      · let st := { c.state with steps := c.state.steps + 1 }
        let g := { f with ip := f.ip + 1 }
        have issued : c.issued? (unobserved setup) = some (o, st, g) := by
          simp only [Config.issued?, present, check, checked, limit, above]
          rfl
        have watched : step setup (shown c.state seen) c.frame c.waiting =
            settle setup (execute setup (counted st st.steps (seen.after setup [stepping st g o])) g o).1
              c.waiting (execute setup (counted st st.steps (seen.after setup [stepping st g o])) g o).2 := by
          simp only [step, present, checked, steps, above]
          erw [notifyStep_lenient lenient st]
          rfl
        rw [watched, step_issued issued, Config.happens, issued, execute_lenient lenient confined,
          settle_lenient lenient, ← Sight.after_append, ← Sight.after_append, shown,
          settle_steps (unobserved_lenient setup), execute_steps (unobserved_lenient setup) alike]
        rfl

theorem run_lenient (fuel : Nat) (c : Config) (seen : Sight) :
    run setup fuel (shown c.state seen) c.frame c.waiting =
      (shown (run (unobserved setup) fuel c.state c.frame c.waiting).1
        (seen.after setup (history (unobserved setup) fuel c)),
       (run (unobserved setup) fuel c.state c.frame c.waiting).2) := by
  induction fuel generalizing c seen with
  | zero => rfl
  | succ fuel ih =>
    rw [run, run, history, step_lenient lenient confined, Sight.after_append]
    rcases step (unobserved setup) c.state c.frame c.waiting with ⟨state, status⟩
    cases status with
    | running frame waiting => exact ih ⟨state, frame, waiting⟩ _
    | ended frame ending => rfl

/-- A run that an observer watches and never objects to is the run without an observer; of what
happens in it the observer sees its part. -/
theorem start_lenient (fuel : Nat) (st : State) (routine : Routine) (args : List Value) :
    start setup fuel st routine args =
      (shown (start (unobserved setup) fuel st routine args).1
        (Sight.after setup ⟨st.trace, st.lastOrigin⟩
          (chronicle (unobserved setup) fuel st routine args)),
       (start (unobserved setup) fuel st routine args).2) := by
  let c := beginning (unobserved setup) st routine args
  let seen := Sight.after setup ⟨st.trace, st.lastOrigin⟩ [.called routine.name args.length 0]
  have told : beginning setup st routine args = { c with state := shown c.state seen } := by
    simp only [beginning, notifyCall_started lenient]
    rfl
  have ran := run_lenient lenient confined fuel c seen
  rw [start_eq_run lenient, start_eq_run (unobserved_lenient setup), told]
  dsimp only
  rw [ran]
  rfl

end

end Lowering.Proofs
