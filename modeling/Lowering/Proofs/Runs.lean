import Lowering.Machine.Run

/-! Runs as sequences of steps. A step of a running machine does one of four things: its frame goes
on, calls, returns, or raises, and an exception looks for the frame that catches it. Everything
that is proved about runs goes through these four cases. -/

namespace Lowering.Proofs
open Machine Host

/-- A run in progress: the frame that executes and those that wait for it. -/
structure Config where
  state : State
  frame : Frame
  waiting : List Frame

/-- One step leads from one configuration to another. -/
def Goes (setup : Setup) (c d : Config) : Prop :=
  step setup c.state c.frame c.waiting = (d.state, .running d.frame d.waiting)

theorem Goes.deterministic {setup : Setup} {c d e : Config} (first : Goes setup c d)
    (second : Goes setup c e) : d = e := by
  have same := first.symm.trans second
  simp only [Prod.mk.injEq, Status.running.injEq] at same
  obtain ⟨state, frame, waiting⟩ := same
  cases d
  cases e
  simp_all only

/-- The configuration after one step; a run that ends goes nowhere. -/
def Config.after (setup : Setup) (c : Config) : Config :=
  match step setup c.state c.frame c.waiting with
  | (state, .running frame waiting) => ⟨state, frame, waiting⟩
  | _ => c

/-- The configuration after so many steps. -/
def Config.later (setup : Setup) (c : Config) : Nat → Config
  | 0 => c
  | n + 1 => (c.later setup n).after setup

/-- A machine without globals and objects. -/
def bareState : State := ⟨{}, [], .none, 0, -2, {}⟩

inductive Reaches (setup : Setup) (c : Config) : Config → Prop
  | refl : Reaches setup c c
  | step {d e : Config} (before : Reaches setup c d) (goes : Goes setup d e) : Reaches setup c e

theorem Reaches.trans {setup : Setup} {c d e : Config} (first : Reaches setup c d)
    (second : Reaches setup d e) : Reaches setup c e := by
  induction second with
  | refl => exact first
  | step _ goes ih => exact ih.step goes

theorem reaches_later (setup : Setup) (c : Config) (n : Nat) : Reaches setup c (c.later setup n) := by
  induction n with
  | zero => exact .refl
  | succ n ih =>
    unfold Config.later Config.after
    split
    · next stepped => exact ih.step stepped
    · exact ih

/-- What one step keeps holds along a whole run. -/
theorem Reaches.keeps {setup : Setup} {c d : Config} {valid : Config → Prop}
    (kept : ∀ {before after}, valid before → Goes setup before after → valid after)
    (reached : Reaches setup c d) (start : valid c) : valid d := by
  induction reached with
  | refl => exact start
  | step _ goes ih => exact kept ih goes

theorem run_ends (setup : Setup) (fuel : Nat) (c : Config) :
    (run setup fuel c.state c.frame c.waiting).2.2 = .failed .outOfFuel ∨
    ∃ d, Reaches setup c d ∧ step setup d.state d.frame d.waiting =
      ((run setup fuel c.state c.frame c.waiting).1,
        .ended (run setup fuel c.state c.frame c.waiting).2.1
          (run setup fuel c.state c.frame c.waiting).2.2) := by
  induction fuel generalizing c with
  | zero => exact .inl rfl
  | succ fuel ih =>
    rw [run]
    split
    next state frame waiting stepped =>
      have goes : Goes setup c ⟨state, frame, waiting⟩ := stepped
      rcases ih ⟨state, frame, waiting⟩ with out | ⟨d, reached, last⟩
      · exact .inl out
      · exact .inr ⟨d, (Reaches.step .refl goes).trans reached, last⟩
    next state frame ending stepped => exact .inr ⟨c, .refl, stepped⟩

/-- The operation that a configuration is about to execute, with the state and the frame as they
are when it is executed: the counts have moved on, nothing else has. -/
structure Issued (c : Config) (o : Operation) (st : State) (f : Frame) : Prop where
  operation : c.frame.routine.ops[c.frame.ip]? = some o
  routine : f.routine = c.frame.routine
  ip : f.ip = c.frame.ip + 1
  stack : f.stack = c.frame.stack
  locals : f.locals = c.frame.locals
  depth : f.depth = c.frame.depth
  snippet : f.snippet = c.frame.snippet
  heap : st.heap = c.state.heap
  globals : st.globals = c.state.globals
  handled : st.handled = c.state.handled

private theorem report_keeps {st st' : State} {o : Observer} {e : Machine.Event} {permitted : Bool}
    (reported : st.report o e = (permitted, st')) :
    st'.heap = st.heap ∧ st'.globals = st.globals ∧ st'.handled = st.handled := by
  simp only [State.report] at reported
  cases reported
  exact ⟨rfl, rfl, rfl⟩

theorem notifyStep_keeps {setup : Setup} {st st' : State} {f : Frame} {o : Operation}
    {permitted : Bool} (asked : notifyStep setup st f o = (permitted, st')) :
    st'.heap = st.heap ∧ st'.globals = st.globals ∧ st'.handled = st.handled := by
  unfold notifyStep at asked
  split at asked
  · cases asked
    exact ⟨rfl, rfl, rfl⟩
  · dsimp only at asked
    split at asked
    · cases asked
      exact ⟨rfl, rfl, rfl⟩
    · exact report_keeps asked
    · split at asked
      · exact report_keeps asked
      · cases asked
        exact ⟨rfl, rfl, rfl⟩
    · split at asked
      · cases asked
        exact ⟨rfl, rfl, rfl⟩
      · have kept := report_keeps asked
        exact kept

theorem notifyCall_keeps {setup : Setup} {st st' : State} {name : String} {count depth : Nat}
    {permitted : Bool} (asked : notifyCall setup st name count depth = (permitted, st')) :
    st'.heap = st.heap ∧ st'.globals = st.globals ∧ st'.handled = st.handled := by
  unfold notifyCall at asked
  split at asked
  · split at asked
    · exact report_keeps asked
    · cases asked
      exact ⟨rfl, rfl, rfl⟩
  · cases asked
    exact ⟨rfl, rfl, rfl⟩

theorem notifyReturn_keeps {setup : Setup} {st st' : State} {name : String} {depth : Nat}
    {permitted : Bool} (asked : notifyReturn setup st name depth = (permitted, st')) :
    st'.heap = st.heap ∧ st'.globals = st.globals ∧ st'.handled = st.handled := by
  unfold notifyReturn at asked
  split at asked
  · split at asked
    · exact report_keeps asked
    · cases asked
      exact ⟨rfl, rfl, rfl⟩
  · cases asked
    exact ⟨rfl, rfl, rfl⟩

theorem checkTime_keeps {setup : Setup} {f g : Frame} {due : Bool}
    (checked : checkTime setup f = (due, g)) :
    g.routine = f.routine ∧ g.ip = f.ip ∧ g.stack = f.stack ∧ g.locals = f.locals ∧
      g.depth = f.depth ∧ g.snippet = f.snippet := by
  unfold checkTime at checked
  dsimp only at checked
  split at checked
  · split at checked <;> cases checked <;> exact ⟨rfl, rfl, rfl, rfl, rfl, rfl⟩
  · cases checked
    exact ⟨rfl, rfl, rfl, rfl, rfl, rfl⟩

/-- The ways a frame is stopped before it executes an operation. -/
inductive Stopped (c : Config) : Ending → Prop
  | fellThrough (outside : c.frame.routine.ops[c.frame.ip]? = none)
      (snippet : c.frame.snippet = true) : Stopped c .fellThrough
  | endOfRoutine (outside : c.frame.routine.ops[c.frame.ip]? = none) :
      Stopped c (.failed (.endOfRoutine c.frame.routine.name))
  | cancelled : Stopped c (.failed .cancelled)
  | stepLimit : Stopped c (.failed .stepLimit)
  | halted : Stopped c (.failed .halted)

/-- A step is stopped, or executes the operation that the frame points to. -/
theorem step_cases (setup : Setup) (c : Config) :
    (∃ st g ending, step setup c.state c.frame c.waiting = (st, .ended g ending) ∧
      g.routine = c.frame.routine ∧ Stopped c ending ∧ st.handled = c.state.handled) ∨
    ∃ o st f, Issued c o st f ∧ step setup c.state c.frame c.waiting =
      settle setup (execute setup st f o).1 c.waiting (execute setup st f o).2 := by
  unfold step
  split
  next outside =>
    left
    split
    next snippet => exact ⟨_, _, _, rfl, rfl, .fellThrough outside snippet, rfl⟩
    next => exact ⟨_, _, _, rfl, rfl, .endOfRoutine outside, rfl⟩
  next o found =>
    split
    next f checked => exact .inl ⟨_, _, _, rfl, (checkTime_keeps checked).1, .cancelled, rfl⟩
    next f checked =>
      obtain ⟨routine, ip, stack, locals, depth, snippet⟩ := checkTime_keeps checked
      dsimp only
      split
      next => exact .inl ⟨_, _, _, rfl, routine, .stepLimit, rfl⟩
      next =>
        split
        next st asked => exact .inl ⟨_, _, _, rfl, routine, .halted, (notifyStep_keeps asked).2.2⟩
        next st asked =>
          obtain ⟨heap, globals, handled⟩ := notifyStep_keeps asked
          refine .inr ⟨o, st, { f with ip := f.ip + 1 }, ?_, rfl⟩
          exact ⟨found, routine, by rw [ip], stack, locals, depth, snippet, heap, globals, handled⟩

/-- The exception is offered to the frames in turn until one of them is protected. -/
inductive Offered (exception : Nat) : Frame → List Frame → Frame → List Frame → Prop
  | here (f : Frame) (callers : List Frame) : Offered exception f callers f callers
  | passed {f caller : Frame} {callers : List Frame} {g : Frame} {rest : List Frame}
      (unprotected : receive exception f = .passed)
      (later : Offered exception caller callers g rest) :
      Offered exception f (caller :: callers) g rest

/-- Fewer frames wait for the one that is offered the exception last. -/
theorem Offered.shorter {exception : Nat} {f g : Frame} {callers rest : List Frame}
    (offered : Offered exception f callers g rest) : rest.length ≤ callers.length := by
  induction offered with
  | here => exact Nat.le_refl _
  | passed _ _ ih => exact Nat.le_succ_of_le ih

/-- An exception that leaves as many frames waiting was not passed on. -/
theorem Offered.stays {exception : Nat} {f g : Frame} {callers rest : List Frame}
    (offered : Offered exception f callers g rest) (inside : callers.length ≤ rest.length) :
    g = f ∧ rest = callers := by
  cases offered with
  | here => exact ⟨rfl, rfl⟩
  | passed _ later =>
    have shorter := later.shorter
    rw [List.length_cons] at inside
    omega

/-- The frame that is offered the exception last is the first one, or waited for it. -/
theorem Offered.mem {exception : Nat} {f g : Frame} {callers rest : List Frame}
    (offered : Offered exception f callers g rest) :
    (g = f ∨ g ∈ callers) ∧ ∀ h ∈ rest, h ∈ callers := by
  induction offered with
  | here => exact ⟨.inl rfl, fun _ member => member⟩
  | passed _ _ ih =>
    refine ⟨.inr ?_, fun h member => List.mem_cons_of_mem _ (ih.2 h member)⟩
    rcases ih.1 with rfl | member
    · exact List.mem_cons_self
    · exact List.mem_cons_of_mem _ member

/-- The heap after an exception passed some frames: what every pass keeps still holds. -/
def Passed (exception : Nat) (before after : Heap) : Prop :=
  ∀ valid : Heap → Prop, (∀ heap origin, valid heap → valid (pass heap exception origin)) →
    valid before → valid after

/-- What becomes of an exception: the frame that is offered it last catches it, fails, or lets it
leave the run. -/
theorem deliver_cases (st : State) (exception : Nat) (f : Frame) (callers : List Frame) :
    ∃ st' g rest, Offered exception f callers g rest ∧ Passed exception st.heap st'.heap ∧
      st'.globals = st.globals ∧ st'.handled = st.handled ∧
      ((∃ h, receive exception g = .caught h ∧
          deliver st exception f callers = (st', .running h rest)) ∨
       (∃ fault, receive exception g = .failed fault ∧
          deliver st exception f callers = (st', .ended g (.failed fault))) ∨
       (receive exception g = .passed ∧ rest = [] ∧
          deliver st exception f callers = (st', .ended g (.thrown exception)))) := by
  induction callers generalizing st f with
  | nil =>
    refine ⟨{ st with heap := pass st.heap exception (f.routine.origin (f.ip - 1)) }, f, [],
      .here f [], fun _ kept holds => kept _ _ holds, rfl, rfl, ?_⟩
    rw [deliver]
    cases received : receive exception f with
    | caught h => exact .inl ⟨h, rfl, rfl⟩
    | passed => exact .inr (.inr ⟨rfl, rfl, rfl⟩)
    | failed fault => exact .inr (.inl ⟨fault, rfl, rfl⟩)
  | cons caller callers ih =>
    let passing := { st with heap := pass st.heap exception (f.routine.origin (f.ip - 1)) }
    rw [deliver]
    cases received : receive exception f with
    | caught h =>
      exact ⟨passing, f, _, .here f _, fun _ kept holds => kept _ _ holds, rfl, rfl,
        .inl ⟨h, received, rfl⟩⟩
    | failed fault =>
      exact ⟨passing, f, _, .here f _, fun _ kept holds => kept _ _ holds, rfl, rfl,
        .inr (.inl ⟨fault, received, rfl⟩)⟩
    | passed =>
      obtain ⟨st', g, rest, offered, heap, globals, handled, outcome⟩ := ih passing caller
      exact ⟨st', g, rest, .passed received offered,
        fun valid kept holds => heap valid kept (kept _ _ holds), globals, handled, outcome⟩

theorem Offered.caught {exception : Nat} {f g h : Frame} {callers rest : List Frame}
    (offered : Offered exception f callers g rest) (received : receive exception g = .caught h)
    (st : State) : ∃ st', deliver st exception f callers = (st', .running h rest) ∧
      Passed exception st.heap st'.heap ∧ st'.handled = st.handled := by
  induction offered generalizing st with
  | here f callers =>
    refine ⟨{ st with heap := pass st.heap exception (f.routine.origin (f.ip - 1)) }, ?_,
      fun _ kept holds => kept _ _ holds, rfl⟩
    cases callers <;> rw [deliver, received]
  | passed unprotected _ ih =>
    rw [deliver, unprotected]
    obtain ⟨st', delivered, heap, handled⟩ := ih received _
    exact ⟨st', delivered, fun valid kept holds => heap valid kept (kept _ _ holds), handled⟩

theorem Offered.failed {exception : Nat} {f g : Frame} {callers rest : List Frame}
    {fault : Machine.Fault} (offered : Offered exception f callers g rest)
    (received : receive exception g = .failed fault) (st : State) :
    ∃ st', deliver st exception f callers = (st', .ended g (.failed fault)) := by
  induction offered generalizing st with
  | here f callers =>
    cases callers <;> exact ⟨_, by rw [deliver, received]⟩
  | passed unprotected _ ih =>
    rw [deliver, unprotected]
    exact ih received _

/-- The next step executes an operation that raises. The frame has lost the operands by then. -/
structure Raises (setup : Setup) (c : Config) (o : Operation) (st : State) (f : Frame) (st' : State)
    (g : Frame) (exception : Nat) : Prop where
  issued : Issued c o st f
  executed : execute setup st f o = (st', .raise g exception)
  step : step setup c.state c.frame c.waiting = deliver st' exception g c.waiting

theorem pushResults_cases (st : State) (f : Frame) (inv : Invocation) (results : List Value) :
    (pushResults st f inv results = (st, .next { f with stack := results.reverse ++ f.stack }) ∧
      inv.results.toInt = results.length ∧ results.length + f.stack.length ≤ maxStackDepth) ∨
    pushResults st f inv results =
      abort st f (.wrongResults inv.helper.name results.length inv.results) := by
  unfold pushResults
  split
  next => exact .inr rfl
  next fitting =>
    simp only [not_or, Decidable.not_not, Nat.not_lt] at fitting
    exact .inl ⟨rfl, fitting.1, fitting.2⟩

theorem pushResults_state (st : State) (f : Frame) (inv : Invocation) (results : List Value) :
    (pushResults st f inv results).1 = st := by
  unfold pushResults
  split <;> rfl

theorem pushResults_next {st : State} {f g : Frame} {inv : Invocation} {v : Value}
    (pushed : pushResults st f inv [v] = (st, .next g)) : g = { f with stack := v :: f.stack } := by
  rcases pushResults_cases st f inv [v] with ⟨same, _⟩ | failed
  · rw [same] at pushed
    cases pushed
    rfl
  · rw [failed] at pushed
    cases pushed

/-- What a step that goes on did with the operation it executed. -/
inductive Move (setup : Setup) (c d : Config) (o : Operation) (st : State) (f : Frame) : Prop
  | next (done : execute setup st f o = (d.state, .next d.frame)) (same : d.waiting = c.waiting)
  | enter {g : Frame} (done : execute setup st f o = (d.state, .enter g d.frame))
      (below : d.waiting = g :: c.waiting)
  | back {st₁ : State} {g caller : Frame} {inv : Invocation} {v : Value}
      (done : execute setup st f o = (st₁, .finish g (.returned v)))
      (below : c.waiting = caller :: d.waiting)
      (calling : caller.routine.ops[caller.ip - 1]? = some (.invoke inv))
      (pushed : pushResults d.state caller inv [v] = (d.state, .next d.frame))
      (heap : d.state.heap = st₁.heap) (globals : d.state.globals = st₁.globals)
      (handled : d.state.handled = st₁.handled)
  | raise {st₁ : State} {g h : Frame} {exception : Nat}
      (done : execute setup st f o = (st₁, .raise g exception))
      (offered : Offered exception g c.waiting h d.waiting)
      (caught : receive exception h = .caught d.frame)
      (heap : Passed exception st₁.heap d.state.heap)
      (globals : d.state.globals = st₁.globals) (handled : d.state.handled = st₁.handled)

theorem resume_running {st st' : State} {v : Value} {callers rest : List Frame}
    {f g : Frame} (resumed : resume st v callers f = (st', .running g rest)) :
    ∃ caller inv, callers = caller :: rest ∧
      caller.routine.ops[caller.ip - 1]? = some (.invoke inv) ∧ st' = st ∧
      pushResults st caller inv [v] = (st, .next g) := by
  cases callers with
  | nil => simp [resume] at resumed
  | cons caller callers =>
    rw [resume] at resumed
    split at resumed
    next inv calling =>
      rcases pushResults_cases st caller inv [v] with ⟨pushed, _⟩ | failed
      · rw [pushed] at resumed
        cases resumed
        exact ⟨caller, inv, rfl, calling, rfl, pushed⟩
      · rw [failed] at resumed
        cases resumed
    next => cases resumed

theorem goes_cases {setup : Setup} {c d : Config} (goes : Goes setup c d) :
    ∃ o st f, Issued c o st f ∧ Move setup c d o st f := by
  rcases step_cases setup c with ⟨st, g, ending, stopped, _⟩ | ⟨o, st, f, issued, stepped⟩
  · rw [Goes, stopped] at goes
    cases goes
  · refine ⟨o, st, f, issued, ?_⟩
    rw [Goes, stepped] at goes
    rcases executed : execute setup st f o with ⟨st₁, effect⟩
    rw [executed] at goes
    cases effect with
    | next g =>
      simp only [settle, Prod.mk.injEq, Status.running.injEq] at goes
      obtain ⟨rfl, rfl, same⟩ := goes
      exact .next executed same.symm
    | enter g callee =>
      simp only [settle, Prod.mk.injEq, Status.running.injEq] at goes
      obtain ⟨rfl, rfl, below⟩ := goes
      exact .enter executed below.symm
    | raise g exception =>
      obtain ⟨st', h, rest, offered, heap, globals, handled, outcome⟩ :=
        deliver_cases st₁ exception g c.waiting
      simp only [settle] at goes
      rcases outcome with ⟨k, caught, delivered⟩ | ⟨fault, _, delivered⟩ | ⟨_, _, delivered⟩
      · rw [delivered] at goes
        cases goes
        exact .raise executed offered caught heap globals handled
      · rw [delivered] at goes
        cases goes
      · rw [delivered] at goes
        cases goes
    | finish g ending =>
      cases ending with
      | returned v =>
        simp only [settle] at goes
        split at goes
        · cases goes
        · split at goes
          · cases goes
          · next asked =>
            obtain ⟨heap, globals, handled⟩ := notifyReturn_keeps asked
            obtain ⟨caller, inv, below, calling, same, pushed⟩ := resume_running goes
            rw [← same] at pushed heap globals handled
            exact .back executed below calling pushed heap globals handled
      | thrown | fellThrough | exited | failed => cases goes

/-- How a step that executes an operation can end the run. -/
inductive Finish (setup : Setup) (c : Config) (o : Operation) (st : State) (f : Frame) :
    Frame → Ending → Prop
  | own {st₁ : State} {g : Frame} {ending : Ending}
      (done : execute setup st f o = (st₁, .finish g ending)) : Finish setup c o st f g ending
  | halted {st₁ : State} {g : Frame} {v : Value}
      (done : execute setup st f o = (st₁, .finish g (.returned v))) :
      Finish setup c o st f g (.failed .halted)
  | refused {st₁ : State} {g caller : Frame} {rest : List Frame} {inv : Invocation} {v : Value}
      (done : execute setup st f o = (st₁, .finish g (.returned v)))
      (below : c.waiting = caller :: rest)
      (calling : caller.routine.ops[caller.ip - 1]? = some (.invoke inv)) :
      Finish setup c o st f caller (.failed (.wrongResults inv.helper.name 1 inv.results))
  | lost {st₁ : State} {g caller : Frame} {rest : List Frame} {v : Value}
      (done : execute setup st f o = (st₁, .finish g (.returned v)))
      (below : c.waiting = caller :: rest)
      (elsewhere : ∀ inv, caller.routine.ops[caller.ip - 1]? ≠ some (.invoke inv)) :
      Finish setup c o st f caller (.failed (.endOfRoutine caller.routine.name))
  | received {st₁ : State} {g h : Frame} {rest : List Frame} {exception : Nat} {fault : Machine.Fault}
      (done : execute setup st f o = (st₁, .raise g exception))
      (offered : Offered exception g c.waiting h rest)
      (failed : receive exception h = .failed fault) : Finish setup c o st f h (.failed fault)
  | thrown {st₁ : State} {g h : Frame} {exception : Nat}
      (done : execute setup st f o = (st₁, .raise g exception))
      (offered : Offered exception g c.waiting h [])
      (passed : receive exception h = .passed) : Finish setup c o st f h (.thrown exception)

theorem ends_cases {setup : Setup} {c : Config} {st' : State} {g : Frame} {ending : Ending}
    (ended : step setup c.state c.frame c.waiting = (st', .ended g ending)) :
    (g.routine = c.frame.routine ∧ Stopped c ending) ∨
    ∃ o st f, Issued c o st f ∧ Finish setup c o st f g ending := by
  rcases step_cases setup c with ⟨st, h, last, stopped, routine, how, _⟩ | ⟨o, st, f, issued, stepped⟩
  · rw [stopped] at ended
    cases ended
    exact .inl ⟨routine, how⟩
  · refine .inr ⟨o, st, f, issued, ?_⟩
    rw [stepped] at ended
    rcases executed : execute setup st f o with ⟨st₁, effect⟩
    rw [executed] at ended
    cases effect with
    | next | enter => cases ended
    | raise h exception =>
      obtain ⟨st', k, rest, offered, heap, globals, handled, outcome⟩ :=
        deliver_cases st₁ exception h c.waiting
      simp only [settle] at ended
      rcases outcome with ⟨_, _, delivered⟩ | ⟨fault, failed, delivered⟩ | ⟨passed, rfl, delivered⟩
      · rw [delivered] at ended
        cases ended
      · rw [delivered] at ended
        cases ended
        exact .received executed offered failed
      · rw [delivered] at ended
        cases ended
        exact .thrown executed offered passed
    | finish h last =>
      cases last with
      | returned v =>
        simp only [settle] at ended
        split at ended
        · cases ended
          exact .own executed
        · split at ended
          · cases ended
            exact .halted executed
          · next st₂ _ =>
            cases below : c.waiting with
            | nil =>
              rw [below, resume] at ended
              cases ended
              exact .own executed
            | cons caller callers =>
              rw [below, resume] at ended
              split at ended
              next inv calling =>
                rcases pushResults_cases st₂ caller inv [v] with ⟨pushed, _⟩ | failed
                · rw [pushed] at ended
                  cases ended
                · rw [failed] at ended
                  cases ended
                  exact .refused executed below calling
              next elsewhere =>
                cases ended
                exact .lost executed below elsewhere
      | thrown | fellThrough | exited | failed =>
        cases ended
        exact .own executed

end Lowering.Proofs
