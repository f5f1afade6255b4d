import Lowering.Proofs.DepthSafety
import Lowering.Proofs.Helpers

/-! A machine that is given no sentinel never holds one. -/

namespace Lowering.Proofs
open Machine Host

structure ProperState (st : State) : Prop where
  heap : ProperHeap st.heap
  globals : ∀ entry ∈ st.globals, proper entry.2 = true
  handled : proper st.handled = true

/-- Only a local may be the sentinel, and then it has no binding. -/
structure ProperFrame (f : Frame) : Prop where
  routine : ProperRoutine f.routine
  stack : allProper f.stack = true
  locals : ∀ v ∈ f.locals, v = .unbound ∨ proper v = true

structure ProperConfig (c : Config) : Prop where
  state : ProperState c.state
  frame : ProperFrame c.frame
  waiting : ∀ g ∈ c.waiting, ProperFrame g

def ProperEffect : Effect → Prop
  | .next g | .raise g _ => ProperFrame g
  | .enter g callee => ProperFrame g ∧ ProperFrame callee
  | .finish g ending => ProperFrame g ∧ ∀ v, ending = .returned v → proper v = true

def ProperOutcome (outcome : State × Effect) : Prop :=
  ProperState outcome.1 ∧ ProperEffect outcome.2

variable {st : State} {f : Frame}

theorem ProperState.withHeap (valid : ProperState st) {heap : Heap} (holds : ProperHeap heap) :
    ProperState { st with heap } :=
  ⟨holds, valid.globals, valid.handled⟩

theorem ProperState.congr {st' : State} (valid : ProperState st)
    (same : st'.heap = st.heap ∧ st'.globals = st.globals ∧ st'.handled = st.handled) :
    ProperState st' :=
  ⟨same.1 ▸ valid.heap, same.2.1 ▸ valid.globals, same.2.2 ▸ valid.handled⟩

theorem ProperFrame.withStack (valid : ProperFrame f) {stack : List Value}
    (holds : allProper stack = true) : ProperFrame { f with stack } :=
  ⟨valid.routine, holds, valid.locals⟩

theorem enter_proper {heap : Heap} (valid : ProperHeap heap) {routine : Routine}
    {args : List Value} (constants : ProperRoutine routine) (holds : allProper args = true)
    (depth : Nat) :
    ProperFrame (Frame.enter heap routine args depth).1 ∧
      ProperHeap (Frame.enter heap routine args depth).2 := by
  obtain ⟨bound, kept⟩ := normalizeAll_proper valid
    (args.take routine.localCount.toInt.toNat) (allProper_sublist (List.take_sublist _ _) holds)
  refine ⟨⟨constants, rfl, fun v member => ?_⟩, kept⟩
  rcases Array.mem_append.mp member with given | free
  · rw [allProper_iff] at bound
    exact .inr (bound v (List.mem_toArray.mp given))
  · exact .inl (Array.mem_replicate.mp free).2

private theorem abort_proper (state : ProperState st) (frame : ProperFrame f)
    (fault : Machine.Fault) : ProperOutcome (abort st f fault) :=
  ⟨state, frame, nofun⟩

private theorem raiseNew_proper (state : ProperState st) (frame : ProperFrame f) (cls : Standard)
    (message : String) : ProperOutcome (raiseNew st f cls message) :=
  ⟨state.withHeap (state.heap.newError cls message), frame⟩

private theorem jump_proper (state : ProperState st) (frame : ProperFrame f) (label : Label) :
    ProperOutcome (jump st f label) := by
  unfold jump
  split
  · exact ⟨state, frame.routine, frame.stack, frame.locals⟩
  · split
    · exact ⟨state, frame, nofun⟩
    · exact abort_proper state frame _

theorem pushResults_proper (state : ProperState st) (frame : ProperFrame f) (inv : Invocation)
    {results : List Value} (holds : allProper results = true) :
    ProperOutcome (pushResults st f inv results) := by
  rcases pushResults_cases st f inv results with ⟨pushed, _⟩ | failed
  · rw [pushed]
    refine ⟨state, frame.withStack (allProper_append ?_ frame.stack)⟩
    rw [allProper_iff] at *
    exact fun v member => holds v (List.mem_reverse.mp member)
  · rw [failed]
    exact abort_proper state frame _

theorem pushed_proper {st' : State} {g : Frame} {inv : Invocation} {v : Value}
    (frame : ProperFrame f) (holds : proper v = true)
    (pushed : pushResults st f inv [v] = (st', .next g)) : ProperFrame g := by
  rcases pushResults_cases st f inv [v] with ⟨done, _⟩ | failed
  · rw [done] at pushed
    cases pushed
    exact frame.withStack (by simp [allProper, holds, frame.stack])
  · rw [failed] at pushed
    cases pushed

theorem insertGlobal_proper (state : ProperState st) (name : String) {v : Value}
    (holds : proper v = true) : ProperState (st.setGlobal name v) :=
  ⟨state.heap, insertEntry_proper holds state.globals, state.handled⟩

theorem global_proper (state : ProperState st) {name : String} {v : Value}
    (found : st.global? name = some v) : proper v = true := by
  obtain ⟨entry, present, rfl⟩ := Option.map_eq_some_iff.mp found
  exact state.globals entry (List.mem_of_find?_eq_some present)

private theorem setLocal_proper (frame : ProperFrame f) (i : Nat) {v : Value}
    (holds : v = .unbound ∨ proper v = true) :
    ProperFrame { f with locals := f.locals.setIfInBounds i v } := by
  refine ⟨frame.routine, frame.stack, fun w member => ?_⟩
  rcases Array.mem_or_eq_of_mem_setIfInBounds member with old | rfl
  · exact frame.locals w old
  · exact holds

private theorem itemAt?_mem {depth : Int64} {stack : List Value} {v : Value}
    (found : itemAt? depth stack = some v) : v ∈ stack := by
  unfold itemAt? at found
  split at found
  · cases found
  · exact List.mem_of_getElem? found

private theorem swapTop?_proper {depth : Int64} {stack swapped : List Value}
    (done : swapTop? depth stack = some swapped) (holds : allProper stack = true) :
    allProper swapped = true := by
  unfold swapTop? at done
  split at done
  · next top rest other found =>
    cases done
    rw [allProper_iff] at *
    intro v member
    rcases List.mem_or_eq_of_mem_set member with inner | rfl
    · rcases List.mem_or_eq_of_mem_set inner with old | rfl
      · exact holds v old
      · exact holds v List.mem_cons_self
    · exact holds v (itemAt?_mem found)
  · cases done

private theorem callValue_proper {setup : Setup} (clean : Clean setup.custom) (state : ProperState st)
    (frame : ProperFrame f) (inv : Invocation) (callee : Value) {args : List Value}
    (holds : allProper args = true) : ProperOutcome (callValue setup st f inv callee args) := by
  unfold callValue
  split
  next ref =>
    dsimp only
    split
    · next asked => exact abort_proper (state.congr (notifyCall_keeps asked)) frame _
    · next st₁ asked =>
      have called := state.congr (notifyCall_keeps asked)
      obtain ⟨reply, heap⟩ := (act_keeps setup.custom st₁.heap (st.heap.builtin ref).name
        (st.heap.builtin ref).action args).proper ⟨clean, holds⟩ called.heap
      have answered := called.withHeap heap
      split
      · next results given =>
        rw [given] at reply
        split
        · next returned => exact abort_proper (answered.congr (notifyReturn_keeps returned)) frame _
        · next returned =>
          exact pushResults_proper (answered.congr (notifyReturn_keeps returned)) frame inv reply
      · exact ⟨answered, frame⟩
      · exact abort_proper answered frame _
      · exact abort_proper answered frame _
  next ref =>
    dsimp only
    split
    · exact raiseNew_proper state frame _ _
    · split
      · next asked => exact abort_proper (state.congr (notifyCall_keeps asked)) frame _
      · next st₁ asked =>
        have called := state.congr (notifyCall_keeps asked)
        obtain ⟨entered, heap⟩ := enter_proper called.heap (state.heap.functionRoutine ref) holds
          (f.depth + 1)
        exact ⟨called.withHeap heap, frame, entered⟩
  next ref => exact pushResults_proper (state.withHeap (state.heap.newException holds)) frame inv rfl
  next => exact raiseNew_proper state frame _ _

section
variable {setup : Setup} (plain : setup.helpers = []) (clean : Clean setup.custom)
include plain clean

private theorem invoke_proper (state : ProperState st) (frame : ProperFrame f) (inv : Invocation)
    {args : List Value} (holds : allProper args = true) :
    ProperOutcome (invoke setup st f inv args) := by
  obtain ⟨reply, heap⟩ :=
    (standardHelper_keeps st.heap inv (conforms_objects args)).proper holds state.heap
  have answered := state.withHeap heap
  unfold invoke
  rw [helper_standard plain]
  dsimp only [ofHeap]
  split
  · next given =>
    rw [given] at reply
    exact pushResults_proper answered frame inv reply
  · exact ⟨answered, frame⟩
  · exact abort_proper answered frame _
  · next given =>
    rw [given] at reply
    exact callValue_proper clean answered frame inv _ reply.2

theorem perform_proper (state : ProperState st) (frame : ProperFrame f) {o : Operation} (constants : ∀ v, o = .const v → proper v = true) :
    ProperOutcome (perform setup st f o) := by
  have bound : ∀ (i : Nat) (v : Value), f.locals[i]? = some v → v ≠ .unbound → proper v = true :=
    fun i v found present => (frame.locals v (Array.mem_of_getElem? found)).resolve_left present
  have push : ∀ v, proper v = true → ProperFrame { f with stack := v :: f.stack } :=
    fun v holds => frame.withStack (by simp [allProper, holds, frame.stack])
  have taken : ∀ v stack, f.stack = v :: stack → proper v = true ∧ allProper stack = true := by
    intro v stack top
    have all := frame.stack
    rw [top] at all
    simpa [allProper] using all
  unfold perform
  split
  case h_1 => exact ⟨state, frame⟩
  case h_2 _ v =>
    obtain ⟨normal, heap⟩ := normalize_proper state.heap v (constants v rfl)
    exact ⟨state.withHeap heap, push _ normal⟩
  case h_3 i _ =>
    split
    · exact abort_proper state frame _
    · split
      · exact abort_proper state frame _
      · exact raiseNew_proper state frame _ _
      · next v present found => exact ⟨state, push v (bound _ v found present)⟩
  case h_4 i v stack top =>
    split
    · exact abort_proper state frame _
    · obtain ⟨value, rest⟩ := taken v stack top
      have emptied := frame.withStack rest
      exact ⟨state, setLocal_proper emptied _ (.inr value)⟩
  case h_5 i _ =>
    split
    · exact abort_proper state frame _
    · split
      · exact abort_proper state frame _
      · exact raiseNew_proper state frame _ _
      · exact ⟨state, setLocal_proper frame _ (.inl rfl)⟩
  case h_6 name _ =>
    split
    · next v found => exact ⟨state, push v (global_proper state found)⟩
    · exact raiseNew_proper state frame _ _
  case h_7 name v stack top =>
    obtain ⟨value, rest⟩ := taken v stack top
    exact ⟨insertGlobal_proper state name value, frame.withStack rest⟩
  case h_8 v stack top => exact ⟨state, frame.withStack (taken v stack top).2⟩
  case h_9 v stack top =>
    obtain ⟨value, rest⟩ := taken v stack top
    exact ⟨state, frame.withStack (by simp [allProper, value, rest])⟩
  case h_10 depth _ =>
    split
    · next v found => exact ⟨state, push v (allProper_iff.mp frame.stack v (itemAt?_mem found))⟩
    · exact abort_proper state frame _
  case h_11 depth _ =>
    split
    · next done => exact ⟨state, frame.withStack (swapTop?_proper done frame.stack)⟩
    · exact abort_proper state frame _
  case h_12 stack inv =>
    split
    · exact abort_proper state frame _
    · have rest := allProper_sublist (List.drop_sublist inv.args.toInt.toNat f.stack) frame.stack
      refine invoke_proper plain clean state (frame.withStack rest) inv ?_
      have args := allProper_sublist (List.take_sublist inv.args.toInt.toNat f.stack) frame.stack
      rw [allProper_iff] at *
      exact fun v member => args v (List.mem_reverse.mp member)
  case h_13 _ label => exact jump_proper state frame label
  case h_14 label v stack top =>
    have emptied := frame.withStack (taken v stack top).2
    split
    · exact jump_proper state emptied label
    · exact ⟨state, emptied⟩
  case h_15 label v stack top =>
    have emptied := frame.withStack (taken v stack top).2
    split
    · exact ⟨state, emptied⟩
    · exact jump_proper state emptied label
  case h_16 v stack top =>
    obtain ⟨value, rest⟩ := taken v stack top
    exact ⟨state, frame.withStack rest, fun w same => Ending.returned.inj same ▸ value⟩
  case h_17 v stack top =>
    exact ⟨state.withHeap (asException_proper state.heap v), frame.withStack (taken v stack top).2⟩
  case h_18 => exact ⟨state, push _ state.handled⟩
  case h_19 v stack top =>
    obtain ⟨value, rest⟩ := taken v stack top
    exact ⟨⟨state.heap, state.globals, value⟩, frame.withStack rest⟩
  case h_20 => exact abort_proper state frame _

theorem execute_proper (state : ProperState st) (frame : ProperFrame f) {o : Operation} (constants : ∀ v, o = .const v → proper v = true) :
    ProperOutcome (execute setup st f o) := by
  unfold execute
  dsimp only
  split
  · exact abort_proper state frame _
  · split
    · exact abort_proper state frame _
    · exact perform_proper plain clean state frame constants

end

/-- What a configuration executes an operation with is proper when the configuration is. -/
theorem ProperConfig.issued {c : Config} {o : Operation} (valid : ProperConfig c)
    (issued : Issued c o st f) : ProperState st ∧ ProperFrame f :=
  ⟨valid.state.congr ⟨issued.heap, issued.globals, issued.handled⟩,
    issued.routine ▸ valid.frame.routine, issued.stack ▸ valid.frame.stack,
    issued.locals ▸ valid.frame.locals⟩

theorem pass_proper {heap : Heap} (valid : ProperHeap heap) (exception : Nat) (origin : Int64) :
    ProperHeap (pass heap exception origin) :=
  valid.modifyException exception fun _ => rfl

theorem receive_proper {exception : Nat} {f g : Frame} (frame : ProperFrame f)
    (caught : receive exception f = .caught g) : ProperFrame g := by
  obtain ⟨region, target, _, _, _, _, _, rfl⟩ := receive_caught caught
  refine ⟨frame.routine, ?_, frame.locals⟩
  simp only [allProper, proper, Bool.true_and]
  exact allProper_sublist (List.drop_sublist _ _) frame.stack

theorem Offered.proper {exception : Nat} {f g : Frame} {callers rest : List Frame}
    (offered : Offered exception f callers g rest) (frame : ProperFrame f)
    (waiting : ∀ h ∈ callers, ProperFrame h) :
    ProperFrame g ∧ ∀ h ∈ rest, ProperFrame h := by
  induction offered with
  | here => exact ⟨frame, waiting⟩
  | passed _ _ ih =>
    exact ih (waiting _ List.mem_cons_self) fun h member =>
      waiting h (List.mem_cons_of_mem _ member)

/-- No step brings in the sentinel. -/
theorem ProperConfig.step {setup : Setup} (plain : setup.helpers = []) (clean : Clean setup.custom)
    {c d : Config} (valid : ProperConfig c) (goes : Goes setup c d) : ProperConfig d := by
  obtain ⟨o, st, f, issued, move⟩ := goes_cases goes
  obtain ⟨before, executing⟩ := valid.issued issued
  have constants : ∀ v, o = .const v → proper v = true := by
    rintro v rfl
    exact valid.frame.routine v (Array.mem_of_getElem? issued.operation)
  obtain ⟨state, effect⟩ := execute_proper plain clean before executing constants
  cases move with
  | next done same =>
    rw [done] at state effect
    exact ⟨state, effect, same ▸ valid.waiting⟩
  | enter done below =>
    rw [done] at state effect
    refine ⟨state, effect.2, fun g member => ?_⟩
    rw [below] at member
    rcases List.mem_cons.mp member with rfl | old
    · exact effect.1
    · exact valid.waiting g old
  | back done below calling pushed heap globals handled =>
    rw [done] at state effect
    have waiting := valid.waiting
    rw [below] at waiting
    have after : ProperState d.state := state.congr ⟨heap, globals, handled⟩
    have frame := pushed_proper (waiting _ List.mem_cons_self) (effect.2 _ rfl) pushed
    exact ⟨after, frame, fun g member => waiting g (List.mem_cons_of_mem _ member)⟩
  | raise done offered caught heap globals handled =>
    rw [done] at state effect
    obtain ⟨frame, waiting⟩ := offered.proper effect valid.waiting
    refine ⟨⟨?_, globals ▸ state.globals, handled ▸ state.handled⟩,
      receive_proper frame caught, waiting⟩
    exact heap ProperHeap (fun _ origin holds => pass_proper holds _ origin) state.heap

end Lowering.Proofs
