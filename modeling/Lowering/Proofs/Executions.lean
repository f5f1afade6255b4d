import Lowering.Proofs.DepthSafety
import Lowering.Proofs.Helpers

/-! Runs that execute given operations. The code at the start of a handler and in a cleanup neither
calls nor tests anything: what it leaves is computed from what it finds, unless the run is stopped
from outside or the stack is full. -/

namespace Lowering.Proofs
open Machine Host

/-- The run executes operations one after the other. -/
inductive Executes (setup : Setup) : List Operation → Config → Config → Prop
  | nil (c : Config) : Executes setup [] c c
  | cons {o : Operation} {rest : List Operation} {c d e : Config}
      (operation : c.frame.routine.ops[c.frame.ip]? = some o) (goes : Goes setup c d)
      (later : Executes setup rest d e) : Executes setup (o :: rest) c e

theorem Executes.append {setup : Setup} {first second : List Operation} {c d e : Config}
    (before : Executes setup first c d) (later : Executes setup second d e) :
    Executes setup (first ++ second) c e := by
  induction before with
  | nil => exact later
  | cons operation goes _ ih => exact .cons operation goes (ih later)

theorem Executes.split {setup : Setup} {first second : List Operation} {c e : Config}
    (executes : Executes setup (first ++ second) c e) :
    ∃ d, Executes setup first c d ∧ Executes setup second d e := by
  induction first generalizing c with
  | nil => exact ⟨c, .nil c, executes⟩
  | cons o first ih =>
    cases executes with
    | cons operation goes later =>
      obtain ⟨d, before, after⟩ := ih later
      exact ⟨d, .cons operation goes before, after⟩

theorem Executes.reaches {setup : Setup} {operations : List Operation} {start c d : Config}
    (executes : Executes setup operations c d) (before : Reaches setup start c) :
    Reaches setup start d := by
  induction executes with
  | nil => exact before
  | cons _ goes _ ih => exact ih (before.step goes)

/-- The run does not end by one of some faults. -/
def Avoids (faults : Machine.Fault → Bool) (setup : Setup) (c : Config) : Prop :=
  ∀ d st f fault, Reaches setup c d →
    step setup d.state d.frame d.waiting = (st, .ended f (.failed fault)) → faults fault = false

/-- The faults of a run that is stopped from outside or has a full stack. -/
def disturbs : Machine.Fault → Bool
  | .cancelled | .stepLimit | .halted | .overflow _ => true
  | _ => false

variable {faults : Machine.Fault → Bool} {setup : Setup} {c : Config}

theorem Avoids.at (avoids : Avoids faults setup c) {d : Config} (reached : Reaches setup c d) :
    Avoids faults setup d :=
  fun e st f fault further => avoids e st f fault (reached.trans further)

theorem Avoids.after (avoids : Avoids faults setup c) {d : Config} (goes : Goes setup c d) :
    Avoids faults setup d :=
  avoids.at (.step .refl goes)

/-- A test holds of a configuration and of all that follow, and the run ends within so many steps. -/
def always (setup : Setup) (test : Config → Bool) : Nat → Config → Bool
  | 0, _ => false
  | n + 1, c => test c &&
    match step setup c.state c.frame c.waiting with
    | (st, .running f waiting) => always setup test n ⟨st, f, waiting⟩
    | _ => true

theorem always_reaches {test : Config → Bool} {n : Nat} (holds : always setup test n c = true)
    {d : Config} (reached : Reaches setup c d) : test d = true := by
  have further : ∃ m, always setup test m d = true := by
    induction reached with
    | refl => exact ⟨n, holds⟩
    | step _ goes ih =>
      obtain ⟨m, holds⟩ := ih
      cases m with
      | zero => cases holds
      | succ m =>
        rw [always, Bool.and_eq_true, goes] at holds
        exact ⟨m, holds.2⟩
  obtain ⟨m, holds⟩ := further
  cases m with
  | zero => cases holds
  | succ m => exact (Bool.and_eq_true_iff.mp holds).1

/-- The next step does not end the run by one of some faults. -/
def sparing (faults : Machine.Fault → Bool) (setup : Setup) (c : Config) : Bool :=
  match step setup c.state c.frame c.waiting with
  | (_, .ended _ (.failed fault)) => !faults fault
  | _ => true

theorem always_avoids {n : Nat} (holds : always setup (sparing faults setup) n c = true) :
    Avoids faults setup c := by
  intro d st f fault reached ended
  have spares := always_reaches holds reached
  rw [sparing, ended] at spares
  simpa using spares

theorem Avoids.both {others : Machine.Fault → Bool}
    (avoids : Avoids (fun fault => faults fault || others fault) setup c) :
    Avoids faults setup c ∧ Avoids others setup c := by
  have apart := fun d st f fault reached ended =>
    Bool.or_eq_false_iff.mp (avoids d st f fault reached ended)
  exact ⟨fun d st f fault reached ended => (apart d st f fault reached ended).1,
    fun d st f fault reached ended => (apart d st f fault reached ended).2⟩

/-- A run that is not disturbed executes the operation it points to. -/
theorem Avoids.issues (undisturbed : Avoids disturbs setup c) {o : Operation}
    (operation : c.frame.routine.ops[c.frame.ip]? = some o) :
    ∃ st f, Issued c o st f ∧ step setup c.state c.frame c.waiting =
      settle setup (execute setup st f o).1 c.waiting (execute setup st f o).2 := by
  rcases step_cases setup c with ⟨st, g, ending, stopped, _, how, _⟩ | ⟨o', st, f, issued, stepped⟩
  · cases how with
    | fellThrough outside | endOfRoutine outside =>
      rw [operation] at outside
      cases outside
    | cancelled | stepLimit | halted => cases undisturbed c _ _ _ .refl stopped
  · have same := operation.symm.trans issued.operation
    cases same
    exact ⟨st, f, issued, stepped⟩

/-- What operations see of a configuration. -/
structure View where
  routine : Routine
  ip : Nat
  stack : List Value
  locals : Array Value
  waiting : List Frame
  heap : Heap
  handled : Value

def Config.view (c : Config) : View :=
  ⟨c.frame.routine, c.frame.ip, c.frame.stack, c.frame.locals, c.waiting, c.state.heap,
    c.state.handled⟩

/-- What is asked of an exception at the start of a handler. -/
def answer? (h : Heap) (exception : Nat) : Helper → Option Value
  | .exceptionType => some (.cls (h.exception exception).cls)
  | .exceptionTraceback => some (.tuple ((h.exception exception).traceback.toList.map Value.int))
  | .excLasti => some (.int (h.exception exception).lasti)
  | _ => none

/-- What an operation of a handler leaves. -/
def View.after? (v : View) (o : Operation) : Option View :=
  match o, v.stack with
  | .label _, _ => some { v with ip := v.ip + 1 }
  | .getHandled, stack => some { v with ip := v.ip + 1, stack := v.handled :: stack }
  | .setHandled, x :: stack => some { v with ip := v.ip + 1, stack, handled := x }
  | .dup, x :: stack => some { v with ip := v.ip + 1, stack := x :: x :: stack }
  | .swap depth, a :: b :: stack =>
    if depth = 1 then some { v with ip := v.ip + 1, stack := b :: a :: stack } else none
  | .loadLocal i, stack =>
    if i < 0 then none
    else match v.locals[i.toInt.toNat]? with
      | none | some .unbound => none
      | some x => some { v with ip := v.ip + 1, stack := x :: stack }
  | .storeLocal i, x :: stack =>
    if i < 0 || v.locals.size ≤ i.toInt.toNat then none
    else some { v with
      ip := v.ip + 1, stack, locals := v.locals.setIfInBounds i.toInt.toNat x }
  | .invoke inv, .exception ref :: stack =>
    if inv.args = 1 ∧ inv.results = 1 then
      (answer? v.heap ref inv.helper).map fun x => { v with ip := v.ip + 1, stack := x :: stack }
    else none
  | .goto label, _ => (v.routine.labelIndex? label).map fun ip => { v with ip }
  | _, _ => none

theorem View.after?_loadLocal {v : View} {i : Int64} {x : Value} (place : 0 ≤ i)
    (found : v.locals[i.toInt.toNat]? = some x) (value : x ≠ .unbound) :
    v.after? (.loadLocal i) = some { v with ip := v.ip + 1, stack := x :: v.stack } := by
  obtain ⟨routine, ip, stack, locals, waiting, heap, handled⟩ := v
  refine (if_neg (Int64.not_lt.mpr place)).trans ?_
  rw [found]
  cases x with
  | unbound => exact absurd rfl value
  | _ => rfl

theorem View.after?_storeLocal {v : View} {i : Int64} {x : Value} {stack : List Value}
    (top : v.stack = x :: stack) (place : 0 ≤ i) (inside : i.toInt.toNat < v.locals.size) :
    v.after? (.storeLocal i) =
      some { v with ip := v.ip + 1, stack, locals := v.locals.setIfInBounds i.toInt.toNat x } := by
  have stored : ¬ (i < 0 || v.locals.size ≤ i.toInt.toNat) = true := by
    simp only [Bool.or_eq_true, decide_eq_true_eq, not_or, Int64.not_lt, Nat.not_le]
    exact ⟨place, inside⟩
  unfold View.after?
  rw [top]
  exact if_neg stored

/-- What a list of such operations leaves. -/
def View.run? (v : View) : List Operation → Option View
  | [] => some v
  | o :: rest => (v.after? o).bind fun w => w.run? rest

private theorem execute_performs (st : State) {f : Frame} {o : Operation}
    (enough : ¬ Int64.ofNat f.stack.length < o.pops) :
    (∃ index, execute setup st f o = abort st f (.overflow index)) ∨
    (execute setup st f o = perform setup st f o ∧
      ¬ Int64.ofNat maxStackDepth < Int64.ofNat f.stack.length - o.pops + o.pushes) := by
  simp only [execute, if_neg enough]
  split
  next full => exact .inl ⟨_, rfl⟩
  next room => exact .inr ⟨rfl, room⟩

theorem ofNat_not_lt {n : Nat} {k : Int64} (small : n < 2 ^ 62) (enough : k.toInt ≤ n) :
    ¬ Int64.ofNat n < k := by
  rw [Int64.lt_iff_toInt_lt, Int64.toInt_ofNat_of_lt (by omega)]
  omega

private theorem View.after?_enough {v w : View} {o : Operation} (after : v.after? o = some w)
    (small : v.stack.length < 2 ^ 62) : ¬ Int64.ofNat v.stack.length < o.pops := by
  refine ofNat_not_lt small ?_
  unfold View.after? at after
  split at after
  case h_3 stack | h_4 stack | h_7 stack =>
    change (1 : Int) ≤ v.stack.length
    rw [stack, List.length_cons]
    omega
  case h_5 depth _ _ _ stack =>
    split at after
    · next one =>
      subst one
      change (2 : Int) ≤ v.stack.length
      rw [stack, List.length_cons, List.length_cons]
      omega
    · cases after
  case h_8 inv _ _ stack =>
    split at after
    · next counts =>
      change inv.args.toInt ≤ v.stack.length
      rw [counts.1, stack, List.length_cons]
      change (1 : Int) ≤ _
      omega
    · cases after
  case h_10 => cases after
  all_goals simp [Operation.pops]

private theorem standard_answer {h : Heap} {exception : Nat} {inv : Invocation} {x : Value}
    (answers : answer? h exception inv.helper = some x) :
    standardHelper h inv [.exception exception] = (.values [x], h) := by
  unfold answer? at answers
  split at answers
  · next helper =>
    cases answers
    simp only [standardHelper, helper, asException, give]
  · next helper =>
    cases answers
    simp only [standardHelper, helper, asException, give]
  · next helper =>
    cases answers
    simp only [standardHelper, helper, asException, give]
  · cases answers

/-- A view, as the operation that a configuration is about to execute has it. -/
structure Seen (v : View) (st : State) (f : Frame) : Prop where
  routine : f.routine = v.routine
  ip : f.ip = v.ip + 1
  stack : f.stack = v.stack
  locals : f.locals = v.locals
  heap : st.heap = v.heap
  handled : st.handled = v.handled

theorem Issued.seen {o : Operation} {st : State} {f : Frame} {v : View} (issued : Issued c o st f)
    (view : c.view = v) : Seen v st f := by
  subst view
  exact ⟨issued.routine, issued.ip, issued.stack, issued.locals, issued.heap, issued.handled⟩

/-- What an operation of a handler leaves. -/
theorem Seen.leaves (plain : setup.helpers = []) {o : Operation} {st : State} {f : Frame} {v w : View}
    (seen : Seen v st f) (after : v.after? o = some w) (small : v.stack.length < 2 ^ 62) :
    (∃ index, execute setup st f o = abort st f (.overflow index)) ∨
    ∃ st' g, execute setup st f o = (st', .next g) ∧ Config.view ⟨st', g, v.waiting⟩ = w := by
  obtain ⟨routine, ip, stack, locals, heap, handled⟩ := seen
  have enough := View.after?_enough after small
  rw [← stack] at enough
  rcases execute_performs st enough with full | ⟨performs, room⟩
  · exact .inl full
  rw [performs]
  right
  unfold View.after? at after
  split at after
  case h_1 =>
    cases after
    refine ⟨st, f, by simp only [perform], ?_⟩
    simp only [Config.view, routine, ip, stack, locals, heap, handled]
  case h_2 =>
    cases after
    refine ⟨st, { f with stack := st.handled :: f.stack }, by simp only [perform], ?_⟩
    simp only [Config.view, routine, ip, stack, locals, heap, handled]
  case h_3 x rest below =>
    cases after
    refine ⟨{ st with handled := x }, { f with stack := rest }, by simp only [perform, stack, below], ?_⟩
    simp only [Config.view, routine, ip, locals, heap]
  case h_4 x rest below =>
    cases after
    refine ⟨st, { f with stack := x :: x :: rest }, by simp only [perform, stack, below], ?_⟩
    simp only [Config.view, routine, ip, locals, heap, handled]
  case h_5 depth a b rest below =>
    split at after
    · next one =>
      cases after
      refine ⟨st, { f with stack := b :: a :: rest }, ?_, ?_⟩
      · simp only [perform, stack, below, one]
        rfl
      · simp only [Config.view, routine, ip, locals, heap, handled]
    · cases after
  case h_6 i _ =>
    split at after
    · cases after
    · next positive =>
      split at after
      · cases after
      · cases after
      · next x bound found =>
        cases after
        refine ⟨st, { f with stack := x :: f.stack }, ?_, ?_⟩
        · simp only [perform, if_neg positive, locals, found]
        · simp only [Config.view, routine, ip, stack, locals, heap, handled]
  case h_7 i x rest below =>
    split at after
    · cases after
    · next inside =>
      cases after
      refine ⟨st, { f with stack := rest, locals := f.locals.setIfInBounds i.toInt.toNat x }, ?_, ?_⟩
      · simp only [perform, stack, below, locals, inside]
        rfl
      · simp only [Config.view, routine, ip, locals, heap, handled]
  case h_8 inv ref rest below =>
    split at after
    · next counts =>
      obtain ⟨x, answers, rfl⟩ := Option.map_eq_some_iff.mp after
      have standard := helper_standard plain inv.helper
      have fits : ¬ (inv.results.toInt ≠ [x].length ∨ maxStackDepth < [x].length + rest.length) := by
        have length : f.stack.length = rest.length + 1 := by rw [stack, below]; rfl
        have same : Int64.ofNat (rest.length + 1) - 1 + 1 = Int64.ofNat (rest.length + 1) := by grind
        rw [← stack, length] at small
        simp only [Operation.pops, Operation.pushes, counts.1, counts.2, length, same, maxStackDepth] at room
        rw [Int64.ofNat_lt_iff_lt (by decide) (by omega)] at room
        simp only [counts.2, maxStackDepth, List.length_cons, List.length_nil]
        refine not_or.mpr ⟨by simp, by omega⟩
      refine ⟨st, { f with stack := x :: rest }, ?_, ?_⟩
      · have one : ¬ inv.args < 0 := by
          rw [counts.1]
          decide
        have count : inv.args.toInt.toNat = 1 := by rw [counts.1]; rfl
        simp only [perform, if_neg one, stack, below, count, invoke, standard, ofHeap, List.take_succ_cons,
          List.take_zero, List.reverse_singleton, List.drop_succ_cons, List.drop_zero, heap,
          standard_answer answers, pushResults, if_neg fits]
        rw [← heap]
        rfl
      · simp only [Config.view, routine, ip, locals, heap, handled]
    · cases after
  case h_9 label _ =>
    obtain ⟨target, found, rfl⟩ := Option.map_eq_some_iff.mp after
    refine ⟨st, { f with ip := target }, ?_, ?_⟩
    · simp only [perform, jump, routine, found]
    · simp only [Config.view, routine, stack, locals, heap, handled]
  case h_10 => cases after

/-- A run that is not disturbed executes an operation of a handler. -/
theorem Avoids.steps (plain : setup.helpers = []) {o : Operation} {v w : View}
    (undisturbed : Avoids disturbs setup c) (view : c.view = v) (operation : v.routine.ops[v.ip]? = some o)
    (after : v.after? o = some w) (small : v.stack.length < 2 ^ 62) :
    ∃ d, Executes setup [o] c d ∧ Avoids disturbs setup d ∧ d.view = w := by
  have waiting : v.waiting = c.waiting := by rw [← view]; rfl
  have operation : c.frame.routine.ops[c.frame.ip]? = some o := by rw [← view] at operation; exact operation
  obtain ⟨st, f, issued, stepped⟩ := undisturbed.issues operation
  rcases (issued.seen view).leaves plain after small with ⟨index, full⟩ | ⟨st', g, done, leaves⟩
  · rw [full] at stepped
    cases undisturbed c _ _ _ .refl stepped
  · rw [done] at stepped
    have goes : Goes setup c ⟨st', g, c.waiting⟩ := stepped
    exact ⟨_, .cons operation goes (.nil _), undisturbed.after goes, by rw [← waiting]; exact leaves⟩

private theorem View.after?_falls {v w : View} {o : Operation} (after : v.after? o = some w)
    (falls : o.terminates = false) :
    w.routine = v.routine ∧ w.ip = v.ip + 1 ∧ w.stack.length ≤ v.stack.length + 1 := by
  unfold View.after? at after
  split at after
  case h_1 | h_2 =>
    cases after
    simp
  case h_3 below | h_4 below =>
    cases after
    simp [below]
    try omega
  case h_5 below =>
    split at after
    · cases after
      simp [below]
    · cases after
  case h_6 =>
    split at after
    · cases after
    · split at after <;> cases after
      simp
  case h_7 below =>
    split at after <;> cases after
    simp [below]
    omega
  case h_8 below =>
    split at after
    · obtain ⟨_, _, rfl⟩ := Option.map_eq_some_iff.mp after
      simp [below]
    · cases after
  case h_9 => cases falls
  case h_10 => cases after

theorem View.run?_falls {operations : List Operation} {v w : View}
    (ran : v.run? operations = some w) (straight : ∀ o ∈ operations, o.terminates = false) :
    w.routine = v.routine ∧ w.ip = v.ip + operations.length ∧
      w.stack.length ≤ v.stack.length + operations.length := by
  induction operations generalizing v with
  | nil =>
    cases ran
    exact ⟨rfl, rfl, Nat.le_refl _⟩
  | cons o rest ih =>
    obtain ⟨next, after, later⟩ := Option.bind_eq_some_iff.mp ran
    obtain ⟨routine, ip, length⟩ := View.after?_falls after (straight o List.mem_cons_self)
    obtain ⟨same, place, depth⟩ := ih later fun o member => straight o (List.mem_cons_of_mem _ member)
    refine ⟨same.trans routine, ?_, ?_⟩
    · rw [place, ip, List.length_cons]
      omega
    · rw [List.length_cons]
      omega

/-- A run that is not disturbed executes the code of a handler. -/
theorem Avoids.executes (plain : setup.helpers = []) {operations : List Operation} {v w : View}
    (undisturbed : Avoids disturbs setup c) (view : c.view = v) (ran : v.run? operations = some w)
    (straight : ∀ o ∈ operations, o.terminates = false)
    (small : v.stack.length + operations.length < 2 ^ 62)
    (stands : ∀ m o, operations[m]? = some o → v.routine.ops[v.ip + m]? = some o) :
    ∃ d, Executes setup operations c d ∧ Avoids disturbs setup d ∧ d.view = w := by
  induction operations generalizing c v with
  | nil =>
    cases ran
    exact ⟨c, .nil c, undisturbed, view⟩
  | cons o rest ih =>
    obtain ⟨next, after, later⟩ := Option.bind_eq_some_iff.mp ran
    obtain ⟨routine, ip, length⟩ := View.after?_falls after (straight o List.mem_cons_self)
    rw [List.length_cons] at small
    obtain ⟨d, first, still, leaves⟩ :=
      undisturbed.steps plain view (stands 0 o rfl) after (by omega)
    obtain ⟨e, others, last, ends⟩ := ih still leaves later
      (fun o member => straight o (List.mem_cons_of_mem _ member)) (by omega) (fun m o found => by
        rw [routine, ip, Nat.add_assoc, Nat.add_comm 1]
        exact stands (m + 1) o found)
    exact ⟨e, first.append others, last, ends⟩

/-- Where an operation of a handler is executed, it leaves what is computed. -/
theorem Goes.leaves (plain : setup.helpers = []) {d : Config} {o : Operation} {v w : View}
    (goes : Goes setup c d) (view : c.view = v) (operation : v.routine.ops[v.ip]? = some o)
    (after : v.after? o = some w) (small : v.stack.length < 2 ^ 62) : d.view = w := by
  subst view
  obtain ⟨o', st, f, issued, move⟩ := goes_cases goes
  cases operation.symm.trans issued.operation
  rcases (issued.seen rfl).leaves plain after small with ⟨index, full⟩ | ⟨st', g, next, leaves⟩
  · cases move with
    | next done | enter done | back done | raise done => cases full.symm.trans done
  · cases move with
    | next done same =>
      cases next.symm.trans done
      rw [← leaves, Config.view, Config.view, same]
      rfl
    | enter done | back done | raise done => cases next.symm.trans done

/-- Where the code of a handler is executed, it leaves what is computed. -/
theorem Executes.leaves (plain : setup.helpers = []) {operations : List Operation} {d : Config}
    {v w : View} (executes : Executes setup operations c d) (view : c.view = v)
    (ran : v.run? operations = some w) (straight : ∀ o ∈ operations, o.terminates = false)
    (small : v.stack.length + operations.length < 2 ^ 62) : d.view = w := by
  induction executes generalizing v with
  | nil =>
    cases ran
    exact view
  | @cons o rest c d e operation goes later ih =>
    obtain ⟨next, after, remains⟩ := Option.bind_eq_some_iff.mp ran
    obtain ⟨_, _, length⟩ := View.after?_falls after (straight o List.mem_cons_self)
    rw [List.length_cons] at small
    have first := goes.leaves plain view (by rw [← view]; exact operation) after (by omega)
    exact ih first remains (fun o member => straight o (List.mem_cons_of_mem _ member)) (by omega)

/-- A jump keeps the stack. -/
theorem Goes.jumps {d : Config} {label : Label} (goes : Goes setup c d)
    (operation : c.frame.routine.ops[c.frame.ip]? = some (.goto label)) :
    d.frame.stack = c.frame.stack := by
  obtain ⟨o, st, f, issued, move⟩ := goes_cases goes
  cases operation.symm.trans issued.operation
  have done : (∃ ip, execute setup st f (.goto label) = (st, .next { f with ip })) ∨
      ∃ g ending, execute setup st f (.goto label) = (st, .finish g ending) ∧
        ∀ v, ending ≠ .returned v := by
    unfold execute perform jump abort
    dsimp only
    repeat' split
    all_goals simp
  rcases done with ⟨ip, next⟩ | ⟨g, ending, ended, other⟩
  · cases move with
    | next done =>
      have same := congrArg Prod.snd (next.symm.trans done)
      rw [← Effect.next.inj same]
      exact issued.stack
    | enter done | back done | raise done => cases next.symm.trans done
  · cases move with
    | back done =>
      cases ended.symm.trans done
      exact absurd rfl (other _)
    | next done | enter done | raise done => cases ended.symm.trans done

end Lowering.Proofs
