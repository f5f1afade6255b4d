import Mathlib
import Lowering.Proofs.DepthWalk
import Lowering.Proofs.Effects

/-! A routine whose depths were found runs at these depths. Every frame of it, on any machine, has as
many values on its stack as the walk says, so that it neither takes what is not there nor goes
where nothing is. -/

namespace Lowering.Proofs
open Machine Host

variable {r : Routine} {d : Depths}

/-- No stack is deeper: a handler is given one more value than was kept. -/
def fullStack : Nat := addressable + 1

theorem depth_positive {n : Nat} (small : n ≤ fullStack) : 0 ≤ Int64.ofNat n :=
  Int64.zero_le_ofNat_of_lt (by simp only [fullStack, addressable] at small; omega)

/-- A frame that is about to execute an operation. -/
structure Level (r : Routine) (d : Depths) (f : Frame) : Prop where
  routine : f.routine = r → f.snippet = false
  known : f.routine = r → f.stack.length ≤ fullStack ∧
    d.before[f.ip]? = some (Int64.ofNat f.stack.length)

/-- A frame whose last operation took its operands and has not given anything back. -/
structure Paused (r : Routine) (d : Depths) (o : Operation) (f : Frame) : Prop where
  routine : f.routine = r → f.snippet = false
  operation : f.routine.ops[f.ip - 1]? = some o
  started : 0 < f.ip
  known : f.routine = r → ∃ n, Int64.ofNat n = o.pops ∧ f.stack.length + n ≤ fullStack ∧
    d.before[f.ip - 1]? = some (Int64.ofNat (f.stack.length + n))

/-- The frame that executes is level, and those that wait have paused at a call. -/
structure Levelled (r : Routine) (d : Depths) (c : Config) : Prop where
  frame : Level r d c.frame
  waiting : ∀ g ∈ c.waiting, ∃ inv, 0 ≤ inv.args ∧ Paused r d (.invoke inv) g

/-- The edges of the operation that a frame is about to execute. -/
theorem Level.followed (agreeing : Agreeing r d) {c : Config} {o : Operation} {st : State}
    {f : Frame} (level : Level r d c.frame) (issued : Issued c o st f) (same : f.routine = r) :
    f.stack.length ≤ fullStack ∧
      Followed r d.before d.max c.frame.ip o (Int64.ofNat f.stack.length) := by
  have own : c.frame.routine = r := issued.routine ▸ same
  obtain ⟨small, known⟩ := level.known own
  rw [issued.stack]
  exact ⟨small, agreeing.followed _ _ _ (depth_positive small) known (own ▸ issued.operation)⟩

theorem Level.paused {c : Config} {o : Operation} {st : State} {f : Frame} {n : Nat}
    (level : Level r d c.frame) (issued : Issued c o st f)
    (enough : f.stack.length < 2 ^ 62 → n ≤ f.stack.length) (count : Int64.ofNat n = o.pops) :
    Paused r d o { f with stack := f.stack.drop n } where
  routine same := issued.snippet.trans (level.routine (issued.routine ▸ same))
  operation := by
    simp only [issued.routine, issued.ip, Nat.add_sub_cancel]
    exact issued.operation
  started := by simp [issued.ip]
  known same := by
    have own : c.frame.routine = r := issued.routine ▸ same
    obtain ⟨small, known⟩ := level.known own
    rw [← issued.stack] at small known
    have enough := enough (by simp only [fullStack, addressable] at small; omega)
    refine ⟨n, count, ?_⟩
    simp only [List.length_drop, Nat.sub_add_cancel enough, issued.ip, Nat.add_sub_cancel]
    exact ⟨small, known⟩

/-- An operation that goes on leaves the frame level: its edge was followed. -/
theorem Level.next (agreeing : Agreeing r d) {setup : Setup} {c : Config} {o : Operation}
    {st st' : State} {f g : Frame} (level : Level r d c.frame) (issued : Issued c o st f)
    (done : execute setup st f o = (st', .next g)) : Level r d g := by
  have within := execute_within setup st f o
  rw [done] at within
  obtain ⟨same, snippet, _, moves, length, after⟩ := within
  refine ⟨fun own => snippet.trans (issued.snippet.trans (level.routine ?_)), fun own => ?_⟩
  · rw [← issued.routine, ← same, own]
  obtain ⟨small, followed⟩ := level.followed agreeing issued (same ▸ own)
  have after := after (by simp only [fullStack, addressable] at small; omega)
  have fits : g.stack.length ≤ fullStack := by
    simp only [execute] at done
    split at done
    · cases done
    · split at done
      · cases done
      · next room =>
        simp only [fullStack, addressable, maxStackDepth] at small length room ⊢
        rw [← after, Int64.ofNat_lt_iff_lt (by decide) (by omega)] at room
        omega
  refine ⟨fits, ?_⟩
  have positive : 0 ≤ Int64.ofNat f.stack.length - o.pops + o.pushes := by
    rw [← after]
    exact depth_positive fits
  rw [after]
  rcases moves with ⟨ip, falls⟩ | ⟨label, target, found⟩
  · rw [ip, issued.ip]
    exact (followed.falls falls).2 positive
  · obtain ⟨ip, defined, arrives⟩ := followed.jumps label target
    rw [show f.routine = r from same ▸ own, defined] at found
    cases found
    exact arrives.2 positive

/-- What a frame that is protected and catches an exception looks like. -/
theorem receive_caught {exception : Nat} {f g : Frame} (caught : receive exception f = .caught g) :
    ∃ region target, f.routine.regionAt? (Int64.ofNat (f.ip - 1)) = some region ∧
      f.routine.labelIndex? region.handler = some target ∧ 0 ≤ region.depth ∧
      f.stack.length ≤ addressable ∧ region.depth.toInt.toNat ≤ f.stack.length ∧
      g = { f with
        stack := .exception exception ::
          f.stack.drop (f.stack.length - region.depth.toInt.toNat)
        ip := target } := by
  unfold receive at caught
  dsimp only at caught
  split at caught
  · cases caught
  · next region found =>
    split at caught
    · cases caught
    · next target defined =>
      split at caught
      · cases caught
      · next deep =>
        split at caught
        · cases caught
        · next sane =>
          cases caught
          simp only [Bool.or_eq_true, decide_eq_true_eq, not_or, Int64.not_lt, Nat.not_lt] at sane
          have kept := toNat_le_of_not_lt (by simp only [addressable] at sane; omega) deep
          exact ⟨region, target, found, defined, sane.1, sane.2, kept, rfl⟩

/-- The exceptional edge of the operation at which a frame has paused. -/
theorem Paused.followed (agreeing : Agreeing r d) {o : Operation} {f : Frame}
    (paused : Paused r d o f) (own : f.routine = r) {region : Protected}
    (found : f.routine.regionAt? (Int64.ofNat (f.ip - 1)) = some region) :
    ∃ target, f.routine.labelIndex? region.handler = some target ∧
      Arrives d.before target (region.depth + 1) := by
  obtain ⟨n, _, small, known⟩ := paused.known own
  subst own
  have followed := agreeing.followed _ _ _ (depth_positive small) known paused.operation
  exact (followed.raises region found).2

/-- A frame that catches an exception is level again. -/
theorem Paused.caught (agreeing : Agreeing r d) {o : Operation} {f g : Frame}
    {exception : Nat} (paused : Paused r d o f) (caught : receive exception f = .caught g) :
    Level r d g := by
  obtain ⟨region, target, found, defined, positive, small, enough, rfl⟩ := receive_caught caught
  refine ⟨paused.routine, fun own => ?_⟩
  obtain ⟨ip, label, arrives⟩ := paused.followed agreeing own found
  rw [defined] at label
  cases label
  have length : (f.stack.drop (f.stack.length - region.depth.toInt.toNat)).length =
      region.depth.toInt.toNat := by
    simp only [List.length_drop]
    omega
  simp only [List.length_cons, length, Int64.ofNat_add, ofNat_toNat positive]
  have fits : region.depth.toInt.toNat + 1 ≤ fullStack := by
    simp only [fullStack]
    omega
  refine ⟨fits, arrives.2 ?_⟩
  have above := depth_positive fits
  rwa [Int64.ofNat_add, ofNat_toNat positive] at above

/-- A frame that gets the result it waited for is level again. -/
theorem Paused.back (agreeing : Agreeing r d) {inv calling : Invocation} {f g : Frame} {st : State}
    {v : Value} (paused : Paused r d (.invoke inv) f)
    (waits : f.routine.ops[f.ip - 1]? = some (.invoke calling))
    (pushed : pushResults st f calling [v] = (st, .next g)) : Level r d g := by
  have same := waits.symm.trans paused.operation
  cases same
  rcases pushResults_cases st f inv [v] with ⟨done, count, room⟩ | failed
  · rw [done] at pushed
    simp only [Prod.mk.injEq, Effect.next.injEq, true_and] at pushed
    subst pushed
    refine ⟨paused.routine, fun own => ?_⟩
    obtain ⟨n, taken, small, known⟩ := paused.known own
    simp only [List.reverse_cons, List.reverse_nil, List.nil_append, List.cons_append,
      List.length_cons, List.length_nil, maxStackDepth] at room count ⊢
    have fits : f.stack.length + 1 ≤ fullStack := by
      simp only [fullStack, addressable]
      omega
    refine ⟨fits, ?_⟩
    subst own
    have followed := agreeing.followed _ _ _ (depth_positive small) known paused.operation
    have falls := (followed.falls rfl).2
    have result : inv.results = 1 := Int64.toInt.inj (by simpa using count)
    have after : Int64.ofNat (f.stack.length + n) - (Operation.invoke inv).pops +
        (Operation.invoke inv).pushes = Int64.ofNat (f.stack.length + 1) := by
      rw [← taken, Int64.ofNat_add, Int64.ofNat_add]
      simp only [Operation.pushes, result]
      grind
    rw [after, Nat.sub_add_cancel paused.started] at falls
    exact falls (depth_positive fits)
  · rw [failed] at pushed
    cases pushed

theorem Offered.paused {o : Operation} {f g : Frame} {exception : Nat} {callers rest : List Frame}
    (offered : Offered exception f callers g rest) (first : Paused r d o f)
    (waiting : ∀ h ∈ callers, ∃ inv, 0 ≤ inv.args ∧ Paused r d (.invoke inv) h) :
    (∃ p, Paused r d p g) ∧ ∀ h ∈ rest, ∃ inv, 0 ≤ inv.args ∧ Paused r d (.invoke inv) h := by
  induction offered generalizing o with
  | here => exact ⟨⟨o, first⟩, waiting⟩
  | passed _ _ ih =>
    obtain ⟨inv, _, paused⟩ := waiting _ List.mem_cons_self
    exact ih paused fun h member => waiting h (List.mem_cons_of_mem _ member)

theorem enter_level (agreeing : Agreeing r d) (heap : Heap) (routine : Routine) (args : List Value)
    (depth : Nat) : Level r d (Frame.enter heap routine args depth).1 :=
  ⟨fun _ => rfl, fun _ => ⟨Nat.zero_le _, agreeing.entry⟩⟩

/-- Every step of a run keeps all frames at their depths. -/
theorem Levelled.step (agreeing : Agreeing r d) {setup : Setup} {c c' : Config}
    (levelled : Levelled r d c) (goes : Goes setup c c') : Levelled r d c' := by
  obtain ⟨o, st, f, issued, move⟩ := goes_cases goes
  have within := execute_within setup st f o
  cases move with
  | next done same => exact ⟨levelled.frame.next agreeing issued done, same ▸ levelled.waiting⟩
  | enter done below =>
    rw [done] at within
    obtain ⟨inv, rfl, positive, enough, rfl, heap, routine, args, depth, callee⟩ := within
    have paused := levelled.frame.paused issued enough (ofNat_toNat positive)
    refine ⟨callee ▸ enter_level agreeing heap routine args depth, fun g member => ?_⟩
    rw [below] at member
    rcases List.mem_cons.mp member with rfl | member
    · exact ⟨inv, positive, paused⟩
    · exact levelled.waiting g member
  | back done below calling pushed =>
    have waiting := levelled.waiting
    rw [below] at waiting
    obtain ⟨inv, _, paused⟩ := waiting _ List.mem_cons_self
    exact ⟨paused.back agreeing calling pushed, fun g member => waiting g (List.mem_cons_of_mem _ member)⟩
  | raise done offered caught =>
    rw [done] at within
    obtain ⟨n, enough, count, rfl⟩ := within
    have paused := levelled.frame.paused issued enough count
    obtain ⟨⟨p, last⟩, waiting⟩ := offered.paused paused levelled.waiting
    exact ⟨last.caught agreeing caught, waiting⟩

/-- The endings that blame a frame for taking what is not on its stack, for going where no
operation is, or for ending as only snippets may. -/
inductive Stray : Ending → Prop
  | underflow (index : Nat) (operation : String) : Stray (.failed (.underflow index operation))
  | undefinedLabel (label : Label) : Stray (.failed (.undefinedLabel label))
  | undefinedHandler (label : Label) : Stray (.failed (.undefinedHandler label))
  | endOfRoutine (name : String) : Stray (.failed (.endOfRoutine name))
  | fellThrough : Stray .fellThrough
  | exited (label : Label) : Stray (.exited label)

/-- An operation of a level frame does not end astray. -/
theorem Level.ends (agreeing : Agreeing r d) {setup : Setup} {c : Config} {o : Operation}
    {st st' : State} {f g : Frame} {ending : Ending} (level : Level r d c.frame)
    (issued : Issued c o st f) (done : execute setup st f o = (st', .finish g ending))
    (own : g.routine = r) :
    ¬ Stray ending ∧ (d.max ≤ Int64.ofNat maxStackDepth →
      ∀ index, ending ≠ .failed (.overflow index)) := by
  have within := execute_within setup st f o
  rw [done] at within
  obtain ⟨routine, _, ends⟩ := within
  obtain ⟨_, followed⟩ := level.followed agreeing issued (routine ▸ own)
  constructor
  · intro stray
    cases stray with
    | underflow => exact followed.enough ends
    | undefinedLabel label =>
      obtain ⟨named, missing⟩ : o.target? = some label ∧ f.routine.labelIndex? label = none := ends
      obtain ⟨target, defined, _⟩ := followed.jumps label named
      rw [← routine, own, defined] at missing
      cases missing
    | undefinedHandler | endOfRoutine | fellThrough => exact ends
    | exited =>
      have snippet : f.snippet = true := ends
      rw [issued.snippet, level.routine (by rw [← issued.routine, ← routine, own])] at snippet
      cases snippet
  · rintro bound index rfl
    have above : Int64.ofNat maxStackDepth < _ := ends
    exact Int64.lt_irrefl (Int64.lt_of_lt_of_le above (Int64.le_trans followed.bounded bound))

/-- A frame of the routine that cannot receive an exception still knows its handler. -/
theorem Paused.failed (agreeing : Agreeing r d) {o : Operation} {f : Frame} {exception : Nat}
    {fault : Machine.Fault} (paused : Paused r d o f) (own : f.routine = r)
    (failed : receive exception f = .failed fault) :
    ¬ Stray (.failed fault) ∧ ∀ index, fault ≠ .overflow index := by
  unfold receive at failed
  dsimp only at failed
  split at failed
  · cases failed
  · next region found =>
    obtain ⟨target, defined, _⟩ := paused.followed agreeing own found
    rw [defined] at failed
    dsimp only at failed
    split at failed
    · cases failed
      exact ⟨nofun, nofun⟩
    · split at failed
      · cases failed
        exact ⟨nofun, nofun⟩
      · cases failed

/-- No step of a run blames a frame of the routine for leaving its depths. -/
theorem Levelled.ends (agreeing : Agreeing r d) {setup : Setup} {c : Config} {st' : State}
    {g : Frame} {ending : Ending} (levelled : Levelled r d c)
    (ended : Machine.step setup c.state c.frame c.waiting = (st', .ended g ending))
    (own : g.routine = r) :
    ¬ Stray ending ∧ (d.max ≤ Int64.ofNat maxStackDepth →
      ∀ index, ending ≠ .failed (.overflow index)) := by
  rcases ends_cases ended with ⟨routine, stopped⟩ | ⟨o, st, f, issued, finish⟩
  · have inside : c.frame.routine.ops[c.frame.ip]? ≠ none := by
      obtain ⟨_, known⟩ := levelled.frame.known (routine ▸ own)
      obtain ⟨within, _⟩ := Array.getElem?_eq_some_iff.mp known
      rw [agreeing.size] at within
      simpa [← routine, own] using within
    cases stopped with
    | fellThrough outside | endOfRoutine outside => exact absurd outside inside
    | cancelled | stepLimit | halted =>
      exact ⟨nofun, fun _ _ => nofun⟩
  · cases finish with
    | own done => exact levelled.frame.ends agreeing issued done own
    | halted => exact ⟨nofun, fun _ _ => nofun⟩
    | refused => exact ⟨nofun, fun _ _ => nofun⟩
    | thrown => exact ⟨nofun, fun _ _ => nofun⟩
    | lost done below elsewhere =>
      obtain ⟨inv, _, paused⟩ := levelled.waiting g (below ▸ List.mem_cons_self)
      exact absurd paused.operation (elsewhere inv)
    | received done offered failed =>
      have within := execute_within setup st f o
      rw [done] at within
      obtain ⟨n, enough, count, rfl⟩ := within
      have paused := levelled.frame.paused issued enough count
      obtain ⟨⟨p, last⟩, _⟩ := offered.paused paused levelled.waiting
      obtain ⟨straight, bounded⟩ := last.failed agreeing own failed
      exact ⟨straight, fun _ index same => bounded index (Ending.failed.inj same)⟩

/-- The start of a run: a routine is called with arguments, and nothing waits for it. -/
def Config.enter (st : State) (routine : Routine) (args : List Value) (depth : Nat) : Config where
  state := { st with heap := (Frame.enter st.heap routine args depth).2 }
  frame := (Frame.enter st.heap routine args depth).1
  waiting := []

theorem Levelled.reaches (agreeing : Agreeing r d) {setup : Setup} {st : State} {entered : Routine}
    {args : List Value} {depth : Nat} {c : Config}
    (reached : Reaches setup (.enter st entered args depth) c) : Levelled r d c :=
  reached.keeps (fun levelled goes => levelled.step agreeing goes)
    ⟨enter_level agreeing _ entered args depth, nofun⟩

/-- How a run begins: a routine is called, or a snippet is executed, which is no activation of the routine. -/
inductive Begins (r : Routine) : Config → Prop
  | call (st : State) (entered : Routine) (args : List Value) (depth : Nat) :
    Begins r (.enter st entered args depth)
  | snippet (st : State) {f : Frame} (outside : f.snippet = true) (other : f.routine ≠ r) : Begins r ⟨st, f, []⟩

/-- The configurations of a run, and those of the runs that helpers begin. A helper that is invoked may
begin any runs, in any state that it has got to, before it answers. -/
inductive Occurs (setup : Setup) (r : Routine) (start : Config) : Config → Prop
  | start : Occurs setup r start start
  | goes {c c' : Config} (before : Occurs setup r start c) (goes : Goes setup c c') : Occurs setup r start c'
  | within {c c' : Config} {inv : Invocation} (before : Occurs setup r start c)
    (invoking : c.frame.routine.ops[c.frame.ip]? = some (.invoke inv)) (begins : Begins r c') :
    Occurs setup r start c'

theorem Begins.levelled (agreeing : Agreeing r d) {c : Config} (begins : Begins r c) : Levelled r d c := by
  cases begins with
  | call st entered args depth => exact ⟨enter_level agreeing _ entered args depth, nofun⟩
  | snippet st outside other => exact ⟨⟨fun own => absurd own other, fun own => absurd own other⟩, nofun⟩

theorem Occurs.levelled (agreeing : Agreeing r d) {setup : Setup} {start c : Config} (begins : Begins r start)
    (occurs : Occurs setup r start c) : Levelled r d c := by
  induction occurs with
  | start => exact begins.levelled agreeing
  | goes _ goes ih => exact ih.step agreeing goes
  | within _ _ inner _ => exact inner.levelled agreeing

theorem Occurs.reaches {setup : Setup} {start c c' : Config} (occurs : Occurs setup r start c)
    (reached : Reaches setup c c') : Occurs setup r start c' := by
  induction reached with
  | refl => exact occurs
  | step _ goes ih => exact ih.goes goes

/-- The depths of a routine are what happens. Whatever is run on whatever machine, and whatever its helpers
run in turn, each time an activation of the routine is about to execute an operation, its stack is as deep as
the walk found, and no deeper than its maximum. No run ends with an activation of the routine to blame for its
stack or for where it went, and not for a full stack either when the maximum fits. -/
theorem run_within_depths (setup : Setup) (r : Routine) (d : Depths)
    (present : r.ops.isEmpty = false) (accepted : Depths.ofRoutine r = .ok d) {start : Config}
    (begins : Begins r start) :
    (∀ c, Occurs setup r start c →
      (c.frame.routine = r → ∃ before, d.before[c.frame.ip]? = some before ∧
        before.toInt = c.frame.stack.length ∧ before ≤ d.max) ∧
      ∀ st' g ending, step setup c.state c.frame c.waiting = (st', .ended g ending) → g.routine = r →
        ¬ Stray ending ∧ (d.max ≤ Int64.ofNat maxStackDepth → ∀ index, ending ≠ .failed (.overflow index))) ∧
    ∀ fuel st' g ending, run setup fuel start.state start.frame start.waiting = (st', g, ending) →
      g.routine = r → ¬ Stray ending ∧
        (d.max ≤ Int64.ofNat maxStackDepth → ∀ index, ending ≠ .failed (.overflow index)) := by
  have agreeing := ofRoutine_agrees present accepted
  have ends : ∀ c, Occurs setup r start c → ∀ st' g ending,
      step setup c.state c.frame c.waiting = (st', .ended g ending) → g.routine = r → ¬ Stray ending ∧
        (d.max ≤ Int64.ofNat maxStackDepth → ∀ index, ending ≠ .failed (.overflow index)) :=
    fun c occurs st' g ending last own => (occurs.levelled agreeing begins).ends agreeing last own
  refine ⟨fun c occurs => ⟨fun own => ?_, ends c occurs⟩, fun fuel st' g ending ran own => ?_⟩
  · obtain ⟨small, known⟩ := (occurs.levelled agreeing begins).frame.known own
    refine ⟨_, known, ?_, agreeing.bounded _ _ (depth_positive small) known⟩
    exact Int64.toInt_ofNat_of_lt (by simp only [fullStack, addressable] at small; omega)
  · rcases run_ends setup fuel start with out | ⟨c, reached, last⟩
    · rw [ran] at out
      cases out
      exact ⟨nofun, fun _ _ => nofun⟩
    · rw [ran] at last
      exact ends c (Occurs.start.reaches reached) _ _ _ last own

/-- A routine that raises under protection and returns what its handler finds. -/
def guardedRaise : Routine where
  ops := #[.const .none, .const .none, .throw, .label (-1), .swap 1, .pop, .ret]
  regions := [⟨2, 3, -1, 1⟩]

def guardedDepths : Depths where
  before := #[0, 1, 2, 2, 2, 2, 1]
  labels := [(-1, 2)]
  max := 2

/-- A helper that runs a routine twice, whatever becomes of the first run. -/
def retry (r : Routine) : HelperFunction := fun st depth _ _ =>
  match runRoutine {} 9 st depth r [] with
  | (st, _) =>
    match runRoutine {} 9 st depth r [] with
    | (st, .returned v) => (.values [v], st)
    | (st, _) => (.values [.none], st)

def withRetry : Setup := { helpers := [("retry", retry guardedRaise)] }

/-- A routine that leaves its work to the helper. -/
def relying : Routine where
  ops := #[.invoke { helper := .other "retry", args := 0, results := 1 }, .ret]

/-- The routine has caught its exception, in a run that the helper has begun. -/
theorem guardedRaise_within_depths :
    Depths.ofRoutine guardedRaise = .ok guardedDepths ∧
    Begins guardedRaise (.enter bareState relying [] 1) ∧
    ∃ c, Occurs withRetry guardedRaise (.enter bareState relying [] 1) c ∧ c.frame.routine = guardedRaise ∧
      c.frame.ip = 3 ∧ ∃ before, guardedDepths.before[c.frame.ip]? = some before ∧
        before.toInt = c.frame.stack.length ∧ before ≤ guardedDepths.max := by
  have accepted : Depths.ofRoutine guardedRaise = .ok guardedDepths := by cbv
  have begins : Begins guardedRaise (.enter bareState relying [] 1) := .call _ _ _ _
  have occurs : Occurs withRetry guardedRaise (.enter bareState relying [] 1)
      ((Config.enter bareState guardedRaise [] 2).later withRetry 3) :=
    (Occurs.start.within (c := .enter bareState relying [] 1) rfl (.call bareState guardedRaise [] 2)).reaches
      (reaches_later _ _ 3)
  have own : ((Config.enter bareState guardedRaise [] 2).later withRetry 3).frame.routine = guardedRaise := by cbv
  have place : ((Config.enter bareState guardedRaise [] 2).later withRetry 3).frame.ip = 3 := by cbv
  exact ⟨accepted, begins, _, occurs, own, place,
    ((run_within_depths withRetry guardedRaise guardedDepths rfl accepted begins).1 _ occurs).1 own⟩

end Lowering.Proofs
