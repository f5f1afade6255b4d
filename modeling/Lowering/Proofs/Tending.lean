import Lowering.Proofs.Spots

/-! Activations of a legacy function.

An activation executes the function, or waits for a call. It tends what it handles: as long as its calls
return and raise with the register as they found it, no step leads it off the spots of its function. -/

namespace Lowering.Proofs
open Machine Host Shape Guest Emission

variable {setup : Setup} {plan : Plan} {bound : Array Bound} {analysis : Analysis.State}
  {maxDepth : Int64} {c : Config}

section
variable {ledger : Ledger} {register : Value} {stack : List Value}

/-- What raises is protected by the blocks inside which it stands. -/
theorem Spot.raises (blocked : Blocked plan bound analysis) {locals : Array Value} {ip : Nat}
    (spot : Spot plan bound analysis maxDepth (ledger.holding plan locals) register stack ip)
    (initial : ledger.initial ≠ .unbound) {op : Operation}
    (operation : (routineOf plan bound analysis maxDepth).ops[ip]? = some op)
    (troubled : Troubled locals op) :
    ∃ blocks, Seated plan bound analysis blocks ∧
      Guards (contextOf plan analysis) (cleanupsOf plan bound analysis) blocks
        (((routineOf plan bound analysis maxDepth).regionAt? (Int64.ofNat ip)).map fun region =>
          ⟨region.handler, region.depth⟩) ∧
      (ledger.holding plan locals).Tells blocks register := by
  cases spot with
  | @own _ _ _ p reached inside here tells =>
    obtain ⟨_, protection, guarded, _, stands⟩ := blocked.instruction reached maxDepth
    have found := stands.found inside (here ▸ operation)
    obtain ⟨_, _, protects⟩ := stands _ _ found
    simp only [Guarded, show (contextOf plan analysis).plan.dialect = .legacy from blocked.legacy]
      at guarded
    rw [here, protects]
    exact ⟨p.blocks, blocked.seated reached, guarded, tells⟩
  | around reached jumps here =>
    obtain ⟨_, _, _, stands, _⟩ := blocked.instruction reached maxDepth
    have code := (stands _ _ jumps).1
    rw [← here, operation] at code
    cases code
    exact troubled.elim
  | @opening j n _ q _ _ _ _ reached known split inside here blocks opens =>
    obtain ⟨_, protection, guarded, stands, _⟩ := blocked.instruction reached maxDepth
    rw [split] at stands
    have found := stands.append.2.append.1.found inside (here ▸ operation)
    obtain ⟨_, _, protects⟩ := stands.append.2.append.1 _ _ found
    rw [Region.prologue, (blocked.stable.placing blocked.planned known).dialect, blocked.legacy] at found
    simp only [Guarded, show (contextOf plan analysis).plan.dialect = .legacy from blocked.legacy]
      at guarded
    rw [here, protects]
    refine ⟨q.blocks, blocked.seated reached, guarded, ?_⟩
    rw [blocks]
    cases opens with
    | gets | stores =>
      cases found
      exact troubled.elim
    | sets first last =>
      have which : n = 2 ∨ n = 3 := by omega
      rcases which with rfl | rfl
      all_goals
        cases found
        exact troubled.elim
    | done _ tells => exact tells
  | @restoring n _ entry member running seated first here restores =>
    obtain ⟨_, _, _, _, guards, stands, defined⟩ := blocked.cleanup member maxDepth
    have same := first.symm.trans defined
    cases same
    have found := stands.found restores.inside (here ▸ operation)
    obtain ⟨_, _, protects⟩ := stands _ _ found
    rw [here, protects]
    refine ⟨entry.below, seated.below, guards, ?_⟩
    cases restores with
    | loads last tells =>
      have which : n = 0 ∨ n = 1 := by omega
      rcases which with rfl | rfl
      · cases found
        exact troubled.elim
      · cases found
        obtain ⟨w, saved, under⟩ := tells.under running
        have missing : locals[_]? = some Value.unbound := troubled
        rw [(blocked.scratch (seated _ _ List.suffix_rfl)).2.2] at missing
        have same : some w = some .unbound := saved.symm.trans missing
        cases same
        exact absurd rfl (under.proper initial)
    | sets =>
      cases found
      exact troubled.elim
    | throws tells => exact tells

/-- An exception that is caught has come to the label of a handler. -/
inductive Caught (plan : Plan) (bound : Array Bound) (analysis : Analysis.State) (maxDepth : Int64)
    (ledger : Ledger) (register : Value) (stack : List Value) (ip : Nat) (exception : Nat)
    (region : Int64) : Prop
  | arrived {j : Nat} {o : Bound} {q : Point} {before : List Operation} {rest : List Region} {r : Region}
      {label : Label} {below : List Block} {kept : List Value} (reached : Reached bound analysis j o q)
      (known : r ∈ analysis.regions) (id : r.id = region)
      (split : leadAt plan bound analysis j o = before ++ .label label ::
        (r.prologue ++ lead (contextOf plan analysis) o.inst.offset true rest))
      (labelled : (contextOf plan analysis).catch? region = some label)
      (first : (routineOf plan bound analysis maxDepth).labelIndex? label = some ip)
      (place : ip = leadStart plan bound analysis j + before.length)
      (blocks : q.blocks = ⟨region, true⟩ :: below) (tells : ledger.Tells below register)
      (top : stack = .exception exception :: kept)

theorem Caught.operation {ip exception : Nat} {region : Int64}
    (caught : Caught plan bound analysis maxDepth ledger register stack ip exception region) :
    ∃ label, (routineOf plan bound analysis maxDepth).ops[ip]? = some (.label label) := by
  cases caught with
  | @arrived _ _ _ _ _ _ label _ _ _ _ _ _ _ first => exact ⟨label, (findLabel_some first).2⟩

/-- An exception that is caught has come to a handler, or to a cleanup. -/
theorem Seated.caught (blocked : Blocked plan bound analysis) {blocks : List Block}
    (seated : Seated plan bound analysis blocks) {f g : Frame}
    (guards : Guards (contextOf plan analysis) (cleanupsOf plan bound analysis) blocks (protectionOf f))
    (tells : ledger.Tells blocks register) (own : f.routine = routineOf plan bound analysis maxDepth)
    {exception : Nat} (received : receive exception f = .caught g) :
    (∃ region, Caught plan bound analysis maxDepth ledger register g.stack g.ip exception region) ∨
      Spot plan bound analysis maxDepth ledger register g.stack g.ip := by
  obtain ⟨protection, target, found, defined, _, _, _, rfl⟩ := receive_caught received
  rw [own] at defined
  generalize same : protectionOf f = protected_ at guards
  rw [protectionOf, found, Option.map_some] at same
  cases guards with
  | free | uncaught => cases same
  | @caught region below label catches =>
    have handler : protection.handler = label := congrArg Protection.handler (Option.some.inj same)
    rw [handler] at defined
    obtain ⟨r, _, j, o, q, present, _, reached, place, under⟩ := seated _ _ List.suffix_rfl
    have id : r.id = region := (regionIn?_spec blocked.numbered present).1
    have known := regionIn?_mem present
    obtain ⟨before, rest, split, first⟩ :=
      blocked.prologue known (id ▸ catches) reached place maxDepth
    have here := first.symm.trans defined
    cases tells with
    | setUp tells =>
      exact .inl ⟨region, .arrived reached known id split catches defined (Option.some.inj here).symm under
        tells rfl⟩
  | @unwound cleanup member running =>
    have handler : protection.handler = cleanup.label :=
      congrArg Protection.handler (Option.some.inj same)
    rw [handler] at defined
    exact .inr (.restoring member running seated defined (n := 0) rfl (.loads (by omega) tells))

/-- An exception leaves a frame only outside of all blocks. -/
theorem Seated.passed {blocks : List Block} (seated : Seated plan bound analysis blocks) {f : Frame}
    (guards : Guards (contextOf plan analysis) (cleanupsOf plan bound analysis) blocks (protectionOf f))
    (tells : ledger.Tells blocks register) {exception : Nat} (received : receive exception f = .passed) :
    register = ledger.initial := by
  have free : protectionOf f = none := by
    unfold receive at received
    dsimp only at received
    split at received
    · next none => simp [protectionOf, none]
    · split at received
      · cases received
      · split at received
        · cases received
        · split at received <;> cases received
  rw [free] at guards
  cases guards with
  | free =>
    cases tells
    rfl
  | uncaught missing =>
    obtain ⟨_, _, _, _, _, _, labelled, _⟩ := seated _ _ List.suffix_rfl
    cases missing.symm.trans labelled

theorem Settled.lead_apart (settled : Settled plan bound analysis) {i j n : Nat} {o o' : Bound}
    {p q : Point} (here : Reached bound analysis i o p) (there : Reached bound analysis j o' q)
    (inside : n < (leadAt plan bound analysis j o').length)
    (lower : ownStart plan bound analysis i o ≤ leadStart plan bound analysis j + n)
    (upper : leadStart plan bound analysis j + n < leadStart plan bound analysis (i + 1)) : False := by
  have ends := (settled.instruction there 0).1
  rw [ownStart] at ends lower
  have same : i = j := leadStart_unique (by omega) upper (by omega) (by omega)
  subst same
  have equal := here.found.symm.trans there.found
  cases equal
  omega

/-- Where an instruction is executed, its blocks tell what is handled. -/
theorem Spot.owned (blocked : Blocked plan bound analysis) {ip : Nat}
    (spot : Spot plan bound analysis maxDepth ledger register stack ip) {i : Nat} {o : Bound} {p : Point}
    (reached : Reached bound analysis i o p) (lower : ownStart plan bound analysis i o ≤ ip)
    (upper : ip < leadStart plan bound analysis (i + 1)) : ledger.Tells p.blocks register := by
  cases spot with
  | @own j m o' q there inside here tells =>
    have ends := (blocked.instruction there 0).1
    rw [ownStart] at here ends lower
    have same : i = j := leadStart_unique (by omega) upper (by omega) (by omega)
    subst same
    have equal := reached.point.symm.trans there.point
    cases equal
    exact tells
  | around there jumps here =>
    subst here
    exact (blocked.lead_apart reached there (List.getElem?_eq_some_iff.mp jumps).1 lower upper).elim
  | @opening _ n _ _ before _ r _ there _ split inside here =>
    rw [here, Nat.add_assoc] at lower upper
    refine (blocked.lead_apart reached there ?_ lower upper).elim
    rw [split]
    simp only [List.length_append]
    omega
  | restoring member _ _ first here =>
    obtain ⟨_, _, _, after, _, _, defined⟩ := blocked.cleanup member maxDepth
    have same := first.symm.trans defined
    cases same
    have inside := (Array.getElem?_eq_some_iff.mp reached.found).1
    have order : leadStart plan bound analysis (i + 1) ≤ leadStart plan bound analysis bound.size :=
      place_mono inside
    omega

/-- A handler is only entered by an exception. -/
theorem Spot.apart (blocked : Blocked plan bound analysis) {ip : Nat}
    (spot : Spot plan bound analysis maxDepth ledger register stack ip) {region : Int64}
    {below : List Block} (seat : Seat plan bound analysis region below) {label : Label} {index : Nat}
    (labelled : (contextOf plan analysis).catch? region = some label)
    (defined : (routineOf plan bound analysis maxDepth).labelIndex? label = some index) :
    ip ≠ index := by
  rintro rfl
  obtain ⟨r, _, j, o, q, present, _, there, handler, _⟩ := seat
  obtain ⟨id, _⟩ := regionIn?_spec blocked.numbered present
  obtain ⟨before, rest, split, first⟩ :=
    blocked.prologue (regionIn?_mem present) (id ▸ labelled) there handler maxDepth
  have index := first.symm.trans defined
  rw [Option.some.injEq] at index
  have length : before.length < (leadAt plan bound analysis j o).length := by
    rw [split]
    simp
  obtain ⟨ends, _, _, front, _⟩ := blocked.instruction there maxDepth
  have operation := (front before.length (.label label) (by rw [split]; simp)).1
  rw [index] at operation
  rw [ownStart] at ends
  cases spot with
  | @own i m o' p reached inside here =>
    have after := (blocked.instruction reached maxDepth).1
    exact blocked.lead_apart reached there length (by omega) (by omega)
  | around reached jumps here =>
    obtain ⟨_, _, _, stands, _⟩ := blocked.instruction reached maxDepth
    have code := (stands _ _ jumps).1
    rw [← here, operation] at code
    cases code
  | @opening j n o q before rest r below reached known split inside here blocks opens =>
    obtain ⟨_, _, _, stands, _⟩ := blocked.instruction reached maxDepth
    rw [split] at stands
    have found := stands.append.2.append.1.found inside (here ▸ operation)
    exact (prologue_straight (List.mem_of_getElem? found)).2.2 label rfl
  | @restoring n start entry member _ _ first here =>
    obtain ⟨_, _, _, after, _, _, defined⟩ := blocked.cleanup member maxDepth
    have same := first.symm.trans defined
    cases same
    have inside := (Array.getElem?_eq_some_iff.mp there.found).1
    have order : leadStart plan bound analysis (j + 1) ≤ leadStart plan bound analysis bound.size :=
      place_mono inside
    omega

/-- What one ledger tells, another one tells as well. -/
structure Ledger.Passes (plan : Plan) (bound : Array Bound) (analysis : Analysis.State)
    (ledger other : Ledger) : Prop where
  initial : other.initial = ledger.initial
  saved : other.saved = ledger.saved
  entered : ∀ {region : Int64} {below : List Block}, Seat plan bound analysis region below →
    ∀ {exception : Nat}, ledger.entered region exception → other.entered region exception

theorem Ledger.Tells.pass {other : Ledger} {blocks : List Block} (tells : ledger.Tells blocks register)
    (passes : ledger.Passes plan bound analysis other) (seated : Seated plan bound analysis blocks) :
    other.Tells blocks register := by
  refine tells.agree passes.initial fun b member => ⟨congrFun passes.saved _, fun _ entered => ?_⟩
  obtain ⟨_, seat⟩ := seated.seat member
  exact passes.entered seat entered

theorem Spot.pass (blocked : Blocked plan bound analysis) {other : Ledger} {ip : Nat}
    (passes : ledger.Passes plan bound analysis other)
    (spot : Spot plan bound analysis maxDepth ledger register stack ip) :
    Spot plan bound analysis maxDepth other register stack ip := by
  cases spot with
  | own reached inside here tells leaving =>
    have seated := blocked.seated reached
    refine .own reached inside here (tells.pass passes seated) fun leaves last => ?_
    obtain ⟨b, below, v, rest, blocks, top, under⟩ := leaving leaves last
    rw [blocks] at seated
    exact ⟨b, below, v, rest, blocks, top, under.pass passes seated.below⟩
  | around reached jumps here tells =>
    exact .around reached jumps here (tells.pass passes (blocked.seated reached))
  | opening reached known split inside here blocks opens =>
    have seated := blocked.seated reached
    rw [blocks] at seated
    have seat := seated _ _ List.suffix_rfl
    refine .opening reached known split inside here blocks ?_
    cases opens with
    | gets entered tells => exact .gets (passes.entered seat entered) (tells.pass passes seated.below)
    | stores entered tells => exact .stores (passes.entered seat entered) (tells.pass passes seated.below)
    | sets first last entered saved tells =>
      exact .sets first last (passes.entered seat entered) (passes.saved ▸ saved)
        (tells.pass passes seated.below)
    | done first tells => exact .done first (tells.pass passes seated)
  | restoring member running seated first here restores =>
    refine .restoring member running seated first here ?_
    cases restores with
    | loads last tells => exact .loads last (tells.pass passes seated)
    | sets tells => exact .sets (tells.pass passes seated.below)
    | throws tells => exact .throws (tells.pass passes seated.below)
end

/-- The last time that an activation was at an index, an exception was on top of its stack. -/
inductive LastAt (setup : Setup) (start : Config) (index exception : Nat) : Config → Prop
  | here {c : Config} {rest : List Value} (stays : Stays setup start c)
      (executing : c.waiting.length = start.waiting.length) (place : c.frame.ip = index)
      (top : c.frame.stack = .exception exception :: rest) : LastAt setup start index exception c
  | goes {c d : Config} (before : LastAt setup start index exception c) (goes : Goes setup c d)
      (inside : start.waiting.length ≤ d.waiting.length)
      (apart : d.waiting.length = start.waiting.length → d.frame.ip ≠ index) :
      LastAt setup start index exception d

/-- The ledger of an activation: a handler is entered at its label, with the exception on top of the
stack, and saves in the local of its region. -/
def ledgerOf (setup : Setup) (plan : Plan) (analysis : Analysis.State) (start c : Config)
    (locals : Array Value) : Ledger where
  entered region exception := ∃ label index, (contextOf plan analysis).catch? region = some label ∧
    start.frame.routine.labelIndex? label = some index ∧ LastAt setup start index exception c
  saved region := locals[(plan.scratch region).toInt.toNat]?
  initial := start.state.handled

/-- The next step gives control back to the frame below which so many wait: a call returns to it, or it
is offered an exception. -/
def Resumes (setup : Setup) (c : Config) (count : Nat) : Prop :=
  (∃ d, Goes setup c d ∧ d.waiting.length = count) ∨
    ∃ exception h rest, Raising setup c exception h rest ∧ rest.length = count

/-- The helpers that are invoked, and the calls of an activation, return or raise with the register as
they found it. -/
structure Discreet (setup : Setup) (start : Config) : Prop where
  helpers : ∀ c inv, Stays setup start c → c.frame.routine.ops[c.frame.ip]? = some (.invoke inv) →
    (step setup c.state c.frame c.waiting).1.handled = c.state.handled
  calls : ∀ c e d, Stays setup start c → c.waiting.length = start.waiting.length → Goes setup c e →
    e.waiting.length = start.waiting.length + 1 → Stays setup e d →
    Resumes setup d start.waiting.length → d.state.handled = c.state.handled

/-- Unless a step sets the register, it leaves it alone. -/
theorem Discreet.register {start : Config} (discreet : Discreet setup start) (stays : Stays setup start c)
    {o : Operation} {st st' : Machine.State} {f : Frame} {effect : Effect} (issued : Issued c o st f)
    (done : execute setup st f o = (st', effect)) (other : o ≠ .setHandled)
    (after : (step setup c.state c.frame c.waiting).1.handled = st'.handled) :
    st'.handled = c.state.handled := by
  rw [← issued.handled]
  refine execute_register done other ?_
  rintro inv rfl
  rw [← after, issued.handled]
  exact discreet.helpers c inv stays issued.operation

section
variable {start : Config}

/-- The activation executes an operation or enters a handler, or it waits for a call. -/
inductive Tending (setup : Setup) (plan : Plan) (bound : Array Bound) (analysis : Analysis.State)
    (maxDepth : Int64) (start c : Config) : Prop
  | executing (waiting : c.waiting = start.waiting)
      (own : c.frame.routine = routineOf plan bound analysis maxDepth)
      (spot : Spot plan bound analysis maxDepth (ledgerOf setup plan analysis start c c.frame.locals)
        c.state.handled c.frame.stack c.frame.ip)
  | entering {region : Int64} {exception : Nat} (waiting : c.waiting = start.waiting)
      (own : c.frame.routine = routineOf plan bound analysis maxDepth)
      (caught : Caught plan bound analysis maxDepth (ledgerOf setup plan analysis start c c.frame.locals)
        c.state.handled c.frame.stack c.frame.ip exception region)
      (entered : (ledgerOf setup plan analysis start c c.frame.locals).entered region exception)
  | calling {above : List Frame} {f : Frame} {inv : Invocation} {values : List Value} {before e : Config}
      (waiting : c.waiting = above ++ f :: start.waiting)
      (own : f.routine = routineOf plan bound analysis maxDepth) (started : 0 < f.ip)
      (operation : (routineOf plan bound analysis maxDepth).ops[f.ip - 1]? = some (.invoke inv))
      (spot : Spot plan bound analysis maxDepth (ledgerOf setup plan analysis start c f.locals)
        before.state.handled values (f.ip - 1))
      (stays : Stays setup start before) (executed : before.waiting.length = start.waiting.length)
      (calls : Goes setup before e) (deeper : e.waiting.length = start.waiting.length + 1)
      (inside : Stays setup e c)

private theorem ledgerOf_passes {d : Config} (goes : Goes setup c d)
    (inside : start.waiting.length ≤ d.waiting.length) (locals : Array Value)
    (apart : d.waiting.length = start.waiting.length → ∀ {region below label index},
      Seat plan bound analysis region below → (contextOf plan analysis).catch? region = some label →
      start.frame.routine.labelIndex? label = some index → d.frame.ip ≠ index) :
    (ledgerOf setup plan analysis start c locals).Passes plan bound analysis
      (ledgerOf setup plan analysis start d locals) where
  initial := rfl
  saved := rfl
  entered seat := by
    rintro _ ⟨label, index, labelled, defined, last⟩
    exact ⟨label, index, labelled, defined,
      .goes last goes inside fun executing => apart executing seat labelled defined⟩

/-- What is known where an exception is offered to the activation. -/
theorem Tending.offered (blocked : Blocked plan bound analysis) (discreet : Discreet setup start)
    (initial : start.state.handled ≠ .unbound)
    (tending : Tending setup plan bound analysis maxDepth start c) {o : Operation}
    {st st' : Machine.State} {f g h : Frame} {exception : Nat} {rest : List Frame}
    (issued : Issued c o st f) (executed : execute setup st f o = (st', .raise g exception))
    (offered : Offered exception g c.waiting h rest) (here : rest.length = start.waiting.length)
    (resumes : Resumes setup c start.waiting.length) :
    rest = start.waiting ∧ h.routine = routineOf plan bound analysis maxDepth ∧
      ∃ blocks, Seated plan bound analysis blocks ∧
        Guards (contextOf plan analysis) (cleanupsOf plan bound analysis) blocks (protectionOf h) ∧
        (ledgerOf setup plan analysis start c h.locals).Tells blocks c.state.handled := by
  have troubled := execute_troubled executed
  cases tending with
  | executing waiting own spot =>
    obtain ⟨rfl, same⟩ := offered.stays (by rw [waiting]; omega)
    have within := execute_within setup st f o
    rw [executed] at within
    obtain ⟨_, _, _, rfl⟩ := within
    have routine := issued.routine.trans own
    have spot : Spot plan bound analysis maxDepth ((ledgerOf setup plan analysis start c #[]).holding plan
      c.frame.locals) c.state.handled c.frame.stack c.frame.ip := spot
    obtain ⟨blocks, seated, guards, tells⟩ :=
      spot.raises blocked initial (own ▸ issued.operation) (issued.locals ▸ troubled)
    refine ⟨same.trans waiting, routine, blocks, seated, ?_, ?_⟩
    · simp only [protectionOf, routine, issued.ip, Nat.add_sub_cancel]
      exact guards
    · dsimp only
      rw [issued.locals]
      exact tells
  | entering waiting own caught =>
    obtain ⟨label, operation⟩ := caught.operation
    rw [← own, issued.operation] at operation
    cases operation
    exact troubled.elim
  | calling waiting own started operation spot stays executed calls deeper inside =>
    rw [waiting] at offered
    rcases offered_split offered (by omega) with ⟨still, longer⟩ | ⟨rfl, same⟩
    · rw [longer] at here
      simp only [List.length_append, List.length_cons] at here
      omega
    · have spot : Spot plan bound analysis maxDepth ((ledgerOf setup plan analysis start c #[]).holding
        plan h.locals) _ _ (h.ip - 1) := spot
      obtain ⟨blocks, seated, guards, tells⟩ := spot.raises blocked initial operation trivial
      refine ⟨same, own, blocks, seated, ?_, ?_⟩
      · rw [protectionOf, own]
        exact guards
      · rw [discreet.calls _ _ _ stays executed calls deeper inside resumes]
        exact tells

private theorem Tending.enters (blocked : Blocked plan bound analysis)
    (same : start.frame.routine = routineOf plan bound analysis maxDepth) {d : Config} {region : Int64}
    {exception : Nat} (waiting : c.waiting = start.waiting)
    (own : c.frame.routine = routineOf plan bound analysis maxDepth)
    (caught : Caught plan bound analysis maxDepth (ledgerOf setup plan analysis start c c.frame.locals)
      c.state.handled c.frame.stack c.frame.ip exception region)
    (entered : (ledgerOf setup plan analysis start c c.frame.locals).entered region exception)
    (goes : Goes setup c d) (inside : start.waiting.length ≤ d.waiting.length) :
    Tending setup plan bound analysis maxDepth start d := by
  obtain ⟨o, st, f, issued, move⟩ := goes_cases goes
  obtain ⟨label, operation⟩ := caught.operation
  rw [← own, issued.operation] at operation
  cases operation
  have within := execute_within setup st f (.label label)
  cases move with
  | next done kept =>
    have performed : (st, Effect.next f) = (d.state, .next d.frame) := execute_next done
    simp only [Prod.mk.injEq, Effect.next.injEq] at performed
    obtain ⟨state, frame⟩ := performed
    cases caught with
    | @arrived j o q before rest r mark _ _ reached known id split labelled first place blocks tells top =>
      subst id
      have front : leadAt plan bound analysis j o = (before ++ [Operation.label mark]) ++
          (r.prologue ++ lead (contextOf plan analysis) o.inst.offset true rest) := by
        rw [split, List.append_assoc]
        rfl
      have spot : Spot plan bound analysis maxDepth (ledgerOf setup plan analysis start c d.frame.locals)
          d.state.handled d.frame.stack d.frame.ip := by
        rw [← state, ← frame, issued.locals, issued.handled, issued.stack, issued.ip, top]
        refine .opening reached known front (n := 0) ?_ ?_ blocks (.gets entered tells)
        · rw [Region.prologue, (blocked.stable.placing blocked.planned known).dialect, blocked.legacy]
          exact Nat.zero_lt_succ _
        · rw [place, List.length_append]
          rfl
      refine .executing (kept.trans waiting) (frame ▸ issued.routine.trans own) (spot.pass blocked
        (ledgerOf_passes goes inside _ fun _ _ _ _ _ seat labelled defined =>
          spot.apart blocked seat labelled (same ▸ defined)))
  | enter done =>
    rw [done] at within
    obtain ⟨_, none, _⟩ := within
    cases none
  | back done =>
    rw [done] at within
    cases within.2.2
  | raise done => exact (execute_troubled done).elim

private theorem Tending.catches (blocked : Blocked plan bound analysis)
    (same : start.frame.routine = routineOf plan bound analysis maxDepth) {d : Config}
    (stays : Stays setup start c) (goes : Goes setup c d) (waiting : d.waiting = start.waiting)
    {blocks : List Block} (seated : Seated plan bound analysis blocks) {h : Frame}
    (own : h.routine = routineOf plan bound analysis maxDepth)
    (guards : Guards (contextOf plan analysis) (cleanupsOf plan bound analysis) blocks (protectionOf h))
    (tells : (ledgerOf setup plan analysis start c h.locals).Tells blocks d.state.handled)
    {exception : Nat} (received : receive exception h = .caught d.frame) :
    Tending setup plan bound analysis maxDepth start d := by
  have inside : start.waiting.length ≤ d.waiting.length :=
    Nat.le_of_eq (congrArg List.length waiting).symm
  have routine := (receive_routine received).trans own
  have locals : d.frame.locals = h.locals := by
    obtain ⟨_, _, _, _, _, _, _, frame⟩ := receive_caught received
    rw [frame]
  rw [← locals] at tells
  rcases seated.caught blocked guards tells own received with ⟨region, caught⟩ | spot
  · cases caught with
    | @arrived j o q before rest r label below kept reached known id split labelled first place under
        tells top =>
      have last : LastAt setup start d.frame.ip exception d :=
        .here (.step stays goes inside) (congrArg List.length waiting) rfl top
      have inner := blocked.seated reached
      rw [under] at inner
      refine .entering waiting routine
        (.arrived reached known id split labelled first place under (tells.agree rfl ?_) top)
        ⟨label, _, labelled, same ▸ first, last⟩
      -- The handlers below have other labels than the one that is entered.
      rintro b member
      refine ⟨rfl, ?_⟩
      rintro other ⟨label', index, labelled', defined, before⟩
      refine ⟨label', index, labelled', defined, .goes before goes inside fun _ here => ?_⟩
      rw [same] at defined
      have mine := (findLabel_some first).2
      have theirs := (findLabel_some defined).2
      rw [← here, mine] at theirs
      cases theirs
      exact inner.apart blocked.separate member (blocked.labelled.injective _ _ _ labelled' labelled)
  · exact .executing waiting routine (spot.pass blocked (ledgerOf_passes goes inside _
      fun _ _ _ _ _ seat labelled defined => spot.apart blocked seat labelled (same ▸ defined)))

/-- No step that stays in the activation leaves its spots. -/
theorem Tending.step (blocked : Blocked plan bound analysis) (aligned : Aligned bound analysis)
    (discreet : Discreet setup start) (initial : start.state.handled ≠ .unbound)
    (same : start.frame.routine = routineOf plan bound analysis maxDepth) {d : Config}
    (stays : Stays setup start c) (tending : Tending setup plan bound analysis maxDepth start c)
    (goes : Goes setup c d) (inside : start.waiting.length ≤ d.waiting.length) :
    Tending setup plan bound analysis maxDepth start d := by
  have moved : ∀ {register stack}, Spot plan bound analysis maxDepth
      (ledgerOf setup plan analysis start c d.frame.locals) register stack d.frame.ip →
      Spot plan bound analysis maxDepth (ledgerOf setup plan analysis start d d.frame.locals) register
        stack d.frame.ip :=
    fun spot => spot.pass blocked (ledgerOf_passes goes inside _
      fun _ _ _ _ _ seat labelled defined => spot.apart blocked seat labelled (same ▸ defined))
  have waited : ∀ {locals register stack ip}, start.waiting.length < d.waiting.length →
      Spot plan bound analysis maxDepth (ledgerOf setup plan analysis start c locals) register stack ip →
      Spot plan bound analysis maxDepth (ledgerOf setup plan analysis start d locals) register stack ip :=
    fun deeper spot => spot.pass blocked (ledgerOf_passes goes inside _ fun back => by omega)
  obtain ⟨o, st, f, issued, move⟩ := goes_cases goes
  have raised : ∀ {st₁ g h exception}, execute setup st f o = (st₁, .raise g exception) →
      Offered exception g c.waiting h d.waiting → receive exception h = .caught d.frame →
      d.state.handled = st₁.handled → d.waiting.length = start.waiting.length →
      Tending setup plan bound analysis maxDepth start d := by
    intro st₁ g h exception done offered received handled here
    obtain ⟨rest, own, blocks, seated, guards, tells⟩ :=
      tending.offered blocked discreet initial issued done offered here (.inl ⟨d, goes, here⟩)
    have quiet : o ≠ .setHandled := by
      rintro rfl
      exact execute_troubled done
    have after : (Machine.step setup c.state c.frame c.waiting).1.handled = st₁.handled :=
      (congrArg (State.handled ∘ Prod.fst) goes).trans handled
    have register := handled.trans (discreet.register stays issued done quiet after)
    exact Tending.catches blocked same stays goes rest seated own guards (register ▸ tells) received
  have within := execute_within setup st f o
  cases tending with
  | entering waiting own caught entered =>
    exact Tending.enters blocked same waiting own caught entered goes inside
  | executing waiting own spot =>
    have spot : Spot plan bound analysis maxDepth ((ledgerOf setup plan analysis start c #[]).holding plan
      c.frame.locals) c.state.handled c.frame.stack c.frame.ip := spot
    cases move with
    | next done kept =>
      rw [done] at within
      refine .executing (kept.trans waiting) (within.1.trans (issued.routine.trans own))
        (moved (spot.next blocked aligned own issued done ?_))
      rintro inv rfl
      have kept := discreet.helpers c inv stays issued.operation
      rw [goes] at kept
      exact kept.trans issued.handled.symm
    | @enter g done below =>
      rw [done] at within
      obtain ⟨inv, rfl, _, _, frame, _⟩ := within
      have deeper : d.waiting.length = start.waiting.length + 1 := by
        rw [below, List.length_cons, waiting]
      have routine : g.routine = routineOf plan bound analysis maxDepth := by
        rw [frame]
        exact issued.routine.trans own
      have last : g.ip = c.frame.ip + 1 := by
        rw [frame]
        exact issued.ip
      have locals : c.frame.locals = g.locals := by
        rw [frame]
        exact issued.locals.symm
      have operation := issued.operation
      rw [own] at operation
      have waits := waited (by omega) spot
      rw [locals] at waits
      have split : d.waiting = [] ++ g :: start.waiting := by
        rw [below, waiting]
        rfl
      exact .calling split routine (by omega)
        (by rw [last]; exact operation) (by rw [last]; exact waits) stays (congrArg List.length waiting)
        goes deeper .refl
    | back done below =>
      rw [waiting] at below
      rw [below, List.length_cons] at inside
      omega
    | raise done offered received _ _ handled =>
      have shorter := offered.shorter
      rw [waiting] at shorter
      exact raised done offered received handled (by omega)
  | @calling above h inv values before e waiting own started operation spot earlier executed calls deeper
      called =>
    have continues : ∀ {frames}, d.waiting = frames ++ h :: start.waiting →
        Tending setup plan bound analysis maxDepth start d := by
      intro frames more
      have longer : start.waiting.length < d.waiting.length := by
        rw [more]
        simp
        omega
      exact .calling more own started operation (waited longer spot) earlier executed calls deeper
        (.step called goes (by omega))
    cases move with
    | next done kept => exact continues (kept.trans waiting)
    | @enter g done below =>
      have split : d.waiting = (g :: above) ++ h :: start.waiting := by
        rw [below, waiting]
        rfl
      exact continues split
    | back done below calling pushed _ _ handled =>
      rw [waiting] at below
      cases above with
      | nil =>
        simp only [List.nil_append, List.cons.injEq] at below
        obtain ⟨rfl, rest⟩ := below
        have within := execute_within setup st f o
        rw [done] at within
        have returns : o = .ret := within.2.2
        have register : d.state.handled = before.state.handled := by
          rw [handled, execute_register done (by rw [returns]; nofun) (by rw [returns]; nofun),
            issued.handled]
          exact discreet.calls _ _ _ earlier executed calls deeper called
            (.inl ⟨d, goes, congrArg List.length rest.symm⟩)
        have frame := pushResults_next pushed
        have locals : d.frame.locals = h.locals := by rw [frame]
        have place : d.frame.ip = h.ip - 1 + 1 := by
          rw [frame]
          dsimp only
          omega
        refine .executing rest.symm (by rw [frame]; exact own) (moved ?_)
        rw [locals, register, place]
        exact spot.invoked blocked operation _
      | cons caller above =>
        simp only [List.cons_append, List.cons.injEq] at below
        exact continues below.2.symm
    | raise done offered received _ _ handled =>
      by_cases here : d.waiting.length = start.waiting.length
      · exact raised done offered received handled here
      · rw [waiting] at offered
        rcases offered_split offered inside with ⟨still, more⟩ | ⟨_, rest⟩
        · exact continues more
        · exact absurd (congrArg List.length rest) here

theorem Stays.tending (blocked : Blocked plan bound analysis) (aligned : Aligned bound analysis)
    (discreet : Discreet setup start) (initial : start.state.handled ≠ .unbound)
    (same : start.frame.routine = routineOf plan bound analysis maxDepth)
    (begins : Tending setup plan bound analysis maxDepth start start) (stays : Stays setup start c) :
    Tending setup plan bound analysis maxDepth start c := by
  induction stays with
  | refl => exact begins
  | step stays goes inside ih => exact ih.step blocked aligned discreet initial same stays goes inside

end

end Lowering.Proofs
