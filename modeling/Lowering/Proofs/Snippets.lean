import Lowering.Proofs.Equipment

/-! Snippets: straight-line code that is executed on its own. What it calls runs above it, and gives it one
value, raises, or ends the run; nothing else takes it off the outlines that it follows. -/

namespace Lowering.Proofs
open Machine Host Shape Guest

variable {setup : Setup} {c d start : Config} {st st' : State} {f g : Frame} {o : Operation}

/-- Straight-line code that is executed on its own: how it may be left, with how many locals it starts, and
how deep the stack is then. Only its first operation may store, and a label of its own stands at its end. -/
structure Errand where
  routine : Routine
  exits : Exits
  ends : Nat → Prop
  count : Nat
  base : Nat
  unprotected : routine.regions = []
  tame : routine.ops.toList.all tame = true
  fair : routine.ops.toList.all fair = true
  locals : ∀ o ∈ routine.ops.toList, ∀ n, localOf? o = some n → Indexes n count
  served : ∀ inv, .invoke inv ∈ routine.ops.toList → Served inv
  stores : ∀ i, .storeLocal i ∉ routine.ops.toList.tail
  last : ∀ label k, routine.labelIndex? label = some k → k + 1 = routine.ops.size
  lands : ∀ label k out, routine.labelIndex? label = some k → exits.branch label out → exits.through out
  room : base + 2 * routine.ops.size ≤ maxStackDepth

def Errand.code (e : Errand) : List Operation := e.routine.ops.toList

variable {e : Errand}

/-- A frame of the code, whose remaining operations leave it as is asked. -/
structure Aboard (e : Errand) (f : Frame) : Prop where
  routine : f.routine = e.routine
  snippet : f.snippet = true
  inside : f.ip ≤ e.code.length
  count : f.locals.size = e.count
  outline : ∃ out, Fits f out ∧ Follows e.exits (e.code.drop f.ip) out ∧
    ∀ o, f.ip = 0 → e.code.head? = some o → Storable f o out
  enough : Suffices e.ends (e.code.drop f.ip) f.stack.length
  room : f.stack.length ≤ e.base + 2 * f.ip

/-- A frame of the code that is executing an operation. -/
structure Acting (e : Errand) (o : Operation) (f : Frame) (out : Outline) : Prop where
  routine : f.routine = e.routine
  place : ∃ i, f.ip = i + 1 ∧ e.code[i]? = some o ∧ f.stack.length ≤ e.base + 2 * i
  equipped : Equipped o f
  count : f.locals.size = e.count
  fits : Fits f out
  storable : Storable f o out
  follows : Follows e.exits (o :: e.code.drop f.ip) out
  enough : Suffices e.ends (o :: e.code.drop f.ip) f.stack.length

theorem Aboard.acting (aboard : Aboard e c.frame) (issued : Issued c o st f) : ∃ out, Acting e o f out := by
  obtain ⟨out, fits, follows, storable⟩ := aboard.outline
  have here : e.code[c.frame.ip]? = some o := by
    have operation := issued.operation
    rw [aboard.routine] at operation
    simpa [Errand.code] using operation
  have member : o ∈ e.routine.ops.toList := List.mem_of_getElem? here
  have inside : c.frame.ip < e.code.length := (List.getElem?_eq_some_iff.mp here).1
  have enough := aboard.enough
  rw [drop_of_getElem? here, ← issued.ip] at follows enough
  have room := e.room
  have size : e.code.length = e.routine.ops.size := by simp [Errand.code]
  refine ⟨out, issued.routine.trans aboard.routine,
    ⟨c.frame.ip, issued.ip, here, issued.stack ▸ aboard.room⟩, ?_, issued.locals ▸ aboard.count,
    ⟨issued.stack ▸ fits.stack, issued.locals ▸ fits.locals⟩, ?_, follows, issued.stack ▸ enough⟩
  · exact {
      snippet := issued.snippet.trans aboard.snippet
      tame := List.all_eq_true.mp e.tame o member
      fair := List.all_eq_true.mp e.fair o member
      enough := issued.stack ▸ enough.1
      room := by
        have low := aboard.room
        rw [issued.stack]
        omega
      holds := by
        rw [issued.locals, aboard.count]
        exact e.locals o member
      served := fun inv same => e.served inv (same ▸ member) }
  · intro i stack same top
    subst same
    by_cases first : c.frame.ip = 0
    · rw [first] at here
      exact storable _ first (List.head?_eq_getElem? ▸ here) i stack rfl (issued.stack ▸ top)
    · refine absurd (List.mem_of_getElem? (i := c.frame.ip - 1) ?_) (e.stores i)
      rw [List.getElem?_tail, Nat.sub_add_cancel (Nat.pos_of_ne_zero first)]
      exact here

/-- A frame of the code that waits for what it called. -/
structure Moored (e : Errand) (f : Frame) : Prop where
  routine : f.routine = e.routine
  calls : ∃ inv, e.code[f.ip - 1]? = some (.invoke inv) ∧ callingHelper inv.helper = true ∧ inv.results = 1
  room : f.stack.length + 1 ≤ maxStackDepth
  raise : ∃ out, Fits f out ∧ e.exits.raise out
  back : ∀ v, Aboard e { f with stack := v :: f.stack }

section
variable {out : Outline} {exception : Nat} {callee : Frame} {ending : Ending}

theorem Acting.label {label : Label} {k : Nat} (acting : Acting e o f out) (named : o.target? = some label)
    (own : e.routine.labelIndex? label = some k) :
    f.ip ≤ k ∧ k + 1 = e.code.length ∧ e.code.drop k = [.label label] := by
  obtain ⟨_, defined⟩ := findLabel_some own
  obtain ⟨i, next, here, _⟩ := acting.place
  have last : k + 1 = e.code.length := by simpa [Errand.code] using e.last label k own
  have here' : e.code[k]? = some (.label label) := by simpa [Errand.code] using defined
  have inside := (List.getElem?_eq_some_iff.mp here).1
  refine ⟨?_, last, ?_⟩
  · by_contra late
    have same : i = k := by omega
    rw [same, here'] at here
    cases here
    cases named
  · rw [drop_of_getElem? here', List.drop_eq_nil_iff.mpr (by omega)]

theorem Acting.shaped {effect : Effect} (acting : Acting e o f out) (unattended : Unattended setup)
    (done : execute setup st f o = (st', effect)) : Shaped f o out effect := by
  have shaped : Shaped f o out (execute setup st f o).2 :=
    execute_shaped unattended.helpers acting.storable acting.fits
  rwa [done] at shaped

theorem Acting.permits {effect : Effect} (acting : Acting e o f out) (unattended : Unattended setup)
    (done : execute setup st f o = (st', effect)) : Permits o effect := by
  have permits : Permits o (execute setup st f o).2 := acting.equipped.permits unattended
  rwa [done] at permits

/-- The code goes on. -/
theorem Acting.next (acting : Acting e o f out) (unattended : Unattended setup)
    (done : execute setup st f o = (st', .next g)) : Aboard e g ∧ f.ip ≤ g.ip := by
  have shaped := acting.shaped unattended done
  have within := execute_within setup st f o
  rw [done] at within
  obtain ⟨next, moved, fits⟩ := shaped
  obtain ⟨routine, snippet, count, moves, _⟩ := within
  have depth := acting.equipped.depth done
  obtain ⟨i, ip, here, low⟩ := acting.place
  have few := (depthAfter_fits acting.equipped.fair acting.equipped.enough).2
  obtain ⟨branches, falls⟩ := acting.follows.2 next moved
  have inside := (List.getElem?_eq_some_iff.mp here).1
  rcases moves with ⟨same, onward⟩ | ⟨label, named, own⟩
  · refine ⟨⟨routine.trans acting.routine, snippet.trans acting.equipped.snippet, by omega,
      count.trans acting.count, ⟨next, fits, same ▸ falls onward, fun _ first => by omega⟩, ?_, by omega⟩,
      Nat.le_of_eq same.symm⟩
    rw [same, depth]
    exact acting.enough.2.2 onward
  · rw [acting.routine] at own
    obtain ⟨later, last, rest⟩ := acting.label named own
    refine ⟨⟨routine.trans acting.routine, snippet.trans acting.equipped.snippet, by omega,
      count.trans acting.count, ⟨next, fits, ?_, fun _ first => by omega⟩, ?_, by omega⟩, later⟩
    · rw [rest]
      refine ⟨nofun, fun after same => ⟨nofun, fun _ => ?_⟩⟩
      cases same
      exact e.lands label _ _ own (branches label named)
    · rw [rest]
      exact ⟨Int.natCast_nonneg _, nofun, fun _ => trivial⟩

/-- The code calls. -/
theorem Acting.enter (acting : Acting e o f out) (unattended : Unattended setup)
    (done : execute setup st f o = (st', .enter g callee)) : Moored e g ∧ callee.snippet = false := by
  have shaped := acting.shaped unattended done
  have within := execute_within setup st f o
  have permits := acting.permits unattended done
  rw [done] at within
  obtain ⟨rfl, object, raises⟩ := shaped
  obtain ⟨inv, rfl, _, _, _, _, _, _, _, entered⟩ := within
  obtain ⟨_, same, calls⟩ := permits
  cases same
  have one := (acting.equipped.served inv rfl).single calls
  obtain ⟨i, ip, here, low⟩ := acting.place
  have inside := (List.getElem?_eq_some_iff.mp here).1
  have room := acting.equipped.room
  have operands : Fits { f with stack := f.stack.drop (Operation.invoke inv).pops.toInt.toNat }
      (out.without (.invoke inv)) := acting.fits.withStack (List.forall₂_drop _ acting.fits.stack)
  have lower := List.length_drop (i := (Operation.invoke inv).pops.toInt.toNat) (l := f.stack)
  refine ⟨⟨acting.routine, ⟨inv, by simpa [ip] using here, calls, one⟩, ?_,
    ⟨_, operands, acting.follows.1 raises⟩, fun v => ?_⟩, entered ▸ rfl⟩
  · dsimp only
    omega
  · refine ⟨acting.routine, acting.equipped.snippet, by dsimp only; omega, acting.count,
      ⟨(out.without (.invoke inv)).push (.ofKind .object), operands.push (conforms_ofKind rfl),
        (acting.follows.2 _ object).2 rfl, fun _ first => ?_⟩, ?_, ?_⟩
    · dsimp only at first
      omega
    · have pushed : (Operation.invoke inv).pushes.toInt.toNat = 1 := by
        rw [Operation.pushes, one]
        rfl
      have depth : (v :: f.stack.drop (Operation.invoke inv).pops.toInt.toNat).length =
          depthAfter f.stack.length (.invoke inv) := by
        rw [List.length_cons, lower, depthAfter, pushed]
      dsimp only
      rw [depth]
      exact acting.enough.2.2 rfl
    · simp only [List.length_cons, lower]
      omega

/-- The code raises. -/
theorem Acting.raise (acting : Acting e o f out) (unattended : Unattended setup)
    (done : execute setup st f o = (st', .raise g exception)) :
    g.routine = e.routine ∧ ∃ out, Fits g out ∧ e.exits.raise out := by
  obtain ⟨raises, rfl⟩ := acting.shaped unattended done
  exact ⟨acting.routine, _, acting.fits.withStack (List.forall₂_drop _ acting.fits.stack),
    acting.follows.1 raises⟩

theorem Equipped.returns {v : Value} (equipped : Equipped .ret f)
    (done : execute setup st f .ret = (st', .finish g (.returned v))) :
    g.stack.length = depthAfter f.stack.length .ret := by
  rw [equipped.performs] at done
  have enough : (1 : Int) ≤ f.stack.length := equipped.enough
  cases top : f.stack with
  | nil => simp [top] at enough
  | cons w rest =>
    simp only [perform, top] at done
    cases done
    simp [depthAfter, Operation.pops, Operation.pushes]

end

/-- A fault that stops another frame than the one at the start, or a call that does not come back in time. -/
def Propagated (setup : Setup) (start : Config) (fault : Machine.Fault) : Prop :=
  ∃ d, Reaches setup start d ∧ d.waiting ≠ [] ∧ (fault = .outOfFuel ∨
    ∃ st g, step setup d.state d.frame d.waiting = (st, .ended g (.failed fault)) ∧ g.snippet = false)

/-- The code is left as is asked, with some frame. -/
def Settles (e : Errand) (setup : Setup) (start : Config) (f : Frame) : Ending → Prop
  | .fellThrough => ∃ out, Fits f out ∧ e.exits.through out
  | .exited label => e.routine.labelIndex? label = none ∧ ∃ out, Fits f out ∧ e.exits.branch label out
  | .returned _ => .ret ∈ e.code ∧ e.ends f.stack.length
  | .thrown _ => ∃ out, Fits f out ∧ e.exits.raise out
  | .failed fault => ∃ inv, .invoke inv ∈ e.code ∧
      (comparingHelper inv.helper = true ∧ fault = .gaveUp .endless ∨
        callingHelper inv.helper = true ∧
          ((∃ failure, fault = .gaveUp failure) ∨ Propagated setup start fault))

section
variable {out : Outline} {exception : Nat} {ending : Ending}

/-- The code finishes. -/
theorem Acting.finish (acting : Acting e o f out) (unattended : Unattended setup) (start : Config)
    (done : execute setup st f o = (st', .finish g ending)) :
    g.snippet = true ∧ Settles e setup start g ending := by
  have shaped := acting.shaped unattended done
  have within := execute_within setup st f o
  have permits := acting.permits unattended done
  rw [done] at within
  obtain ⟨_, snippet, ends⟩ := within
  obtain ⟨i, ip, here, low⟩ := acting.place
  have member := List.mem_of_getElem? here
  refine ⟨snippet.trans acting.equipped.snippet, ?_⟩
  cases ending with
  | thrown | fellThrough => exact ends.elim
  | returned v =>
    obtain rfl : o = .ret := ends
    refine ⟨member, ?_⟩
    rw [acting.equipped.returns done]
    exact acting.enough.2.1 rfl rfl
  | exited label =>
    obtain ⟨missing, named, next, after, fits⟩ := shaped
    exact ⟨acting.routine ▸ missing, next, fits, (acting.follows.2 next after).1 label named⟩
  | failed fault =>
    obtain ⟨inv, failure, rfl, rfl, calls | ⟨compares, rfl⟩⟩ := permits
    · exact ⟨inv, member, .inr ⟨calls, .inl ⟨failure, rfl⟩⟩⟩
    · exact ⟨inv, member, .inl ⟨compares, rfl⟩⟩

theorem Errand.passes (own : f.routine = e.routine) : receive exception f = .passed :=
  receive_unprotected (by simp [protectionOf, Routine.regionAt?, own, e.unprotected]) exception

/-- A step of the code goes on in it, calls, or leaves it as is asked. -/
theorem Aboard.step (aboard : Aboard e c.frame) (alone : c.waiting = []) (unattended : Unattended setup)
    (start : Config) : (∃ d, Goes setup c d ∧ d.waiting = [] ∧ Aboard e d.frame ∧ c.frame.ip < d.frame.ip) ∨
    (∃ d g, Goes setup c d ∧ d.waiting = [g] ∧ Moored e g ∧ d.frame.snippet = false) ∨
    ∃ st g ending, Machine.step setup c.state c.frame c.waiting = (st, .ended g ending) ∧
      Settles e setup start g ending := by
  cases operation : c.frame.routine.ops[c.frame.ip]? with
  | none =>
    obtain ⟨out, fits, follows, _⟩ := aboard.outline
    have late : e.code.length ≤ c.frame.ip := by
      rw [aboard.routine] at operation
      simpa [Errand.code] using operation
    rw [List.drop_eq_nil_iff.mpr late] at follows
    refine .inr (.inr ⟨c.state, c.frame, .fellThrough, ?_, out, fits, follows⟩)
    simp only [Machine.step, operation, aboard.snippet, if_true]
  | some o =>
    obtain ⟨st, f, issued, stepped⟩ := unattended.issues operation
    obtain ⟨out, acting⟩ := aboard.acting issued
    rcases executed : execute setup st f o with ⟨st', effect⟩
    rw [executed, alone] at stepped
    rw [alone]
    cases effect with
    | next g =>
      obtain ⟨still, later⟩ := acting.next unattended executed
      refine .inl ⟨⟨st', g, []⟩, by rw [Goes, alone]; exact stepped, rfl, still, ?_⟩
      rw [issued.ip] at later
      exact later
    | enter g callee =>
      obtain ⟨moored, own⟩ := acting.enter unattended executed
      exact .inr (.inl ⟨⟨st', callee, [g]⟩, g, by rw [Goes, alone]; exact stepped, rfl, moored, own⟩)
    | raise g exception =>
      obtain ⟨own, raised⟩ := acting.raise unattended executed
      have thrown : ∃ st, settle setup st' [] (.raise g exception) = (st, .ended g (.thrown exception)) :=
        ⟨_, by simp only [settle, deliver, e.passes own]; rfl⟩
      obtain ⟨last, ended⟩ := thrown
      exact .inr (.inr ⟨last, g, .thrown exception, stepped.trans ended, raised⟩)
    | finish g ending =>
      obtain ⟨snippet, settles⟩ := acting.finish unattended start executed
      refine .inr (.inr ⟨st', g, ending, stepped.trans ?_, settles⟩)
      cases ending <;> simp only [settle, snippet, if_true]

variable {above : List Frame}

/-- Frames of routines, as callees are. -/
def Callees (frames : List Frame) : Prop := ∀ g ∈ frames, g.snippet = false

theorem callees_cons {frames : List Frame} : Callees (f :: frames) ↔ f.snippet = false ∧ Callees frames :=
  List.forall_mem_cons

theorem Callees.suffix {frames : List Frame} (outer : Callees above) (inner : frames <:+ f :: above)
    (own : f.snippet = false) : Callees frames :=
  fun g member => callees_cons.mpr ⟨own, outer⟩ g (inner.subset member)

/-- The code waits below what it called. -/
structure Away (e : Errand) (above : List Frame) (f : Frame) (c : Config) : Prop where
  waiting : c.waiting = above ++ [f]
  moored : Moored e f
  callees : Callees (c.frame :: above)

theorem Moored.wakes {v : Value} {inv : Invocation} (moored : Moored e f)
    (waits : f.routine.ops[f.ip - 1]? = some (.invoke inv)) :
    pushResults st f inv [v] = (st, .next { f with stack := v :: f.stack }) := by
  obtain ⟨own, here, _, one⟩ := moored.calls
  have same : e.code[f.ip - 1]? = some (.invoke inv) := by
    rw [moored.routine] at waits
    simpa [Errand.code] using waits
  cases here.symm.trans same
  have room := moored.room
  rw [pushResults, if_neg]
  · rfl
  · rw [one, List.length_singleton]
    refine not_or.mpr ⟨not_not.mpr rfl, by omega⟩

theorem Offered.suffix {callers rest : List Frame} (offered : Offered exception f callers g rest) :
    g :: rest <:+ f :: callers := by
  induction offered with
  | here => exact List.suffix_rfl
  | passed _ _ ih => exact ih.trans (List.suffix_cons _ _)

/-- An exception that is offered to the frames above the code may get down to it. -/
theorem Offered.inner {rest : List Frame} {h : Frame} (offered : Offered exception g (above ++ [f]) h rest) :
    (h = f ∧ rest = []) ∨ ∃ others, rest = others ++ [f] ∧ h :: others <:+ g :: above := by
  rcases List.suffix_concat_iff.mp (List.cons_append ▸ offered.suffix) with none | ⟨others, split, inner⟩
  · cases none
  · cases others with
    | nil => exact .inl (List.cons.inj split)
    | cons first others =>
      obtain ⟨rfl, same⟩ := List.cons.inj split
      exact .inr ⟨others, same, inner⟩

/-- While it waits, the code stays as it is until it gets one value. -/
theorem Away.step (away : Away e above f c) (goes : Goes setup c d) :
    (∃ others, Away e others f d) ∨ d.waiting = [] ∧ Aboard e d.frame := by
  obtain ⟨waiting, moored, callees⟩ := away
  obtain ⟨own, outer⟩ := callees_cons.mp callees
  obtain ⟨o, st, g, issued, move⟩ := goes_cases goes
  have within := execute_within setup st g o
  have own := issued.snippet.trans own
  cases move with
  | next done same =>
    rw [done] at within
    exact .inl ⟨above, same.trans waiting, moored, callees_cons.mpr ⟨within.2.1.trans own, outer⟩⟩
  | enter done below =>
    rw [done] at within
    obtain ⟨_, _, _, _, rfl, _, _, _, _, callee⟩ := within
    rw [waiting] at below
    exact .inl ⟨_, below.trans List.cons_append.symm, moored,
      callees_cons.mpr ⟨callee ▸ rfl, callees_cons.mpr ⟨own, outer⟩⟩⟩
  | back done below _ pushed =>
    rw [waiting] at below
    have woken := pushResults_next pushed
    cases above with
    | nil =>
      simp only [List.nil_append, List.cons.injEq] at below
      obtain ⟨rfl, alone⟩ := below
      exact .inr ⟨alone.symm, woken ▸ moored.back _⟩
    | cons caller above =>
      simp only [List.cons_append, List.cons.injEq] at below
      obtain ⟨rfl, still⟩ := below
      obtain ⟨first, outer⟩ := callees_cons.mp outer
      exact .inl ⟨above, still.symm, moored, callees_cons.mpr ⟨woken ▸ first, outer⟩⟩
  | raise done offered caught =>
    rw [waiting] at offered
    rw [done] at within
    obtain ⟨_, _, _, rfl⟩ := within
    obtain ⟨_, _, _, _, _, _, _, same⟩ := receive_caught caught
    rcases offered.inner with ⟨rfl, _⟩ | ⟨others, rest, inner⟩
    · rw [e.passes moored.routine] at caught
      cases caught
    · obtain ⟨first, outer⟩ := callees_cons.mp (outer.suffix inner own)
      exact .inl ⟨others, rest, moored, callees_cons.mpr ⟨same ▸ first, outer⟩⟩

theorem Moored.refuses {v : Value} {k : Frame} (moored : Moored e f) (outer : Callees above)
    (ended : resume st v (above ++ [f]) k = (st', .ended g ending)) :
    g.snippet = false ∧ ∃ fault, ending = .failed fault := by
  cases above with
  | nil =>
    obtain ⟨inv, here, _⟩ := moored.calls
    have waits : f.routine.ops[f.ip - 1]? = some (.invoke inv) := by
      rw [moored.routine]
      simpa [Errand.code] using here
    simp only [List.nil_append, resume, waits, moored.wakes waits] at ended
    cases ended
  | cons caller above =>
    obtain ⟨first, _⟩ := callees_cons.mp outer
    simp only [List.cons_append, resume] at ended
    split at ended
    · next calling _ =>
      rcases pushResults_cases st caller calling [v] with ⟨pushed, _⟩ | failed
      · rw [pushed] at ended
        cases ended
      · rw [failed] at ended
        cases ended
        exact ⟨first, _, rfl⟩
    · cases ended
      exact ⟨first, _, rfl⟩

/-- When the run ends while the code waits, that is because of a fault elsewhere, or of an exception that
gets down to the code. -/
theorem Away.ends (away : Away e above f c) (unattended : Unattended setup) (reached : Reaches setup start c)
    (ended : Machine.step setup c.state c.frame c.waiting = (st', .ended g ending)) :
    Settles e setup start g ending := by
  obtain ⟨waiting, moored, callees⟩ := away
  obtain ⟨own, outer⟩ := callees_cons.mp callees
  obtain ⟨inv, here, calls, _⟩ := moored.calls
  -- faults of other frames are passed on
  have elsewhere : ∀ fault, ending = .failed fault → g.snippet = false → Settles e setup start g ending := by
    rintro fault rfl plain
    exact ⟨inv, List.mem_of_getElem? here,
      .inr ⟨calls, .inr ⟨c, reached, by simp [waiting], .inr ⟨st', g, ended, plain⟩⟩⟩⟩
  cases operation : c.frame.routine.ops[c.frame.ip]? with
  | none =>
    simp only [Machine.step, operation, own, Bool.false_eq_true, if_false] at ended
    cases ended
    exact elsewhere _ rfl own
  | some o =>
    obtain ⟨st, h, issued, stepped⟩ := unattended.issues operation
    have own := issued.snippet.trans own
    have within := execute_within setup st h o
    rcases executed : execute setup st h o with ⟨st₁, effect⟩
    rw [executed] at stepped within
    have settled := stepped.symm.trans ended
    cases effect with
    | next | enter => cases settled
    | raise k exception =>
      obtain ⟨_, _, _, rfl⟩ := within
      obtain ⟨_, m, rest, offered, _, _, _, outcome⟩ := deliver_cases st₁ exception _ c.waiting
      rw [waiting] at offered
      rcases outcome with ⟨_, _, delivered⟩ | ⟨fault, failed, delivered⟩ | ⟨_, rfl, delivered⟩ <;>
        cases delivered.symm.trans settled
      · rcases offered.inner with ⟨rfl, _⟩ | ⟨others, _, inner⟩
        · rw [e.passes moored.routine] at failed
          cases failed
        · exact elsewhere fault rfl (outer.suffix inner own g List.mem_cons_self)
      · rcases offered.inner with ⟨rfl, _⟩ | ⟨others, rest, _⟩
        · exact moored.raise
        · simp at rest
    | finish k last =>
      obtain ⟨_, snippet, ends⟩ := within
      have plain := snippet.trans own
      cases last with
      | thrown | fellThrough => exact ends.elim
      | exited => cases own.symm.trans ends
      | failed fault =>
        cases settled
        exact elsewhere fault rfl plain
      | returned v =>
        simp only [settle, plain, Bool.false_eq_true, if_false, notifyReturn, unattended.unobserved,
          waiting] at settled
        obtain ⟨own, fault, same⟩ := moored.refuses outer settled
        exact elsewhere fault same own

/-- The code has called, so that the run may take any time. -/
def Called (e : Errand) (setup : Setup) (start : Config) : Prop :=
  ∃ inv, .invoke inv ∈ e.code ∧ callingHelper inv.helper = true ∧
    ∃ d, Reaches setup start d ∧ d.waiting ≠ []

theorem Away.called (away : Away e above f c) (reached : Reaches setup start c) : Called e setup start := by
  obtain ⟨inv, here, calls, _⟩ := away.moored.calls
  exact ⟨inv, List.mem_of_getElem? here, calls, c, reached, by simp [away.waiting]⟩

theorem Called.late (called : Called e setup start) : Settles e setup start f (.failed .outOfFuel) := by
  obtain ⟨inv, member, calls, d, reached, waits⟩ := called
  exact ⟨inv, member, .inr ⟨calls, .inr ⟨d, reached, waits, .inl rfl⟩⟩⟩

end

end Lowering.Proofs
