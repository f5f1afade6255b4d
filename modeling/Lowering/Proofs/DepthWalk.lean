import Lowering.Host.Depths

/-! A walk that succeeds has followed every edge: the depths it leaves agree with each other along
normal and exceptional control flow. -/

namespace Lowering.Proofs
open Host Depths

/-- Control arrives at an operation at a depth. A negative depth is no depth, so nothing is
recorded for it. -/
def Arrives (before : Array Int64) (target : Nat) (depth : Int64) : Prop :=
  target < before.size ∧ (0 ≤ depth → before[target]? = some depth)

/-- Every edge that leaves an operation at a depth has been followed. -/
structure Followed (r : Routine) (before : Array Int64) (max : Int64) (i : Nat) (o : Operation)
    (depth : Int64) : Prop where
  enough : ¬ depth < o.pops
  bounded : depth - o.pops + o.pushes ≤ max
  raises : ∀ region, r.regionAt? (Int64.ofNat i) = some region → ¬ depth < region.depth ∧
    ∃ target, r.labelIndex? region.handler = some target ∧
      Arrives before target (region.depth + 1)
  jumps : ∀ label, o.target? = some label → ∃ target, r.labelIndex? label = some target ∧
    Arrives before target (depth - o.pops + o.pushes)
  falls : o.terminates = false → Arrives before (i + 1) (depth - o.pops + o.pushes)

/-- A later stage of a walk. Depths are never changed, and every new one is queued. -/
structure Extends (w later : Walk) : Prop where
  size : later.before.size = w.before.size
  kept : ∀ (i : Nat) (depth : Int64), 0 ≤ depth → w.before[i]? = some depth →
    later.before[i]? = some depth
  max : w.max ≤ later.max
  queued : ∀ i ∈ w.work, i ∈ later.work
  fresh : ∀ (i : Nat) (depth : Int64), 0 ≤ depth → later.before[i]? = some depth →
    w.before[i]? = some depth ∨ i ∈ later.work ∧ depth ≤ later.max

theorem Extends.refl (w : Walk) : Extends w w :=
  ⟨rfl, fun _ _ _ found => found, Int64.le_refl _, fun _ member => member,
    fun _ _ _ found => .inl found⟩

theorem Extends.trans {a b c : Walk} (first : Extends a b) (second : Extends b c) :
    Extends a c where
  size := second.size.trans first.size
  kept i depth positive found := second.kept i depth positive (first.kept i depth positive found)
  max := Int64.le_trans first.max second.max
  queued i member := second.queued i (first.queued i member)
  fresh i depth positive found := by
    rcases second.fresh i depth positive found with found | new
    · rcases first.fresh i depth positive found with found | ⟨member, bound⟩
      · exact .inl found
      · exact .inr ⟨second.queued i member, Int64.le_trans bound second.max⟩
    · exact .inr new

theorem Arrives.extends {w later : Walk} {target : Nat} {depth : Int64}
    (arrives : Arrives w.before target depth) (extended : Extends w later) :
    Arrives later.before target depth :=
  ⟨extended.size ▸ arrives.1, fun positive => extended.kept _ _ positive (arrives.2 positive)⟩

theorem Followed.extends {r : Routine} {w later : Walk} {i : Nat} {o : Operation} {depth : Int64}
    (followed : Followed r w.before w.max i o depth) (extended : Extends w later) :
    Followed r later.before later.max i o depth where
  enough := followed.enough
  bounded := Int64.le_trans followed.bounded extended.max
  raises region found := by
    obtain ⟨deep, target, label, arrives⟩ := followed.raises region found
    exact ⟨deep, target, label, arrives.extends extended⟩
  jumps label named := by
    obtain ⟨target, found, arrives⟩ := followed.jumps label named
    exact ⟨target, found, arrives.extends extended⟩
  falls terminates := (followed.falls terminates).extends extended

private theorem le_max (a b : Int64) :
    a ≤ (if a < b then b else a) ∧ b ≤ (if a < b then b else a) := by
  split
  next less => exact ⟨Int64.le_of_lt less, Int64.le_refl _⟩
  next other => exact ⟨Int64.le_refl _, by simpa using other⟩

theorem reach_extends {w later : Walk} {source target : Nat} {depth : Int64}
    (reached : w.reach source target depth = .ok later) :
    Extends w later ∧ Arrives later.before target depth := by
  unfold Walk.reach at reached
  split at reached
  · cases reached
  · next known found =>
    obtain ⟨inside, _⟩ := Array.getElem?_eq_some_iff.mp found
    split at reached
    · next positive =>
      split at reached
      · next same =>
        cases reached
        have equal : known = depth := by simpa using same
        exact ⟨.refl w, inside, fun _ => equal ▸ found⟩
      · cases reached
    · next negative =>
      cases reached
      refine ⟨⟨by simp, ?_, (le_max _ _).1, fun i member => List.mem_cons_of_mem _ member, ?_⟩,
        by simpa using inside, fun _ => by simp [inside]⟩
      · intro i other positive present
        have apart : target ≠ i := by
          rintro rfl
          rw [found] at present
          cases present
          exact negative positive
        simpa [Array.getElem?_setIfInBounds, apart] using present
      · intro i other positive present
        by_cases same : target = i
        · subst same
          rw [Array.getElem?_setIfInBounds_self_of_lt inside] at present
          cases present
          exact .inr ⟨List.mem_cons_self, (le_max _ _).2⟩
        · exact .inl (by simpa [Array.getElem?_setIfInBounds, same] using present)

theorem jump_extends {w later : Walk} {r : Routine} {source : Nat} {label : Label} {depth : Int64}
    (jumped : w.jump r source label depth = .ok later) :
    Extends w later ∧ ∃ target, r.labelIndex? label = some target ∧
      Arrives later.before target depth := by
  unfold Walk.jump at jumped
  split at jumped
  · cases jumped
  · next target found =>
    obtain ⟨extended, arrives⟩ := reach_extends jumped
    exact ⟨extended, target, found, arrives⟩

theorem raise_extends {w later : Walk} {r : Routine} {i : Nat} {depth : Int64}
    (raised : w.raise r i depth = .ok later) :
    Extends w later ∧ ∀ region, r.regionAt? (Int64.ofNat i) = some region →
      ¬ depth < region.depth ∧ ∃ target, r.labelIndex? region.handler = some target ∧
        Arrives later.before target (region.depth + 1) := by
  unfold Walk.raise at raised
  split at raised
  · next none =>
    cases raised
    exact ⟨.refl w, fun region found => by rw [none] at found; cases found⟩
  · next region found =>
    split at raised
    · cases raised
    · next deep =>
      obtain ⟨extended, arrives⟩ := jump_extends raised
      refine ⟨extended, fun other same => ?_⟩
      rw [found] at same
      cases same
      exact ⟨deep, arrives⟩

private theorem deepen_extends (w : Walk) (depth : Int64) :
    Extends w { w with max := if w.max < depth then depth else w.max } :=
  ⟨rfl, fun _ _ _ found => found, (le_max _ _).1, fun _ member => member,
    fun _ _ _ found => .inl found⟩

private theorem fall_extends {w later : Walk} {i : Nat} {o : Operation} {depth : Int64}
    (fallen : (if o.terminates = true then .ok w else w.reach i (i + 1) depth) = .ok later) :
    Extends w later ∧ (o.terminates = false → Arrives later.before (i + 1) depth) := by
  split at fallen
  next terminates =>
    cases fallen
    exact ⟨.refl w, fun falls => by rw [terminates] at falls; cases falls⟩
  next =>
    obtain ⟨extended, arrives⟩ := reach_extends fallen
    exact ⟨extended, fun _ => arrives⟩

theorem visit_follows {w later : Walk} {r : Routine} {i : Nat} {o : Operation} {depth : Int64}
    (visited : w.visit r i o depth = .ok later) :
    Extends w later ∧ Followed r later.before later.max i o depth := by
  unfold Walk.visit at visited
  simp only [bind, Except.bind, pure, Except.pure] at visited
  split at visited
  · cases visited
  · next raised raising =>
    obtain ⟨extended, raises⟩ := raise_extends raising
    split at visited
    · cases visited
    · next enough =>
      have deepened := deepen_extends raised (depth - o.pops + o.pushes)
      have bounded := (le_max raised.max (depth - o.pops + o.pushes)).2
      have raisesLater : ∀ last, Extends raised last → ∀ region,
          r.regionAt? (Int64.ofNat i) = some region → ¬ depth < region.depth ∧
            ∃ target, r.labelIndex? region.handler = some target ∧
              Arrives last.before target (region.depth + 1) := by
        intro last grown region found
        obtain ⟨deep, target, label, arrives⟩ := raises region found
        exact ⟨deep, target, label, arrives.extends grown⟩
      split at visited
      · next label named =>
        split at visited
        · cases visited
        · next jumped jumping =>
          obtain ⟨extended₁, target, found, arrives⟩ := jump_extends jumping
          obtain ⟨extended₂, falls⟩ := fall_extends visited
          have grown := deepened.trans (extended₁.trans extended₂)
          refine ⟨extended.trans grown, enough, ?_, raisesLater later grown, ?_, falls⟩
          · exact Int64.le_trans bounded (extended₁.trans extended₂).max
          · intro other same
            rw [named] at same
            cases same
            exact ⟨target, found, arrives.extends extended₂⟩
      · next none =>
        obtain ⟨extended₁, falls⟩ := fall_extends visited
        have grown := deepened.trans extended₁
        refine ⟨extended.trans grown, enough, Int64.le_trans bounded extended₁.max,
          raisesLater later grown, ?_, falls⟩
        intro label named
        rw [none] at named
        cases named

/-- The invariant of a walk: an operation with a depth is queued or has been followed. -/
structure Settling (r : Routine) (w : Walk) : Prop where
  bounded : ∀ (i : Nat) (depth : Int64), 0 ≤ depth → w.before[i]? = some depth → depth ≤ w.max
  settled : ∀ (i : Nat) (o : Operation) (depth : Int64), 0 ≤ depth → w.before[i]? = some depth →
    r.ops[i]? = some o → i ∈ w.work ∨ Followed r w.before w.max i o depth

private theorem Settling.visit {r : Routine} {w later : Walk} {i : Nat} {work : List Nat}
    {o : Operation} {depth : Int64} (valid : Settling r w) (first : w.work = i :: work)
    (operation : r.ops[i]? = some o) (known : w.before[i]? = some depth)
    (visited : Walk.visit { w with work } r i o depth = .ok later) : Settling r later := by
  obtain ⟨extended, followed⟩ := visit_follows visited
  constructor
  · intro j other positive found
    rcases extended.fresh j other positive found with old | ⟨_, bound⟩
    · exact Int64.le_trans (valid.bounded j other positive old) extended.max
    · exact bound
  · intro j p other positive found present
    rcases extended.fresh j other positive found with old | ⟨queued, _⟩
    · rcases valid.settled j p other positive old present with queued | done
      · rw [first] at queued
        rcases List.mem_cons.mp queued with rfl | queued
        · rw [known] at old
          rw [operation] at present
          cases old
          cases present
          exact .inr followed
        · exact .inl (extended.queued j queued)
      · exact .inr (Followed.extends (w := { w with work }) done extended)
    · exact .inl queued

private theorem Settling.skip {r : Routine} {w : Walk} {i : Nat} {work : List Nat}
    (valid : Settling r w) (first : w.work = i :: work)
    (missing : ∀ o depth, r.ops[i]? = some o → w.before[i]? = some depth → False) :
    Settling r { w with work } := by
  refine ⟨valid.bounded, fun j p other positive found present => ?_⟩
  rcases valid.settled j p other positive found present with queued | done
  · rw [first] at queued
    rcases List.mem_cons.mp queued with rfl | queued
    · exact (missing p other present found).elim
    · exact .inl queued
  · exact .inr done

theorem run_settles {r : Routine} {fuel : Nat} {w last : Walk} (valid : Settling r w)
    (ended : Walk.run r fuel w = .ok last) :
    Settling r last ∧ last.work = [] ∧ last.before.size = w.before.size ∧
      ∀ (i : Nat) (depth : Int64), 0 ≤ depth → w.before[i]? = some depth →
        last.before[i]? = some depth := by
  induction fuel generalizing w with
  | zero => cases ended
  | succ fuel ih =>
    rw [Walk.run] at ended
    split at ended
    next done =>
      cases ended
      exact ⟨valid, done, rfl, fun _ _ _ found => found⟩
    next i work first =>
      split at ended
      next o depth operation known =>
        split at ended
        · cases ended
        · next next visited =>
          have extended := (visit_follows visited).1
          obtain ⟨settled, empty, size, kept⟩ := ih (valid.visit first operation known visited) ended
          exact ⟨settled, empty, size.trans extended.size, fun j other positive found =>
            kept j other positive (extended.kept j other positive found)⟩
      next missing =>
        have skipped : Settling r { w with work } :=
          valid.skip first fun o depth operation known => missing o depth operation known
        obtain ⟨settled, empty, size, kept⟩ := ih skipped ended
        exact ⟨settled, empty, size, kept⟩

/-- The depths of a routine agree along every edge. -/
structure Agreeing (r : Routine) (d : Depths) : Prop where
  entry : d.before[0]? = some 0
  bounded : ∀ (i : Nat) (depth : Int64), 0 ≤ depth → d.before[i]? = some depth → depth ≤ d.max
  size : d.before.size = r.ops.size
  followed : ∀ (i : Nat) (o : Operation) (depth : Int64), 0 ≤ depth →
    d.before[i]? = some depth → r.ops[i]? = some o → Followed r d.before d.max i o depth

theorem ofRoutine_agrees {r : Routine} {d : Depths} (present : r.ops.isEmpty = false)
    (accepted : Depths.ofRoutine r = .ok d) : Agreeing r d := by
  simp only [Depths.ofRoutine, present, Bool.false_eq_true, if_false] at accepted
  split at accepted
  · cases accepted
  · next first reached =>
    obtain ⟨extended, arrives⟩ := reach_extends reached
    have start : Settling r first := by
      constructor
      · intro i depth positive found
        rcases extended.fresh i depth positive found with old | ⟨_, bound⟩
        · simp only [Array.getElem?_replicate] at old
          split at old <;> cases old
          exact absurd positive (by decide)
        · exact bound
      · intro i o depth positive found _
        rcases extended.fresh i depth positive found with old | ⟨queued, _⟩
        · simp only [Array.getElem?_replicate] at old
          split at old <;> cases old
          exact absurd positive (by decide)
        · exact .inl queued
    split at accepted
    · cases accepted
    · next last ended =>
      obtain ⟨settled, empty, size, kept⟩ := run_settles start ended
      cases accepted
      refine ⟨kept 0 0 (by decide) (arrives.2 (by decide)), settled.bounded, ?_, ?_⟩
      · rw [size, extended.size, Array.size_replicate]
      · intro i o depth positive found operation
        rcases settled.settled i o depth positive found operation with queued | followed
        · rw [empty] at queued
          cases queued
        · exact followed

/-- An edge that leaves an operation at a depth: where it leads, and the depth there. -/
inductive Hop (r : Routine) (i : Nat) (o : Operation) (depth : Int64) : Nat → Int64 → Prop
  | raises {region : Protected} {target : Nat} (found : r.regionAt? (Int64.ofNat i) = some region)
      (handler : r.labelIndex? region.handler = some target) :
      Hop r i o depth target (region.depth + 1)
  | jumps {label : Label} {target : Nat} (enough : ¬ depth < o.pops) (named : o.target? = some label)
      (found : r.labelIndex? label = some target) :
      Hop r i o depth target (depth - o.pops + o.pushes)
  | falls (enough : ¬ depth < o.pops) (falls : o.terminates = false) :
      Hop r i o depth (i + 1) (depth - o.pops + o.pushes)

/-- Going deeper. -/
def deepened (w : Walk) (depth : Int64) : Walk := { w with max := if w.max < depth then depth else w.max }

section
variable {r : Routine} {w later : Walk} {i : Nat} {o : Operation} {depth : Int64}

theorem visit_invariant {motive : Walk → Prop} (start : motive w)
    (edge : ∀ w later target d, Hop r i o depth target d → motive w →
      w.reach i target d = .ok later → motive later)
    (deepen : ∀ w, ¬ depth < o.pops → motive w → motive (deepened w (depth - o.pops + o.pushes)))
    (visited : w.visit r i o depth = .ok later) : motive later := by
  have raise : ∀ later, w.raise r i depth = .ok later → motive later := by
    intro later raised
    unfold Walk.raise Walk.jump at raised
    repeat' split at raised
    · cases raised
      exact start
    · cases raised
    · cases raised
    · next region found _ _ target handler => exact edge _ _ _ _ (.raises found handler) start raised
  unfold Walk.visit at visited
  simp only [bind, Except.bind, pure, Except.pure] at visited
  split at visited
  · cases visited
  · next raised raising =>
    split at visited
    · cases visited
    · next enough =>
      have deeper := deepen raised enough (raise raised raising)
      have fall : ∀ {w : Walk}, motive w → (if o.terminates = true then .ok w else
          w.reach i (i + 1) (depth - o.pops + o.pushes)) = .ok later → motive later := by
        intro w holds fallen
        split at fallen
        · cases fallen
          exact holds
        · next falls => exact edge _ _ _ _ (.falls enough (by simpa using falls)) holds fallen
      split at visited
      · next label named =>
        split at visited
        · cases visited
        · next jumped jumping =>
          unfold Walk.jump at jumping
          split at jumping
          · cases jumping
          · next target found =>
            exact fall (edge _ _ _ _ (.jumps enough named found) deeper jumping) visited
      · exact fall deeper visited

theorem run_invariant {motive : Walk → Prop} {fuel : Nat} {last : Walk} (start : motive w)
    (skip : ∀ (w : Walk) i work, w.work = i :: work →
      (∀ o depth, r.ops[i]? = some o → w.before[i]? = some depth → False) → motive w →
      motive { w with work })
    (visit : ∀ (w later : Walk) i o depth work, w.work = i :: work → r.ops[i]? = some o →
      w.before[i]? = some depth → motive w → Walk.visit { w with work } r i o depth = .ok later →
      motive later)
    (ended : Walk.run r fuel w = .ok last) : motive last := by
  induction fuel generalizing w with
  | zero => cases ended
  | succ fuel ih =>
    rw [Walk.run] at ended
    split at ended
    next =>
      cases ended
      exact start
    next i work first =>
      split at ended
      next o depth operation known =>
        split at ended
        · cases ended
        · next next visited => exact ih (visit w next i o depth work first operation known start visited) ended
      next missing => exact ih (skip w i work first missing start) ended

end

/-- What holds at the entry and is passed on along every edge that a walk follows, and so at every depth
that it notes. -/
structure Closed (r : Routine) (holds : Nat → Int64 → Prop) : Prop where
  entry : holds 0 0
  raises : ∀ i depth region target, holds i depth → i < r.ops.size →
    r.regionAt? (Int64.ofNat i) = some region → r.labelIndex? region.handler = some target →
    holds target (region.depth + 1)
  jumps : ∀ i depth o label target, holds i depth → r.ops[i]? = some o → ¬ depth < o.pops →
    o.target? = some label → r.labelIndex? label = some target →
    holds target (depth - o.pops + o.pushes)
  falls : ∀ i depth o, holds i depth → r.ops[i]? = some o → ¬ depth < o.pops →
    o.terminates = false → holds (i + 1) (depth - o.pops + o.pushes)

/-- The depths of a walk in progress: those of queued operations are noted, so that they hold. -/
structure Noted (holds : Nat → Int64 → Prop) (w : Walk) : Prop where
  depths : ∀ (i : Nat) (depth : Int64), w.before[i]? = some depth → depth = -1 ∨ holds i depth
  queued : ∀ i ∈ w.work, ∀ depth, w.before[i]? = some depth → holds i depth

section
variable {holds : Nat → Int64 → Prop} {r : Routine} {w later : Walk} {i : Nat} {depth : Int64}

private theorem Closed.edge (closed : Closed r holds) {o : Operation} (here : holds i depth)
    (operation : r.ops[i]? = some o) {target : Nat} {d : Int64} (edge : Hop r i o depth target d) :
    holds target d := by
  cases edge with
  | raises found handler =>
    exact closed.raises i depth _ target here (Array.getElem?_eq_some_iff.mp operation).1 found handler
  | jumps enough named found => exact closed.jumps i depth o _ target here operation enough named found
  | falls enough falls => exact closed.falls i depth o here operation enough falls

private theorem Noted.reach {target : Nat} (noted : Noted holds w) (arrives : holds target depth)
    (reached : w.reach i target depth = .ok later) : Noted holds later := by
  unfold Walk.reach at reached
  split at reached
  · cases reached
  · next known found =>
    obtain ⟨inside, _⟩ := Array.getElem?_eq_some_iff.mp found
    split at reached
    · split at reached
      · cases reached
        exact noted
      · cases reached
    · cases reached
      have there : ∀ j other, (w.before.setIfInBounds target depth)[j]? = some other →
          (j = target ∧ other = depth) ∨ (j ≠ target ∧ w.before[j]? = some other) := by
        intro j other present
        by_cases same : target = j
        · subst same
          rw [Array.getElem?_setIfInBounds_self_of_lt inside] at present
          exact .inl ⟨rfl, (Option.some.inj present).symm⟩
        · exact .inr ⟨Ne.symm same, by simpa [Array.getElem?_setIfInBounds, same] using present⟩
      constructor
      · intro j other present
        rcases there j other present with ⟨rfl, rfl⟩ | ⟨_, old⟩
        · exact .inr arrives
        · exact noted.depths j other old
      · intro j member other present
        rcases there j other present with ⟨rfl, rfl⟩ | ⟨apart, old⟩
        · exact arrives
        · exact noted.queued j ((List.mem_cons.mp member).resolve_left apart) other old

private theorem Noted.visit {o : Operation} (closed : Closed r holds) (noted : Noted holds w)
    (here : holds i depth) (operation : r.ops[i]? = some o) (visited : w.visit r i o depth = .ok later) :
    Noted holds later := by
  refine visit_invariant noted ?_ ?_ visited
  · intro w later target d edge noted reached
    exact noted.reach (closed.edge here operation edge) reached
  · intro w _ noted
    exact ⟨noted.depths, noted.queued⟩

private theorem Noted.run (closed : Closed r holds) {fuel : Nat} {last : Walk} (noted : Noted holds w)
    (ended : Walk.run r fuel w = .ok last) : Noted holds last := by
  have rest : ∀ (w : Walk) i work, w.work = i :: work → Noted holds w → Noted holds { w with work } := by
    intro w i work first noted
    exact ⟨noted.depths, fun j member => noted.queued j (first ▸ List.mem_cons_of_mem _ member)⟩
  refine run_invariant noted (fun w i work first _ => rest w i work first) ?_ ended
  intro w later i o depth work first operation known noted visited
  have here := noted.queued i (first ▸ List.mem_cons_self) depth known
  exact (rest w i work first noted).visit closed here operation visited

theorem ofRoutine_closed {d : Depths} (closed : Closed r holds) (present : r.ops.isEmpty = false)
    (accepted : Depths.ofRoutine r = .ok d) (i : Nat) (depth : Int64)
    (found : d.before[i]? = some depth) : depth = -1 ∨ holds i depth := by
  simp only [Depths.ofRoutine, present, Bool.false_eq_true, if_false] at accepted
  split at accepted
  · cases accepted
  · next first reached =>
    have empty : Noted holds { before := Array.replicate r.ops.size (-1) } := by
      refine ⟨fun j other old => ?_, nofun⟩
      simp only [Array.getElem?_replicate] at old
      split at old <;> cases old
      exact .inl rfl
    split at accepted
    · cases accepted
    · next last ended =>
      have noted := (empty.reach closed.entry reached).run closed ended
      cases accepted
      exact noted.depths i depth found

end

/-- A depth before an operation that is reached, or after it. -/
def Attained (r : Routine) (before : Array Int64) (max : Int64) : Prop :=
  ∃ (i : Nat) (o : Operation) (depth : Int64), r.ops[i]? = some o ∧ before[i]? = some depth ∧ 0 ≤ depth ∧
    (max = depth ∨ max = depth - o.pops + o.pushes)

structure Peaks (r : Routine) (w : Walk) : Prop where
  size : w.before.size = r.ops.size
  positive : 0 ≤ w.max
  attained : Attained r w.before w.max

section
variable {r : Routine} {w later : Walk} {i : Nat} {depth : Int64}

private theorem Attained.extends {max : Int64} (attained : Attained r w.before max)
    (extended : Extends w later) : Attained r later.before max := by
  obtain ⟨i, o, depth, operation, found, positive, same⟩ := attained
  exact ⟨i, o, depth, operation, extended.kept i depth positive found, positive, same⟩

private theorem Peaks.reach {target : Nat} (peaks : Peaks r w)
    (reached : w.reach i target depth = .ok later) : Peaks r later := by
  have extended := (reach_extends reached).1
  have kept := peaks.attained.extends extended
  refine ⟨extended.size.trans peaks.size, Int64.le_trans peaks.positive extended.max, ?_⟩
  unfold Walk.reach at reached
  split at reached
  · cases reached
  · next known found =>
    have inside := (Array.getElem?_eq_some_iff.mp found).1
    split at reached
    · split at reached
      · cases reached
        exact peaks.attained
      · cases reached
    · cases reached
      by_cases deeper : w.max < depth
      · have operation := Array.getElem?_eq_getElem (peaks.size ▸ inside)
        have positive := Int64.le_trans peaks.positive (Int64.le_of_lt deeper)
        exact ⟨target, _, depth, operation, by simp [inside], positive, .inl (if_pos deeper)⟩
      · rw [if_neg deeper]
        exact kept

private theorem Peaks.visit {o : Operation} (counts : ∀ o ∈ r.ops, 0 ≤ o.pops) (peaks : Peaks r w)
    (operation : r.ops[i]? = some o) (here : w.before[i]? = some depth)
    (visited : w.visit r i o depth = .ok later) : Peaks r later := by
  have whole : Peaks r later ∧ (0 ≤ depth → later.before[i]? = some depth) := by
    refine visit_invariant (motive := fun w => Peaks r w ∧ (0 ≤ depth → w.before[i]? = some depth))
      ⟨peaks, fun _ => here⟩ ?_ ?_ visited
    · rintro w later target d _ ⟨peaks, here⟩ reached
      exact ⟨peaks.reach reached, fun positive =>
        (reach_extends reached).1.kept i depth positive (here positive)⟩
    · rintro w enough ⟨peaks, here⟩
      have positive : 0 ≤ depth :=
        Int64.le_trans (counts o (Array.mem_of_getElem? operation)) (Int64.not_lt.mp enough)
      refine ⟨⟨peaks.size, Int64.le_trans peaks.positive (le_max _ _).1, ?_⟩, here⟩
      by_cases deeper : w.max < depth - o.pops + o.pushes
      · exact ⟨i, o, depth, operation, here positive, positive, .inr (if_pos deeper)⟩
      · rw [deepened, if_neg deeper]
        exact peaks.attained
  exact whole.1

/-- The deepest that a walk gets is a depth of an operation. -/
theorem ofRoutine_attained {d : Depths} (counts : ∀ o ∈ r.ops, 0 ≤ o.pops)
    (present : r.ops.isEmpty = false) (accepted : Depths.ofRoutine r = .ok d) :
    Attained r d.before d.max := by
  simp only [Depths.ofRoutine, present, Bool.false_eq_true, if_false] at accepted
  split at accepted
  · cases accepted
  · next first reached =>
    have start : Peaks r first := by
      obtain ⟨extended, arrives⟩ := reach_extends reached
      have size : first.before.size = r.ops.size := by rw [extended.size, Array.size_replicate]
      have entry := arrives.2 (Int64.le_refl 0)
      have operation := Array.getElem?_eq_getElem (size ▸ arrives.1)
      have zero : first.max = 0 := by
        unfold Walk.reach at reached
        repeat' split at reached
        all_goals first | (cases reached; done) | (cases reached; rfl)
      exact ⟨size, zero ▸ Int64.le_refl 0, 0, _, 0, operation, entry, Int64.le_refl 0, .inl zero⟩
    split at accepted
    · cases accepted
    · next last ended =>
      have peaks : Peaks r last := by
        refine run_invariant start (fun w _ _ _ _ peaks => ⟨peaks.size, peaks.positive, peaks.attained⟩) ?_
          ended
        intro w later i o depth work _ operation known peaks visited
        have rest : Peaks r { w with work } := ⟨peaks.size, peaks.positive, peaks.attained⟩
        exact rest.visit counts operation known visited
      cases accepted
      exact peaks.attained

end

end Lowering.Proofs
