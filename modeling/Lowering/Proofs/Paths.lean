import Mathlib
import Lowering.Proofs.DepthWalk

/-! The paths of a routine: control goes from the first operation along every edge, and the slots are
counted without a bound. A walk accepts a routine just if its paths agree and their depths are machine
numbers. -/

namespace Lowering.Proofs
open Host Depths

/-- How many slots an operation reads, and how many it leaves in their place. -/
def reads : Operation → Int
  | .storeLocal _ | .storeGlobal _ | .pop | .dup | .ifTrue _ | .ifFalse _ | .ret | .throw
  | .setHandled => 1
  | .pick depth | .swap depth => depth.toInt + 1
  | .invoke inv => inv.args.toInt
  | .label _ | .const _ | .loadLocal _ | .deleteLocal _ | .loadGlobal _ | .goto _ | .getHandled => 0

def leaves : Operation → Int
  | .const _ | .loadLocal _ | .loadGlobal _ | .getHandled => 1
  | .dup => 2
  | .pick depth => depth.toInt + 2
  | .swap depth => depth.toInt + 1
  | .invoke inv => inv.results.toInt
  | .label _ | .storeLocal _ | .deleteLocal _ | .storeGlobal _ | .pop | .goto _ | .ifTrue _
  | .ifFalse _ | .ret | .throw | .setHandled => 0

def NonNegative : Operation → Prop
  | .pick depth | .swap depth => 0 ≤ depth
  | .invoke inv => 0 ≤ inv.args ∧ 0 ≤ inv.results
  | _ => True

structure Exact (o : Operation) : Prop where
  pops : o.pops.toInt = reads o
  pushes : o.pushes.toInt = leaves o

theorem NonNegative.counts {o : Operation} (positive : NonNegative o) : 0 ≤ reads o ∧ 0 ≤ leaves o := by
  cases o
  case pick | swap =>
    have known := Int64.le_iff_toInt_le.mp positive
    simp only [Int64.toInt_zero] at known
    simp only [reads, leaves]
    omega
  case invoke =>
    obtain ⟨args, results⟩ := positive
    exact ⟨by simpa [reads] using Int64.le_iff_toInt_le.mp args,
      by simpa [leaves] using Int64.le_iff_toInt_le.mp results⟩
  all_goals simp [reads, leaves]

/-- Control gets to an operation at a depth, when it starts at an entry depth. -/
inductive Path (r : Routine) (entry : Int) : Nat → Int → Prop
  | start : Path r entry 0 entry
  | raises {i target : Nat} {depth : Int} {region : Protected} (before : Path r entry i depth)
      (inside : i < r.ops.size) (found : r.regionAt? (Int64.ofNat i) = some region)
      (handler : r.labelIndex? region.handler = some target) :
      Path r entry target (region.depth.toInt + 1)
  | jumps {i target : Nat} {depth : Int} {o : Operation} {label : Label} (before : Path r entry i depth)
      (operation : r.ops[i]? = some o) (named : o.target? = some label)
      (found : r.labelIndex? label = some target) :
      Path r entry target (depth - reads o + leaves o)
  | falls {i : Nat} {depth : Int} {o : Operation} (before : Path r entry i depth)
      (operation : r.ops[i]? = some o) (falls : o.terminates = false) :
      Path r entry (i + 1) (depth - reads o + leaves o)

/-- The paths from the empty stack agree, and nothing is missing on them. -/
structure Consistent (r : Routine) : Prop where
  enough : ∀ i depth o, Path r 0 i depth → r.ops[i]? = some o → reads o ≤ depth
  deep : ∀ i depth region, Path r 0 i depth → i < r.ops.size →
    r.regionAt? (Int64.ofNat i) = some region → region.depth.toInt ≤ depth
  handlers : ∀ i depth region, Path r 0 i depth → i < r.ops.size →
    r.regionAt? (Int64.ofNat i) = some region → ∃ target, r.labelIndex? region.handler = some target
  targets : ∀ i depth o label, Path r 0 i depth → r.ops[i]? = some o → o.target? = some label →
    ∃ target, r.labelIndex? label = some target
  ends : ∀ i depth, Path r 0 i depth → i < r.ops.size
  agree : ∀ i depth other, Path r 0 i depth → Path r 0 i other → depth = other

/-- The depths after the operations on the paths are machine numbers. -/
def Representable (r : Routine) : Prop :=
  ∀ i depth o, Path r 0 i depth → r.ops[i]? = some o → depth - reads o + leaves o < 2 ^ 63

def Marks (r : Routine) (label : Label) (i : Nat) : Prop :=
  r.ops[i]? = some (.label label) ∧ ∃ depth, Path r 0 i depth

/-- The depths are those of the paths. -/
structure Surveys (r : Routine) (d : Depths) : Prop where
  size : d.before.size = r.ops.size
  common : ∀ i depth, Path r 0 i depth → ∃ n, d.before[i]? = some n ∧ n.toInt = depth
  missed : ∀ i, d.before[i]? = some (-1) ↔ i < r.ops.size ∧ ∀ depth, ¬ Path r 0 i depth
  labels : ∀ label n, d.label? label = some n ↔
    ∃ i, Marks r label i ∧ (∀ j, i < j → ¬ Marks r label j) ∧ d.before[i]? = some n
  bounded : ∀ i depth o, Path r 0 i depth → r.ops[i]? = some o →
    depth ≤ d.max.toInt ∧ depth - reads o + leaves o ≤ d.max.toInt
  attained : ∃ i depth o, Path r 0 i depth ∧ r.ops[i]? = some o ∧
    (d.max.toInt = depth ∨ d.max.toInt = depth - reads o + leaves o)

/-- A routine whose operands are not negative and whose counts, with the depths of its handlers, are
machine numbers. -/
structure WellCounted (r : Routine) : Prop where
  positive : ∀ o ∈ r.ops, NonNegative o
  exact : ∀ o ∈ r.ops, Exact o
  handlers : ∀ region ∈ r.regions, 0 ≤ region.depth + 1

section
variable {r : Routine} {d : Depths} {w later : Walk} {i : Nat} {o : Operation} {depth : Int64}

theorem WellCounted.counts (counted : WellCounted r) (operation : r.ops[i]? = some o) :
    0 ≤ o.pops ∧ 0 ≤ o.pushes := by
  have member := Array.mem_of_getElem? operation
  obtain ⟨pops, pushes⟩ := counted.exact o member
  have positive := (counted.positive o member).counts
  rw [Int64.le_iff_toInt_le, Int64.le_iff_toInt_le, pops, pushes]
  exact positive

theorem after_toInt {pops pushes : Int64} (positive : 0 ≤ pops) (results : 0 ≤ pushes)
    (enough : ¬ depth < pops) :
    (0 ≤ depth - pops + pushes ↔ depth.toInt - pops.toInt + pushes.toInt < 2 ^ 63) ∧
      (0 ≤ depth - pops + pushes →
        (depth - pops + pushes).toInt = depth.toInt - pops.toInt + pushes.toInt) := by
  simp only [Int64.le_iff_toInt_le, Int64.lt_iff_toInt_lt, Int64.toInt_zero] at positive results enough ⊢
  have upper := depth.toInt_lt
  have other := pushes.toInt_lt
  rw [Int64.toInt_add, Int64.toInt_sub, Int.bmod_eq_of_le (n := depth.toInt - pops.toInt) (by omega)
    (by omega)]
  simp only [Int.bmod]
  omega

theorem WellCounted.after (counted : WellCounted r) (operation : r.ops[i]? = some o)
    (enough : ¬ depth < o.pops) :
    (0 ≤ depth - o.pops + o.pushes ↔ depth.toInt - reads o + leaves o < 2 ^ 63) ∧
      (0 ≤ depth - o.pops + o.pushes →
        (depth - o.pops + o.pushes).toInt = depth.toInt - reads o + leaves o) := by
  obtain ⟨pops, pushes⟩ := counted.exact o (Array.mem_of_getElem? operation)
  have counts := counted.counts operation
  rw [← pops, ← pushes]
  exact after_toInt counts.1 counts.2 enough

theorem WellCounted.handler (counted : WellCounted r) {region : Protected}
    (found : r.regionAt? (Int64.ofNat i) = some region) :
    0 ≤ region.depth + 1 ∧ (region.depth + 1).toInt = region.depth.toInt + 1 := by
  have positive := counted.handlers region (List.mem_of_find?_eq_some found)
  refine ⟨positive, ?_⟩
  have lower := region.depth.le_toInt
  have upper := region.depth.toInt_lt
  rw [Int64.le_iff_toInt_le, Int64.toInt_add] at positive
  rw [Int64.toInt_add]
  have one : (1 : Int64).toInt = 1 := rfl
  have zero : (0 : Int64).toInt = 0 := rfl
  rw [one] at positive ⊢
  rw [zero] at positive
  simp only [Int.bmod] at positive ⊢
  omega

theorem leaves_of_terminates (ends : o.terminates = true) : leaves o = 0 := by
  cases o <;> simp [Operation.terminates, leaves] at ends ⊢

theorem visit_falls (visited : w.visit r i o depth = .ok later) (falls : o.terminates = false) :
    ∃ last : Walk, last.reach i (i + 1) (depth - o.pops + o.pushes) = .ok later := by
  unfold Walk.visit at visited
  simp only [bind, Except.bind, pure, Except.pure, falls] at visited
  split at visited
  · cases visited
  · split at visited
    · cases visited
    · split at visited
      · split at visited
        · cases visited
        · exact ⟨_, visited⟩
      · exact ⟨_, visited⟩

/-- The operation that is visited next has a negative depth. It does not find its operands, so that a walk
which goes on has left no operation at one. -/
def Sinks (w : Walk) (i : Nat) : Prop :=
  ∃ work n, w.work = i :: work ∧ w.before[i]? = some n ∧ n < 0

theorem reach_sinks {target : Nat} (reached : w.reach i target depth = .ok later) (below : depth < 0) :
    Sinks later target := by
  unfold Walk.reach at reached
  split at reached
  · cases reached
  · next known found =>
    have inside := (Array.getElem?_eq_some_iff.mp found).1
    split at reached
    · next positive =>
      split at reached
      · next same =>
        have equal : known = depth := by simpa using same
        exact absurd (equal ▸ positive) (Int64.not_le.mpr below)
      · cases reached
    · cases reached
      exact ⟨_, depth, rfl, by simp [inside], below⟩

/-- The operations that have been visited are left at depths that are not negative, except that the
last one may have left the walk about to fail. -/
structure Afloat (r : Routine) (w : Walk) : Prop where
  size : w.before.size = r.ops.size
  falls : ∀ i o depth, 0 ≤ depth → w.before[i]? = some depth → r.ops[i]? = some o →
    o.terminates = false → i ∈ w.work ∨ 0 ≤ depth - o.pops + o.pushes ∨ Sinks w (i + 1)

theorem Afloat.visit {work : List Nat} (counted : WellCounted r) (afloat : Afloat r w)
    (first : w.work = i :: work) (operation : r.ops[i]? = some o) (known : w.before[i]? = some depth)
    (visited : Walk.visit { w with work } r i o depth = .ok later) : Afloat r later := by
  obtain ⟨extended, followed⟩ := visit_follows visited
  refine ⟨extended.size.trans afloat.size, fun j p other positive found present falls => ?_⟩
  rcases extended.fresh j other positive found with old | ⟨queued, _⟩
  · rcases afloat.falls j p other positive old present falls with queued | fine | sinks
    · rw [first] at queued
      rcases List.mem_cons.mp queued with rfl | queued
      · cases known.symm.trans old
        cases operation.symm.trans present
        obtain ⟨last, reached⟩ := visit_falls visited falls
        by_cases level : 0 ≤ depth - o.pops + o.pushes
        · exact .inr (.inl level)
        · exact .inr (.inr (reach_sinks reached (Int64.not_le.mp level)))
      · exact .inl (extended.queued j queued)
    · exact .inr (.inl fine)
    · -- the walk would have failed here
      obtain ⟨rest, n, next, before, below⟩ := sinks
      cases first.symm.trans next
      cases known.symm.trans before
      exact absurd (Int64.lt_of_lt_of_le below (counted.counts operation).1) followed.enough
  · exact .inl queued

theorem Afloat.skip {work : List Nat} (afloat : Afloat r w) (first : w.work = i :: work)
    (missing : ∀ o depth, r.ops[i]? = some o → w.before[i]? = some depth → False) :
    Afloat r { w with work } := by
  refine ⟨afloat.size, fun j p other positive found present falls => ?_⟩
  rcases afloat.falls j p other positive found present falls with queued | fine | sinks
  · rw [first] at queued
    rcases List.mem_cons.mp queued with rfl | queued
    · exact (missing p other present found).elim
    · exact .inl queued
  · exact .inr (.inl fine)
  · obtain ⟨rest, n, next, before, _⟩ := sinks
    cases first.symm.trans next
    have inside := (Array.getElem?_eq_some_iff.mp before).1
    exact (missing _ n (Array.getElem?_eq_getElem (afloat.size ▸ inside)) before).elim

theorem run_empties {fuel : Nat} {last : Walk} (ended : Walk.run r fuel w = .ok last) :
    last.work = [] := by
  induction fuel generalizing w with
  | zero => cases ended
  | succ fuel ih =>
    rw [Walk.run] at ended
    split at ended
    next done =>
      cases ended
      exact done
    next =>
      split at ended
      · split at ended
        · cases ended
        · exact ih ended
      · exact ih ended

theorem ofRoutine_afloat (counted : WellCounted r) (present : r.ops.isEmpty = false)
    (accepted : Depths.ofRoutine r = .ok d) (positive : 0 ≤ depth) (found : d.before[i]? = some depth)
    (operation : r.ops[i]? = some o) (falls : o.terminates = false) :
    0 ≤ depth - o.pops + o.pushes := by
  simp only [Depths.ofRoutine, present, Bool.false_eq_true, if_false] at accepted
  split at accepted
  · cases accepted
  · next first reached =>
    have extended := (reach_extends reached).1
    have start : Afloat r first := by
      refine ⟨by rw [extended.size, Array.size_replicate], fun j p other above here _ _ => ?_⟩
      rcases extended.fresh j other above here with old | ⟨queued, _⟩
      · simp only [Array.getElem?_replicate] at old
        split at old <;> cases old
        exact absurd above (by decide)
      · exact .inl queued
    split at accepted
    · cases accepted
    · next last ended =>
      have afloat : Afloat r last := run_invariant start
        (fun w i work first missing afloat => afloat.skip first missing)
        (fun w later i o depth work first operation known afloat visited =>
          afloat.visit counted first operation known visited) ended
      have empty := run_empties ended
      cases accepted
      rcases afloat.falls i o depth positive found operation falls with queued | fine | ⟨_, _, next, _⟩
      · rw [empty] at queued
        cases queued
      · exact fine
      · cases empty.symm.trans next

/-- The depths of an accepted routine, with what was checked along its paths. -/
structure Accepted (r : Routine) (d : Depths) : Prop where
  counted : WellCounted r
  agreeing : Agreeing r d
  afloat : ∀ (i : Nat) (o : Operation) (depth : Int64), 0 ≤ depth → d.before[i]? = some depth →
    r.ops[i]? = some o → o.terminates = false → 0 ≤ depth - o.pops + o.pushes

theorem ofRoutine_accepted (counted : WellCounted r) (present : r.ops.isEmpty = false)
    (accepted : Depths.ofRoutine r = .ok d) : Accepted r d :=
  ⟨counted, ofRoutine_agrees present accepted, fun _ _ _ positive found operation falls =>
    ofRoutine_afloat counted present accepted positive found operation falls⟩

theorem Accepted.after (accepted : Accepted r d) (positive : 0 ≤ depth)
    (found : d.before[i]? = some depth) (operation : r.ops[i]? = some o) :
    0 ≤ depth - o.pops + o.pushes ∧ depth.toInt - reads o + leaves o < 2 ^ 63 ∧
      (depth - o.pops + o.pushes).toInt = depth.toInt - reads o + leaves o := by
  have enough := (accepted.agreeing.followed i o depth positive found operation).enough
  obtain ⟨level, same⟩ := accepted.counted.after operation enough
  suffices above : 0 ≤ depth - o.pops + o.pushes from ⟨above, level.mp above, same above⟩
  cases falls : o.terminates with
  | false => exact accepted.afloat i o depth positive found operation falls
  | true =>
    have upper := depth.toInt_lt
    have counts := (accepted.counted.positive o (Array.mem_of_getElem? operation)).counts
    rw [level, leaves_of_terminates falls]
    omega

theorem Accepted.path (accepted : Accepted r d) {depth : Int} (path : Path r 0 i depth) :
    ∃ n, d.before[i]? = some n ∧ 0 ≤ n ∧ n.toInt = depth := by
  induction path with
  | start => exact ⟨0, accepted.agreeing.entry, by decide, rfl⟩
  | @raises i target depth region before inside found handler ih =>
    obtain ⟨n, here, positive, same⟩ := ih
    have followed := accepted.agreeing.followed i _ n positive here (Array.getElem?_eq_getElem inside)
    obtain ⟨_, other, named, arrives⟩ := followed.raises region found
    cases handler.symm.trans named
    obtain ⟨above, true'⟩ := accepted.counted.handler found
    exact ⟨region.depth + 1, arrives.2 above, above, true'⟩
  | @jumps i target depth o label before operation named found ih =>
    obtain ⟨n, here, positive, rfl⟩ := ih
    have followed := accepted.agreeing.followed i o n positive here operation
    obtain ⟨other, defined, arrives⟩ := followed.jumps label named
    cases found.symm.trans defined
    obtain ⟨above, _, true'⟩ := accepted.after positive here operation
    exact ⟨_, arrives.2 above, above, true'⟩
  | @falls i depth o before operation falls ih =>
    obtain ⟨n, here, positive, rfl⟩ := ih
    have followed := accepted.agreeing.followed i o n positive here operation
    obtain ⟨above, _, true'⟩ := accepted.after positive here operation
    exact ⟨_, (followed.falls falls).2 above, above, true'⟩

theorem Accepted.consistent (accepted : Accepted r d) : Consistent r := by
  have followed : ∀ {i : Nat} {depth : Int} {o : Operation}, Path r 0 i depth → r.ops[i]? = some o →
      ∃ n, n.toInt = depth ∧ Followed r d.before d.max i o n := by
    intro i depth o path operation
    obtain ⟨n, here, positive, same⟩ := accepted.path path
    exact ⟨n, same, accepted.agreeing.followed i o n positive here operation⟩
  constructor
  case enough =>
    intro i depth o path operation
    obtain ⟨n, rfl, followed⟩ := followed path operation
    rw [← (accepted.counted.exact o (Array.mem_of_getElem? operation)).pops]
    exact Int64.le_iff_toInt_le.mp (Int64.not_lt.mp followed.enough)
  case deep =>
    intro i depth region path inside found
    obtain ⟨n, rfl, followed⟩ := followed path (Array.getElem?_eq_getElem inside)
    exact Int64.le_iff_toInt_le.mp (Int64.not_lt.mp (followed.raises region found).1)
  case handlers =>
    intro i depth region path inside found
    obtain ⟨n, _, followed⟩ := followed path (Array.getElem?_eq_getElem inside)
    obtain ⟨_, target, named, _⟩ := followed.raises region found
    exact ⟨target, named⟩
  case targets =>
    intro i depth o label path operation named
    obtain ⟨n, _, followed⟩ := followed path operation
    obtain ⟨target, found, _⟩ := followed.jumps label named
    exact ⟨target, found⟩
  case ends =>
    intro i depth path
    obtain ⟨n, here, _⟩ := accepted.path path
    exact accepted.agreeing.size ▸ (Array.getElem?_eq_some_iff.mp here).1
  case agree =>
    intro i depth other first second
    obtain ⟨n, here, _, rfl⟩ := accepted.path first
    obtain ⟨m, there, _, rfl⟩ := accepted.path second
    cases here.symm.trans there
    rfl

theorem Accepted.representable (accepted : Accepted r d) : Representable r := by
  intro i depth o path operation
  obtain ⟨n, here, positive, rfl⟩ := accepted.path path
  exact (accepted.after positive here operation).2.1

theorem noted_path (counted : WellCounted r) (present : r.ops.isEmpty = false)
    (accepted : Depths.ofRoutine r = .ok d) (found : d.before[i]? = some depth) :
    depth = -1 ∨ (∃ n, Path r 0 i n) ∧ (0 ≤ depth → Path r 0 i depth.toInt) := by
  suffices closed : Closed r fun i depth => (∃ n, Path r 0 i n) ∧ (0 ≤ depth → Path r 0 i depth.toInt) from
    ofRoutine_closed closed present accepted i depth found
  have enough : ∀ {i : Nat} {o : Operation} {depth : Int64}, r.ops[i]? = some o → ¬ depth < o.pops →
      0 ≤ depth := fun operation enough =>
    Int64.le_trans (counted.counts operation).1 (Int64.not_lt.mp enough)
  constructor
  case entry => exact ⟨⟨0, .start⟩, fun _ => .start⟩
  case raises =>
    rintro i depth region target ⟨⟨n, path⟩, _⟩ inside found handler
    have here := path.raises inside found handler
    exact ⟨⟨_, here⟩, fun _ => (counted.handler found).2 ▸ here⟩
  case jumps =>
    rintro i depth o label target ⟨_, path⟩ operation some' named handler
    have here := (path (enough operation some')).jumps operation named handler
    exact ⟨⟨_, here⟩, fun above => (counted.after operation some').2 above ▸ here⟩
  case falls =>
    rintro i depth o ⟨_, path⟩ operation some' falls
    have here := (path (enough operation some')).falls operation falls
    exact ⟨⟨_, here⟩, fun above => (counted.after operation some').2 above ▸ here⟩

def labelDepth? (before : Array Int64) : Operation × Nat → Option (Label × Int64)
  | (.label id, i) => (before[i]?.filter (0 ≤ ·)).map ((id, ·))
  | _ => none

theorem ofRoutine_labels (present : r.ops.isEmpty = false) (accepted : Depths.ofRoutine r = .ok d) :
    d.labels = r.ops.toList.zipIdx.filterMap (labelDepth? d.before) := by
  simp only [Depths.ofRoutine, present, Bool.false_eq_true, if_false] at accepted
  split at accepted
  · cases accepted
  · split at accepted
    · cases accepted
    · next last _ =>
      cases accepted
      rw [Routine.labels, List.filterMap_filterMap]
      refine congrArg (List.filterMap · _) (funext ?_)
      rintro ⟨o, i⟩
      cases o <;> try rfl
      simp only [labelDepth?, Option.bind_some]
      cases last.before[i]? with
      | none => rfl
      | some depth =>
        simp only [Option.filter_some, decide_eq_true_eq]
        split <;> rfl

def Shows (before : Array Int64) (ops : List Operation) (label : Label) (i : Nat) : Prop :=
  ops[i]? = some (.label label) ∧ ∃ m, before[i]? = some m ∧ 0 ≤ m

section
variable {before : Array Int64} {ops : List Operation} {label : Label} {o : Operation} {i : Nat}

theorem Shows.inside (shows' : Shows before ops label i) : i < ops.length :=
  (List.getElem?_eq_some_iff.mp shows'.1).1

theorem shows_append : Shows before (ops ++ [o]) label i ↔ Shows before ops label i ∨
    i = ops.length ∧ Shows before (ops ++ [o]) label ops.length := by
  by_cases last : i = ops.length
  · subst last
    simp only [true_and, iff_or_self]
    exact fun old => absurd old.inside (Nat.lt_irrefl _)
  · have same : (ops ++ [o])[i]? = ops[i]? := by
      rcases Nat.lt_or_gt_of_ne last with less | more
      · exact List.getElem?_append_left less
      · rw [List.getElem?_eq_none (by simp; omega), List.getElem?_eq_none (by omega)]
    simp [Shows, last, same]

theorem lastEntry_iff {n : Int64} :
    ((((ops.zipIdx.filterMap (labelDepth? before)).reverse.find? (·.1 == label)).map (·.2)) = some n) ↔
      ∃ i, Shows before ops label i ∧ (∀ j, i < j → ¬ Shows before ops label j) ∧
        before[i]? = some n := by
  induction ops using List.reverseRecOn with
  | nil => simp [Shows]
  | append_singleton ops o ih =>
    rw [List.zipIdx_append, List.filterMap_append, List.reverse_append]
    simp only [List.zipIdx_singleton, Nat.zero_add]
    by_cases last : Shows before (ops ++ [o]) label ops.length
    · obtain ⟨here, m, known, positive⟩ := id last
      have same : o = .label label := by simpa using here
      subst same
      have single : List.filterMap (labelDepth? before) [(.label label, ops.length)] = [(label, m)] := by
        simp [labelDepth?, known, positive, Option.filter_some]
      rw [single]
      simp only [List.reverse_singleton, List.singleton_append, List.find?_cons, beq_self_eq_true,
        Option.map_some, Option.some.injEq]
      constructor
      · rintro rfl
        refine ⟨ops.length, last, fun j more shows' => ?_, known⟩
        have inside := shows'.inside
        simp at inside
        omega
      · rintro ⟨i, shows', final, found⟩
        rcases shows_append.mp shows' with old | ⟨rfl, _⟩
        · exact (final ops.length old.inside last).elim
        · exact Option.some.inj (known.symm.trans found)
    · have older : ∀ i, Shows before (ops ++ [o]) label i ↔ Shows before ops label i := fun i =>
        shows_append.trans (or_iff_left fun ⟨_, also⟩ => last also)
      have skip : ((List.filterMap (labelDepth? before) [(o, ops.length)]).reverse ++
          (List.filterMap (labelDepth? before) ops.zipIdx).reverse).find? (·.1 == label) =
          (List.filterMap (labelDepth? before) ops.zipIdx).reverse.find? (·.1 == label) := by
        rw [List.find?_append, List.find?_eq_none.mpr, Option.none_or]
        intro entry member same
        simp only [List.mem_reverse, List.mem_filterMap, List.mem_singleton] at member
        obtain ⟨_, rfl, shown⟩ := member
        refine last ?_
        cases o <;> simp only [labelDepth?, reduceCtorEq] at shown
        obtain ⟨m, known, rfl⟩ := Option.map_eq_some_iff.mp shown
        obtain ⟨found, positive⟩ := Option.filter_eq_some_iff.mp known
        refine ⟨?_, m, found, by simpa using positive⟩
        simpa using same
      rw [skip, ih]
      simp only [older]
end

theorem Accepted.surveys (accepted : Accepted r d) (present : r.ops.isEmpty = false)
    (found : Depths.ofRoutine r = .ok d) : Surveys r d := by
  have noted : ∀ {i : Nat} {n : Int64}, d.before[i]? = some n → 0 ≤ n → Path r 0 i n.toInt := by
    intro i n here positive
    rcases noted_path accepted.counted present found here with rfl | ⟨_, path⟩
    · exact absurd positive (by decide)
    · exact path positive
  have marks : ∀ {label : Label} {i : Nat}, Marks r label i ↔
      r.ops[i]? = some (.label label) ∧ ∃ m, d.before[i]? = some m ∧ 0 ≤ m := by
    intro label i
    refine and_congr_right fun _ => ⟨?_, ?_⟩
    · rintro ⟨depth, path⟩
      obtain ⟨m, here, positive, _⟩ := accepted.path path
      exact ⟨m, here, positive⟩
    · rintro ⟨m, here, positive⟩
      exact ⟨_, noted here positive⟩
  constructor
  case size => exact accepted.agreeing.size
  case common =>
    intro i depth path
    obtain ⟨n, here, _, same⟩ := accepted.path path
    exact ⟨n, here, same⟩
  case missed =>
    intro i
    constructor
    · intro here
      refine ⟨accepted.agreeing.size ▸ (Array.getElem?_eq_some_iff.mp here).1, fun depth path => ?_⟩
      obtain ⟨n, there, positive, _⟩ := accepted.path path
      cases here.symm.trans there
      exact absurd positive (by decide)
    · rintro ⟨inside, missed⟩
      have here := Array.getElem?_eq_getElem (accepted.agreeing.size.symm ▸ inside)
      rcases noted_path accepted.counted present found here with same | ⟨⟨depth, path⟩, _⟩
      · rw [here, same]
      · exact (missed depth path).elim
  case labels =>
    intro label n
    rw [Depths.label?, ofRoutine_labels present found, lastEntry_iff]
    have shows' : ∀ i, Shows d.before r.ops.toList label i ↔ Marks r label i := fun i => by
      rw [marks, Shows, Array.getElem?_toList]
    simp only [shows']
  case bounded =>
    intro i depth o path operation
    obtain ⟨n, here, positive, rfl⟩ := accepted.path path
    have followed := accepted.agreeing.followed i o n positive here operation
    rw [← (accepted.after positive here operation).2.2]
    exact ⟨Int64.le_iff_toInt_le.mp (accepted.agreeing.bounded i n positive here),
      Int64.le_iff_toInt_le.mp followed.bounded⟩
  case attained =>
    obtain ⟨i, o, n, operation, here, positive, same⟩ := ofRoutine_attained
      (fun o member => by
        obtain ⟨i, operation⟩ := Array.getElem?_of_mem member
        exact (accepted.counted.counts operation).1) present found
    refine ⟨i, n.toInt, o, noted here positive, operation, ?_⟩
    rw [← (accepted.after positive here operation).2.2]
    exact same.imp (congrArg _) (congrArg _)

/-- What a walk has found lies on the paths. -/
structure Tracks (r : Routine) (w : Walk) : Prop where
  size : w.before.size = r.ops.size
  traced : ∀ (i : Nat) (n : Int64), w.before[i]? = some n → n = -1 ∨ 0 ≤ n ∧ Path r 0 i n.toInt
  queued : ∀ i ∈ w.work, ∃ n, w.before[i]? = some n ∧ 0 ≤ n

/-- The operations that are not reached and those to be visited: no visit makes them more. -/
def burden (w : Walk) : Nat := w.before.toList.countP (· < 0) + w.work.length

theorem Tracks.reach (tracks : Tracks r w) (source : Nat) {target : Nat} (consistent : Consistent r)
    (positive : 0 ≤ depth) (path : Path r 0 target depth.toInt) :
    ∃ later, w.reach source target depth = .ok later ∧ Tracks r later ∧ burden later = burden w := by
  have inside : target < w.before.size := tracks.size ▸ consistent.ends _ _ path
  unfold Walk.reach
  rw [Array.getElem?_eq_getElem inside]
  simp only []
  rcases tracks.traced target _ (Array.getElem?_eq_getElem inside) with fresh | ⟨above, known⟩
  · rw [if_neg (by rw [fresh]; decide)]
    refine ⟨_, rfl, ⟨by simpa using tracks.size, fun i n found => ?_, fun i member => ?_⟩, ?_⟩
    · rw [Array.getElem?_setIfInBounds] at found
      split at found
      next same =>
        subst same
        cases found
        exact .inr ⟨positive, path⟩
      next => exact tracks.traced i n found
    · rw [Array.getElem?_setIfInBounds]
      split
      next => exact ⟨depth, rfl, positive⟩
      next apart => exact tracks.queued i ((List.mem_cons.mp member).resolve_left (Ne.symm apart))
    · have listed : target < w.before.toList.length := by simpa using inside
      have unknown : w.before.toList[target] = -1 := by simpa using fresh
      have one := List.boole_getElem_le_countP (p := fun n : Int64 => decide (n < 0)) listed
      have known : ¬ depth < 0 := Int64.not_lt.mpr positive
      have below : decide ((-1 : Int64) < 0) = true := rfl
      rw [unknown, below, if_pos rfl] at one
      simp only [burden, Array.toList_setIfInBounds, List.countP_set listed, unknown, below, known,
        decide_false, if_true, Bool.false_eq_true, if_false, List.length_cons]
      omega
  · have same : w.before[target] = depth := Int64.toInt_inj.mp (consistent.agree _ _ _ known path)
    rw [if_pos above, if_pos (by simpa using same)]
    exact ⟨w, rfl, tracks, rfl⟩

theorem Tracks.jump (tracks : Tracks r w) (source : Nat) {target : Nat} {label : Label}
    (consistent : Consistent r) (found : r.labelIndex? label = some target) (positive : 0 ≤ depth)
    (path : Path r 0 target depth.toInt) :
    ∃ later, w.jump r source label depth = .ok later ∧ Tracks r later ∧ burden later = burden w := by
  unfold Walk.jump
  rw [found]
  exact tracks.reach source consistent positive path

theorem Tracks.raise (counted : WellCounted r) (consistent : Consistent r) (tracks : Tracks r w)
    (inside : i < r.ops.size) (path : Path r 0 i depth.toInt) :
    ∃ later, w.raise r i depth = .ok later ∧ Tracks r later ∧ burden later = burden w := by
  unfold Walk.raise
  split
  · exact ⟨w, rfl, tracks, rfl⟩
  · next region found =>
    have deep := consistent.deep i _ region path inside found
    obtain ⟨target, handler⟩ := consistent.handlers i _ region path inside found
    obtain ⟨above, same⟩ := counted.handler found
    rw [if_neg (by rw [Int64.lt_iff_toInt_lt]; omega)]
    exact tracks.jump i consistent handler above (same ▸ path.raises inside found handler)

theorem Tracks.visit (counted : WellCounted r) (consistent : Consistent r)
    (representable : Representable r) (tracks : Tracks r w) (operation : r.ops[i]? = some o)
    (path : Path r 0 i depth.toInt) :
    ∃ later, w.visit r i o depth = .ok later ∧ Tracks r later ∧ burden later = burden w := by
  have inside := (Array.getElem?_eq_some_iff.mp operation).1
  have enough : ¬ depth < o.pops := by
    rw [Int64.lt_iff_toInt_lt, (counted.exact o (Array.mem_of_getElem? operation)).pops]
    exact Int.not_lt.mpr (consistent.enough i _ o path operation)
  obtain ⟨level, same⟩ := counted.after operation enough
  have above := level.mpr (representable i _ o path operation)
  obtain ⟨raised, raising, tracks₁, burden₁⟩ := tracks.raise counted consistent inside path
  have tracks₂ : Tracks r (deepened raised (depth - o.pops + o.pushes)) :=
    ⟨tracks₁.size, tracks₁.traced, tracks₁.queued⟩
  have fall : ∀ {w' : Walk}, Tracks r w' → burden w' = burden w →
      ∃ later, (if o.terminates = true then .ok w' else
        w'.reach i (i + 1) (depth - o.pops + o.pushes)) = .ok later ∧ Tracks r later ∧
        burden later = burden w := by
    intro w' tracks' burden'
    split
    · exact ⟨w', rfl, tracks', burden'⟩
    · next falls =>
      obtain ⟨later, reached, tracks'', burden''⟩ := tracks'.reach i consistent above
        (same above ▸ path.falls operation (by simpa using falls))
      exact ⟨later, reached, tracks'', burden''.trans burden'⟩
  unfold Walk.visit
  simp only [bind, Except.bind, pure, Except.pure, raising, if_neg enough]
  cases named : o.target? with
  | none => exact fall tracks₂ burden₁
  | some label =>
    obtain ⟨target, found⟩ := consistent.targets i _ o label path operation named
    obtain ⟨jumped, jumping, tracks₃, burden₃⟩ := tracks₂.jump i consistent found above
      (same above ▸ path.jumps operation named found)
    simp only [deepened] at jumping
    simp only [jumping]
    exact fall tracks₃ (burden₃.trans burden₁)

theorem Tracks.run (counted : WellCounted r) (consistent : Consistent r)
    (representable : Representable r) {fuel : Nat} (tracks : Tracks r w) (fits : burden w < fuel) :
    ∃ last, Walk.run r fuel w = .ok last := by
  induction fuel generalizing w with
  | zero => omega
  | succ fuel ih =>
    rw [Walk.run]
    split
    · exact ⟨w, rfl⟩
    · next i work first =>
      obtain ⟨n, known, positive⟩ := tracks.queued i (first ▸ List.mem_cons_self)
      have path : Path r 0 i n.toInt := by
        rcases tracks.traced i n known with rfl | ⟨_, path⟩
        · exact absurd positive (by decide)
        · exact path
      have inside : i < r.ops.size := consistent.ends _ _ path
      have rest : Tracks r { w with work } := ⟨tracks.size, tracks.traced, fun j member =>
        tracks.queued j (first ▸ List.mem_cons_of_mem _ member)⟩
      obtain ⟨later, visited, tracks', burden'⟩ := rest.visit counted consistent representable
        (Array.getElem?_eq_getElem inside) path
      simp only [known, Array.getElem?_eq_getElem inside, visited]
      refine ih tracks' ?_
      rw [burden']
      simp only [burden, first, List.length_cons] at fits ⊢
      omega

theorem Consistent.accepted (counted : WellCounted r) (consistent : Consistent r)
    (representable : Representable r) (present : r.ops.isEmpty = false) :
    ∃ d, Depths.ofRoutine r = .ok d := by
  have empty : Tracks r { before := Array.replicate r.ops.size (-1) } := by
    refine ⟨by simp, fun i n here => ?_, nofun⟩
    simp only [Array.getElem?_replicate] at here
    split at here <;> cases here
    exact .inl rfl
  obtain ⟨first, reached, tracks, burden'⟩ := empty.reach 0 consistent (Int64.le_refl 0) .start
  have fits : burden first < fuel r := by
    rw [burden', fuel, Nat.succ_mul]
    simp only [burden, Array.toList_replicate, List.length_nil]
    have all := List.countP_le_length (p := (· < 0)) (l := List.replicate r.ops.size (-1 : Int64))
    rw [List.length_replicate] at all
    omega
  obtain ⟨last, ended⟩ := tracks.run counted consistent representable fits
  simp only [Depths.ofRoutine, present, Bool.false_eq_true, if_false, reached, ended]
  exact ⟨_, rfl⟩

/-- A walk decides whether the paths of a routine agree, and finds their depths. -/
theorem walk_decides (counted : WellCounted r) (present : r.ops.isEmpty = false) :
    ((∃ d, Depths.ofRoutine r = .ok d) ↔ Consistent r ∧ Representable r) ∧
      ∀ d, Depths.ofRoutine r = .ok d → Surveys r d := by
  refine ⟨⟨?_, ?_⟩, ?_⟩
  · rintro ⟨d, found⟩
    have accepted := ofRoutine_accepted counted present found
    exact ⟨accepted.consistent, accepted.representable⟩
  · rintro ⟨consistent, representable⟩
    exact consistent.accepted counted representable present
  · intro d found
    exact (ofRoutine_accepted counted present found).surveys present found

end

/-- A routine that tries again until it raises under protection. -/
def retrying : Routine where
  ops := #[.const .none, .label 1, .dup, .ifTrue 1, .throw, .label 2, .swap 1, .pop, .ret]
  regions := [⟨2, 5, 2, 1⟩]

theorem retrying_consistent : WellCounted retrying ∧ Consistent retrying := by
  have counted : WellCounted retrying := by
    constructor
    · simp [retrying, NonNegative]
    · intro o member
      simp only [retrying, List.mem_toArray, List.mem_cons, List.not_mem_nil, or_false] at member
      rcases member with rfl | rfl | rfl | rfl | rfl | rfl | rfl | rfl | rfl <;> exact ⟨rfl, rfl⟩
    · simp [retrying]
  exact ⟨counted, ((walk_decides counted rfl).1.mp ⟨_, by cbv⟩).1⟩

/-- The deepest pick: the machine counts its operands as less than none. -/
def bottomless : Routine where
  ops := #[.pick 9223372036854775807, .ret]

theorem bottomless_accepted : (∀ o ∈ bottomless.ops, NonNegative o) ∧
    (∃ d, Depths.ofRoutine bottomless = .ok d) ∧ ¬ Consistent bottomless := by
  refine ⟨by simp [bottomless, NonNegative], ⟨_, by cbv⟩, fun consistent => ?_⟩
  exact absurd (consistent.enough 0 0 _ .start rfl) (by decide)

end Lowering.Proofs
