import Mathlib.Algebra.GroupWithZero.Nat
import Mathlib.Data.Finset.Card
import Mathlib.Data.List.Forall2
import Lowering.Batch

/-! Lowering a batch by several workers. The entries are looked at in order: one without a function
is an error at once, and for each other one a worker is started as soon as there is room. Workers
run and finish in any order, and each writes to the slot of its own entry only. Whatever the order
is, the batch comes to an end, and what it returns is what lowering one function after the other
gives. -/

namespace Lowering.Proofs
open Guest

/-- At least one worker is allowed. -/
def workerLimit (workers : Int64) : Nat := if workers < 1 then 1 else workers.toInt.toNat

/-- The failure of a batch with these errors. -/
def aggregate (errors : List LoweringError) : Option BatchFailure :=
  if errors.isEmpty then none else some (.failed errors)

/-- A batch under way. -/
structure Pool where
  /-- The entry that is looked at next. -/
  next : Nat := 0
  /-- The entries whose workers were started and have not stored anything yet. -/
  busy : Finset Nat := ∅
  /-- The entries whose workers have stored, and still count as running. -/
  stored : Finset Nat := ∅
  /-- A slot for each entry. -/
  results : List (Option Lowered)
  errors : List (Option LoweringError)

namespace Pool

def initial (fns : List (Option Function)) : Pool where
  results := fns.map fun _ => none
  errors := fns.map fun _ => none

/-- An entry without a function is passed over. -/
def skip (p : Pool) : Pool :=
  { p with next := p.next + 1, errors := p.errors.set p.next (some (missingFunction p.next)) }

def start (p : Pool) : Pool := { p with next := p.next + 1, busy := insert p.next p.busy }

/-- A worker stores what lowering the function of its entry gave. -/
def store (p : Pool) (i : Nat) (fn : Function) : Pool :=
  let q := { p with busy := p.busy.erase i, stored := insert i p.stored }
  match (lower fn).1 with
  | .ok lowered => { q with results := p.results.set i (some lowered) }
  | .error error => { q with errors := p.errors.set i (some error) }

def release (p : Pool) (i : Nat) : Pool := { p with stored := p.stored.erase i }

/-- What can happen next. Whether a worker is started, runs or finishes is not determined. -/
inductive Works (fns : List (Option Function)) (limit : Nat) (p : Pool) : Pool → Prop
  | skip (missing : fns[p.next]? = some none) : Works fns limit p p.skip
  | start {fn : Function} (present : fns[p.next]? = some (some fn))
      (room : p.busy.card + p.stored.card < limit) : Works fns limit p p.start
  | store {i : Nat} {fn : Function} (running : i ∈ p.busy) (present : fns[i]? = some (some fn)) :
      Works fns limit p (p.store i fn)
  | release {i : Nat} (finished : i ∈ p.stored) : Works fns limit p (p.release i)

/-- The batch is in this state after so many steps. -/
inductive Reached (fns : List (Option Function)) (limit : Nat) : Nat → Pool → Prop
  | initial : Reached fns limit 0 (.initial fns)
  | step {n : Nat} {p q : Pool} (before : Reached fns limit n p) (works : Works fns limit p q) :
      Reached fns limit (n + 1) q

/-- All entries were looked at, and no worker is left. -/
structure Complete (fns : List (Option Function)) (p : Pool) : Prop where
  next : p.next = fns.length
  busy : p.busy = ∅
  stored : p.stored = ∅

/-- What the batch fails with: the errors that were stored, in the order of the entries. -/
def failure (p : Pool) : Option BatchFailure := aggregate (p.errors.filterMap id)

/-- The entries that have no result, in order. -/
def missing (p : Pool) : List Nat :=
  p.results.zipIdx.filterMap fun (result, i) => if result.isNone then some i else none

end Pool

/-- What lowering the function of an entry alone gives. -/
def entryResult : Option Function → Option Lowered
  | none => none
  | some fn => (lower fn).1.toOption

def errorOf : Except LoweringError Lowered → Option LoweringError
  | .ok _ => none
  | .error error => some error

def entryError (i : Nat) : Option Function → Option LoweringError
  | none => some (missingFunction i)
  | some fn => errorOf (lower fn).1

namespace Pool
variable {fns : List (Option Function)} {limit : Nat}

/-- The slots of an entry are written once it was passed over or its worker has stored. -/
structure Valid (fns : List (Option Function)) (p : Pool) : Prop where
  next : p.next ≤ fns.length
  busy : ∀ i ∈ p.busy, i < p.next ∧ ∃ fn, fns[i]? = some (some fn)
  results : p.results.length = fns.length
  errors : p.errors.length = fns.length
  slots : ∀ i fn, fns[i]? = some fn →
    p.results[i]? = some (if i < p.next ∧ i ∉ p.busy then entryResult fn else none) ∧
    p.errors[i]? = some (if i < p.next ∧ i ∉ p.busy then entryError i fn else none)

theorem initial_valid (fns : List (Option Function)) : Valid fns (.initial fns) where
  next := Nat.zero_le _
  busy := by simp [initial]
  results := by simp [initial]
  errors := by simp [initial]
  slots i fn found := by
    simp only [initial, Nat.not_lt_zero, false_and, if_false, List.getElem?_map, found, Option.map_some,
      and_self]

theorem Valid.next_idle {p : Pool} (valid : Valid fns p) : p.next ∉ p.busy :=
  fun running => Nat.lt_irrefl _ (valid.busy _ running).1

theorem skip_valid {p : Pool} (valid : Valid fns p) (missing : fns[p.next]? = some none) :
    Valid fns p.skip where
  next := (List.getElem?_eq_some_iff.mp missing).1
  busy i running := ⟨Nat.lt_succ_of_lt (valid.busy i running).1, (valid.busy i running).2⟩
  results := valid.results
  errors := by simp [skip, valid.errors]
  slots i fn found := by
    have idle := valid.next_idle
    have slots := valid.slots i fn found
    have inside : i < p.errors.length := by
      rw [valid.errors]
      exact (List.getElem?_eq_some_iff.mp found).1
    by_cases same : i = p.next
    · subst same
      cases missing.symm.trans found
      simpa [skip, idle, inside, entryResult, entryError] using slots.1
    · have before : i < p.next + 1 ↔ i < p.next := by omega
      simpa [skip, before, List.getElem?_set_ne (Ne.symm same)] using slots

theorem start_valid {p : Pool} {fn : Function} (valid : Valid fns p)
    (present : fns[p.next]? = some (some fn)) : Valid fns p.start where
  next := (List.getElem?_eq_some_iff.mp present).1
  busy := by
    simp only [start, Finset.forall_mem_insert]
    refine ⟨⟨Nat.lt_succ_self _, fn, present⟩, fun i running => ?_⟩
    exact ⟨Nat.lt_succ_of_lt (valid.busy i running).1, (valid.busy i running).2⟩
  results := valid.results
  errors := valid.errors
  slots i fn found := by
    have slots := valid.slots i fn found
    by_cases same : i = p.next
    · subst same
      simpa [start] using slots
    · have before : i < p.next + 1 ↔ i < p.next := by omega
      simpa [start, before, same] using slots

theorem store_next (p : Pool) (i : Nat) (fn : Function) : (p.store i fn).next = p.next := by
  unfold store
  dsimp only
  split <;> rfl

theorem store_busy (p : Pool) (i : Nat) (fn : Function) :
    (p.store i fn).busy = p.busy.erase i := by
  unfold store
  dsimp only
  split <;> rfl

theorem store_stored (p : Pool) (i : Nat) (fn : Function) :
    (p.store i fn).stored = insert i p.stored := by
  unfold store
  dsimp only
  split <;> rfl

theorem store_elsewhere (p : Pool) {i j : Nat} (fn : Function) (other : j ≠ i) :
    (p.store i fn).results[j]? = p.results[j]? ∧ (p.store i fn).errors[j]? = p.errors[j]? := by
  unfold store
  dsimp only
  split
  · exact ⟨List.getElem?_set_ne (Ne.symm other), rfl⟩
  · exact ⟨rfl, List.getElem?_set_ne (Ne.symm other)⟩

theorem store_own {p : Pool} {i : Nat} (fn : Function) (noResult : p.results[i]? = some none)
    (noError : p.errors[i]? = some none) :
    (p.store i fn).results[i]? = some (entryResult (some fn)) ∧
      (p.store i fn).errors[i]? = some (entryError i (some fn)) := by
  have result := (List.getElem?_eq_some_iff.mp noResult).1
  have error := (List.getElem?_eq_some_iff.mp noError).1
  unfold store entryResult entryError
  dsimp only
  cases (lower fn).1 with
  | ok lowered => exact ⟨List.getElem?_set_self result, noError⟩
  | error e => exact ⟨noResult, List.getElem?_set_self error⟩

theorem store_valid {p : Pool} {i : Nat} {fn : Function} (valid : Valid fns p)
    (running : i ∈ p.busy) (present : fns[i]? = some (some fn)) : Valid fns (p.store i fn) where
  next := by
    rw [store_next]
    exact valid.next
  busy := by
    rw [store_next, store_busy]
    exact fun j member => valid.busy j (Finset.mem_of_mem_erase member)
  results := by
    unfold store
    dsimp only
    split <;> simp [valid.results]
  errors := by
    unfold store
    dsimp only
    split <;> simp [valid.errors]
  slots j other found := by
    have slots := valid.slots j other found
    have started := (valid.busy i running).1
    rw [store_next, store_busy]
    by_cases same : j = i
    · subst same
      cases present.symm.trans found
      simp only [running, not_true_eq_false, and_false, if_false] at slots
      simpa [started] using store_own fn slots.1 slots.2
    · obtain ⟨result, error⟩ := store_elsewhere p fn same
      rw [result, error]
      simpa [same] using slots

theorem Works.valid {p q : Pool} (works : Works fns limit p q) (valid : Valid fns p) :
    Valid fns q := by
  cases works with
  | skip missing => exact skip_valid valid missing
  | start present room => exact start_valid valid present
  | store running present => exact store_valid valid running present
  | release finished => exact ⟨valid.next, valid.busy, valid.results, valid.errors, valid.slots⟩

/-- How many steps are left: an entry that was not looked at yet is worth three, a worker two until
it has stored, and one after that. -/
def left (fns : List (Option Function)) (p : Pool) : Nat :=
  3 * (fns.length - p.next) + 2 * p.busy.card + p.stored.card

theorem Works.left_lt {p q : Pool} (works : Works fns limit p q) : q.left fns < p.left fns := by
  cases works with
  | skip missing =>
    have inside := (List.getElem?_eq_some_iff.mp missing).1
    simp only [left, Pool.skip]
    omega
  | start present room =>
    have inside := (List.getElem?_eq_some_iff.mp present).1
    have grown := Finset.card_insert_le p.next p.busy
    simp only [left, Pool.start]
    omega
  | @store i fn running present =>
    have shrunk := Finset.card_erase_add_one running
    have grown := Finset.card_insert_le i p.stored
    simp only [left, store_next, store_busy, store_stored]
    omega
  | @release i finished =>
    have shrunk := Finset.card_erase_add_one finished
    simp only [left, Pool.release]
    omega

theorem Reached.valid {n : Nat} {p : Pool} (reached : Reached fns limit n p) : Valid fns p := by
  induction reached with
  | initial => exact initial_valid fns
  | step _ works ih => exact works.valid ih

theorem Reached.bounded {n : Nat} {p : Pool} (reached : Reached fns limit n p) :
    n + p.left fns ≤ 3 * fns.length := by
  induction reached with
  | initial => simp [left, Pool.initial]
  | step _ works ih =>
    have fewer := works.left_lt
    omega

/-- There is always something to do: a worker can go on, or there is room for the next entry. -/
theorem Valid.progress {p : Pool} (valid : Valid fns p) (positive : 0 < limit) :
    Complete fns p ∨ ∃ q, Works fns limit p q := by
  by_cases finished : p.stored = ∅
  · by_cases idle : p.busy = ∅
    · rcases Nat.eq_or_lt_of_le valid.next with exhausted | inside
      · exact .inl ⟨exhausted, idle, finished⟩
      · have found := List.getElem?_eq_getElem inside
        cases present : fns[p.next] with
        | none => exact .inr ⟨_, .skip (found.trans (congrArg some present))⟩
        | some fn =>
          refine .inr ⟨_, .start (found.trans (congrArg some present)) ?_⟩
          simpa [idle, finished] using positive
    · obtain ⟨i, running⟩ := Finset.nonempty_iff_ne_empty.mpr idle
      obtain ⟨fn, present⟩ := (valid.busy i running).2
      exact .inr ⟨_, .store running present⟩
  · obtain ⟨i, finished⟩ := Finset.nonempty_iff_ne_empty.mpr finished
    exact .inr ⟨_, .release finished⟩

theorem Valid.results_eq {p : Pool} (valid : Valid fns p) (complete : Complete fns p) :
    p.results = fns.map entryResult := by
  apply List.ext_getElem?
  intro i
  cases found : fns[i]? with
  | none =>
    have outside := List.getElem?_eq_none_iff.mp found
    rw [List.getElem?_map, found, List.getElem?_eq_none (by rw [valid.results]; exact outside)]
    rfl
  | some fn =>
    have inside := (List.getElem?_eq_some_iff.mp found).1
    have slot := (valid.slots i fn found).1
    rw [complete.next, complete.busy, if_pos ⟨inside, Finset.notMem_empty i⟩] at slot
    rw [slot, List.getElem?_map, found]
    rfl

theorem Valid.errors_eq {p : Pool} (valid : Valid fns p) (complete : Complete fns p) :
    p.errors = fns.zipIdx.map fun (fn, i) => entryError i fn := by
  apply List.ext_getElem?
  intro i
  cases found : fns[i]? with
  | none =>
    have outside := List.getElem?_eq_none_iff.mp found
    rw [List.getElem?_map, List.getElem?_zipIdx, found,
      List.getElem?_eq_none (by rw [valid.errors]; exact outside)]
    rfl
  | some fn =>
    have inside := (List.getElem?_eq_some_iff.mp found).1
    have slot := (valid.slots i fn found).2
    rw [complete.next, complete.busy, if_pos ⟨inside, Finset.notMem_empty i⟩] at slot
    rw [slot, List.getElem?_map, List.getElem?_zipIdx, found]
    simp

end Pool

/-- The error of an entry is the one that lowering its function alone gives. -/
def FailsBy (fns : List (Option Function)) (i : Nat) (error : LoweringError) : Prop :=
  (fns[i]? = some none ∧ error = missingFunction i) ∨
  ∃ fn, fns[i]? = some (some fn) ∧ (lower fn).1 = .error error

theorem entry_cases {fns : List (Option Function)} {i : Nat} {fn : Option Function}
    (found : fns[i]? = some fn) :
    (∃ lowered, entryResult fn = some lowered ∧ entryError i fn = none) ∨
    ∃ error, entryResult fn = none ∧ entryError i fn = some error ∧ FailsBy fns i error := by
  cases fn with
  | none => exact .inr ⟨_, rfl, rfl, .inl ⟨found, rfl⟩⟩
  | some fn =>
    simp only [entryResult, entryError]
    cases lowered : (lower fn).1 with
    | ok result => exact .inl ⟨result, rfl, rfl⟩
    | error e => exact .inr ⟨e, rfl, rfl, .inr ⟨fn, found, lowered⟩⟩

theorem forall₂_filterMap {α β γ : Type} {related : β → γ → Prop} {f : α → Option β}
    {g : α → Option γ} {items : List α}
    (same : ∀ a ∈ items, (f a = none ∧ g a = none) ∨ ∃ b c, f a = some b ∧ g a = some c ∧ related b c) :
    List.Forall₂ related (items.filterMap f) (items.filterMap g) := by
  induction items with
  | nil => exact .nil
  | cons a items ih =>
    obtain ⟨first, rest⟩ := List.forall_mem_cons.mp same
    rcases first with ⟨none, absent⟩ | ⟨b, c, left, right, holds⟩
    · rw [List.filterMap_cons_none none, List.filterMap_cons_none absent]
      exact ih rest
    · rw [List.filterMap_cons_some left, List.filterMap_cons_some right]
      exact .cons holds (ih rest)

namespace Pool
variable {fns : List (Option Function)}

theorem missing_eq_nil_iff (p : Pool) : p.missing = [] ↔ none ∉ p.results := by
  rw [missing, List.filterMap_eq_nil_iff]
  constructor
  · intro all absent
    obtain ⟨i, found⟩ := List.mem_iff_getElem?.mp absent
    cases all (none, i) (List.mem_zipIdx_iff_getElem?.mpr found)
  · rintro present ⟨result, i⟩ member
    have inside : result ∈ p.results := List.fst_mem_of_mem_zipIdx member
    cases result with
    | none => exact absurd inside present
    | some lowered => rfl

theorem Valid.errors_missing {p : Pool} (valid : Valid fns p) (complete : Complete fns p) :
    List.Forall₂ (FailsBy fns) p.missing (p.errors.filterMap id) := by
  rw [missing, valid.results_eq complete, valid.errors_eq complete, List.zipIdx_map,
    List.filterMap_map, List.filterMap_map]
  apply forall₂_filterMap
  rintro ⟨fn, i⟩ member
  have found : fns[i]? = some fn := List.mem_zipIdx_iff_getElem?.mp member
  rcases entry_cases found with ⟨lowered, result, error⟩ | ⟨e, result, error, fails⟩
  · exact .inl (by simp [result, error])
  · exact .inr ⟨i, e, by simp [result], by simp [error], fails⟩

end Pool

theorem lowerEntry_result (i : Nat) (fn : Option Function) :
    (lowerEntry i fn).1.toOption = entryResult fn := by
  cases fn with
  | none => rfl
  | some fn =>
    unfold lowerEntry entryResult
    dsimp only
    rcases lower fn with ⟨lowered | lowered, events⟩ <;> rfl

theorem lowerEntry_error (i : Nat) (fn : Option Function) :
    (match (lowerEntry i fn).1 with
      | .error e => some e
      | .ok _ => none) = entryError i fn := by
  cases fn with
  | none => rfl
  | some fn =>
    unfold lowerEntry entryError
    dsimp only
    rcases lower fn with ⟨lowered | lowered, events⟩ <;> rfl

theorem lowerAll_results (fns : List (Option Function)) :
    (lowerAll fns).results = fns.map entryResult := by
  have entry : ∀ x : Option Function × Nat,
      (lowerEntry x.2 x.1).1.toOption = entryResult x.1 := fun x => lowerEntry_result x.2 x.1
  simp only [lowerAll, Bool.false_and, Bool.false_eq_true, if_false, List.map_map, Function.comp_def,
    entry]
  rw [← Function.comp_def entryResult Prod.fst, ← List.map_map, List.zipIdx_map_fst]

theorem lowerAll_failure (fns : List (Option Function)) :
    (lowerAll fns).failure = aggregate (fns.zipIdx.filterMap fun (fn, i) => entryError i fn) := by
  refine congrArg aggregate (List.filterMap_map.trans ?_)
  exact List.filterMap_congr fun x _ => lowerEntry_error x.2 x.1

theorem workerLimit_positive (workers : Int64) : 0 < workerLimit workers := by
  unfold workerLimit
  split
  · exact Nat.one_pos
  · next many =>
    rw [Int64.lt_iff_toInt_lt] at many
    have one : (1 : Int64).toInt = 1 := rfl
    omega

/-- A batch is what its functions are alone. Whatever the limit on workers and whatever the order in
which they run and finish, the batch never gets stuck and ends after at most three steps for each
entry. Then there is one entry for each function, in order: the result of lowering that function
alone, or none if that fails or if there is no function. The batch fails if an entry has no result,
with the errors of these entries, in order, each the one that lowering alone gives. -/
theorem batch_alone (fns : List (Option Function)) (workers : Int64) (n : Nat) (p : Pool)
    (reached : Pool.Reached fns (workerLimit workers) n p) :
    n ≤ 3 * fns.length ∧
    (Pool.Complete fns p ∨ ∃ q, Pool.Works fns (workerLimit workers) p q) ∧
    (Pool.Complete fns p →
      p.results.length = fns.length ∧
      (∀ i : Nat, fns[i]? = some none → p.results[i]? = some none) ∧
      (∀ (i : Nat) fn, fns[i]? = some (some fn) → p.results[i]? = some (lower fn).1.toOption) ∧
      (p.failure = none ↔ none ∉ p.results) ∧
      (none ∈ p.results → ∃ errors, p.failure = some (.failed errors) ∧
        List.Forall₂ (FailsBy fns) p.missing errors) ∧
      p.results = (lowerAll fns).results ∧ p.failure = (lowerAll fns).failure) := by
  have valid := reached.valid
  have bounded := reached.bounded
  refine ⟨by omega, valid.progress (workerLimit_positive workers), fun complete => ?_⟩
  have results := valid.results_eq complete
  have paired := valid.errors_missing complete
  have present : p.errors.filterMap id = [] ↔ none ∉ p.results := by
    rw [← p.missing_eq_nil_iff, ← List.length_eq_zero_iff, ← paired.length_eq,
      List.length_eq_zero_iff]
  refine ⟨valid.results, ?_, ?_, ?_, ?_, ?_, ?_⟩
  · intro i absent
    rw [results, List.getElem?_map, absent]
    rfl
  · intro i fn present
    rw [results, List.getElem?_map, present]
    rfl
  · rw [← present, Pool.failure, aggregate]
    split
    next none => exact ⟨fun _ => List.isEmpty_iff.mp none, fun _ => rfl⟩
    next some => exact ⟨nofun, fun none => absurd (List.isEmpty_iff.mpr none) some⟩
  · intro absent
    refine ⟨_, if_neg ?_, paired⟩
    rw [List.isEmpty_iff, present]
    exact fun none => none absent
  · rw [results, lowerAll_results]
  · rw [Pool.failure, valid.errors_eq complete, List.filterMap_map, lowerAll_failure]
    rfl

/-- A function that returns a constant. -/
def constantFunction : Function where
  name := "one"
  version := ⟨3, 9⟩
  constants := #[.int 1]
  instructions := #[{ offset := 0, code := Opcode.loadConst.code },
    { offset := 2, code := Opcode.returnValue.code }]

/-- A function that cannot be lowered, as it has no instructions. -/
def emptyFunction : Function where
  name := "empty"
  version := ⟨3, 9⟩

def mixedBatch : List (Option Function) := [some constantFunction, none, some emptyFunction]

/-- Two workers, of which the one that was started last finishes first. -/
def overtaken : Pool :=
  (((((Pool.initial mixedBatch).start.skip.start.store 2 emptyFunction).release 2).store 0
    constantFunction).release 0)

theorem overtaken_alone :
    Pool.Reached mixedBatch (workerLimit 2) 7 overtaken ∧ Pool.Complete mixedBatch overtaken ∧
    overtaken.results[0]? = some (lower constantFunction).1.toOption ∧
    overtaken.missing = [1, 2] ∧
    ∃ errors, overtaken.failure = some (.failed errors) ∧
      List.Forall₂ (FailsBy mixedBatch) [1, 2] errors := by
  have reached : Pool.Reached mixedBatch (workerLimit 2) 7 overtaken := by
    refine .step (.step (.step (.step (.step (.step (.step .initial (.start rfl ?_)) (.skip rfl))
      (.start rfl ?_)) (.store ?_ rfl)) (.release ?_)) (.store ?_ rfl)) (.release ?_)
    · decide
    · decide
    · decide
    · simp [Pool.store_stored]
    · simp [Pool.release, Pool.store_busy, Pool.start, Pool.skip, Pool.initial]
    · simp [Pool.store_stored]
  have complete : Pool.Complete mixedBatch overtaken := by
    refine ⟨?_, ?_, ?_⟩
    · simp [overtaken, Pool.release, Pool.store_next, Pool.start, Pool.skip, Pool.initial, mixedBatch]
    · simp [overtaken, Pool.release, Pool.store_busy, Pool.start, Pool.skip, Pool.initial]
    · simp [overtaken, Pool.release, Pool.store_stored, Pool.start, Pool.skip, Pool.initial]
  obtain ⟨_, _, outcome⟩ := batch_alone mixedBatch 2 7 overtaken reached
  obtain ⟨_, none, some, _, errors, _⟩ := outcome complete
  have missing : overtaken.missing = [1, 2] := by
    rw [Pool.missing, reached.valid.results_eq complete]
    decide +kernel
  have absent := List.mem_of_getElem? (none 1 rfl)
  exact ⟨reached, complete, some 0 _ rfl, missing, missing ▸ errors absent⟩

end Lowering.Proofs
