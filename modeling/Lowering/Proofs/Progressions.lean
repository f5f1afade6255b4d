import Mathlib.Data.Nat.Find
import Mathlib.Tactic.Ring
import Lowering.Machine.Builtins
import Lowering.Word

/-! Ranges. A range lists the terms of a progression from a start up to a stop, and its running term wraps
around like every word. The terms before the stop are words, so the range is the progression if the first
term that is not before the stop is a word as well; else the running term is before the stop again, and the
range goes on for longer or never ends. -/

namespace Lowering.Proofs
open Machine

/-- A range lists what is ahead of its stop, in the direction of its step. -/
def Ahead (stop step i : Int) : Prop := 0 < step ∧ i < stop ∨ step < 0 ∧ stop < i

instance (stop step i : Int) : Decidable (Ahead stop step i) := inferInstanceAs (Decidable (_ ∨ _))

/-- A term of a progression. -/
def term (start step : Int) (k : Nat) : Int := start + k * step

/-- A term as the running item has it, wrapped around. -/
def running (start step : Int64) (k : Nat) : Int64 := Int64.ofInt (term start.toInt step.toInt k)

/-- A term that is a word. -/
def Held (i : Int) : Prop := leastWord ≤ i ∧ i ≤ greatestWord

/-- The first terms of a progression are ahead, and none after them. -/
def Counted (start stop step : Int) (n : Nat) : Prop := ∀ k, Ahead stop step (term start step k) ↔ k < n

/-- The first of some items that is not ahead. -/
def Stops (stop step : Int64) (item : Nat → Int64) (n : Nat) : Prop :=
  (∀ k < n, Ahead stop.toInt step.toInt (item k).toInt) ∧ ¬ Ahead stop.toInt step.toInt (item n).toInt

/-- The answer that is a new list of integers. -/
def Lists (h : Heap) (answer : Reply × Heap) (items : List Int) : Prop :=
  ∃ words : List Int64, words.map Int64.toInt = items ∧
    answer = give (h.newList (words.map Value.int).toArray).2 (h.newList (words.map Value.int).toArray).1

private theorem running_zero (start step : Int64) : running start step 0 = start := by
  simp [running, term]

private theorem running_succ (start step : Int64) (k : Nat) :
    running start step (k + 1) = running start step k + step := by
  have next : term start.toInt step.toInt (k + 1) = term start.toInt step.toInt k + step.toInt := by
    simp only [term, Nat.cast_add, Nat.cast_one]
    ring
  rw [running, next, Int64.ofInt_add, Int64.ofInt_toInt, running]

private theorem running_period (start step : Int64) (k : Nat) :
    running start step (k % 2 ^ 64) = running start step k := by
  have whole : (k : Int) = (k % 2 ^ 64 : Nat) + 2 ^ 64 * (k / 2 ^ 64 : Nat) := by
    exact_mod_cast (Nat.mod_add_div k (2 ^ 64)).symm
  have apart : term start.toInt step.toInt k =
      term start.toInt step.toInt (k % 2 ^ 64) + 2 ^ 64 * ((k / 2 ^ 64 : Nat) * step.toInt) := by
    rw [term, term, whole]
    ring
  rw [running, running, Int64.ofInt_eq_iff_bmod_eq_toInt, Int64.toInt_ofInt, apart]
  exact (Int.add_mul_bmod_self_left ..).symm

private theorem ahead_iff {stop step i : Int64} :
    ((0 < step && i < stop) || (step < 0 && stop < i)) = true ↔ Ahead stop.toInt step.toInt i.toInt := by
  simp [Ahead, Int64.lt_iff_toInt_lt]

variable {start stop step : Int64} {n fuel first : Nat} {items : Array Value}

private theorem progressionWithin_stops (enough : n < fuel)
    (stops : Stops stop step (fun k => running start step (first + k)) n) :
    progressionWithin fuel (running start step first) stop step items =
      some (items ++ ((List.range n).map fun k => Value.int (running start step (first + k))).toArray) := by
  induction fuel generalizing n first items with
  | zero => omega
  | succ fuel ih =>
    rw [progressionWithin]
    cases n with
    | zero =>
      have ended : ¬ Ahead stop.toInt step.toInt (running start step first).toInt := stops.2
      rw [if_neg (mt ahead_iff.mp ended)]
      simp
    | succ n =>
      have goes : Ahead stop.toInt step.toInt (running start step first).toInt := stops.1 0 (Nat.succ_pos n)
      have shift : ∀ k, first + 1 + k = first + (k + 1) := fun k => by omega
      have rest : Stops stop step (fun k => running start step (first + 1 + k)) n := by
        simp only [Stops, shift]
        exact ⟨fun k less => stops.1 (k + 1) (Nat.succ_lt_succ less), stops.2⟩
      rw [if_pos (ahead_iff.mpr goes), ← running_succ, ih (Nat.lt_of_succ_lt_succ enough) rest,
        List.range_succ_eq_map]
      simp [shift, Function.comp_def]

private theorem progressionWithin_goes
    (goes : ∀ k, Ahead stop.toInt step.toInt (running start step k).toInt) :
    progressionWithin fuel (running start step first) stop step items = none := by
  induction fuel generalizing first items with
  | zero => rfl
  | succ fuel ih =>
    rw [progressionWithin, if_pos (ahead_iff.mpr (goes first)), ← running_succ]
    exact ih

private theorem progression?_stops (stops : Stops stop step (running start step) n) :
    progression? start stop step =
      some ((List.range n).map fun k => Value.int (running start step k)).toArray := by
  have early : n < 2 ^ 64 := by
    by_contra late
    refine stops.2 ?_
    rw [← running_period]
    exact stops.1 _ (Nat.lt_of_lt_of_le (Nat.mod_lt n (by decide)) (Nat.not_lt.mp late))
  have listed : progressionWithin (2 ^ 64) (running start step 0) stop step #[] =
      some (#[] ++ ((List.range n).map fun k => Value.int (running start step (0 + k))).toArray) :=
    progressionWithin_stops early (by simpa only [Nat.zero_add] using stops)
  simp only [running_zero, Nat.zero_add, Array.empty_append] at listed
  exact listed

private theorem progression?_goes (goes : ∀ k, Ahead stop.toInt step.toInt (running start step k).toInt) :
    progression? start stop step = none := by
  have endless : progressionWithin (2 ^ 64) (running start step 0) stop step #[] = none :=
    progressionWithin_goes goes
  rwa [running_zero] at endless

private theorem term_add (start step : Int) (k d : Nat) :
    term start step (k + d) = term start step k + d * step := by
  simp only [term, Nat.cast_add]
  ring

private theorem Ahead.earlier {start stop step : Int} {k d : Nat}
    (ahead : Ahead stop step (term start step (k + d))) : Ahead stop step (term start step k) := by
  rw [term_add] at ahead
  rcases ahead with ⟨up, less⟩ | ⟨down, less⟩
  · have grows : 0 ≤ (d : Int) * step := Int.mul_nonneg (Int.natCast_nonneg d) up.le
    exact .inl ⟨up, by omega⟩
  · have falls : (d : Int) * step ≤ 0 := Int.mul_nonpos_of_nonneg_of_nonpos (Int.natCast_nonneg d) down.le
    exact .inr ⟨down, by omega⟩

private theorem ahead_ends (start stop step : Int) : ∃ n, ¬ Ahead stop step (term start step n) := by
  refine ⟨(stop - start).natAbs, ?_⟩
  rintro (⟨up, less⟩ | ⟨down, less⟩)
  · have far := Int.mul_le_mul_of_nonneg_left (show 1 ≤ step by omega)
      (Int.natCast_nonneg (stop - start).natAbs)
    rw [term] at less
    omega
  · have far := Int.mul_le_mul_of_nonneg_left (show step ≤ -1 by omega)
      (Int.natCast_nonneg (stop - start).natAbs)
    rw [term] at less
    omega

theorem counted_exists (start stop step : Int) : ∃ n, Counted start stop step n := by
  have ends := ahead_ends start stop step
  refine ⟨Nat.find ends, fun k => ⟨fun ahead => ?_, fun less => Decidable.not_not.mp (Nat.find_min ends less)⟩⟩
  by_contra late
  obtain ⟨d, rfl⟩ := Nat.exists_eq_add_of_le (Nat.not_lt.mp late)
  exact Nat.find_spec ends ahead.earlier

private theorem Counted.unique {start stop step : Int} {m n : Nat} (first : Counted start stop step m)
    (second : Counted start stop step n) : m = n := by
  have left := (second m).symm.trans (first m)
  have right := (first n).symm.trans (second n)
  omega

private theorem toInt_running {k : Nat} (held : Held (term start.toInt step.toInt k)) :
    (running start step k).toInt = term start.toInt step.toInt k :=
  Int64.toInt_ofInt_of_le held.1 (Int.lt_add_one_of_le held.2)

private theorem Ahead.held {k : Nat}
    (ahead : Ahead stop.toInt step.toInt (term start.toInt step.toInt k)) :
    Held (term start.toInt step.toInt k) := by
  have first : term start.toInt step.toInt k = start.toInt + k * step.toInt := rfl
  have low := start.le_toInt
  have high := start.toInt_lt
  have least := stop.le_toInt
  have greatest := stop.toInt_lt
  simp only [Held, leastWord, greatestWord]
  rcases ahead with ⟨up, less⟩ | ⟨down, less⟩
  · have grows := Int.mul_nonneg (Int.natCast_nonneg k) up.le
    omega
  · have falls := Int.mul_nonpos_of_nonneg_of_nonpos (Int.natCast_nonneg k) down.le
    omega

private theorem Counted.stops (counted : Counted start.toInt stop.toInt step.toInt n)
    (held : Held (term start.toInt step.toInt n)) : Stops stop step (running start step) n := by
  refine ⟨fun k less => ?_, ?_⟩
  · have ahead := (counted k).mpr less
    rwa [toInt_running ahead.held]
  · rw [toInt_running held, counted n]
    exact Nat.lt_irrefl n

private theorem Counted.overruns (counted : Counted start.toInt stop.toInt step.toInt n)
    (wide : ¬ Held (term start.toInt step.toInt n)) {k : Nat} (near : k ≤ n) :
    Ahead stop.toInt step.toInt (running start step k).toInt := by
  rcases Nat.lt_or_eq_of_le near with less | rfl
  · have ahead := (counted k).mpr less
    rwa [toInt_running ahead.held]
  · cases k with
    | zero =>
      refine absurd ⟨?_, ?_⟩ wide <;> simp only [term, Nat.cast_zero, Int.zero_mul, Int.add_zero]
      · exact start.le_toInt
      · exact Int.le_of_lt_add_one start.toInt_lt
    | succ k =>
      have ahead := (counted k).mpr (Nat.lt_succ_self k)
      have held := ahead.held
      have next : term start.toInt step.toInt (k + 1) = term start.toInt step.toInt k + step.toInt := by
        rw [term_add, Nat.cast_one, Int.one_mul]
      have low := step.le_toInt
      have high := step.toInt_lt
      simp only [Held, leastWord, greatestWord] at held wide
      rw [running, Int64.toInt_ofInt, Int.bmod_def]
      rcases ahead with ⟨up, less⟩ | ⟨down, less⟩
      · refine .inl ⟨up, ?_⟩
        simp only [Int64.size]
        omega
      · refine .inr ⟨down, ?_⟩
        simp only [Int64.size]
        omega

private theorem Lists.unique {h : Heap} {answer : Reply × Heap} {items others : List Int}
    (left : Lists h answer items) (right : Lists h answer others) : items = others := by
  obtain ⟨words, rfl, same⟩ := left
  obtain ⟨more, rfl, also⟩ := right
  have lists := congrArg (fun answer => answer.2.lists) (same.symm.trans also)
  obtain ⟨equal, _⟩ := Array.push_eq_push.mp lists
  have values : words.map Value.int = more.map Value.int := by simpa using equal
  rw [(List.map_inj_right fun _ _ => Value.int.inj).mp values]

private theorem range_three (h : Heap) (moves : step ≠ 0) :
    range h [.int start, .int stop, .int step] = match progression? start stop step with
      | none => (.failed .endless, h)
      | some items => give (h.newList items).2 (h.newList items).1 := by
  have known : (step == 0) = false := beq_eq_false_iff_ne.mpr moves
  simp only [range, integers?, known]
  rfl

private theorem range_stops (h : Heap) (moves : step ≠ 0) (stops : Stops stop step (running start step) n) :
    Lists h (range h [.int start, .int stop, .int step])
      ((List.range n).map fun k => (running start step k).toInt) := by
  refine ⟨(List.range n).map (running start step), by simp, ?_⟩
  rw [range_three h moves, progression?_stops stops, List.map_map]
  rfl

private theorem Counted.lists (h : Heap) (moves : step ≠ 0)
    (counted : Counted start.toInt stop.toInt step.toInt n)
    (held : Held (term start.toInt step.toInt n)) :
    Lists h (range h [.int start, .int stop, .int step])
      ((List.range n).map (term start.toInt step.toInt)) := by
  have listed := range_stops h moves (counted.stops held)
  rwa [List.map_congr_left fun k member =>
    toInt_running ((counted k).mpr (List.mem_range.mp member)).held] at listed

private theorem Counted.held_of_one (counted : Counted start.toInt stop.toInt 1 n) :
    Held (term start.toInt 1 n) := by
  have low := start.le_toInt
  have high := start.toInt_lt
  have greatest := stop.toInt_lt
  cases n with
  | zero =>
    simp only [Held, leastWord, greatestWord, term]
    omega
  | succ n =>
    have ahead := (counted n).mpr (Nat.lt_succ_self n)
    simp only [Ahead, Held, leastWord, greatestWord, term, Nat.cast_add, Nat.cast_one] at ahead ⊢
    omega

private theorem Counted.lists_ones (h : Heap) (counted : Counted start.toInt stop.toInt 1 n) :
    Lists h (range h [.int start, .int stop]) ((List.range n).map (term start.toInt 1)) :=
  @Counted.lists start stop 1 n h (by decide) counted counted.held_of_one

/-- A range is the progression exactly if the first term that is not ahead of the stop is a word. If it is
not, the range either goes on behind the other end of the words and stops later, or it never ends. Ranges
whose step is not stated are always the progression. -/
theorem range_progression (h : Heap) (start stop step : Int64) (moves : step ≠ 0) :
    (∃ n, Counted start.toInt stop.toInt step.toInt n ∧
      (Lists h (range h [.int start, .int stop, .int step])
          ((List.range n).map (term start.toInt step.toInt)) ↔ Held (term start.toInt step.toInt n)) ∧
      (¬ Held (term start.toInt step.toInt n) →
        (∃ m, n < m ∧ Stops stop step (running start step) m ∧
          Lists h (range h [.int start, .int stop, .int step])
            ((List.range m).map fun k => (running start step k).toInt)) ∨
        (∀ k, Ahead stop.toInt step.toInt (running start step k).toInt) ∧
          range h [.int start, .int stop, .int step] = (.failed .endless, h))) ∧
    (∃ n, Counted start.toInt stop.toInt 1 n ∧
      Lists h (range h [.int start, .int stop]) ((List.range n).map (term start.toInt 1))) ∧
    ∃ n, Counted 0 stop.toInt 1 n ∧ Lists h (range h [.int stop]) ((List.range n).map (term 0 1)) := by
  refine ⟨?_, ?_, ?_⟩
  · obtain ⟨n, counted⟩ := counted_exists start.toInt stop.toInt step.toInt
    have beyond : ¬ Held (term start.toInt step.toInt n) →
        (∃ m, n < m ∧ Stops stop step (running start step) m ∧
          Lists h (range h [.int start, .int stop, .int step])
            ((List.range m).map fun k => (running start step k).toInt)) ∨
        (∀ k, Ahead stop.toInt step.toInt (running start step k).toInt) ∧
          range h [.int start, .int stop, .int step] = (.failed .endless, h) := by
      intro wide
      by_cases ends : ∃ m, ¬ Ahead stop.toInt step.toInt (running start step m).toInt
      · have stops : Stops stop step (running start step) (Nat.find ends) :=
          ⟨fun k less => Decidable.not_not.mp (Nat.find_min ends less), Nat.find_spec ends⟩
        refine .inl ⟨Nat.find ends, ?_, stops, range_stops h moves stops⟩
        by_contra near
        exact stops.2 (counted.overruns wide (Nat.not_lt.mp near))
      · have goes : ∀ k, Ahead stop.toInt step.toInt (running start step k).toInt := by simpa using ends
        refine .inr ⟨goes, ?_⟩
        rw [range_three h moves, progression?_goes goes]
    refine ⟨n, counted, ⟨fun listed => ?_, counted.lists h moves⟩, beyond⟩
    by_contra wide
    rcases beyond wide with ⟨m, later, _, longer⟩ | ⟨_, endless⟩
    · have length := congrArg List.length (listed.unique longer)
      simp only [List.length_map, List.length_range] at length
      omega
    · obtain ⟨_, _, given⟩ := endless ▸ listed
      simp [give] at given
  · obtain ⟨n, counted⟩ := counted_exists start.toInt stop.toInt 1
    exact ⟨n, counted, counted.lists_ones h⟩
  · obtain ⟨n, counted⟩ := counted_exists 0 stop.toInt 1
    exact ⟨n, counted, @Counted.lists_ones 0 stop n h counted⟩

/-- A range may also go down. -/
theorem range_progression_down : (-3 : Int64) ≠ 0 ∧
    Lists {} (range {} [.int 10, .int 0, .int (-3)]) [10, 7, 4, 1] := by
  obtain ⟨⟨n, counted, exact_, _⟩, _⟩ := range_progression {} 10 0 (-3) (by decide)
  have inside := (counted 3).mp (by decide)
  have outside := (counted 4).not.mp (by decide)
  obtain rfl : n = 4 := by omega
  exact ⟨by decide, exact_.mpr (by unfold Held; decide)⟩

/-- The running item wraps around at the end of the words and comes to the stop from the other side. -/
theorem range_overruns : Counted 0x2000000000000000 0x4000000000000000 0x6000000000000000 1 ∧
    Lists {} (range {} [.int 0x2000000000000000, .int 0x4000000000000000, .int 0x6000000000000000])
      [0x2000000000000000, -0x8000000000000000, -0x2000000000000000] ∧
    ¬ Lists {} (range {} [.int 0x2000000000000000, .int 0x4000000000000000, .int 0x6000000000000000])
      [0x2000000000000000] := by
  have stops : Stops 0x4000000000000000 0x6000000000000000
      (running 0x2000000000000000 0x6000000000000000) 3 := ⟨by decide, by decide⟩
  have listed := range_stops {} (by decide) stops
  refine ⟨fun k => ?_, listed, fun short => ?_⟩
  · simp only [Ahead, term]
    omega
  · exact absurd (listed.unique short) (by decide)

end Lowering.Proofs
