import Lowering.Proofs.Fixpoint
import Lowering.Proofs.Labels

/-! Where everything stands in the routine of a function: the instructions in their order, then the
cleanups, those included that only cleanups ask for. -/

namespace Lowering.Proofs
open Host Guest Emission

/-- The labels that were given to the handlers of some regions. -/
structure Labelling (fn : Function) (analysis : Analysis.State) (regions : List Region)
    (st later : Emission.State) (catches : List (Int64 × Label)) : Prop where
  emitted : later.builder.emitted = st.builder.emitted
  localCount : later.builder.localCount = st.builder.localCount
  cleanups : later.cleanups = st.cleanups
  lower : later.builder.nextLabel ≤ st.builder.nextLabel
  room : st.builder.nextLabel.toInt - regions.length ≤ later.builder.nextLabel.toInt
  taken : ∀ entry ∈ catches, later.builder.nextLabel < entry.2 ∧ entry.2 ≤ st.builder.nextLabel
  nodup : (catches.map Prod.snd).Nodup
  regions : catches.map Prod.fst =
    (regions.filter fun r => Emission.reached fn analysis r.handler).map Region.id

theorem labelHandlers_labelling (fn : Function) (analysis : Analysis.State) (st : Emission.State)
    (regions : List Region) {low : Nat} (room : -(low : Int) ≤ st.builder.nextLabel.toInt)
    (small : low + regions.length < 2 ^ 62) :
    Labelling fn analysis regions st (labelHandlers fn analysis st regions).1
      (labelHandlers fn analysis st regions).2 := by
  induction regions generalizing st low with
  | nil =>
    exact ⟨rfl, rfl, rfl, Int64.le_refl _, by simp [labelHandlers], by simp [labelHandlers],
      by simp [labelHandlers], rfl⟩
  | cons r rest ih =>
    rw [List.length_cons] at small
    rw [labelHandlers]
    split
    next here =>
      obtain ⟨less, value⟩ := pred_lt room (by omega)
      have below : -((low + 1 : Nat) : Int) ≤ (st.builder.nextLabel - 1).toInt := by
        rw [value]
        omega
      have spec := ih { st with builder := (st.builder.newLabel).2 } below (by omega)
      have lower : _ ≤ st.builder.nextLabel - 1 := spec.lower
      have further : (st.builder.nextLabel - 1).toInt - rest.length ≤ _ := spec.room
      exact
        { emitted := spec.emitted
          localCount := spec.localCount
          cleanups := spec.cleanups
          lower := Int64.le_of_lt (Int64.lt_of_le_of_lt lower less)
          room := by
            rw [value] at further
            simp only [List.length_cons]
            omega
          taken := by
            intro entry member
            rcases List.mem_cons.mp member with rfl | later
            · exact ⟨Int64.lt_of_le_of_lt lower less, Int64.le_refl _⟩
            · obtain ⟨above, upper⟩ := spec.taken entry later
              exact ⟨above, Int64.le_of_lt (Int64.lt_of_le_of_lt upper less)⟩
          nodup := by
            refine List.nodup_cons.mpr ⟨fun member => ?_, spec.nodup⟩
            obtain ⟨entry, later, same⟩ := List.mem_map.mp member
            have upper := (spec.taken entry later).2
            rw [same] at upper
            exact absurd (Int64.lt_of_le_of_lt upper less) Int64.lt_irrefl
          regions := by
            have kept : (r :: rest).filter (fun r => Emission.reached fn analysis r.handler) =
                r :: rest.filter fun r => Emission.reached fn analysis r.handler :=
              List.filter_cons_of_pos here
            rw [kept, List.map_cons, List.map_cons, spec.regions] }
    next skipped =>
      have spec := ih { st with events := st.events.push (.skippedHandler r.id r.handler) } room
        (by omega)
      have further : st.builder.nextLabel.toInt - rest.length ≤ _ := spec.room
      exact
        { spec with
          room := by
            simp only [List.length_cons]
            omega
          regions := by
            have dropped : (r :: rest).filter (fun r => Emission.reached fn analysis r.handler) =
                rest.filter fun r => Emission.reached fn analysis r.handler :=
              List.filter_cons_of_neg skipped
            rw [dropped, spec.regions] }

private theorem catch?_mem {c : Context} {id : Int64} {label : Label}
    (found : c.catch? id = some label) : (id, label) ∈ c.catches := by
  obtain ⟨⟨other, same⟩, present, rfl⟩ := Option.map_eq_some_iff.mp found
  have equal : other = id := by simpa using List.find?_some present
  exact equal ▸ List.mem_of_find?_eq_some present

theorem Labelling.labelled {plan : Plan} {analysis : Analysis.State} {st later : Emission.State}
    {catches : List (Int64 × Label)}
    (labelling : Labelling plan.function analysis analysis.regions st later catches)
    (numbered : Numbered analysis.regions) : Labelled ⟨plan, analysis, catches⟩ where
  numbered := numbered
  injective := by
    intro id other label first second
    have nodup := labelling.nodup
    have same := List.inj_on_of_nodup_map nodup (catch?_mem first) (catch?_mem second) rfl
    exact congrArg Prod.fst same
  reached := by
    intro r member
    have listed : (∃ entry ∈ catches, entry.1 = r.id) ↔ r.id ∈ catches.map Prod.fst := by simp
    have caught : ((Context.mk plan analysis catches).catch? r.id).isSome ↔
        ∃ entry ∈ catches, entry.1 = r.id := by
      simp [Context.catch?]
    rw [caught, listed, labelling.regions, List.mem_map]
    constructor
    · rintro ⟨s, present, same⟩
      obtain ⟨also, reached⟩ := List.mem_filter.mp present
      exact numbered.unique also member same ▸ reached
    · exact fun reached => ⟨r, List.mem_filter.mpr ⟨member, reached⟩, rfl⟩

theorem Labelling.tidy {plan : Plan} {analysis : Analysis.State} {st later : Emission.State}
    {catches : List (Int64 × Label)} (bound : Array Bound)
    (labelling : Labelling plan.function analysis analysis.regions st later catches)
    (empty : st.builder.emitted = #[]) (none : st.cleanups = #[])
    (start : st.builder.nextLabel = -1) :
    Tidy ⟨plan, analysis, catches⟩ bound 0 0 (1 + analysis.regions.length) later := by
  have ops : opsOf later = [] := by
    rw [opsOf, labelling.emitted, empty]
    rfl
  have negative : ∀ {label : Label}, label ≤ st.builder.nextLabel → label < 0 := by
    intro label upper
    rw [start] at upper
    exact Int64.lt_of_le_of_lt upper (by decide)
  have room := labelling.room
  rw [start, show (-1 : Label).toInt = -1 by decide] at room
  refine
    { nodup := by simp [ops, labelsOf], guest := by simp [ops, labelsOf]
      internal := by simp [ops, labelsOf], handlers := by simp [ops, labelsOf]
      catching := ?_, unwinding := by simp [labelling.cleanups, none]
      pending := by simp [ops, labelsOf], cleanups := by simp [labelling.cleanups, none]
      negative := negative labelling.lower, room := by omega }
  intro id label found
  obtain ⟨above, upper⟩ := labelling.taken _ (catch?_mem found)
  exact ⟨negative upper, above⟩

structure Grows (st later : Emission.State) : Prop where
  emitted : st.builder.emitted.toList <+: later.builder.emitted.toList
  cleanups : ∀ (n : Nat) (cleanup : Cleanup), st.cleanups[n]? = some cleanup →
    later.cleanups[n]? = some cleanup

theorem Grows.refl (st : Emission.State) : Grows st st := ⟨List.prefix_rfl, fun _ _ => id⟩

theorem Grows.trans {st mid later : Emission.State} (first : Grows st mid)
    (second : Grows mid later) : Grows st later :=
  ⟨first.emitted.trans second.emitted, fun n cleanup found =>
    second.cleanups n cleanup (first.cleanups n cleanup found)⟩

theorem Grows.mem {st later : Emission.State} (grows : Grows st later) {cleanup : Cleanup}
    (member : cleanup ∈ st.cleanups) : cleanup ∈ later.cleanups := by
  obtain ⟨n, found⟩ := Array.mem_iff_getElem?.mp member
  exact Array.mem_of_getElem? (grows.cleanups n cleanup found)

theorem instruction_grows (c : Context) (st : Emission.State) (i : Nat) (o : Bound) (p : Point)
    (falls : Bool) : Grows st (instruction c st i o p falls) := by
  refine ⟨by rw [instruction_emitted]; exact List.prefix_append _ _, fun n cleanup found => ?_⟩
  rw [instruction_cleanups]
  exact (guard_guarded c _ i p).1.getElem? found

theorem cleanup_grows (c : Context) (st : Emission.State) (entry : Cleanup) :
    Grows st (Emission.cleanup c st entry) := by
  obtain ⟨protection, emitted, _⟩ := cleanup_emitted c st entry
  refine ⟨by rw [emitted]; exact List.prefix_append _ _, fun n cleanup found => ?_⟩
  exact (guardBlocks_guards c _ entry.below).1.getElem? found

variable {c : Context} {st : Emission.State} {bound : Array Bound}

theorem stage_grows_succ (c : Context) (st : Emission.State) (bound : Array Bound) (i : Nat) :
    Grows (stage c st bound i).1 (stage c st bound (i + 1)).1 := by
  rw [stage]
  cases bound[i]? with
  | none => exact .refl _
  | some o =>
    cases c.analysis.point? i with
    | none => exact ⟨List.prefix_rfl, fun _ _ => id⟩
    | some p => exact instruction_grows ..

theorem stage_grows {i j : Nat} (order : i ≤ j) :
    Grows (stage c st bound i).1 (stage c st bound j).1 := by
  induction order with
  | refl => exact .refl _
  | step _ ih => exact ih.trans (stage_grows_succ ..)

/-- The state before the cleanup with a number is emitted. -/
def unwinding (c : Context) (st : Emission.State) : Nat → Emission.State
  | 0 => st
  | n + 1 =>
    let before := unwinding c st n
    match before.cleanups[n]? with
    | none => before
    | some entry => Emission.cleanup c before entry

theorem unwinding_grows {n m : Nat} (order : n ≤ m) :
    Grows (unwinding c st n) (unwinding c st m) := by
  induction order with
  | refl => exact .refl _
  | @step m _ ih =>
    refine ih.trans ?_
    rw [unwinding]
    cases (unwinding c st m).cleanups[m]? with
    | none => exact .refl _
    | some entry => exact cleanup_grows ..

/-- The work that the cleanups from a number on can still cause: each asks for at most one more,
which has one block less below it. -/
private def outstanding (st : Emission.State) (n : Nat) : Nat :=
  ((st.cleanups.toList.drop n).map fun cleanup => cleanup.below.length + 1).sum

/-- The cleanup that is asked for is that of the innermost block. -/
theorem guardBlocks_asks (c : Context) (st : Emission.State) (blocks : List Block) :
    (guardBlocks c st blocks).cleanups = st.cleanups ∨ ∃ cleanup : Cleanup,
      cleanup.block :: cleanup.below = blocks ∧
        (guardBlocks c st blocks).cleanups = st.cleanups.push cleanup := by
  cases blocks with
  | nil => exact .inl rfl
  | cons block below =>
    rw [guardBlocks]
    dsimp only
    split
    · split
      · exact .inl rfl
      · exact .inr ⟨⟨_, block, below⟩, rfl, rfl⟩
    · split <;> exact .inl rfl

private theorem cleanup_outstanding {n : Nat} {entry : Cleanup}
    (found : st.cleanups[n]? = some entry) :
    outstanding (Emission.cleanup c st entry) (n + 1) < outstanding st n := by
  have inside := (Array.getElem?_eq_some_iff.mp found).1
  have listed : st.cleanups.toList[n]? = some entry := by simpa using found
  have here : outstanding st n = entry.below.length + 1 +
      ((st.cleanups.toList.drop (n + 1)).map fun cleanup => cleanup.below.length + 1).sum := by
    obtain ⟨within, rfl⟩ := List.getElem?_eq_some_iff.mp listed
    rw [outstanding, List.drop_eq_getElem_cons within]
    rfl
  let handler := ((c.region? entry.block.region).getD default).handler
  have asks := guardBlocks_asks c { st with builder := st.builder.setOrigin handler } entry.below
  have same : (Emission.cleanup c st entry).cleanups =
      (guardBlocks c { st with builder := st.builder.setOrigin handler } entry.below).cleanups := rfl
  rw [outstanding, same, here]
  rcases asks with kept | ⟨made, blocks, pushed⟩
  · rw [kept]
    dsimp only
    omega
  · have shorter : made.below.length + 1 = entry.below.length := by rw [← blocks]; rfl
    rw [pushed]
    dsimp only
    rw [Array.toList_push, List.drop_append_of_le_length (by rw [Array.length_toList]; exact inside),
      List.map_append, List.sum_append]
    simp only [List.map_cons, List.map_nil, List.sum_cons, List.sum_nil]
    omega

private theorem cleanupFuel_outstanding (st : Emission.State) : outstanding st 0 < cleanupFuel st := by
  have sums : ∀ (cleanups : List Cleanup) (total : Nat),
      (cleanups.map fun cleanup => cleanup.below.length + 1).sum + total ≤
        cleanups.foldl (fun total cleanup => total + cleanup.below.length + 2) total := by
    intro cleanups
    induction cleanups with
    | nil => simp
    | cons cleanup rest ih =>
      intro total
      have step := ih (total + cleanup.below.length + 2)
      simp only [List.map_cons, List.sum_cons, List.foldl_cons]
      omega
  have bound := sums st.cleanups.toList 1
  rw [outstanding, cleanupFuel, List.drop_zero, ← Array.foldl_toList]
  omega

private theorem cleanups_unwinding (c : Context) (st : Emission.State) (fuel n : Nat)
    (enough : outstanding (unwinding c st n) n < fuel)
    (within : n ≤ (unwinding c st n).cleanups.size) :
    ∃ total, n ≤ total ∧ Emission.cleanups c fuel (unwinding c st n) n = unwinding c st total ∧
      (unwinding c st total).cleanups.size = total ∧
      ∀ m, n ≤ m → m < total → m < (unwinding c st m).cleanups.size := by
  induction fuel generalizing n with
  | zero => omega
  | succ fuel ih =>
    rw [Emission.cleanups]
    cases found : (unwinding c st n).cleanups[n]? with
    | none =>
      have beyond : (unwinding c st n).cleanups.size ≤ n := by simpa using found
      exact ⟨n, Nat.le_refl n, rfl, by omega, fun m lower upper => by omega⟩
    | some entry =>
      have inside := (Array.getElem?_eq_some_iff.mp found).1
      have next : unwinding c st (n + 1) = Emission.cleanup c (unwinding c st n) entry := by
        rw [unwinding, found]
      have less := cleanup_outstanding (c := c) found
      have still := (cleanup_grows c (unwinding c st n) entry).cleanups n entry found
      have kept := (Array.getElem?_eq_some_iff.mp still).1
      rw [← next] at less kept
      obtain ⟨total, order, ends, size, started⟩ := ih (n + 1) (by omega) (by omega)
      rw [next] at ends
      refine ⟨total, by omega, ends, size, fun m lower upper => ?_⟩
      rcases Nat.eq_or_lt_of_le lower with rfl | more
      · exact inside
      · exact started m more upper

theorem cleanups_complete (c : Context) (st : Emission.State) :
    ∃ total, Emission.cleanups c (cleanupFuel st) st 0 = unwinding c st total ∧
      (unwinding c st total).cleanups.size = total ∧
      ∀ m < total, m < (unwinding c st m).cleanups.size := by
  obtain ⟨total, _, ends, size, started⟩ :=
    cleanups_unwinding c st (cleanupFuel st) 0 (cleanupFuel_outstanding st) (Nat.zero_le _)
  exact ⟨total, ends, size, fun m upper => started m (Nat.zero_le m) upper⟩

/-- Operations stand in a routine from an index on, with an origin and under a protection. -/
def Stands (r : Routine) (start : Nat) (operations : List Operation) (origin : Int64)
    (protection : Option Protection) : Prop :=
  ∀ (m : Nat) (operation : Operation), operations[m]? = some operation →
    r.ops[start + m]? = some operation ∧ r.origin (start + m) = origin ∧
      (r.regionAt? (Int64.ofNat (start + m))).map (fun region =>
        (⟨region.handler, region.depth⟩ : Protection)) = protection

/-- All that is emitted for a function, from the state in which its handlers have labels. -/
def emission (c : Context) (st : Emission.State) (bound : Array Bound) : Emission.State :=
  Emission.cleanups c (cleanupFuel (stage c st bound bound.size).1) (stage c st bound bound.size).1 0

private theorem stands_of_prefix {before : List Emitted} {final : Emission.State}
    {operations : List Operation} {origin : Int64} {protection : Option Protection}
    (small : final.builder.emitted.size ≤ addressable)
    (part : before ++ (operations.map fun operation => ⟨operation, origin, protection⟩) <+:
      final.builder.emitted.toList) :
    Stands final.builder.build before.length operations origin protection := by
  intro m operation found
  obtain ⟨rest, whole⟩ := part
  have inside := (List.getElem?_eq_some_iff.mp found).1
  have emitted : final.builder.emitted[before.length + m]? =
      some ⟨operation, origin, protection⟩ := by
    rw [← Array.getElem?_toList, ← whole, List.append_assoc,
      List.getElem?_append_right (Nat.le_add_right _ _), Nat.add_sub_cancel_left,
      List.getElem?_append_left (by simpa using inside), List.getElem?_map, found]
    rfl
  refine ⟨by simp [Builder.build, emitted], ?_, build_regionAt? _ (small_word small) emitted⟩
  simp [Routine.origin, Builder.build, emitted]

theorem emission_grows (c : Context) (st : Emission.State) (bound : Array Bound) (i : Nat) :
    Grows (stage c st bound i).1 (emission c st bound) := by
  obtain ⟨total, ends, _⟩ := cleanups_complete c (stage c st bound bound.size).1
  have whole : Grows (stage c st bound bound.size).1 (emission c st bound) := by
    rw [emission, ends]
    exact unwinding_grows (Nat.zero_le total)
  rcases Nat.le_total i bound.size with inside | beyond
  · exact (stage_grows inside).trans whole
  · refine Grows.trans ?_ whole
    have same : ∀ k, bound.size ≤ k → stage c st bound k = stage c st bound bound.size := by
      intro k order
      induction order with
      | refl => rfl
      | @step k order ih =>
        rw [stage, Array.getElem?_eq_none order]
        exact ih
    rw [same i beyond]
    exact .refl _

/-- What holds of the start, and is kept by every instruction that is reached and by every cleanup that is
asked for, holds of all that is emitted. -/
theorem emission_invariant {motive : Emission.State → Prop} (start : motive st)
    (skipped : ∀ st events, motive st → motive { st with events })
    (instruction : ∀ i o p, bound[i]? = some o → c.analysis.point? i = some p →
      Grows (Emission.instruction c (stage c st bound i).1 i o p (stage c st bound i).2)
        (emission c st bound) → motive (stage c st bound i).1 →
      motive (Emission.instruction c (stage c st bound i).1 i o p (stage c st bound i).2))
    (cleanup : ∀ before entry, entry ∈ before.cleanups →
      Grows (Emission.cleanup c before entry) (emission c st bound) → motive before →
      motive (Emission.cleanup c before entry)) : motive (emission c st bound) := by
  have staged : ∀ i, motive (stage c st bound i).1 := by
    intro i
    induction i with
    | zero => exact start
    | succ i ih =>
      have whole := emission_grows c st bound (i + 1)
      rw [stage] at whole ⊢
      cases found : bound[i]? with
      | none => exact ih
      | some o =>
        cases point : c.analysis.point? i with
        | none => exact skipped _ _ ih
        | some p =>
          simp only [found, point] at whole
          exact instruction i o p found point whole ih
  obtain ⟨total, ends, _⟩ := cleanups_complete c (stage c st bound bound.size).1
  have unwound : ∀ n ≤ total, motive (unwinding c (stage c st bound bound.size).1 n) := by
    intro n within
    induction n with
    | zero => exact staged _
    | succ n ih =>
      have before := ih (by omega)
      have whole : Grows (unwinding c (stage c st bound bound.size).1 (n + 1)) (emission c st bound) := by
        rw [emission, ends]
        exact unwinding_grows within
      rw [unwinding] at whole ⊢
      cases found : (unwinding c (stage c st bound bound.size).1 n).cleanups[n]? with
      | none => exact before
      | some entry =>
        simp only [found] at whole
        exact cleanup _ entry (Array.mem_of_getElem? found) whole before
  rw [emission, ends]
  exact unwound total (Nat.le_refl total)

/-- The index at which an instruction, with the prologues in front of it, starts. -/
def place (c : Context) (st : Emission.State) (bound : Array Bound) (i : Nat) : Nat :=
  (stage c st bound i).1.builder.emitted.size

theorem place_mono {i j : Nat} (order : i ≤ j) : place c st bound i ≤ place c st bound j := by
  have grown : Grows (stage c st bound i).1 (stage c st bound j).1 := stage_grows order
  simpa [place] using grown.emitted.length_le

/-- The label that an iteration takes for itself. -/
def freshAt (c : Context) (st : Emission.State) (bound : Array Bound) (i : Nat) (o : Bound) (p : Point) :
    Label :=
  (guardedState c (stage c st bound i).1 i o p).builder.nextLabel

/-- The code of an instruction, with the prologues in front of it. -/
def chunk (c : Context) (st : Emission.State) (bound : Array Bound) (i : Nat) (o : Bound) (p : Point) :
    List Operation :=
  lead c o.inst.offset (stage c st bound i).2 (handlersAt c o.inst.offset) ++
    own c (freshAt c st bound i o p) o p

theorem instruction_stands (small : (emission c st bound).builder.emitted.size ≤ addressable)
    {i : Nat} {o : Bound} {p : Point} (found : bound[i]? = some o)
    (point : c.analysis.point? i = some p) :
    place c st bound (i + 1) = place c st bound i + (chunk c st bound i o p).length ∧
      ∃ protection, Guarded c (emission c st bound).cleanups i p protection ∧
        Stands (emission c st bound).builder.build (place c st bound i) (chunk c st bound i o p)
          o.inst.offset protection := by
  have step : (stage c st bound (i + 1)).1 =
      instruction c (stage c st bound i).1 i o p (stage c st bound i).2 := by
    rw [stage, found, point]
  have emitted := instruction_emitted c (stage c st bound i).1 i o p (stage c st bound i).2
  have whole := emission_grows c st bound (i + 1)
  obtain ⟨_, _, guarded⟩ := guardedState_guards c (stage c st bound i).1 i o p
  rw [← step] at emitted
  refine ⟨?_, _, guarded.grow fun cleanup member => whole.mem ?_, ?_⟩
  · have length := congrArg List.length emitted
    simpa [place, chunk, freshAt] using length
  · rw [step, instruction_cleanups]
    exact member
  · have start : place c st bound i = (stage c st bound i).1.builder.emitted.toList.length := by
      simp [place]
    rw [start]
    refine stands_of_prefix small ?_
    have part := whole.emitted
    rw [emitted] at part
    exact part

theorem cleanup_stands (small : (emission c st bound).builder.emitted.size ≤ addressable)
    {n : Nat} {entry : Cleanup} (found : (emission c st bound).cleanups[n]? = some entry) :
    ∃ start origin protection, place c st bound bound.size ≤ start ∧
      Guards c (emission c st bound).cleanups entry.below protection ∧
      Stands (emission c st bound).builder.build start (restore c entry) origin protection := by
  obtain ⟨total, ends, size, started⟩ := cleanups_complete c (stage c st bound bound.size).1
  rw [← emission] at ends
  have inside := (Array.getElem?_eq_some_iff.mp found).1
  rw [ends, size] at inside
  obtain ⟨other, present⟩ : ∃ other, (unwinding c (stage c st bound bound.size).1 n).cleanups[n]? =
      some other := ⟨_, Array.getElem?_eq_getElem (started n inside)⟩
  have kept := (unwinding_grows (Nat.le_of_lt inside)).cleanups n other present
  rw [← ends, found] at kept
  cases kept
  have step : unwinding c (stage c st bound bound.size).1 (n + 1) =
      Emission.cleanup c (unwinding c (stage c st bound bound.size).1 n) entry := by
    rw [unwinding, present]
  obtain ⟨protection, emitted, guards⟩ :=
    cleanup_emitted c (unwinding c (stage c st bound bound.size).1 n) entry
  rw [← step] at emitted guards
  have whole : Grows (unwinding c (stage c st bound bound.size).1 (n + 1)) (emission c st bound) :=
    ends ▸ unwinding_grows inside
  have later : Grows (stage c st bound bound.size).1
      (unwinding c (stage c st bound bound.size).1 n) := unwinding_grows (Nat.zero_le n)
  have part := whole.emitted
  rw [emitted] at part
  exact ⟨_, _, protection, by simpa [place] using later.emitted.length_le,
    guards.grow fun cleanup => whole.mem, stands_of_prefix small part⟩

theorem instruction_localCount (c : Context) (st : Emission.State) (i : Nat) (o : Bound)
    (p : Point) (falls : Bool) :
    (instruction c st i o p falls).builder.localCount = st.builder.localCount := by
  rw [instruction_builder, emit_eq]
  exact (guard_guarded c _ i p).1.localCount

theorem emission_localCount (c : Context) (st : Emission.State) (bound : Array Bound) :
    (emission c st bound).builder.localCount = st.builder.localCount := by
  refine emission_invariant (motive := fun later => later.builder.localCount = st.builder.localCount)
    rfl (fun _ _ same => same) ?_ ?_
  · intro i o p _ _ _ same
    exact (instruction_localCount ..).trans same
  · intro before entry _ _ same
    simp only [Emission.cleanup, emit_eq]
    exact (guardBlocks_guards c _ entry.below).1.localCount.trans same

/-- Every operation belongs to the prologues in front of an instruction, to an instruction, or to a
cleanup. -/
theorem emission_ops {c : Context} {st : Emission.State} {bound : Array Bound} {op : Operation}
    (member : op ∈ opsOf (emission c st bound)) : op ∈ opsOf st ∨
      (∃ o p fresh falls regions, op ∈ lead c o.inst.offset falls regions ++ own c fresh o p) ∨
      ∃ entry, op ∈ restore c entry := by
  revert member
  refine emission_invariant (motive := fun later => op ∈ opsOf later → _) .inl (fun _ _ => id) ?_ ?_
  · intro i o p _ _ _ before listed
    rw [instruction_ops] at listed
    rcases List.mem_append.mp listed with old | new
    · exact before old
    · exact .inr (.inl ⟨o, p, _, _, _, new⟩)
  · intro before entry _ _ earlier listed
    rw [cleanup_ops] at listed
    rcases List.mem_append.mp listed with old | new
    · exact earlier old
    · exact .inr (.inr ⟨entry, new⟩)

theorem Tidy.weaken {i i' done low low' : Nat} (tidy : Tidy c bound i done low st) (further : i ≤ i')
    (lower : low ≤ low') : Tidy c bound i' done low' st :=
  { tidy with
    guest := fun label member positive => by
      obtain ⟨target, j, o, before, found⟩ := tidy.guest label member positive
      exact ⟨target, j, o, by omega, found⟩
    handlers := fun r member label caught listed => by
      obtain ⟨j, o, before, found⟩ := tidy.handlers r member label caught listed
      exact ⟨j, o, by omega, found⟩
    room := by
      have room := tidy.room
      omega }

theorem stage_tidy {low : Nat} (labelled : Labelled c) (separate : Separate bound)
    (tidy : Tidy c bound 0 0 low st) (small : low + 2 * bound.size < 2 ^ 62) {i : Nat}
    (within : i ≤ bound.size) :
    Tidy c bound i 0 (low + 2 * i) (stage c st bound i).1 := by
  induction i with
  | zero => exact tidy
  | succ i ih =>
    have before := ih (by omega)
    rw [stage]
    cases found : bound[i]? with
    | none => exact before.weaken (Nat.le_succ i) (by omega)
    | some o =>
      cases c.analysis.point? i with
      | none => exact { before.weaken (Nat.le_succ i) (by omega : _ ≤ low + 2 * (i + 1)) with }
      | some p => exact before.instruction labelled separate (by omega) found p _

private theorem unwinding_size {n : Nat}
    (started : ∀ m < n, m < (unwinding c st m).cleanups.size) :
    st.builder.emitted.size + 4 * n = (unwinding c st n).builder.emitted.size := by
  induction n with
  | zero => rfl
  | succ n ih =>
    have before := ih fun m less => started m (by omega)
    have inside := started n (Nat.lt_succ_self n)
    have present := Array.getElem?_eq_getElem inside
    obtain ⟨protection, emitted, _⟩ := cleanup_emitted c (unwinding c st n)
      (unwinding c st n).cleanups[n]
    have length := congrArg List.length emitted
    simp only [Array.length_toList, List.length_append, List.length_map, restore, List.length_cons,
      List.length_nil] at length
    rw [unwinding, present]
    dsimp only
    omega

private theorem unwinding_tidy {i low n : Nat} (tidy : Tidy c bound i 0 low st)
    (small : low + 2 * n < 2 ^ 62) (started : ∀ m < n, m < (unwinding c st m).cleanups.size) :
    Tidy c bound i n (low + 2 * n) (unwinding c st n) := by
  induction n with
  | zero => exact tidy
  | succ n ih =>
    have before := ih (by omega) fun m less => started m (by omega)
    have present := Array.getElem?_eq_getElem (started n (Nat.lt_succ_self n))
    rw [unwinding, present]
    exact before.cleanup (by omega) present

theorem emission_tidy {low : Nat} (labelled : Labelled c) (separate : Separate bound)
    (tidy : Tidy c bound 0 0 low st) (few : low + 2 * bound.size ≤ 2 ^ 60)
    (small : (emission c st bound).builder.emitted.size ≤ addressable) :
    ∃ done low', Tidy c bound bound.size done low' (emission c st bound) := by
  obtain ⟨total, ends, size, started⟩ := cleanups_complete c (stage c st bound bound.size).1
  rw [← emission] at ends
  have count := unwinding_size started
  rw [← ends] at count
  simp only [addressable] at small
  have staged := stage_tidy labelled separate tidy (by omega) (Nat.le_refl bound.size)
  exact ⟨total, _, ends ▸ unwinding_tidy staged (by omega) started⟩

/-- The handlers of a function that are reached, labelled. -/
def labelledHandlers (plan : Plan) (analysis : Analysis.State) :
    Emission.State × List (Int64 × Label) :=
  labelHandlers plan.function analysis
    { builder := Builder.start plan.function.name (Int64.ofNat plan.hostLocals) } analysis.regions

/-- What the instructions of a function are emitted from. -/
def contextOf (plan : Plan) (analysis : Analysis.State) : Context :=
  ⟨plan, analysis, (labelledHandlers plan analysis).2⟩

/-- All that is emitted for a function. -/
def emissionOf (plan : Plan) (bound : Array Bound) (analysis : Analysis.State) : Emission.State :=
  emission (contextOf plan analysis) (labelledHandlers plan analysis).1 bound

theorem emit_emission (plan : Plan) (bound : Array Bound) (analysis : Analysis.State) :
    emit plan bound analysis = emissionOf plan bound analysis := by
  have instructions := instructions_stage (contextOf plan analysis) (labelledHandlers plan analysis).1
    bound bound.size
  rw [← Array.length_toList, List.drop_length] at instructions
  simp only [Emission.instructions, Array.length_toList] at instructions
  simp only [emissionOf, emission]
  rw [instructions]
  rfl

theorem labelledHandlers_labelling {plan : Plan} {analysis : Analysis.State}
    (numbered : Numbered analysis.regions) :
    Labelling plan.function analysis analysis.regions
      { builder := Builder.start plan.function.name (Int64.ofNat plan.hostLocals) }
      (labelledHandlers plan analysis).1 (labelledHandlers plan analysis).2 := by
  have small := numbered.1
  simp only [addressable] at small
  have start : -((1 : Nat) : Int) ≤ (-1 : Label).toInt := by decide
  exact labelHandlers_labelling _ _ _ _ start (by omega)

theorem emissionOf_tidy {plan : Plan} {bound : Array Bound} {analysis : Analysis.State}
    (separate : Separate bound) (numbered : Numbered analysis.regions) (few : bound.size ≤ addressable)
    (small : (emissionOf plan bound analysis).builder.emitted.size ≤ addressable) :
    ∃ done low, Tidy (contextOf plan analysis) bound bound.size done low
      (emissionOf plan bound analysis) := by
  have count := numbered.1
  simp only [addressable] at count few
  have labelling : Labelling plan.function analysis _ _ _ _ := labelledHandlers_labelling numbered
  exact emission_tidy (labelling.labelled numbered) separate (labelling.tidy bound rfl rfl rfl)
    (by omega) small

theorem Stands.found {r : Routine} {start m : Nat} {operations : List Operation} {origin : Int64}
    {protection : Option Protection} (stands : Stands r start operations origin protection)
    (inside : m < operations.length) {op : Operation} (operation : r.ops[start + m]? = some op) :
    operations[m]? = some op := by
  have there := List.getElem?_eq_getElem inside
  rw [there, ← (stands m _ there).1, operation]

theorem Stands.append {r : Routine} {start : Nat} {first second : List Operation} {origin : Int64}
    {protection : Option Protection} (stands : Stands r start (first ++ second) origin protection) :
    Stands r start first origin protection ∧
      Stands r (start + first.length) second origin protection := by
  constructor
  · intro m operation found
    have inside := (List.getElem?_eq_some_iff.mp found).1
    exact stands m operation (by rw [List.getElem?_append_left inside]; exact found)
  · intro m operation found
    rw [Nat.add_assoc]
    refine stands (first.length + m) operation ?_
    rw [List.getElem?_append_right (Nat.le_add_right _ _), Nat.add_sub_cancel_left]
    exact found

/-- What a function that was lowered was emitted from. -/
structure Lowers (fn : Function) (l : Lowered) (plan : Plan) (bound : Array Bound)
    (analysis : Analysis.State) : Prop where
  prepared : prepare fn = .ok (plan, bound, analysis)
  function : plan.function = fn
  planned : Planned plan bound
  stable : Stable plan bound analysis
  small : (emissionOf plan bound analysis).builder.emitted.size ≤ addressable
  routine : l.routine =
    { (emissionOf plan bound analysis).builder.build with maxDepth := l.routine.maxDepth }
  depths : ∃ depths, Depths.ofRoutine l.routine = .ok depths
  deepest : ∀ depths, Depths.ofRoutine l.routine = .ok depths → l.routine.maxDepth = depths.max
  entries : l.entry = fn.instructions.toList.zipIdx.filterMap fun (inst, i) =>
    (analysis.point? i).map fun p => (inst.offset, p.shape)

private theorem ofRoutine_noted (r : Routine) (maxDepth : Int64) :
    Depths.ofRoutine { r with maxDepth } = Depths.ofRoutine r := by
  have run : ∀ (fuel : Nat) (w : Depths.Walk),
      Depths.Walk.run { r with maxDepth } fuel w = Depths.Walk.run r fuel w := by
    intro fuel
    induction fuel with
    | zero => exact fun _ => rfl
    | succ fuel ih =>
      intro w
      simp only [Depths.Walk.run, ih]
      rfl
  unfold Depths.ofRoutine
  dsimp only
  simp only [run]
  rfl

/-- What comes of a function that is lowered passes a test. -/
def lowersTo (fn : Function) (test : Plan → Array Bound → Analysis.State → Lowered → Bool) : Bool :=
  preparesTo fn fun plan bound analysis =>
    match finish fn plan bound analysis with
    | (.ok l, _) => test plan bound analysis l
    | (.error _, _) => false

/-- The same operation. Constants are compared where they are scalars. -/
def alike : Operation → Operation → Bool
  | .label a, .label b | .goto a, .goto b | .ifTrue a, .ifTrue b | .ifFalse a, .ifFalse b
  | .loadLocal a, .loadLocal b | .storeLocal a, .storeLocal b | .deleteLocal a, .deleteLocal b
  | .pick a, .pick b | .swap a, .swap b => a == b
  | .loadGlobal a, .loadGlobal b | .storeGlobal a, .storeGlobal b => a == b
  | .invoke a, .invoke b => a == b
  | .const .none, .const .none | .const .null, .const .null => true
  | .const (.bool a), .const (.bool b) => a == b
  | .const (.int a), .const (.int b) => a == b
  | .pop, .pop | .dup, .dup | .ret, .ret | .throw, .throw | .getHandled, .getHandled
  | .setHandled, .setHandled => true
  | _, _ => false

theorem alike_eq {o o' : Operation} (same : alike o o' = true) : o = o' := by
  unfold alike at same
  split at same <;> first | rfl | cases same | rw [eq_of_beq same]

/-- The same routine, as far as its operations can be compared. -/
def alikeRoutine (r s : Routine) : Bool :=
  r.name == s.name && r.localCount == s.localCount && r.maxDepth == s.maxDepth && r.regions == s.regions &&
    r.origins == s.origins && r.ops.size == s.ops.size &&
    (List.range r.ops.size).all fun i => alike (r.ops.getD i .pop) (s.ops.getD i .pop)

theorem alikeRoutine_eq {r s : Routine} (same : alikeRoutine r s = true) : r = s := by
  obtain ⟨name, localCount, maxDepth, ops, regions, origins⟩ := r
  simp only [alikeRoutine, Bool.and_eq_true, beq_iff_eq, List.all_eq_true, List.mem_range] at same
  obtain ⟨⟨⟨⟨⟨⟨rfl, rfl⟩, rfl⟩, rfl⟩, rfl⟩, size⟩, operations⟩ := same
  have equal : ops = s.ops := by
    refine Array.ext size fun i inside outside => ?_
    have one := alike_eq (operations i inside)
    rwa [Array.getD_eq_getD_getElem?, Array.getD_eq_getD_getElem?, Array.getElem?_eq_getElem inside,
      Array.getElem?_eq_getElem outside] at one
  rw [equal]

theorem lowersTo_spec {fn : Function} {test : Plan → Array Bound → Analysis.State → Lowered → Bool}
    (holds : lowersTo fn test = true) : ∃ plan bound analysis l events,
      prepare fn = .ok (plan, bound, analysis) ∧ finish fn plan bound analysis = (.ok l, events) ∧
        test plan bound analysis l = true := by
  obtain ⟨plan, bound, analysis, prepared, holds⟩ := preparesTo_spec holds
  split at holds
  next l events finished => exact ⟨plan, bound, analysis, l, events, prepared, finished, holds⟩
  next => cases holds

/-- What was prepared and could be finished is what is lowered. -/
theorem lower_of_finish {fn : Function} {plan : Plan} {bound : Array Bound} {analysis : Analysis.State}
    {l : Lowered} {events : List Lowering.Event} (prepared : prepare fn = .ok (plan, bound, analysis))
    (finished : finish fn plan bound analysis = (.ok l, events)) : lower fn = (.ok l, events) := by
  unfold lower
  rw [prepared]
  dsimp only
  rw [finished]

theorem lowers_alike {fn : Function} {r : Routine}
    (checked : lowersTo fn (fun _ _ _ l => alikeRoutine l.routine r) = true) :
    ∃ l events, lower fn = (.ok l, events) ∧ l.routine = r := by
  obtain ⟨_, _, _, l, events, prepared, finished, same⟩ := lowersTo_spec checked
  exact ⟨l, events, lower_of_finish prepared finished, alikeRoutine_eq same⟩

theorem lower_function {fn : Function} {l : Lowered} {events : List Lowering.Event}
    (lowered : lower fn = (.ok l, events)) : l.function = fn := by
  unfold lower at lowered
  split at lowered
  · cases lowered
  · split at lowered
    · cases lowered
    · next finished =>
      cases lowered
      unfold finish at finished
      dsimp only at finished
      split at finished
      · cases finished
      · split at finished
        · cases finished
        · split at finished <;> cases finished
          rfl

theorem lower_lowers {fn : Function} {l : Lowered} {events : List Lowering.Event}
    (lowered : lower fn = (.ok l, events)) : ∃ plan bound analysis, Lowers fn l plan bound analysis := by
  unfold lower at lowered
  split at lowered
  · cases lowered
  · next plan bound analysis prepared =>
    obtain ⟨same, planned, analysed⟩ := prepare_planned prepared
    split at lowered
    · cases lowered
    · next made events finished =>
      cases lowered
      unfold finish at finished
      dsimp only at finished
      rw [emit_emission] at finished
      split at finished
      · cases finished
      · next small =>
        split at finished
        · cases finished
        · next depths walked =>
          split at finished
          · cases finished
          · cases finished
            have accepted := (ofRoutine_noted _ depths.max).trans walked
            refine ⟨plan, bound, analysis, prepared, same, planned, analyze_stable planned analysed, ?_,
              rfl, ⟨depths, accepted⟩, fun other also => ?_, rfl⟩
            · simpa [Builder.build] using small
            · rw [Except.ok.inj (also.symm.trans accepted)]

end Lowering.Proofs
