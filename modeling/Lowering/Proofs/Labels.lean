import Mathlib.Data.List.Nodup
import Lowering.Proofs.Emissions
import Lowering.Proofs.Plans

/-! Every label is defined once. Guest offsets grow, internal labels are taken in turn, and each of
them is emitted at one place: with the handler, the iteration or the cleanup it was taken for. -/

namespace Lowering.Proofs
open Host Guest Emission

private theorem labelsOf_label (label : Label) (rest : List Operation) :
    labelsOf (.label label :: rest) = label :: labelsOf rest := rfl

private theorem labelsOf_prologue (r : Region) : labelsOf r.prologue = [] := by
  unfold Region.prologue
  split
  · rfl
  · split <;> rfl

theorem labelsOf_lead (c : Context) (offset : Int64) (falls : Bool) (regions : List Region) :
    labelsOf (lead c offset falls regions) = regions.map fun r => (c.catch? r.id).getD 0 := by
  induction regions generalizing falls with
  | nil => rfl
  | cons r rest ih =>
    have around : labelsOf (if falls then [Operation.goto offset] else []) = [] := by
      cases falls <;> rfl
    rw [lead, labelsOf_append, labelsOf_append, ih, around, labelsOf_label, labelsOf_prologue]
    rfl

private theorem labelsOf_leave (plan : Plan) (s : Shape.Stack) (slots : Nat) :
    labelsOf (plan.leave s slots) = [] := by
  have pops : labelsOf (List.replicate slots .pop) = [] := by
    induction slots with
    | zero => rfl
    | succ slots ih => exact ih
  unfold Plan.leave
  split
  · rfl
  · rw [labelsOf_append, pops]
    split <;> rfl

theorem labelsOf_expand (plan : Plan) (fresh : Label) (o : Bound) (s : Shape.Stack) :
    labelsOf (o.expand plan fresh s) = if o.opcode = .forIter then [fresh] else [] := by
  cases opcode : o.opcode <;> simp only [Bound.expand, opcode, reduceCtorEq, if_false, if_true]
  case popExcept => exact labelsOf_leave _ _ _
  case reraise =>
    unfold reraise
    split
    · rfl
    · split <;> rfl
  all_goals first | rfl | (split <;> first | rfl | (split <;> rfl))

/-- What is known of the labels once the instructions below an index and some cleanups have been
emitted. All labels that were taken are above the next one. -/
structure Tidy (c : Context) (bound : Array Bound) (i done low : Nat) (st : Emission.State) :
    Prop where
  nodup : (labelsOf (opsOf st)).Nodup
  guest : ∀ label ∈ labelsOf (opsOf st), 0 ≤ label → label ∈ c.analysis.targets ∧
    ∃ j o, j < i ∧ bound[j]? = some o ∧ o.inst.offset = label
  internal : ∀ label ∈ labelsOf (opsOf st), label < 0 → st.builder.nextLabel < label
  handlers : ∀ r ∈ c.analysis.regions, ∀ label, c.catch? r.id = some label →
    label ∈ labelsOf (opsOf st) → ∃ j o, j < i ∧ bound[j]? = some o ∧ o.inst.offset = r.handler
  catching : ∀ id label, c.catch? id = some label → label < 0 ∧ st.builder.nextLabel < label
  unwinding : ∀ cleanup ∈ st.cleanups, cleanup.label < 0 ∧ st.builder.nextLabel < cleanup.label ∧
    ∀ id, c.catch? id ≠ some cleanup.label
  pending : ∀ (n : Nat) (cleanup : Cleanup), done ≤ n → st.cleanups[n]? = some cleanup →
    cleanup.label ∉ labelsOf (opsOf st)
  cleanups : (st.cleanups.toList.map Cleanup.label).Nodup
  negative : st.builder.nextLabel < 0
  room : -(low : Int) ≤ st.builder.nextLabel.toInt

variable {c : Context} {bound : Array Bound} {i done low : Nat} {st later : Emission.State}

theorem pred_lt {label : Label} (room : -(low : Int) ≤ label.toInt)
    (small : low < 2 ^ 62) : label - 1 < label ∧ (label - 1).toInt = label.toInt - 1 := by
  have below := label.toInt_lt
  have less : (label - 1).toInt = label.toInt - 1 := by
    rw [Int64.toInt_sub, Int64.toInt_one, Int.bmod_eq_of_le (by omega) (by omega)]
  exact ⟨by rw [Int64.lt_iff_toInt_lt, less]; omega, less⟩

/-- Guarding takes at most one label, for a cleanup. -/
theorem Tidy.guard (tidy : Tidy c bound i done low st) (small : low < 2 ^ 62)
    (guarding : Guarding st later) :
    Tidy c bound i done (low + 1) later := by
  have ops : opsOf later = opsOf st := by rw [opsOf, guarding.emitted, opsOf]
  have room := tidy.room
  rcases guarding.asks with ⟨cleanups, label⟩ | ⟨block, below, _, cleanups, label⟩
  · exact
      { nodup := ops ▸ tidy.nodup
        guest := ops ▸ tidy.guest
        internal := by
          rw [ops, label]
          exact tidy.internal
        handlers := ops ▸ tidy.handlers
        catching := label ▸ tidy.catching
        unwinding := by
          rw [cleanups, label]
          exact tidy.unwinding
        pending := by
          rw [cleanups, ops]
          exact tidy.pending
        cleanups := cleanups ▸ tidy.cleanups
        negative := label ▸ tidy.negative
        room := by
          rw [label]
          omega }
  · obtain ⟨less, value⟩ := pred_lt tidy.room small
    have unused : st.builder.nextLabel ∉ labelsOf (opsOf st) := fun listed =>
      Int64.lt_irrefl (tidy.internal _ listed tidy.negative)
    exact
      { nodup := ops ▸ tidy.nodup
        guest := ops ▸ tidy.guest
        internal := by
          rw [ops, label]
          exact fun other member below => Int64.lt_trans less (tidy.internal other member below)
        handlers := ops ▸ tidy.handlers
        catching := by
          rw [label]
          exact fun id other found =>
            ⟨(tidy.catching id other found).1, Int64.lt_trans less (tidy.catching id other found).2⟩
        unwinding := by
          rw [label, cleanups]
          intro cleanup member
          rcases Array.mem_push.mp member with old | rfl
          · obtain ⟨first, second, rest⟩ := tidy.unwinding cleanup old
            exact ⟨first, Int64.lt_trans less second, rest⟩
          · exact ⟨tidy.negative, less, fun id found =>
              Int64.lt_irrefl (tidy.catching id _ found).2⟩
        pending := by
          rw [cleanups, ops]
          intro n cleanup waits found
          rw [Array.getElem?_push] at found
          split at found
          · cases found
            exact unused
          · exact tidy.pending n cleanup waits found
        cleanups := by
          rw [cleanups, Array.toList_push, List.map_append, List.nodup_append]
          refine ⟨tidy.cleanups, by simp, fun other member new listed equal => ?_⟩
          obtain ⟨cleanup, present, rfl⟩ := List.mem_map.mp member
          rw [List.map_singleton, List.mem_singleton] at listed
          have above := (tidy.unwinding cleanup (by simpa using present)).2.1
          rw [equal, listed] at above
          exact Int64.lt_irrefl above
        negative := by
          rw [label]
          exact Int64.lt_trans less tidy.negative
        room := by
          rw [label, value]
          omega }

/-- The labels of new operations fit those that are there. -/
structure Fresh (c : Context) (bound : Array Bound) (i done : Nat) (st later : Emission.State)
    (labels : List Label) : Prop where
  nodup : labels.Nodup
  apart : ∀ label ∈ labels, label ∉ labelsOf (opsOf st)
  guest : ∀ label ∈ labels, 0 ≤ label → label ∈ c.analysis.targets ∧
    ∃ j o, j < i ∧ bound[j]? = some o ∧ o.inst.offset = label
  internal : ∀ label ∈ labels, label < 0 → later.builder.nextLabel < label
  handlers : ∀ r ∈ c.analysis.regions, ∀ label, c.catch? r.id = some label → label ∈ labels →
    ∃ j o, j < i ∧ bound[j]? = some o ∧ o.inst.offset = r.handler
  pending : ∀ (n : Nat) (cleanup : Cleanup), done ≤ n → st.cleanups[n]? = some cleanup →
    cleanup.label ∉ labels

theorem Tidy.emit {i' done' : Nat} {new : List Operation} (tidy : Tidy c bound i done low st)
    (further : i ≤ i') (more : done ≤ done') (small : low < 2 ^ 62)
    (ops : opsOf later = opsOf st ++ new) (cleanups : later.cleanups = st.cleanups)
    (label : later.builder.nextLabel = st.builder.nextLabel ∨
      later.builder.nextLabel = st.builder.nextLabel - 1)
    (fresh : Fresh c bound i' done' st later (labelsOf new)) :
    Tidy c bound i' done' (low + 1) later := by
  obtain ⟨less, value⟩ := pred_lt tidy.room small
  have room := tidy.room
  have above : ∀ {other : Label}, st.builder.nextLabel < other → later.builder.nextLabel < other := by
    intro other higher
    rcases label with same | next
    · exact same ▸ higher
    · rw [next]
      exact Int64.lt_trans less higher
  have split : ∀ {other : Label}, other ∈ labelsOf (opsOf later) →
      other ∈ labelsOf (opsOf st) ∨ other ∈ labelsOf new := by
    intro other member
    rw [ops, labelsOf_append] at member
    exact List.mem_append.mp member
  exact
    { nodup := by
        rw [ops, labelsOf_append, List.nodup_append]
        exact ⟨tidy.nodup, fresh.nodup, fun a old b new equal =>
          fresh.apart b new (equal ▸ old)⟩
      guest := fun other member positive => by
        rcases split member with old | new
        · obtain ⟨target, j, o, before, found⟩ := tidy.guest other old positive
          exact ⟨target, j, o, by omega, found⟩
        · exact fresh.guest other new positive
      internal := fun other member below => by
        rcases split member with old | new
        · exact above (tidy.internal other old below)
        · exact fresh.internal other new below
      handlers := fun r listed other found member => by
        rcases split member with old | new
        · obtain ⟨j, o, before, rest⟩ := tidy.handlers r listed other found old
          exact ⟨j, o, by omega, rest⟩
        · exact fresh.handlers r listed other found new
      catching := fun id other found =>
        ⟨(tidy.catching id other found).1, above (tidy.catching id other found).2⟩
      unwinding := fun cleanup member => by
        obtain ⟨first, second, rest⟩ := tidy.unwinding cleanup (cleanups ▸ member)
        exact ⟨first, above second, rest⟩
      pending := fun n cleanup waits found member => by
        rw [cleanups] at found
        rcases split member with old | new
        · exact tidy.pending n cleanup (by omega) found old
        · exact fresh.pending n cleanup waits found new
      cleanups := cleanups ▸ tidy.cleanups
      negative := by
        rcases label with same | next
        · exact same ▸ tidy.negative
        · rw [next]
          exact Int64.lt_trans less tidy.negative
      room := by
        rcases label with same | next
        · rw [same]
          omega
        · rw [next, value]
          omega }

/-- Offsets are not negative, and no two instructions share one. -/
structure Separate (bound : Array Bound) : Prop where
  positive : ∀ (i : Nat) (o : Bound), bound[i]? = some o → 0 ≤ o.inst.offset
  distinct : ∀ (i j : Nat) (a b : Bound), bound[i]? = some a → bound[j]? = some b →
    a.inst.offset = b.inst.offset → i = j

/-- The handlers that are reached have labels of their own. -/
structure Labelled (c : Context) : Prop where
  numbered : Numbered c.analysis.regions
  injective : ∀ id other label, c.catch? id = some label → c.catch? other = some label → id = other
  reached : ∀ r ∈ c.analysis.regions, ((c.catch? r.id).isSome ↔
    Emission.reached c.plan.function c.analysis r.handler = true)

theorem mem_handlersAt {offset : Int64} {r : Region} : r ∈ handlersAt c offset ↔
    r ∈ c.analysis.regions ∧ r.handler = offset ∧ ∃ label, c.catch? r.id = some label := by
  simp only [handlersAt, List.mem_filter, Bool.and_eq_true, beq_iff_eq, Option.isSome_iff_exists]

private theorem handlersAt_labels (labelled : Labelled c) (offset : Int64) :
    ((handlersAt c offset).map fun r => (c.catch? r.id).getD 0).Nodup := by
  refine List.Nodup.map_on ?_ (labelled.numbered.nodup.filter _)
  intro r first s second same
  obtain ⟨listed, _, label, found⟩ := mem_handlersAt.mp first
  obtain ⟨also, _, other, present⟩ := mem_handlersAt.mp second
  rw [found, present, Option.getD_some, Option.getD_some] at same
  exact labelled.numbered.unique listed also (labelled.injective _ _ label found (same ▸ present))

theorem labelsOf_instruction (fresh : Label) (o : Bound) (p : Point) (falls : Bool) :
    labelsOf (lead c o.inst.offset falls (handlersAt c o.inst.offset) ++ own c fresh o p) =
      ((handlersAt c o.inst.offset).map fun r => (c.catch? r.id).getD 0) ++
        ((if c.analysis.targets.contains o.inst.offset then [o.inst.offset] else []) ++
          if o.opcode = .forIter then [fresh] else []) := by
  have target : labelsOf (if c.analysis.targets.contains o.inst.offset then
      [Operation.label o.inst.offset] else []) =
      if c.analysis.targets.contains o.inst.offset then [o.inst.offset] else [] := by
    split <;> rfl
  rw [labelsOf_append, labelsOf_lead, own, labelsOf_append, labelsOf_expand, target]

/-- The labels of an instruction are new: no other instruction has its offset, and the handlers that
start there have not been emitted before. -/
private theorem instruction_labels (labelled : Labelled c) (separate : Separate bound)
    (tidy : Tidy c bound i 0 low st) (small : low < 2 ^ 62) {o : Bound} (found : bound[i]? = some o)
    {next : Label}
    (taken : next = if o.opcode = .forIter then st.builder.nextLabel - 1 else st.builder.nextLabel)
    (moved : later.builder.nextLabel = next) :
    Fresh c bound (i + 1) 0 st later
      (((handlersAt c o.inst.offset).map fun r => (c.catch? r.id).getD 0) ++
        ((if c.analysis.targets.contains o.inst.offset then [o.inst.offset] else []) ++
          if o.opcode = .forIter then [st.builder.nextLabel] else [])) := by
  have positive : 0 ≤ o.inst.offset := separate.positive i o found
  have nonneg : ∀ {label : Label}, label < 0 → label ≠ o.inst.offset := by
    rintro label below rfl
    exact absurd (Int64.lt_of_lt_of_le below positive) Int64.lt_irrefl
  have caught : ∀ {label : Label}, label ∈ ((handlersAt c o.inst.offset).map fun r =>
      (c.catch? r.id).getD 0) →
      ∃ r ∈ c.analysis.regions, r.handler = o.inst.offset ∧ c.catch? r.id = some label := by
    intro label member
    obtain ⟨r, listed, rfl⟩ := List.mem_map.mp member
    obtain ⟨known, place, label, present⟩ := mem_handlersAt.mp listed
    exact ⟨r, known, place, by rw [present]; rfl⟩
  have target : ∀ {label : Label}, label ∈ (if c.analysis.targets.contains o.inst.offset then
      [o.inst.offset] else []) → label = o.inst.offset ∧ o.inst.offset ∈ c.analysis.targets := by
    intro label member
    split at member
    next contained => exact ⟨List.mem_singleton.mp member, by simpa using contained⟩
    next => cases member
  have iterates : ∀ {label : Label}, label ∈ (if o.opcode = .forIter then
      [st.builder.nextLabel] else []) → label = st.builder.nextLabel ∧ o.opcode = .forIter := by
    intro label member
    split at member
    next same => exact ⟨List.mem_singleton.mp member, same⟩
    next => cases member
  have cases : ∀ {label : Label} {motive : Prop}, label ∈
      (((handlersAt c o.inst.offset).map fun r => (c.catch? r.id).getD 0) ++
        ((if c.analysis.targets.contains o.inst.offset then [o.inst.offset] else []) ++
          if o.opcode = .forIter then [st.builder.nextLabel] else [])) →
      (∀ r ∈ c.analysis.regions, r.handler = o.inst.offset → c.catch? r.id = some label → motive) →
      (label = o.inst.offset → o.inst.offset ∈ c.analysis.targets → motive) →
      (label = st.builder.nextLabel → o.opcode = .forIter → motive) → motive := by
    intro label motive member handler guest internal
    rcases List.mem_append.mp member with first | rest
    · obtain ⟨r, known, place, present⟩ := caught first
      exact handler r known place present
    · rcases List.mem_append.mp rest with second | third
      · exact guest (target second).1 (target second).2
      · exact internal (iterates third).1 (iterates third).2
  have beyond : later.builder.nextLabel ≤ st.builder.nextLabel := by
    rw [moved, taken]
    split
    · exact Int64.le_of_lt (pred_lt tidy.room small).1
    · exact Int64.le_refl _
  refine
    { nodup := ?nodup, apart := ?apart, guest := ?guest, internal := ?internal
      handlers := ?handlers, pending := ?pending }
  case nodup =>
    refine List.nodup_append.mpr ⟨handlersAt_labels labelled _, List.nodup_append.mpr
      ⟨by split <;> simp, by split <;> simp, ?_⟩, ?_⟩
    · intro a first b second same
      obtain ⟨equal, _⟩ := iterates second
      have negative := tidy.negative
      rw [← equal, ← same] at negative
      exact nonneg negative (target first).1
    · intro a first b second same
      obtain ⟨r, _, _, present⟩ := caught first
      have bounds := tidy.catching _ _ present
      rcases List.mem_append.mp second with guest | fresh
      · exact nonneg bounds.1 (same.trans (target guest).1)
      · rw [same, (iterates fresh).1] at bounds
        exact Int64.lt_irrefl bounds.2
  case apart =>
    intro label member listed
    refine cases member ?_ ?_ ?_
    · intro r known place present
      obtain ⟨j, other, before, at', same⟩ := tidy.handlers r known label present listed
      have equal := separate.distinct _ _ _ _ at' found (same.trans place)
      omega
    · rintro rfl _
      obtain ⟨_, j, other, before, at', same⟩ := tidy.guest _ listed positive
      have equal := separate.distinct _ _ _ _ at' found same
      omega
    · rintro rfl _
      exact Int64.lt_irrefl (tidy.internal _ listed tidy.negative)
  case guest =>
    intro label member above
    have contrary : ∀ {other : Label}, other < 0 → 0 ≤ other → False := fun below above =>
      absurd (Int64.lt_of_lt_of_le below above) Int64.lt_irrefl
    refine cases member ?_ ?_ ?_
    · intro r _ _ present
      exact (contrary (tidy.catching _ _ present).1 above).elim
    · rintro rfl targeted
      exact ⟨targeted, i, o, Nat.lt_succ_self i, found, rfl⟩
    · rintro rfl _
      exact (contrary tidy.negative above).elim
  case internal =>
    intro label member below
    refine cases member ?_ ?_ ?_
    · intro r _ _ present
      exact Int64.lt_of_le_of_lt beyond (tidy.catching _ _ present).2
    · rintro rfl _
      exact absurd rfl (nonneg below)
    · rintro rfl iteration
      rw [moved, taken, if_pos iteration]
      exact (pred_lt tidy.room small).1
  case handlers =>
    intro r known label present member
    have bounds := tidy.catching _ _ present
    refine cases member ?_ ?_ ?_
    · intro s also place other
      have same := labelled.numbered.unique known also (labelled.injective _ _ label present other)
      exact ⟨i, o, Nat.lt_succ_self i, found, by rw [same, place]⟩
    · intro equal _
      exact absurd equal (nonneg bounds.1)
    · rintro rfl _
      exact absurd bounds.2 Int64.lt_irrefl
  case pending =>
    intro n cleanup _ present member
    obtain ⟨below, above, distinct⟩ := tidy.unwinding cleanup (Array.mem_of_getElem? present)
    refine cases member ?_ ?_ ?_
    · intro r _ _ other
      exact distinct _ other
    · intro equal _
      exact nonneg below equal
    · intro equal _
      rw [equal] at above
      exact Int64.lt_irrefl above

theorem Tidy.instruction (labelled : Labelled c) (separate : Separate bound)
    (tidy : Tidy c bound i 0 low st) (small : low + 1 < 2 ^ 62) {o : Bound}
    (found : bound[i]? = some o) (p : Point) (falls : Bool) :
    Tidy c bound (i + 1) 0 (low + 2) (Emission.instruction c st i o p falls) := by
  have started : Tidy c bound i 0 low { st with builder := st.builder.setOrigin o.inst.offset } :=
    { tidy with }
  have guarded : Tidy c bound i 0 (low + 1) (guardedState c st i o p) :=
    started.guard (by omega) (guard_guarded c _ i p).1
  have moved : (Emission.instruction c st i o p falls).builder.nextLabel =
      if o.opcode = .forIter then (guardedState c st i o p).builder.nextLabel - 1
        else (guardedState c st i o p).builder.nextLabel := by
    rw [instruction_builder]
  have ops : opsOf (Emission.instruction c st i o p falls) = opsOf (guardedState c st i o p) ++
      (lead c o.inst.offset falls (handlersAt c o.inst.offset) ++
        own c (guardedState c st i o p).builder.nextLabel o p) := by
    rw [instruction_ops, opsOf, opsOf, (guardedState_guards c st i o p).1]
  refine guarded.emit (Nat.le_succ i) (Nat.le_refl 0) small ops
    (instruction_cleanups c st i o p falls) ?_ ?_
  · rw [moved]
    split
    · exact .inr rfl
    · exact .inl rfl
  · rw [labelsOf_instruction]
    exact instruction_labels labelled separate guarded small found rfl moved

theorem Tidy.cleanup (tidy : Tidy c bound i done low st) (small : low + 1 < 2 ^ 62)
    {entry : Cleanup} (found : st.cleanups[done]? = some entry) :
    Tidy c bound i (done + 1) (low + 2) (Emission.cleanup c st entry) := by
  let region := (c.region? entry.block.region).getD default
  have started : Tidy c bound i done low { st with builder := st.builder.setOrigin region.handler } :=
    { tidy with }
  have guarding := (guardBlocks_guards c { st with builder := st.builder.setOrigin region.handler }
    entry.below).1
  have guarded := started.guard (by omega) guarding
  have present := guarding.getElem? found
  have ops : opsOf (Emission.cleanup c st entry) = opsOf (guardBlocks c
      { st with builder := st.builder.setOrigin region.handler } entry.below) ++ restore c entry := by
    rw [cleanup_ops, opsOf, opsOf, guarding.emitted]
    rfl
  refine guarded.emit (Nat.le_refl i) (Nat.le_succ done) small ops rfl (.inl ?_) ?_
  · exact emit_nextLabel _ _
  · obtain ⟨below, above, distinct⟩ := guarded.unwinding entry (Array.mem_of_getElem? present)
    rw [show labelsOf (restore c entry) = [entry.label] from rfl]
    refine
      { nodup := List.nodup_singleton _, apart := ?_, guest := ?_, internal := ?_
        handlers := ?_, pending := ?_ }
    · intro label member
      rw [List.mem_singleton.mp member]
      exact guarded.pending done entry (Nat.le_refl done) present
    · intro label member positive
      rw [List.mem_singleton.mp member] at positive
      exact absurd (Int64.lt_of_lt_of_le below positive) Int64.lt_irrefl
    · intro label member _
      rw [List.mem_singleton.mp member]
      exact above
    · intro r _ label caught member
      rw [List.mem_singleton.mp member] at caught
      exact absurd caught (distinct _)
    · intro n other later waiting member
      have same := List.mem_singleton.mp member
      have nodup := guarded.cleanups
      rw [List.nodup_iff_getElem?_ne_getElem?] at nodup
      refine nodup done n (by omega) ?_ ?_
      · have inside := (Array.getElem?_eq_some_iff.mp waiting).1
        simpa using inside
      · simp [present, waiting, same]

end Lowering.Proofs
