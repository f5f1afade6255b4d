import Mathlib.Algebra.GroupWithZero.Nat
import Lowering.Host.Builder
import Lowering.Word

/-! Routines that were built operation by operation: every operation stands where it was emitted and
is protected as it was then, and a label that is defined once is found where it is defined. -/

namespace Lowering.Proofs
open Host

/-- Operations as a builder emits them. -/
def marked (b : Builder) (operations : List Operation) : List Emitted :=
  operations.map fun o => ⟨o, b.origin, b.protection⟩

theorem emit_eq (b : Builder) (operations : List Operation) :
    b.emit operations = { b with emitted := b.emitted ++ marked b operations } := by
  unfold Builder.emit
  induction operations generalizing b with
  | nil => simp [marked]
  | cons o rest ih =>
    rw [List.foldl_cons, ih]
    simp [Builder.emitOne, marked]

theorem emit_append (b : Builder) (first second : List Operation) :
    (b.emit first).emit second = b.emit (first ++ second) := by
  simp [Builder.emit]

theorem emit_nextLabel (b : Builder) (operations : List Operation) :
    (b.emit operations).nextLabel = b.nextLabel := by
  rw [emit_eq]

theorem emit_renumbered (b : Builder) (next : Label) (operations : List Operation) :
    ({ b with nextLabel := next } : Builder).emit operations =
      { b.emit operations with nextLabel := next } := by
  simp [emit_eq, marked]

private theorem runs_head {protections : List (Option Protection)} {index first last : Nat}
    {p : Option Protection} {more : List (Nat × Nat × Option Protection)}
    (runs : Builder.runs index protections = (first, last, p) :: more) : first = index := by
  cases protections with
  | nil => cases runs
  | cons q rest =>
    rw [Builder.runs] at runs
    split at runs
    · split at runs <;> cases runs <;> rfl
    · cases runs
      rfl

private theorem runs_sound {protections : List (Option Protection)} {index first last k : Nat}
    {p : Option Protection} (member : (first, last, p) ∈ Builder.runs index protections)
    (lower : first ≤ k) (upper : k < last) :
    index ≤ first ∧ protections[k - index]? = some p := by
  induction protections generalizing index first last p with
  | nil => cases member
  | cons q rest ih =>
    have tail : ∀ {a b : Nat} {r : Option Protection}, (a, b, r) ∈ Builder.runs (index + 1) rest →
        a ≤ k → k < b → index ≤ a ∧ (q :: rest)[k - index]? = some r := by
      intro a b r listed lower upper
      obtain ⟨start, found⟩ := ih listed lower upper
      refine ⟨by omega, ?_⟩
      rw [show k - index = k - (index + 1) + 1 by omega, List.getElem?_cons_succ]
      exact found
    have single : ∀ {a b : Nat} {r : Option Protection}, (a, b, r) = (index, index + 1, q) →
        a ≤ k → k < b → index ≤ a ∧ (q :: rest)[k - index]? = some r := by
      rintro a b r ⟨⟩ lower upper
      rw [show k - index = 0 by omega]
      exact ⟨Nat.le_refl _, rfl⟩
    rw [Builder.runs] at member
    split at member
    next start stop r more runs =>
      split at member
      next same =>
        rcases List.mem_cons.mp member with equal | listed
        · simp only [Prod.mk.injEq] at equal
          obtain ⟨rfl, rfl, rfl⟩ := equal
          by_cases here : k = first
          · subst here
            simp
          · have head := runs_head runs
            obtain ⟨_, found⟩ := tail (runs ▸ List.mem_cons_self) (by omega) upper
            exact ⟨Nat.le_refl _, same ▸ found⟩
        · exact tail (runs ▸ List.mem_cons_of_mem _ listed) lower upper
      next =>
        rcases List.mem_cons.mp member with same | listed
        · exact single same lower upper
        · exact tail (runs ▸ listed) lower upper
    next => exact single (List.mem_singleton.mp member) lower upper

private theorem runs_bound {protections : List (Option Protection)} {index first last : Nat}
    {p : Option Protection} (member : (first, last, p) ∈ Builder.runs index protections) :
    first < last ∧ last ≤ index + protections.length := by
  induction protections generalizing index first last p with
  | nil => cases member
  | cons q rest ih =>
    have tail : ∀ {a b : Nat} {r : Option Protection}, (a, b, r) ∈ Builder.runs (index + 1) rest →
        a < b ∧ b ≤ index + (q :: rest).length := by
      intro a b r listed
      have bound := ih listed
      simp only [List.length_cons]
      omega
    have single : ∀ {a b : Nat} {r : Option Protection}, (a, b, r) = (index, index + 1, q) →
        a < b ∧ b ≤ index + (q :: rest).length := by
      rintro a b r ⟨⟩
      simp only [List.length_cons]
      omega
    rw [Builder.runs] at member
    split at member
    next start stop r more runs =>
      split at member
      · rcases List.mem_cons.mp member with equal | listed
        · simp only [Prod.mk.injEq] at equal
          obtain ⟨rfl, rfl, rfl⟩ := equal
          have head := runs_head runs
          have bound := tail (runs ▸ List.mem_cons_self)
          omega
        · exact tail (runs ▸ List.mem_cons_of_mem _ listed)
      · rcases List.mem_cons.mp member with same | listed
        · exact single same
        · exact tail (runs ▸ listed)
    next => exact single (List.mem_singleton.mp member)

private theorem runs_complete {protections : List (Option Protection)} {index k : Nat}
    (lower : index ≤ k) (upper : k < index + protections.length) :
    ∃ first last p, (first, last, p) ∈ Builder.runs index protections ∧ first ≤ k ∧ k < last := by
  induction protections generalizing index with
  | nil =>
    simp only [List.length_nil] at upper
    omega
  | cons q rest ih =>
    simp only [List.length_cons] at upper
    rw [Builder.runs]
    split
    next start stop r more runs =>
      have head := runs_head runs
      have bound := (runs_bound (runs ▸ List.mem_cons_self : (start, stop, r) ∈ _)).1
      split
      next =>
        by_cases here : k < stop
        · exact ⟨index, stop, q, List.mem_cons_self, lower, here⟩
        · obtain ⟨first, last, p, listed, below, above⟩ := ih (by omega : index + 1 ≤ k) (by omega)
          rw [runs] at listed
          rcases List.mem_cons.mp listed with equal | later
          · simp only [Prod.mk.injEq] at equal
            omega
          · exact ⟨first, last, p, List.mem_cons_of_mem _ later, below, above⟩
      next =>
        by_cases here : k = index
        · exact ⟨index, index + 1, q, List.mem_cons_self, lower, by omega⟩
        · obtain ⟨first, last, p, listed, below, above⟩ := ih (by omega : index + 1 ≤ k) (by omega)
          exact ⟨first, last, p, List.mem_cons_of_mem _ (runs ▸ listed), below, above⟩
    next empty =>
      by_cases here : k = index
      · exact ⟨index, index + 1, q, List.mem_cons_self, lower, by omega⟩
      · obtain ⟨first, last, p, listed, _⟩ := ih (by omega : index + 1 ≤ k) (by omega)
        rw [empty] at listed
        cases listed

private theorem runs_maximal {protections : List (Option Protection)} {index first last : Nat}
    {p : Option Protection} (member : (first, last, p) ∈ Builder.runs index protections) :
    protections[last - index]? ≠ some p := by
  induction protections generalizing index first last p with
  | nil => cases member
  | cons q rest ih =>
    have tail : ∀ {a b : Nat} {r : Option Protection}, (a, b, r) ∈ Builder.runs (index + 1) rest →
        (q :: rest)[b - index]? ≠ some r := by
      intro a b r listed
      have filled := (runs_bound listed).1
      have start := (runs_sound listed (Nat.le_refl a) filled).1
      rw [show b - index = b - (index + 1) + 1 by omega, List.getElem?_cons_succ]
      exact ih listed
    have single : ∀ {a b : Nat} {r : Option Protection}, (a, b, r) = (index, index + 1, q) →
        rest[0]? ≠ some q → (q :: rest)[b - index]? ≠ some r := by
      rintro a b r ⟨⟩ apart
      rw [show index + 1 - index = 0 + 1 by omega, List.getElem?_cons_succ]
      exact apart
    rw [Builder.runs] at member
    split at member
    next start stop r more runs =>
      have head := runs_head runs
      have here : (start, stop, r) ∈ Builder.runs (index + 1) rest := runs ▸ List.mem_cons_self
      have bound := (runs_bound here).1
      split at member
      next same =>
        rcases List.mem_cons.mp member with equal | listed
        · simp only [Prod.mk.injEq] at equal
          obtain ⟨rfl, rfl, rfl⟩ := equal
          exact same ▸ tail here
        · exact tail (runs ▸ List.mem_cons_of_mem _ listed)
      next apart =>
        rcases List.mem_cons.mp member with same | listed
        · have next := (runs_sound here (Nat.le_refl start) bound).2
          rw [head, Nat.sub_self] at next
          refine single same fun equal => ?_
          rw [next, Option.some.injEq] at equal
          exact apart equal.symm
        · exact tail (runs ▸ listed)
    next none =>
      refine single (List.mem_singleton.mp member) fun present => ?_
      obtain ⟨inside, _⟩ := List.getElem?_eq_some_iff.mp present
      obtain ⟨_, _, _, listed, _⟩ :=
        runs_complete (Nat.le_refl (index + 1)) (Nat.lt_add_of_pos_right inside)
      rw [none] at listed
      cases listed

/-- The index of anything that is addressed fits into a word. -/
theorem small_word {n : Nat} (small : n ≤ addressable) : n < 2 ^ 63 :=
  Nat.lt_of_le_of_lt small (by decide)

private theorem ofNat_covers {first last k : Nat} (handler : Label) (depth : Int64)
    (small : last < 2 ^ 63) (also : first < last) (within : k < 2 ^ 63) :
    (Protected.covers ⟨Int64.ofNat first, Int64.ofNat last, handler, depth⟩ (Int64.ofNat k) = true) ↔
      first ≤ k ∧ k < last := by
  simp only [Protected.covers, Bool.and_eq_true, decide_eq_true_eq]
  rw [Int64.ofNat_le_iff_le (by omega) (by omega), Int64.ofNat_lt_iff_lt (by omega) (by omega)]

/-- An operation of a routine that was built is protected as it was when it was emitted. -/
theorem build_regionAt? (b : Builder) (small : b.emitted.size < 2 ^ 63) {k : Nat}
    {e : Emitted} (found : b.emitted[k]? = some e) :
    (b.build.regionAt? (Int64.ofNat k)).map (fun r => (⟨r.handler, r.depth⟩ : Protection)) =
      e.protection := by
  have inside := (Array.getElem?_eq_some_iff.mp found).1
  have listed : (b.emitted.toList.map Emitted.protection)[k]? = some e.protection := by
    simp [found]
  have length : (b.emitted.toList.map Emitted.protection).length = b.emitted.size := by simp
  simp only [Routine.regionAt?, Builder.build, Builder.regions]
  generalize b.emitted.toList.map Emitted.protection = protections at listed length
  cases search : (List.filterMap _ (Builder.runs 0 protections)).find? _ with
  | none =>
    obtain ⟨first, last, p, member, lower, upper⟩ : ∃ first last p,
        (first, last, p) ∈ Builder.runs 0 protections ∧ first ≤ k ∧ k < last :=
      runs_complete (Nat.zero_le k) (by omega)
    obtain ⟨_, same⟩ := runs_sound member lower upper
    rw [Nat.sub_zero, listed] at same
    cases same
    cases protection : e.protection with
    | none => rfl
    | some q =>
      rw [protection] at member
      have bounds := runs_bound member
      have missing := List.find?_eq_none.mp search _ (List.mem_filterMap.mpr ⟨_, member, rfl⟩)
      exact absurd ((ofNat_covers _ _ (by omega) bounds.1 (by omega)).mpr ⟨lower, upper⟩) missing
  | some region =>
    obtain ⟨⟨first, last, p⟩, member, made⟩ :=
      List.mem_filterMap.mp (List.mem_of_find?_eq_some search)
    cases p with
    | none => cases made
    | some q =>
      cases made
      have bounds := runs_bound member
      have covers := List.find?_some search
      obtain ⟨lower, upper⟩ := (ofNat_covers _ _ (by omega) bounds.1 (by omega)).mp covers
      obtain ⟨_, same⟩ := runs_sound member lower upper
      rw [Nat.sub_zero, listed] at same
      rw [Option.some.inj same]
      rfl

private theorem runs_pairwise (protections : List (Option Protection)) (index : Nat) :
    (Builder.runs index protections).Pairwise fun a b => a.2.1 ≤ b.1 := by
  induction protections generalizing index with
  | nil => exact .nil
  | cons q rest ih =>
    have later := ih (index + 1)
    rw [Builder.runs]
    split
    next first last r more runs =>
      rw [runs] at later
      have head := runs_head runs
      have bound := (runs_bound (runs ▸ List.mem_cons_self : (first, last, r) ∈ _)).1
      split
      · exact List.pairwise_cons.mpr (List.pairwise_cons.mp later)
      · refine List.pairwise_cons.mpr ⟨?_, later⟩
        intro run member
        rcases List.mem_cons.mp member with rfl | other
        · exact Nat.le_of_eq head.symm
        · have after := (List.pairwise_cons.mp later).1 run other
          dsimp only at after ⊢
          omega
    next => exact List.pairwise_singleton _ _

/-- The regions of a routine that was built are ranges of its operations, one after the other, and have
the protections under which these were emitted. -/
theorem build_regions (b : Builder) (small : b.emitted.size < 2 ^ 63) :
    (∀ region ∈ b.build.regions, 0 ≤ region.start ∧ region.start < region.stop ∧
      region.stop ≤ Int64.ofNat b.build.ops.size ∧
      ∃ e ∈ b.emitted.toList, e.protection = some ⟨region.handler, region.depth⟩) ∧
      b.build.regions.Pairwise fun first second => first.stop ≤ second.start := by
  have size : b.build.ops.size = b.emitted.size := by simp [Builder.build]
  have length : (b.emitted.toList.map Emitted.protection).length = b.emitted.size := by simp
  constructor
  · intro region member
    obtain ⟨⟨first, last, p⟩, listed, made⟩ := List.mem_filterMap.mp member
    cases p with
    | none => cases made
    | some q =>
      cases made
      have bounds := runs_bound listed
      obtain ⟨_, protects⟩ := runs_sound listed (Nat.le_refl first) bounds.1
      rw [List.getElem?_map, Option.map_eq_some_iff] at protects
      obtain ⟨e, present, same⟩ := protects
      refine ⟨Int64.zero_le_ofNat_of_lt (by omega), ?_, ?_, e, List.mem_of_getElem? present, same⟩
      · exact (Int64.ofNat_lt_iff_lt (by omega) (by omega)).mpr bounds.1
      · exact (Int64.ofNat_le_iff_le (by omega) (by omega)).mpr (by omega)
  · refine List.pairwise_filterMap.mpr ((runs_pairwise _ 0).imp_of_mem ?_)
    rintro ⟨first, last, p⟩ ⟨start, stop, q⟩ listed also order region made other next
    cases p with
    | none => cases made
    | some p =>
      cases q with
      | none => cases next
      | some q =>
        cases made
        cases next
        have bounds := runs_bound listed
        have after := runs_bound also
        exact (Int64.ofNat_le_iff_le (by omega) (by omega)).mpr order

theorem build_maximal (b : Builder) (small : b.emitted.size < 2 ^ 63) {first second : Protected}
    (one : first ∈ b.build.regions) (two : second ∈ b.build.regions)
    (adjacent : first.stop = second.start) :
    ¬ (first.handler = second.handler ∧ first.depth = second.depth) := by
  have length : (b.emitted.toList.map Emitted.protection).length = b.emitted.size := by simp
  obtain ⟨⟨start, stop, p⟩, listed, made⟩ := List.mem_filterMap.mp one
  obtain ⟨⟨next, last, q⟩, also, other⟩ := List.mem_filterMap.mp two
  cases p with
  | none => cases made
  | some p =>
    cases q with
    | none => cases other
    | some q =>
      cases made
      cases other
      have bounds := runs_bound listed
      have after := runs_bound also
      obtain rfl : stop = next := by
        have same := congrArg Int64.toInt adjacent
        dsimp only at same
        rw [Int64.toInt_ofNat_of_lt (by omega), Int64.toInt_ofNat_of_lt (by omega)] at same
        omega
      have protects := (runs_sound also (Nat.le_refl stop) after.1).2
      rintro ⟨handler, depth⟩
      have equal : p = q := by
        cases p
        cases q
        simp only [Protection.mk.injEq]
        exact ⟨handler, depth⟩
      exact runs_maximal listed (equal ▸ protects)

/-- The labels that operations define, in their order. -/
def labelsOf (operations : List Operation) : List Label :=
  operations.filterMap fun
    | .label id => some id
    | _ => none

theorem labelsOf_append (first second : List Operation) :
    labelsOf (first ++ second) = labelsOf first ++ labelsOf second := by
  simp [labelsOf]

theorem mem_labelsOf {operations : List Operation} {label : Label} :
    label ∈ labelsOf operations ↔ Operation.label label ∈ operations := by
  simp only [labelsOf, List.mem_filterMap]
  constructor
  · rintro ⟨o, member, found⟩
    split at found <;> cases found
    exact member
  · exact fun member => ⟨_, member, rfl⟩

/-- The label that is found is defined where it is found. -/
theorem findLabel_some {ops : Array Operation} {label : Label} {n k : Nat}
    (found : Routine.findLabel ops label n = some k) : k < n ∧ ops[k]? = some (.label label) := by
  induction n with
  | zero => cases found
  | succ n ih =>
    rw [Routine.findLabel] at found
    split at found
    · next id present =>
      split at found
      · next same =>
        cases found
        have equal : id = label := by simpa using same
        exact ⟨Nat.lt_succ_self _, equal ▸ present⟩
      · have spec := ih found
        exact ⟨by omega, spec.2⟩
    · have spec := ih found
      exact ⟨by omega, spec.2⟩

theorem findLabel_isSome {ops : Array Operation} {label : Label} {n k : Nat} (below : k < n)
    (defined : ops[k]? = some (.label label)) : (Routine.findLabel ops label n).isSome := by
  induction n with
  | zero => omega
  | succ n ih =>
    rw [Routine.findLabel]
    by_cases here : k = n
    · subst here
      rw [defined]
      simp
    · have later := ih (by omega)
      split
      · split
        · rfl
        · exact later
      · exact later

private theorem unique_of_nodup {operations : List Operation} (nodup : (labelsOf operations).Nodup)
    {label : Label} {j k : Nat} (first : operations[j]? = some (.label label))
    (second : operations[k]? = some (.label label)) : j = k := by
  induction operations generalizing j k with
  | nil => cases first
  | cons o rest ih =>
    have tail : (labelsOf rest).Nodup := by
      rw [show o :: rest = [o] ++ rest from rfl, labelsOf_append] at nodup
      exact (List.nodup_append.mp nodup).2.1
    have apart : ∀ i : Nat, o = .label label → rest[i]? ≠ some (.label label) := by
      rintro i rfl present
      rw [show Operation.label label :: rest = [Operation.label label] ++ rest from rfl,
        labelsOf_append] at nodup
      exact (List.nodup_append.mp nodup).2.2 label (by simp [labelsOf]) label
        (mem_labelsOf.mpr (List.mem_of_getElem? present)) rfl
    cases j with
    | zero =>
      cases k with
      | zero => rfl
      | succ k =>
        simp only [List.getElem?_cons_zero, Option.some.injEq] at first
        exact absurd second (apart k first)
    | succ j =>
      cases k with
      | zero =>
        simp only [List.getElem?_cons_zero, Option.some.injEq] at second
        exact absurd first (apart j second)
      | succ k => rw [ih tail first second]

/-- A label that is defined only once is found where it is defined. -/
theorem labelIndex?_of_nodup {r : Routine} (nodup : (labelsOf r.ops.toList).Nodup) {label : Label}
    {k : Nat} (defined : r.ops[k]? = some (.label label)) : r.labelIndex? label = some k := by
  have inside := (Array.getElem?_eq_some_iff.mp defined).1
  obtain ⟨j, found⟩ := Option.isSome_iff_exists.mp (findLabel_isSome inside defined)
  obtain ⟨_, present⟩ := findLabel_some found
  have same : j = k :=
    unique_of_nodup nodup (by simpa using present) (by simpa using defined)
  rw [Routine.labelIndex?, found, same]

end Lowering.Proofs
