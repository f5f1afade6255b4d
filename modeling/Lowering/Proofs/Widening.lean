import Lowering.Proofs.Conformance

/-! Widening. Where control joins, a slot may forget its known value or become an object, and a local
may become unbound. Two shapes that are unified both widen to the result, and whatever conforms to
a shape conforms to those it widens to. -/

namespace Lowering.Proofs
open Shape

/-- Lists that are related item by item have related items at each place. -/
theorem forall₂_right {α β : Type} {related : α → β → Prop} {a : List α} {b : List β}
    (all : List.Forall₂ related a b) {k : Nat} {y : β} (found : b[k]? = some y) :
    ∃ x, a[k]? = some x ∧ related x y := by
  induction all generalizing k with
  | nil => cases found
  | cons head _ ih =>
    cases k with
    | zero =>
      cases found
      exact ⟨_, rfl, head⟩
    | succ k => exact ih found

theorem forall₂_left {α β : Type} {related : α → β → Prop} {a : List α} {b : List β}
    (all : List.Forall₂ related a b) {k : Nat} {x : α} (found : a[k]? = some x) :
    ∃ y, b[k]? = some y ∧ related x y := by
  obtain ⟨y, present, holds⟩ := forall₂_right all.flip found
  exact ⟨y, present, holds⟩

/-- A known value is kept, up to agreement, or forgotten. -/
def Fades (a b : Option Known) : Prop := b = none ∨ a = b ∨ agree a b = true

theorem Fades.refl (a : Option Known) : Fades a a := .inr (.inl rfl)

theorem Fades.trans {a b c : Option Known} (first : Fades a b) (second : Fades b c) : Fades a c := by
  rcases second with none | rfl | agrees
  · exact .inl none
  · exact first
  · rcases first with rfl | rfl | before
    · cases c with
      | none => exact .inl rfl
      | some => cases agrees
    · exact .inr (.inr agrees)
    · exact .inr (.inr (agree_trans before agrees))

theorem Fades.none {c : Option Known} (fades : Fades none c) : c = none := by
  rcases fades with none | same | agrees
  · exact none
  · exact same.symm
  · cases c with
    | none => rfl
    | some => cases agrees

/-- What a slot of the stack may become. -/
inductive Widens (a : Slot) : Slot → Prop
  | fades {b : Slot} (kind : a.kind = b.kind) (region : a.region = b.region)
      (known : Fades a.known b.known) : Widens a b
  | object (free : a.region = 0) (value : a.kind.widens = true) : Widens a (.ofKind .object)

/-- What a local may become. -/
inductive LocalWidens (a : Slot) : Slot → Prop
  | fades {b : Slot} (kind : a.kind = b.kind) (region : a.region = b.region)
      (known : Fades a.known b.known) : LocalWidens a b
  | unbound : LocalWidens a (.ofKind .unbound)
  | object (bound : a.kind ≠ .unbound) : LocalWidens a (.ofKind .object)

theorem Widens.refl (a : Slot) : Widens a a := .fades rfl rfl (.refl _)

theorem LocalWidens.refl (a : Slot) : LocalWidens a a := .fades rfl rfl (.refl _)

/-- A slot of which only the kind is known stays what it is. -/
theorem faded_ofKind {kind : Kind} {c : Slot} (same : kind = c.kind) (region : 0 = c.region)
    (fades : Fades none c.known) : c = .ofKind kind := by
  obtain ⟨k, known, owner⟩ := c
  cases same
  cases region
  cases fades.none
  rfl

theorem Widens.trans {a b c : Slot} (first : Widens a b) (second : Widens b c) : Widens a c := by
  cases first with
  | fades kind region known =>
    cases second with
    | fades kind' region' known' =>
      exact .fades (kind.trans kind') (region.trans region') (known.trans known')
    | object free value => exact .object (region.trans free) (kind ▸ value)
  | object free value =>
    cases second with
    | fades kind region known =>
      rw [faded_ofKind kind region known]
      exact .object free value
    | object => exact .object free value

theorem LocalWidens.trans {a b c : Slot} (first : LocalWidens a b) (second : LocalWidens b c) :
    LocalWidens a c := by
  cases second with
  | unbound => exact .unbound
  | fades kind region known =>
    cases first with
    | fades kind' region' known' =>
      exact .fades (kind'.trans kind) (region'.trans region) (known'.trans known)
    | unbound =>
      rw [faded_ofKind kind region known]
      exact .unbound
    | object bound =>
      rw [faded_ofKind kind region known]
      exact .object bound
  | object bound =>
    cases first with
    | fades kind => exact .object (kind ▸ bound)
    | unbound => exact absurd rfl bound
    | object kept => exact .object kept

theorem Widens.region {a b : Slot} (widens : Widens a b) : a.region = b.region := by
  cases widens with
  | fades _ region => exact region
  | object free => exact free

private theorem fades_forget (a b : Slot) :
    (a.forget b).kind = a.kind ∧ (a.forget b).region = a.region ∧
      Fades a.known (a.forget b).known ∧ Fades b.known (a.forget b).known := by
  unfold Slot.forget
  split
  next agrees => exact ⟨rfl, rfl, .refl _, .inr (.inr (agree_symm agrees))⟩
  next => exact ⟨rfl, rfl, .inl rfl, .inl rfl⟩

theorem merge?_widens {a b c : Slot} (merged : a.merge? b = some c) : Widens a c ∧ Widens b c := by
  unfold Slot.merge? at merged
  split at merged
  next alike =>
    simp only [Bool.and_eq_true, beq_iff_eq] at alike
    obtain ⟨kind, region, own, other⟩ := fades_forget a b
    cases merged
    exact ⟨.fades kind.symm region.symm own,
      .fades (alike.1 ▸ kind.symm) (alike.2 ▸ region.symm) other⟩
  next =>
    split at merged
    next wide =>
      simp only [Bool.and_eq_true, beq_iff_eq] at wide
      obtain ⟨⟨⟨first, second⟩, free⟩, also⟩ := wide
      cases merged
      exact ⟨.object free first, .object also second⟩
    next => cases merged

theorem mergeLocal_widens (a b : Slot) :
    LocalWidens a (a.mergeLocal b) ∧ LocalWidens b (a.mergeLocal b) := by
  unfold Slot.mergeLocal
  split
  next alike =>
    simp only [Bool.and_eq_true, beq_iff_eq] at alike
    obtain ⟨kind, region, own, other⟩ := fades_forget a b
    exact ⟨.fades kind.symm region.symm own,
      .fades (alike.1 ▸ kind.symm) (alike.2 ▸ region.symm) other⟩
  next =>
    split
    next => exact ⟨.unbound, .unbound⟩
    next bound =>
      simp only [Bool.or_eq_true, beq_iff_eq, not_or] at bound
      exact ⟨.object bound.1, .object bound.2⟩

private theorem same_fades {a b : Slot} (same : a.same b = true) :
    b.kind = a.kind ∧ b.region = a.region ∧ Fades b.known a.known := by
  simp only [Slot.same, Bool.and_eq_true, beq_iff_eq] at same
  obtain ⟨⟨kind, region⟩, agrees⟩ := same
  exact ⟨kind.symm, region.symm, .inr (.inr (agree_symm agrees))⟩

structure ShapeWidens (s t : Stack) : Prop where
  cells : List.Forall₂ (fun a b => Widens a.slot b.slot) s.cells t.cells
  wide : s.locals.length ≤ t.locals.length
  locals : ∀ i, LocalWidens (localSlot s.locals i) (localSlot t.locals i)

private theorem widens_refl (cells : List Cell) :
    List.Forall₂ (fun a b => Widens a.slot b.slot) cells cells :=
  List.forall₂_same.mpr fun cell _ => .refl cell.slot

theorem ShapeWidens.refl (s : Stack) : ShapeWidens s s :=
  ⟨widens_refl s.cells, Nat.le_refl _, fun _ => .refl _⟩

theorem ShapeWidens.trans {s t u : Stack} (first : ShapeWidens s t) (second : ShapeWidens t u) :
    ShapeWidens s u := by
  refine ⟨?_, Nat.le_trans first.wide second.wide,
    fun i => (first.locals i).trans (second.locals i)⟩
  have cells := first.cells
  have others := second.cells
  generalize s.cells = a at cells
  generalize t.cells = b at cells others
  generalize u.cells = c at others
  induction cells generalizing c with
  | nil =>
    cases others
    exact .nil
  | cons head _ ih =>
    cases others with
    | cons later rest => exact .cons (head.trans later) (ih _ rest)

/-- Every cell was a narrower one before. -/
theorem ShapeWidens.origin {s t : Stack} (widens : ShapeWidens s t) {cell : Cell}
    (member : cell ∈ t.cells) : ∃ before ∈ s.cells, Widens before.slot cell.slot := by
  have cells := widens.cells
  generalize s.cells = a at cells ⊢
  generalize t.cells = b at cells member
  induction cells with
  | nil => cases member
  | cons head _ ih =>
    rcases List.mem_cons.mp member with rfl | below
    · exact ⟨_, List.mem_cons_self, head⟩
    · obtain ⟨before, present, kept⟩ := ih below
      exact ⟨before, List.mem_cons_of_mem _ present, kept⟩

private theorem mergeCells_widens {a b : List Cell} {slots : List Slot} {shared : List Cell}
    (stamp : Nat) (length : a.length = b.length)
    (merged : Stack.mergeCells a b = .ok (slots, shared)) :
    List.Forall₂ (fun a b => Widens a.slot b.slot) a (slots.map (Cell.mk stamp) ++ shared) ∧
      List.Forall₂ (fun a b => Widens a.slot b.slot) b (slots.map (Cell.mk stamp) ++ shared) := by
  fun_induction Stack.mergeCells a b generalizing slots shared with
  | case1 a as b bs same =>
    cases merged
    exact ⟨widens_refl _, same ▸ widens_refl _⟩
  | case2 => cases merged
  | case3 => cases merged
  | case4 a as b bs _ slot found rest sharing next ih =>
    cases merged
    obtain ⟨forth, back⟩ := ih (Nat.succ.inj length) next
    obtain ⟨left, right⟩ := merge?_widens found
    exact ⟨.cons left forth, .cons right back⟩
  | case5 a b short =>
    cases merged
    cases a with
    | nil =>
      cases b with
      | nil => exact ⟨.nil, .nil⟩
      | cons => cases length
    | cons c cs =>
      cases b with
      | nil => cases length
      | cons e es => exact absurd rfl (short c cs e es rfl)

theorem mergeLocals_slot (a b : List Slot) (i : Nat) :
    localSlot (Stack.mergeLocals a b) i = (localSlot a i).mergeLocal (localSlot b i) := by
  fun_induction Stack.mergeLocals a b generalizing i with
  | case1 b =>
    simp only [localSlot, List.getD_eq_getElem?_getD, List.getElem?_map]
    cases b[i]? <;> rfl
  | case2 a as ih =>
    cases i with
    | zero => rfl
    | succ i => exact ih i
  | case3 a as b bs ih =>
    cases i with
    | zero => rfl
    | succ i => exact ih i

theorem mergeLocals_length (a b : List Slot) :
    (Stack.mergeLocals a b).length = max a.length b.length := by
  fun_induction Stack.mergeLocals a b with
  | case1 => simp
  | case2 a as ih => simpa using ih
  | case3 a as b bs ih => simp [ih]

/-- A local of a shape after it was set. -/
theorem setLocal_slot (s : Stack) (i j : Nat) (slot : Slot) :
    localSlot (s.setLocal i slot).locals j = if j = i then slot else localSlot s.locals j := by
  simp only [localSlot, Stack.setLocal, Stack.withLocals, List.getD_eq_getElem?_getD,
    List.getElem?_set, List.length_append, List.length_take, List.length_replicate]
  by_cases same : i = j
  · subst same
    rw [if_pos rfl, if_pos (by omega), if_pos rfl]
    rfl
  · rw [if_neg same, if_neg (Ne.symm same), List.getElem?_append, List.length_take]
    by_cases inside : j < s.locals.length
    · rw [if_pos (by omega), List.getElem?_take, if_pos (by omega)]
    · rw [if_neg (by omega), List.getElem?_replicate, List.getElem?_eq_none (Nat.not_lt.mp inside)]
      split <;> rfl

theorem unify_widens {stamp : Nat} {a b c : Stack} (unified : Stack.unify stamp a b = .ok c) :
    ShapeWidens a c ∧ ShapeWidens b c := by
  unfold Stack.unify at unified
  split at unified
  · cases unified
  · next length =>
    split at unified
    · cases unified
    · next slots shared merged =>
      cases unified
      obtain ⟨forth, back⟩ := mergeCells_widens stamp (Decidable.not_not.mp length) merged
      have length := mergeLocals_length a.locals b.locals
      refine ⟨⟨forth, length ▸ Nat.le_max_left _ _, fun i => ?_⟩,
        back, length ▸ Nat.le_max_right _ _, fun i => ?_⟩
      · rw [mergeLocals_slot]
        exact (mergeLocal_widens _ _).1
      · rw [mergeLocals_slot]
        exact (mergeLocal_widens _ _).2

private theorem sameCells_widens {a b : List Cell} (same : Stack.sameCells a b = true) :
    List.Forall₂ (fun a b => Widens a.slot b.slot) b a := by
  fun_induction Stack.sameCells a b with
  | case1 a as b bs equal => exact equal ▸ widens_refl _
  | case2 a as b bs _ ih =>
    simp only [Bool.and_eq_true] at same
    obtain ⟨kind, region, known⟩ := same_fades same.1
    exact .cons (.fades kind region known) (ih same.2)
  | case3 => exact .nil
  | case4 => cases same

private theorem sameLocals_widens {a b : List Slot} (same : Stack.sameLocals a b = true) (i : Nat) :
    LocalWidens (localSlot b i) (localSlot a i) := by
  fun_induction Stack.sameLocals a b generalizing i with
  | case1 a as b bs ih =>
    simp only [Bool.and_eq_true] at same
    cases i with
    | zero =>
      obtain ⟨kind, region, known⟩ := same_fades same.1
      exact .fades kind region known
    | succ i => exact ih same.2 i
  | case2 => exact .refl _
  | case3 => cases same

private theorem sameLocals_length {a b : List Slot} (same : Stack.sameLocals a b = true) :
    b.length = a.length := by
  fun_induction Stack.sameLocals a b with
  | case1 a as b bs ih =>
    simp only [Bool.and_eq_true] at same
    exact congrArg Nat.succ (ih same.2)
  | case2 => rfl
  | case3 => cases same

/-- A shape that is the same as another one need not be replaced by it. -/
theorem same_widens {a b : Stack} (same : a.same b = true) : ShapeWidens b a := by
  simp only [Stack.same, Bool.and_eq_true] at same
  exact ⟨sameCells_widens same.1, Nat.le_of_eq (sameLocals_length same.2),
    sameLocals_widens same.2⟩

private theorem Fades.refines {a b : Slot} (kind : a.kind = b.kind) (known : Fades a.known b.known) :
    Refines a b := by
  rcases known with none | same | agrees
  · intro v conforms
    refine ⟨kind ▸ conforms.kind, fun k found => ?_⟩
    rw [none] at found
    cases found
  · exact fun v conforms => conforms.congr kind same
  · exact (refines_of_agree kind agrees).1

private theorem Widens.refines {a b : Slot} (widens : Widens a b) :
    Refines a b ∧ a.region = b.region := by
  refine ⟨?_, widens.region⟩
  cases widens with
  | fades kind _ known => exact known.refines kind
  | object => exact refines_object a

private theorem LocalWidens.refines {a b : Slot} (widens : LocalWidens a b) : LocalRefines a b := by
  rintro v (unbound | ⟨present, conforms⟩)
  · cases widens with
    | fades kind => exact .inl (kind ▸ unbound)
    | unbound => exact .inl rfl
    | object bound => exact absurd unbound bound
  · cases widens with
    | fades kind _ known => exact .inr ⟨present, known.refines kind v conforms⟩
    | unbound => exact .inl rfl
    | object => exact .inr ⟨present, refines_object a v conforms⟩

theorem ShapeWidens.refines {s t : Stack} (widens : ShapeWidens s t) : ShapeRefines s t :=
  ⟨widens.cells.imp fun _ _ cell => cell.refines, fun i => (widens.locals i).refines⟩

end Lowering.Proofs
