import Lowering.Proofs.Confluence

/-! Joins. Widening is an order up to sameness, and unifying two shapes gives the least one that both widen
to, where there is any. So the order in which shapes are unified does not matter, and neither does how
their stacks are shared. -/

namespace Lowering.Proofs
open Shape

theorem Loosens.widens {a b : Slot} (loosens : Loosens (·.widens = true) a b) : Widens a b := by
  cases loosens with
  | fades kind region known => exact .fades kind region known
  | object free value => exact .object free value

theorem LocalLoosens.widens {may : Kind → Prop} (latitude : Latitude may) {a b : Slot}
    (loosens : LocalLoosens may a b) : LocalWidens a b := by
  cases loosens with
  | fades kind region known => exact .fades kind region known
  | unbound => exact .unbound
  | object value => exact .object fun unbound => latitude.bound (unbound ▸ value)

theorem ShapeLoosens.widens {s t : Stack} (loosens : ShapeLoosens (·.widens = true) s t) :
    ShapeWidens s t :=
  ⟨List.Forall₂.imp (fun _ _ cell => cell.widens) loosens.cells, loosens.wide,
    fun i => (loosens.locals i).widens fine⟩

private theorem LocalWidens.coarsened {a b : Slot} (widens : LocalWidens a b) :
    LocalLoosens (· ≠ .unbound) a b :=
  widens.loosens coarse ((Decidable.em _).imp_right .inl)

private theorem ShapeWidens.refined {s t : Stack} (widens : ShapeWidens s t) :
    CellsLoosen (·.widens = true) s.cells t.cells :=
  widens.cells.imp fun _ _ cell => cell.loosens fine

/-- Shapes that widen to a third one unify to one that widens to it. -/
theorem ShapeWidens.least {a b c : Stack} (firm : Firm c) (first : ShapeWidens a c)
    (second : ShapeWidens b c) (stamp : Nat) :
    ∃ merged, Stack.unify stamp a b = .ok merged ∧ ShapeWidens merged c := by
  have cells := mergeCells_loosens stamp firm.cells first.refined second.refined
  have depth : a.depth = b.depth := first.cells.length_eq.trans second.cells.length_eq.symm
  unfold Stack.unify
  rw [if_neg (by simpa using depth)]
  cases result : Stack.mergeCells a.cells b.cells with
  | error e =>
    rw [result] at cells
    obtain ⟨_, kind, wide, narrow⟩ := cells
    cases wide.symm.trans narrow
  | ok merged =>
    rw [result] at cells
    refine ⟨_, rfl, cells.imp fun _ _ cell => cell.widens, ?_, fun i => ?_⟩
    · rw [mergeLocals_length]
      exact Nat.max_le.mpr ⟨first.wide, second.wide⟩
    · rw [mergeLocals_slot]
      have merged := mergeLocal_loosens coarse (steady_local firm.locals i) (first.locals i).coarsened
        (second.locals i).coarsened
      exact merged.widens coarse

/-- Shapes that widen to each other are the same. -/
theorem ShapeWidens.same {s t : Stack} (firm : Firm t) (forth : ShapeWidens s t)
    (back : ShapeWidens t s) : s.same t = true := by
  rw [Stack.same, Bool.and_eq_true]
  refine ⟨forth.refined.same firm.cells back.refined,
    sameLocals_of_slots (Nat.le_antisymm forth.wide back.wide) fun i => ?_⟩
  exact (forth.locals i).coarsened.same coarse (steady_local firm.locals i) (back.locals i).coarsened

theorem slot_same_symm {a b : Slot} (same : a.same b = true) : b.same a = true := by
  simp only [Slot.same, Bool.and_eq_true, beq_iff_eq] at same ⊢
  exact ⟨⟨same.1.1.symm, same.1.2.symm⟩, agree_symm same.2⟩

private theorem sameCells_symm {a b : List Cell} (same : Stack.sameCells a b = true) :
    Stack.sameCells b a = true := by
  fun_induction Stack.sameCells a b with
  | case1 a as b bs equal => simp [Stack.sameCells, equal]
  | case2 a as b bs apart ih =>
    rw [Bool.and_eq_true] at same
    rw [Stack.sameCells, if_neg (Ne.symm apart), Bool.and_eq_true]
    exact ⟨slot_same_symm same.1, ih same.2⟩
  | case3 => rfl
  | case4 => cases same

private theorem sameLocals_symm {a b : List Slot} (same : Stack.sameLocals a b = true) :
    Stack.sameLocals b a = true := by
  fun_induction Stack.sameLocals a b with
  | case1 a as b bs ih =>
    rw [Bool.and_eq_true] at same
    rw [Stack.sameLocals, Bool.and_eq_true]
    exact ⟨slot_same_symm same.1, ih same.2⟩
  | case2 => rfl
  | case3 => cases same

theorem same_symm {a b : Stack} (same : a.same b = true) : b.same a = true := by
  rw [Stack.same, Bool.and_eq_true] at same ⊢
  exact ⟨sameCells_symm same.1, sameLocals_symm same.2⟩

/-- Slots that do not merge: they differ in kind or region, and are not both free values. -/
def Repels (a b : Slot) : Prop :=
  (a.kind ≠ b.kind ∨ a.region ≠ b.region) ∧
    ¬ ((a.region = 0 ∧ a.kind.widens = true) ∧ b.region = 0 ∧ b.kind.widens = true)

private theorem merge?_none {a b : Slot} : a.merge? b = none ↔ Repels a b := by
  unfold Slot.merge? Repels
  by_cases alike : a.kind = b.kind ∧ a.region = b.region
  · rw [if_pos (by simpa using alike)]
    refine ⟨nofun, fun ⟨differ, _⟩ => ?_⟩
    rcases differ with kind | region
    · exact absurd alike.1 kind
    · exact absurd alike.2 region
  · rw [if_neg (by simpa using alike)]
    have differ : a.kind ≠ b.kind ∨ a.region ≠ b.region := not_and_or.mp alike
    split
    next wide =>
      simp only [Bool.and_eq_true, beq_iff_eq] at wide
      exact ⟨nofun, fun ⟨_, apart⟩ => absurd ⟨⟨wide.1.2, wide.1.1.1⟩, wide.2, wide.1.1.2⟩ apart⟩
    next narrow =>
      simp only [Bool.and_eq_true, beq_iff_eq] at narrow
      exact ⟨fun _ => ⟨differ, fun wide => narrow ⟨⟨⟨wide.1.2, wide.2.2⟩, wide.1.1⟩, wide.2.1⟩⟩,
        fun _ => rfl⟩

private theorem repels_irrefl (a : Slot) : ¬ Repels a a := by
  rintro ⟨kind | region, _⟩
  · exact kind rfl
  · exact region rfl

/-- Some position of two stacks holds slots that do not merge. -/
def Clashes (a b : List Cell) : Prop :=
  ∃ (k : Nat) (x y : Cell), a[k]? = some x ∧ b[k]? = some y ∧ Repels x.slot y.slot

private theorem clashes_cons {x y : Cell} {a b : List Cell} :
    Clashes (x :: a) (y :: b) ↔ Repels x.slot y.slot ∨ Clashes a b := by
  constructor
  · rintro ⟨k, v, w, first, second, apart⟩
    cases k with
    | zero =>
      cases first
      cases second
      exact .inl apart
    | succ k => exact .inr ⟨k, v, w, first, second, apart⟩
  · rintro (apart | ⟨k, v, w, first, second, apart⟩)
    · exact ⟨0, x, y, rfl, rfl, apart⟩
    · exact ⟨k + 1, v, w, first, second, apart⟩

private theorem clashes_irrefl (a : List Cell) : ¬ Clashes a a := by
  rintro ⟨k, x, y, first, second, apart⟩
  cases first.symm.trans second
  exact repels_irrefl _ apart

private theorem mergeCells_clashes (a b : List Cell) (length : a.length = b.length) :
    (∃ e, Stack.mergeCells a b = .error e) ↔ Clashes a b := by
  induction a generalizing b with
  | nil =>
    cases b with
    | nil => simp [Stack.mergeCells, clashes_irrefl]
    | cons => cases length
  | cons x a ih =>
    cases b with
    | nil => cases length
    | cons y b =>
      rw [Stack.mergeCells]
      by_cases shared : x :: a = y :: b
      · rw [if_pos shared, ← shared]
        simp [clashes_irrefl]
      · rw [if_neg shared, clashes_cons, ← ih b (Nat.succ.inj length), ← merge?_none]
        cases x.slot.merge? y.slot with
        | none => exact ⟨fun _ => .inl rfl, fun _ => ⟨_, rfl⟩⟩
        | some slot =>
          cases Stack.mergeCells a b with
          | error e => exact ⟨fun _ => .inr ⟨e, rfl⟩, fun _ => ⟨e, rfl⟩⟩
          | ok => simp

private theorem unify_clashes (stamp : Nat) (a b : Stack) :
    (∃ fault, Stack.unify stamp a b = .error fault) ↔
      a.depth ≠ b.depth ∨ Clashes a.cells b.cells := by
  unfold Stack.unify
  by_cases depth : a.depth = b.depth
  · rw [if_neg (by simpa using depth), ← mergeCells_clashes _ _ depth]
    cases Stack.mergeCells a.cells b.cells with
    | error e => exact ⟨fun _ => .inr ⟨e, rfl⟩, fun _ => ⟨_, rfl⟩⟩
    | ok => simp [depth]
  · rw [if_pos depth]
    exact ⟨fun _ => .inl depth, fun _ => ⟨_, rfl⟩⟩

/-- Nothing known, or a scalar that is not NaN. -/
def Comparable : Option Known → Prop
  | none | some (.bool _) | some (.int _) | some (.str _) => True
  | some (.float x) => x.isNaN = false
  | some (.other _) => False

structure AllComparable (s : Stack) : Prop where
  cells : ∀ cell ∈ s.cells, Comparable cell.slot.known
  locals : ∀ slot ∈ s.locals, Comparable slot.known

private theorem Comparable.steady {slot : Slot} (comparable : Comparable slot.known) : Steady slot := by
  unfold Steady
  generalize slot.known = known at comparable
  cases known with
  | none => rfl
  | some known =>
    cases known with
    | float x => exact steady_number comparable
    | other => exact absurd comparable id
    | bool | int | str => simp [agree, Known.agrees]

theorem AllComparable.firm {s : Stack} (comparable : AllComparable s) : Firm s :=
  ⟨fun cell member => (comparable.cells cell member).steady,
    fun slot member => (comparable.locals slot member).steady⟩

/-- Two attempts to unify come to the same shape, or both fail. -/
def Concur : Except Fault Stack → Except Fault Stack → Prop
  | .ok s, .ok t => s.same t = true
  | .error _, .error _ => True
  | _, _ => False

/-- Unifying a shape with another one gives the first one back. -/
def Absorbs (stamp : Nat) (s t : Stack) : Prop :=
  ∃ merged, Stack.unify stamp s t = .ok merged ∧ merged.same s = true

private theorem Concur.intro {r q : Except Fault Stack}
    (forth : ∀ s, r = .ok s → ∃ t, q = .ok t ∧ ShapeWidens t s)
    (back : ∀ t, q = .ok t → Firm t ∧ ∃ s, r = .ok s ∧ ShapeWidens s t) : Concur r q := by
  cases q with
  | ok t =>
    obtain ⟨firm, s, rfl, below⟩ := back t rfl
    obtain ⟨_, same, above⟩ := forth s rfl
    cases same
    exact below.same firm above
  | error =>
    cases r with
    | ok s =>
      obtain ⟨_, found, _⟩ := forth s rfl
      cases found
    | error => trivial

private theorem absorbs_iff {stamp : Nat} {s t : Stack} (firm : Firm s) :
    Absorbs stamp s t ↔ ShapeWidens t s := by
  constructor
  · rintro ⟨merged, unified, same⟩
    exact (unify_widens unified).2.trans (same_widens (same_symm same))
  · intro widens
    obtain ⟨merged, unified, below⟩ := (ShapeWidens.refl s).least firm widens stamp
    exact ⟨merged, unified, below.same firm (unify_widens unified).1⟩

variable {a b c : Stack}

private theorem unify_commutes (firm : Firm a) (m n : Nat) :
    Concur (Stack.unify m a b) (Stack.unify n b a) := by
  apply Concur.intro
  · intro s unified
    obtain ⟨left, right⟩ := unify_widens unified
    exact right.least (left.firm firm) left n
  · intro t unified
    obtain ⟨right, left⟩ := unify_widens unified
    exact ⟨left.firm firm, left.least (left.firm firm) right m⟩

private theorem unify_associates (firm : Firm a) (k l m n : Nat) :
    Concur ((Stack.unify k a b).bind fun ab => Stack.unify l ab c)
      ((Stack.unify m b c).bind fun bc => Stack.unify n a bc) := by
  apply Concur.intro
  · intro s unified
    cases first : Stack.unify k a b with
    | error => rw [first] at unified; cases unified
    | ok ab =>
      rw [first] at unified
      obtain ⟨pair, third⟩ := unify_widens unified
      obtain ⟨left, right⟩ := unify_widens first
      have above := left.trans pair
      obtain ⟨bc, second, below⟩ := (right.trans pair).least (above.firm firm) third m
      rw [second]
      exact above.least (above.firm firm) below n
  · intro t unified
    cases second : Stack.unify m b c with
    | error => rw [second] at unified; cases unified
    | ok bc =>
      rw [second] at unified
      obtain ⟨above, pair⟩ := unify_widens unified
      obtain ⟨right, third⟩ := unify_widens second
      obtain ⟨ab, first, below⟩ := above.least (above.firm firm) (right.trans pair) k
      rw [first]
      exact ⟨above.firm firm, below.least (above.firm firm) (third.trans pair) l⟩

/-- Unifying is a partial least upper bound. Where no known value differs from itself, it is idempotent,
commutative and associative, failures included; the result absorbs both shapes, and whatever absorbs both
absorbs the result. It fails exactly where the depths differ or slots at the same position do not merge.
Nothing is asked of the second shape: what it knows beyond the first one is forgotten. -/
theorem unify_join (first : AllComparable a) (third : AllComparable c) :
    (∀ m, Concur (Stack.unify m a a) (.ok a)) ∧
    (∀ m n, Concur (Stack.unify m a b) (Stack.unify n b a)) ∧
    (∀ k l m n, Concur ((Stack.unify k a b).bind fun ab => Stack.unify l ab c)
      ((Stack.unify m b c).bind fun bc => Stack.unify n a bc)) ∧
    (∀ m ab, Stack.unify m a b = .ok ab → ∀ n, Absorbs n ab a ∧ Absorbs n ab b) ∧
    (∀ k l, Absorbs k c a → Absorbs l c b →
      ∀ m, ∃ ab, Stack.unify m a b = .ok ab ∧ ∀ n, Absorbs n c ab) ∧
    ∀ m, (∃ fault, Stack.unify m a b = .error fault) ↔
      a.depth ≠ b.depth ∨ Clashes a.cells b.cells := by
  refine ⟨fun m => ?_, unify_commutes first.firm, unify_associates first.firm, fun m ab unified n => ?_,
    fun k l left right m => ?_, fun m => unify_clashes m a b⟩
  · have own : Absorbs m a a := (absorbs_iff first.firm).mpr (.refl a)
    obtain ⟨merged, unified, same⟩ := own
    rw [unified]
    exact same
  · obtain ⟨left, right⟩ := unify_widens unified
    have firm := left.firm first.firm
    exact ⟨(absorbs_iff firm).mpr left, (absorbs_iff firm).mpr right⟩
  · rw [absorbs_iff third.firm] at left right
    obtain ⟨ab, unified, below⟩ := left.least third.firm right m
    exact ⟨ab, unified, fun n => (absorbs_iff third.firm).mpr below⟩

/-- The type of a caught exception, which two ways to a join have in common. -/
def caughtCell : Cell := ⟨1, .owned .excType 1⟩

/-- A shape with a number on top and two locals. -/
def counting : Stack := ⟨[⟨2, .int, some (.int 1), 0⟩, caughtCell], [.ofKind .object, ⟨.str, some (.str "a"), 0⟩]⟩

/-- A shape with another number on top and one local. -/
def measuring : Stack := ⟨[⟨3, .float, some (.float 1), 0⟩, caughtCell], [⟨.bool, some (.bool true), 0⟩]⟩

/-- A shape above both, which shares nothing with them. -/
def receiving : Stack := ⟨[⟨4, .ofKind .object⟩, ⟨5, .owned .excType 1⟩], [.ofKind .object, .ofKind .unbound]⟩

theorem counting_joins : AllComparable counting ∧ AllComparable receiving ∧
    Absorbs 6 receiving counting ∧ Absorbs 6 receiving measuring ∧
    ∃ both, Stack.unify 7 counting measuring = .ok both ∧ Absorbs 8 receiving both := by
  have own : AllComparable counting := by
    constructor <;> simp [counting, caughtCell, Slot.owned, Slot.ofKind, Comparable]
  have above : AllComparable receiving := by
    constructor <;> simp [receiving, Slot.owned, Slot.ofKind, Comparable]
  have left : Absorbs 6 receiving counting := ⟨_, by cbv, by cbv⟩
  have right : Absorbs 6 receiving measuring := ⟨_, by cbv, by cbv⟩
  obtain ⟨_, _, _, _, least, _⟩ := unify_join (b := measuring) own above
  obtain ⟨both, unified, absorbed⟩ := least 6 6 left right 7
  exact ⟨own, above, left, right, both, unified, absorbed 8⟩

end Lowering.Proofs
