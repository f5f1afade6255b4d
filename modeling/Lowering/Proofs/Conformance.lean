import Mathlib
import Lowering.Shape.Stack

/-! What slots say about run-time values, and when one slot says no more than another. -/

namespace Lowering.Proofs
open Shape

/-- A kind names the type of a value. Locals that may be unbound, objects and saved exceptions may
be anything. -/
def admits : Kind → Value → Bool
  | .unbound, _ | .object, _ | .prevException, _ => true
  | .int, .int _ | .lasti, .int _ => true
  | .float, .float _ | .bool, .bool _ | .str, .str _ | .none, .none | .null, .null => true
  | .tuple, .tuple _ | .excTraceback, .tuple _ => true
  | .list, .list _ | .iterator, .iterator _ | .excType, .cls _ => true
  | .excValue, .exception _ | .exception, .exception _ => true
  | _, _ => false

/-- A value is the known one. All that is no number is alike. -/
def isKnown : Known → Value → Bool
  | .bool a, .bool b => a == b
  | .int a, .int b => a == b
  | .float a, .float b => a == b || a.isNaN && b.isNaN
  | .str a, .str b => a == b
  | _, _ => false

/-- A value on the stack is what its slot says. -/
structure Conforms (v : Value) (s : Slot) : Prop where
  kind : admits s.kind v = true
  known : ∀ k, s.known = some k → isKnown k v = true

/-- A local is what its slot says: nothing when the slot is unbound, else a bound value. -/
def LocalConforms (v : Value) (s : Slot) : Prop :=
  s.kind = .unbound ∨ v ≠ .unbound ∧ Conforms v s

/-- What conforms to the first slot conforms to the second. -/
def Refines (a b : Slot) : Prop := ∀ v, Conforms v a → Conforms v b

def LocalRefines (a b : Slot) : Prop := ∀ v, LocalConforms v a → LocalConforms v b

theorem Refines.refl (a : Slot) : Refines a a := fun _ conforms => conforms

theorem Refines.trans {a b c : Slot} (first : Refines a b) (second : Refines b c) : Refines a c :=
  fun v conforms => second v (first v conforms)

theorem refines_object (a : Slot) : Refines a (.ofKind .object) :=
  fun _ _ => ⟨rfl, nofun⟩

theorem localRefines_unbound (a : Slot) : LocalRefines a (.ofKind .unbound) :=
  fun _ _ => .inl rfl

/-- The region that owns a slot says nothing about its value. -/
theorem Conforms.congr {v : Value} {a b : Slot} (conforms : Conforms v a) (kind : a.kind = b.kind)
    (known : a.known = b.known) : Conforms v b :=
  ⟨kind ▸ conforms.kind, fun k found => conforms.known k (known ▸ found)⟩

open Float.Model in
private theorem compare_eq {a b : UnpackedFloat} (same : a.compare b = some .eq) :
    ((∃ s, a = .zero s) ∧ ∃ s, b = .zero s) ∨ (a = b ∧ a ≠ .notANumber) := by
  cases a with
  | notANumber => cases same
  | zero s =>
    cases b with
    | zero t => exact .inl ⟨⟨s, rfl⟩, t, rfl⟩
    | notANumber => cases same
    | infinity t => cases t <;> cases same
    | finite t => cases t <;> cases same
  | infinity s =>
    cases b with
    | infinity t =>
      cases s <;> cases t <;> first | exact .inr ⟨rfl, nofun⟩ | exact absurd same (by decide)
    | notANumber | zero | finite => cases s <;> cases same
  | finite s m e positive =>
    cases b with
    | notANumber => cases same
    | zero t => cases s <;> cases same
    | infinity t => cases t <;> cases s <;> cases same
    | finite t n f also =>
      cases s <;> cases t <;> simp [UnpackedFloat.compare, Ordering.then_eq_eq] at same ⊢
      all_goals exact ⟨same.2, same.1⟩

private theorem beq_iff {x y : Float} :
    (x == y) = true ↔ x.toModel.unpack.compare y.toModel.unpack = some .eq := by
  change (x.toModel.unpack.compare y.toModel.unpack == some .eq) = true ↔ _
  exact beq_iff_eq

private theorem float_euclidean {x y z : Float} (first : (x == y) = true)
    (second : (x == z) = true) : (y == z) = true := by
  rw [beq_iff] at first second ⊢
  rcases compare_eq first with ⟨⟨s, zero⟩, t, also⟩ | ⟨same, number⟩
  · rcases compare_eq second with ⟨_, u, third⟩ | ⟨same, _⟩
    · rw [also, third]
      rfl
    · rw [also, ← same, zero]
      rfl
  · rwa [← same]

private theorem float_number {x y : Float} (same : (x == y) = true) : x.isNaN = false := by
  rw [beq_iff] at same
  change x.toModel.unpack.isNaN = false
  rcases compare_eq same with ⟨⟨s, zero⟩, _⟩ | ⟨_, number⟩
  · rw [zero]
    rfl
  · cases form : x.toModel.unpack with
    | notANumber => exact absurd form number
    | infinity | zero | finite => rfl

/-- A float is known as itself, number or not. -/
theorem isKnown_float (x : Float) : isKnown (.float x) (.float x) = true := by
  have either : x.isNaN = true ∨ (x == x) = true := by
    rw [beq_iff]
    change x.toModel.unpack.isNaN = true ∨ _
    cases x.toModel.unpack with
    | notANumber => exact .inl rfl
    | zero => exact .inr rfl
    | infinity s => cases s <;> exact .inr rfl
    | finite s m e =>
      cases s <;> exact .inr (by simp [Float.Model.UnpackedFloat.compare])
  change (x == x || x.isNaN && x.isNaN) = true
  rcases either with none | same
  · rw [none, Bool.and_self, Bool.or_true]
  · rw [same, Bool.true_or]

private theorem agrees_cases {j k : Known} (agree : j.agrees k = true) :
    (∃ x y : Float, j = .float x ∧ k = .float y ∧ (x == y) = true) ∨ j = k := by
  unfold Known.agrees at agree
  split at agree
  · exact .inr (congrArg _ (beq_iff_eq.mp agree))
  · exact .inr (congrArg _ (beq_iff_eq.mp agree))
  · exact .inl ⟨_, _, rfl, rfl, agree⟩
  · exact .inr (congrArg _ (beq_iff_eq.mp agree))
  · cases agree

private theorem float_reflexive {x y : Float} (same : (x == y) = true) : (x == x) = true := by
  rw [beq_iff] at same ⊢
  rcases compare_eq same with ⟨⟨s, zero⟩, _⟩ | ⟨alike, _⟩
  · rw [zero]
    rfl
  · rwa [← alike] at same

theorem agrees_left {j k : Known} (agrees : j.agrees k = true) : j.agrees j = true := by
  rcases agrees_cases agrees with ⟨x, y, rfl, rfl, same⟩ | rfl
  · exact float_reflexive same
  · exact agrees

theorem agrees_euclidean {j k l : Known} (first : j.agrees k = true) (second : j.agrees l = true) :
    k.agrees l = true := by
  rcases agrees_cases first with ⟨x, y, rfl, rfl, same⟩ | rfl
  · rcases agrees_cases second with ⟨x', z, own, rfl, also⟩ | rfl
    · cases own
      exact float_euclidean same also
    · exact float_euclidean same (float_reflexive same)
  · exact second

theorem agree_left {a b : Option Known} (agrees : agree a b = true) : agree a a = true := by
  cases a with
  | none => rfl
  | some j =>
    cases b with
    | none => cases agrees
    | some k => exact agrees_left agrees

theorem agree_euclidean {a b c : Option Known} (first : agree a b = true)
    (second : agree a c = true) : agree b c = true := by
  cases a with
  | none =>
    cases b with
    | none => exact second
    | some => cases first
  | some =>
    cases b with
    | none => cases first
    | some =>
      cases c with
      | none => cases second
      | some => exact agrees_euclidean first second

theorem agree_symm {a b : Option Known} (agrees : agree a b = true) : agree b a = true :=
  agree_euclidean agrees (agree_left agrees)

theorem agree_trans {a b c : Option Known} (first : agree a b = true) (second : agree b c = true) :
    agree a c = true :=
  agree_euclidean (agree_symm first) second

theorem isKnown_of_agrees {j k : Known} {v : Value} (agree : j.agrees k = true) :
    isKnown j v = true ↔ isKnown k v = true := by
  rcases agrees_cases agree with ⟨x, y, rfl, rfl, same⟩ | rfl
  · have own := float_reflexive same
    have back := float_euclidean same own
    cases v with
    | float z =>
      change (x == z || x.isNaN && z.isNaN) = true ↔ (y == z || y.isNaN && z.isNaN) = true
      simp only [float_number same, float_number back, Bool.false_and, Bool.or_false]
      exact ⟨fun equal => float_euclidean same equal, fun equal => float_euclidean back equal⟩
    | _ => rfl
  · rfl

theorem refines_of_agree {a b : Slot} (kind : a.kind = b.kind)
    (agree : agree a.known b.known = true) : Refines a b ∧ Refines b a := by
  cases first : a.known with
  | none =>
    cases second : b.known with
    | none =>
      exact ⟨fun v conforms => conforms.congr kind (first.trans second.symm),
        fun v conforms => conforms.congr kind.symm (second.trans first.symm)⟩
    | some k =>
      rw [first, second] at agree
      cases agree
  | some j =>
    cases second : b.known with
    | none =>
      rw [first, second] at agree
      cases agree
    | some k =>
      rw [first, second] at agree
      constructor
      · intro v conforms
        refine ⟨kind ▸ conforms.kind, fun known found => ?_⟩
        rw [second] at found
        cases found
        exact (isKnown_of_agrees agree).mp (conforms.known j first)
      · intro v conforms
        refine ⟨kind ▸ conforms.kind, fun known found => ?_⟩
        rw [first] at found
        cases found
        exact (isKnown_of_agrees agree).mpr (conforms.known k second)

/-- A cell keeps its owner when its slot is refined. -/
def CellRefines (a b : Cell) : Prop := Refines a.slot b.slot ∧ a.slot.region = b.slot.region

/-- A local by its number; those that a shape does not list are unbound. -/
def localSlot (locals : List Slot) (i : Nat) : Slot := locals.getD i (.ofKind .unbound)

/-- What conforms to the first shape conforms to the second, and the owners are the same. -/
structure ShapeRefines (s t : Stack) : Prop where
  cells : List.Forall₂ CellRefines s.cells t.cells
  locals : ∀ i, LocalRefines (localSlot s.locals i) (localSlot t.locals i)

end Lowering.Proofs
