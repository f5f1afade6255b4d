import Lowering.Machine.StandardHelper
import Lowering.Proofs.Roundings

/-! Comparisons of integers. Whether two integers are the same is decided on the integers, but their order is
that of the double-precision numbers they are rounded to. So integers that are rounded to the same number are
neither less nor greater nor the same; all others, and all of up to 53 digits, are compared exactly. -/

namespace Lowering.Proofs
open Machine Guest

/-- The truth of a comparison of integers. -/
def truth : Comparison → Int → Int → Bool
  | .less, a, b => a < b
  | .lessOrEqual, a, b => a ≤ b
  | .equal, a, b => a = b
  | .notEqual, a, b => a ≠ b
  | .greater, a, b => b < a
  | .greaterOrEqual, a, b => b ≤ a

/-- Comparisons that do not ask for an order. -/
def equates : Comparison → Bool
  | .equal | .notEqual => true
  | _ => false

/-- What is compared for an integer. -/
def measured (kind : Comparison) (n : Int64) : Int :=
  if equates kind then n.toInt else nearest n.toInt

private theorem order?_int (x y : Int64) :
    order? (.int x) (.int y) = some (Ord.compare (nearest x.toInt) (nearest y.toInt)) := by
  have less := toFloat_lt x y
  have more := toFloat_lt y x
  simp only [order?, numeric?, gt_iff_lt, Option.some.injEq]
  split
  · next first => exact (Int.compare_eq_lt.mpr (less.mp first)).symm
  · next first =>
    split
    · next second => exact (Int.compare_eq_gt.mpr (more.mp second)).symm
    · next second =>
      rw [less] at first
      rw [more] at second
      exact (Std.compare_eq_iff_eq.mpr (by omega)).symm

private theorem equal?_int (h : Heap) (x y : Int64) : h.equal? (.int x) (.int y) = some (x == y) := rfl

private theorem truth_order (a b : Int) :
    (Ord.compare a b == .lt) = truth .less a b ∧ (Ord.compare a b != .gt) = truth .lessOrEqual a b ∧
      (Ord.compare a b == .gt) = truth .greater a b ∧
      (Ord.compare a b != .lt) = truth .greaterOrEqual a b := by
  refine ⟨?_, ?_, ?_, ?_⟩ <;> rw [Bool.eq_iff_iff, truth, decide_eq_true_eq]
  · rw [beq_iff_eq, Int.compare_eq_lt]
  · rw [bne_iff_ne, ne_eq, Int.compare_eq_gt, Int.not_lt]
  · rw [beq_iff_eq, Int.compare_eq_gt]
  · rw [bne_iff_ne, ne_eq, Int.compare_eq_lt, Int.not_lt]

theorem compare_int (h : Heap) (kind : Comparison) (x y : Int64) :
    Machine.compare h kind.code (.int x) (.int y) =
      give h (.bool (truth kind (measured kind x) (measured kind y))) := by
  have named : Comparison.ofCode? kind.code = some kind := by cases kind <;> rfl
  have same : (x == y) = decide (x.toInt = y.toInt) := by
    rw [Bool.eq_iff_iff, beq_iff_eq, decide_eq_true_eq, Int64.toInt_inj]
  obtain ⟨less, lessOrEqual, greater, greaterOrEqual⟩ := truth_order (nearest x.toInt) (nearest y.toInt)
  unfold Machine.compare
  rw [named, order?_int, equal?_int, same]
  cases kind with
  | equal | notEqual => simp [truth, measured, equates]
  | less => exact congrArg (fun holds => give h (.bool holds)) less
  | lessOrEqual => exact congrArg (fun holds => give h (.bool holds)) lessOrEqual
  | greater => exact congrArg (fun holds => give h (.bool holds)) greater
  | greaterOrEqual => exact congrArg (fun holds => give h (.bool holds)) greaterOrEqual

/-- Two integers that are rounded to the same number although they differ. -/
def Merged (x y : Int64) : Prop := x ≠ y ∧ nearest x.toInt = nearest y.toInt

private theorem truth_measured {x y : Int64} (apart : ¬ Merged x y) (kind : Comparison) :
    truth kind (measured kind x) (measured kind y) = truth kind x.toInt y.toInt := by
  have same : x.toInt = y.toInt ↔ nearest x.toInt = nearest y.toInt := by
    refine ⟨congrArg nearest, fun merged => ?_⟩
    by_contra other
    exact apart ⟨fun equal => other (equal ▸ rfl), merged⟩
  have upward := nearest_mono (a := x.toInt) (b := y.toInt)
  have downward := nearest_mono (a := y.toInt) (b := x.toInt)
  cases kind <;> simp only [truth, measured, equates, if_true, Bool.false_eq_true, if_false] <;>
    rw [Bool.eq_iff_iff, decide_eq_true_eq, decide_eq_true_eq] <;> omega

private theorem truth_merged {x y : Int64} (merged : Merged x y) (kind : Comparison) :
    truth kind (measured kind x) (measured kind y) =
      decide (kind = .notEqual ∨ kind = .lessOrEqual ∨ kind = .greaterOrEqual) := by
  have apart : x.toInt ≠ y.toInt := fun same => merged.1 (Int64.toInt_inj.mp same)
  cases kind <;> simp [truth, measured, equates, merged.2, apart]

private theorem small_apart {x y : Int64} (left : x.toInt.natAbs ≤ 2 ^ 53) (right : y.toInt.natAbs ≤ 2 ^ 53) :
    ¬ Merged x y := by
  rintro ⟨other, same⟩
  rw [nearest_eq left, nearest_eq right] at same
  exact other (Int64.toInt_inj.mp same)

private theorem give_bool {h : Heap} {a b : Bool} : give h (.bool a) = give h (.bool b) ↔ a = b := by
  simp [give]

private theorem truth_unique (a b : Int) :
    ∃! kind : Comparison, kind ∈ [.less, .equal, .greater] ∧ truth kind a b = true := by
  rcases Int.lt_trichotomy a b with less | same | more
  · refine ⟨.less, ⟨by simp, by simpa [truth] using less⟩, ?_⟩
    rintro kind ⟨listed, holds⟩
    cases kind <;> simp [truth] at listed holds ⊢ <;> omega
  · refine ⟨.equal, ⟨by simp, by simpa [truth] using same⟩, ?_⟩
    rintro kind ⟨listed, holds⟩
    cases kind <;> simp [truth] at listed holds ⊢ <;> omega
  · refine ⟨.greater, ⟨by simp, by simpa [truth] using more⟩, ?_⟩
    rintro kind ⟨listed, holds⟩
    cases kind <;> simp [truth] at listed holds ⊢ <;> omega

/-- Comparisons of integers are exact, and one of two integers is less or they are the same, unless the two
are merged. Integers of up to 53 digits never are. -/
theorem integers_compare (h : Heap) (x y : Int64) :
    (∀ kind : Comparison, Machine.compare h kind.code (.int x) (.int y) =
      give h (.bool (truth kind (measured kind x) (measured kind y)))) ∧
    ((∀ kind : Comparison, Machine.compare h kind.code (.int x) (.int y) =
      give h (.bool (truth kind x.toInt y.toInt))) ↔ ¬ Merged x y) ∧
    ((∃! kind : Comparison, kind ∈ [.less, .equal, .greater] ∧
      Machine.compare h kind.code (.int x) (.int y) = give h (.bool true)) ↔ ¬ Merged x y) ∧
    (Merged x y → ∀ kind : Comparison, Machine.compare h kind.code (.int x) (.int y) =
      give h (.bool (decide (kind = .notEqual ∨ kind = .lessOrEqual ∨ kind = .greaterOrEqual)))) ∧
    (x.toInt.natAbs ≤ 2 ^ 53 → y.toInt.natAbs ≤ 2 ^ 53 → ¬ Merged x y) := by
  simp only [compare_int, give_bool, true_and, implies_true]
  refine ⟨⟨fun exact_ merged => ?_, truth_measured⟩, ⟨?_, fun apart => ?_⟩, truth_merged, small_apart⟩
  · have less : true = truth .lessOrEqual x.toInt y.toInt :=
      (truth_merged merged .lessOrEqual).symm.trans (exact_ .lessOrEqual)
    have more : true = truth .greaterOrEqual x.toInt y.toInt :=
      (truth_merged merged .greaterOrEqual).symm.trans (exact_ .greaterOrEqual)
    exact merged.1 (Int64.toInt_inj.mp
      (Int.le_antisymm (of_decide_eq_true less.symm) (of_decide_eq_true more.symm)))
  · rintro ⟨kind, ⟨listed, holds⟩, _⟩ merged
    rw [truth_merged merged] at holds
    cases kind <;> simp at listed holds
  · simp only [truth_measured apart]
    exact truth_unique x.toInt y.toInt

/-- Small integers are compared exactly. -/
theorem integers_compare_small : (3 : Int64).toInt.natAbs ≤ 2 ^ 53 ∧ (-5 : Int64).toInt.natAbs ≤ 2 ^ 53 ∧
    ∀ kind : Comparison, Machine.compare {} kind.code (.int 3) (.int (-5)) =
      give {} (.bool (truth kind 3 (-5))) := by
  obtain ⟨_, exact_, _, _, small⟩ := integers_compare {} 3 (-5)
  exact ⟨by decide, by decide, exact_.mpr (small (by decide) (by decide))⟩

/-- The first integer of 54 digits that is odd is merged with the one before it. -/
theorem neighbours_merge : (9007199254740992 : Int64).toInt < (9007199254740993 : Int64).toInt ∧
    ∀ kind ∈ [Comparison.less, .equal, .greater],
      Machine.compare {} kind.code (.int 9007199254740992) (.int 9007199254740993) =
        give {} (.bool false) := by
  have merged : Merged 9007199254740992 9007199254740993 := ⟨by decide, by decide +kernel⟩
  refine ⟨by decide, fun kind listed => ?_⟩
  rw [compare_int, truth_merged merged]
  cases kind <;> simp at listed ⊢

end Lowering.Proofs
