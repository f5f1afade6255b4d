import Mathlib.Data.Rat.Floor
import Lowering.Machine.StandardHelper

/-! Division of integers. Words are divided towards zero, and the two parts are then moved to the floor: the
remainder is zero or has the sign of the divisor and is smaller. Only the quotient can wrap around, when the
least integer is divided by minus one. -/

namespace Lowering.Proofs
open Machine Guest

/-- The greatest integer that is not above a quotient. -/
def floored (x y : Int) : Int := ⌊(x : ℚ) / y⌋

/-- What may be left of a division by `y`. -/
def Residual (y r : Int) : Prop := (r = 0 ∨ r.sign = y.sign) ∧ r.natAbs < y.natAbs

private theorem residual_iff {y r : Int} : Residual y r ↔ 0 ≤ r ∧ r < y ∨ y < r ∧ r ≤ 0 := by
  unfold Residual
  rcases Int.lt_trichotomy y 0 with below | rfl | above
  · rw [Int.sign_eq_neg_one_of_neg below, Int.sign_eq_neg_one_iff_neg]
    omega
  · simp
  · rw [Int.sign_eq_one_of_pos above, Int.sign_eq_one_iff_pos]
    omega

theorem floored_unique {x y q r : Int} (parts : x = y * q + r) (left : Residual y r) : floored x y = q := by
  rw [floored, Int.floor_eq_iff]
  rcases residual_iff.mp left with ⟨low, high⟩ | ⟨low, high⟩
  · have positive : (0 : ℚ) < y := by exact_mod_cast low.trans_lt high
    rw [le_div_iff₀ positive, div_lt_iff₀ positive]
    constructor
    · exact_mod_cast (by rw [parts, Int.mul_comm]; omega : q * y ≤ x)
    · exact_mod_cast (by rw [parts, Int.add_mul, Int.mul_comm]; omega : x < (q + 1) * y)
  · have negative : (y : ℚ) < 0 := by exact_mod_cast low.trans_le high
    rw [le_div_iff_of_neg negative, div_lt_iff_of_neg negative]
    constructor
    · exact_mod_cast (by rw [parts, Int.mul_comm]; omega : x ≤ q * y)
    · exact_mod_cast (by rw [parts, Int.add_mul, Int.mul_comm]; omega : (q + 1) * y < x)

private theorem div_eq_ofInt (x y : Int64) : x / y = Int64.ofInt (x.toInt.tdiv y.toInt) := by
  rw [eq_comm, Int64.ofInt_eq_iff_bmod_eq_toInt, Int64.toInt_div]

private theorem toInt_add_apart {r y : Int64} (apart : r.toInt < 0 ↔ ¬ y.toInt < 0) :
    (r + y).toInt = r.toInt + y.toInt := by
  have first := r.le_toInt
  have second := r.toInt_lt
  have third := y.le_toInt
  have fourth := y.toInt_lt
  rw [Int64.toInt_add]
  exact Int.bmod_eq_of_le (by omega) (by omega)

theorem floorDivMod_parts (x : Int64) {y : Int64} (divisor : y ≠ 0) :
    (floorDivMod x y).1 = Int64.ofInt (floored x.toInt y.toInt) ∧
      (floorDivMod x y).2.toInt = x.toInt - y.toInt * floored x.toInt y.toInt ∧
      Residual y.toInt (floorDivMod x y).2.toInt := by
  have nonzero : y.toInt ≠ 0 := fun zero => divisor (Int64.toInt_inj.mp zero)
  have parts := Int.mul_tdiv_add_tmod x.toInt y.toInt
  have size : (x.toInt.tmod y.toInt).natAbs < y.toInt.natAbs := by
    rw [Int.natAbs_tmod]
    exact Nat.mod_lt _ (by omega)
  have rest := Int64.toInt_mod x y
  have restSign : x % y < 0 ↔ (x % y).toInt < 0 := Int64.lt_iff_toInt_lt
  have divisorSign : y < 0 ↔ y.toInt < 0 := Int64.lt_iff_toInt_lt
  have restZero : x % y = 0 ↔ (x % y).toInt = 0 := Int64.toInt_inj.symm
  -- What both cases have to show: some integral quotient whose rest is residual.
  suffices found : ∃ q, (floorDivMod x y).1 = Int64.ofInt q ∧
      x.toInt = y.toInt * q + (floorDivMod x y).2.toInt ∧ Residual y.toInt (floorDivMod x y).2.toInt by
    obtain ⟨q, quotient, whole, left⟩ := found
    rw [floored_unique whole left]
    exact ⟨quotient, by omega, left⟩
  unfold floorDivMod
  dsimp only
  split
  · next adjusted =>
    simp only [Bool.and_eq_true, bne_iff_ne, ne_eq, decide_eq_decide, restSign, divisorSign, restZero]
      at adjusted
    have apart : (x % y).toInt < 0 ↔ ¬ y.toInt < 0 := by omega
    refine ⟨x.toInt.tdiv y.toInt - 1, ?_, ?_, residual_iff.mpr ?_⟩
    · rw [div_eq_ofInt, Int64.ofInt_sub]
      rfl
    · rw [toInt_add_apart apart, rest, Int.mul_sub]
      omega
    · rw [toInt_add_apart apart]
      omega
  · next kept =>
    simp only [Bool.and_eq_true, bne_iff_ne, ne_eq, decide_eq_decide, restSign, divisorSign, restZero]
      at kept
    dsimp only
    exact ⟨x.toInt.tdiv y.toInt, div_eq_ofInt x y, by omega, residual_iff.mpr (by omega)⟩

theorem inPlace_int (h : Heap) (operator : Arithmetic) (x y : Int64) :
    binaryOperation h (operator.code + Arithmetic.inPlace) (.int x) (.int y) =
        integerOperation h operator x y ∧
      binaryOperation h operator.code (.int x) (.int y) = integerOperation h operator x y := by
  cases operator <;> exact ⟨rfl, rfl⟩

/-- Division of integers goes to the floor, and what is left is residual; division by zero raises an error;
and all operators give the same in place. -/
theorem integers_divide (h : Heap) (x y : Int64) :
    (y ≠ 0 →
      binaryOperation h Arithmetic.floorDivide.code (.int x) (.int y) =
        give h (.int (Int64.ofInt (floored x.toInt y.toInt))) ∧
      ∃ r : Int64, binaryOperation h Arithmetic.remainder.code (.int x) (.int y) = give h (.int r) ∧
        r.toInt = x.toInt - y.toInt * floored x.toInt y.toInt ∧ Residual y.toInt r.toInt) ∧
    (∀ operator ∈ [Arithmetic.floorDivide, .remainder],
      binaryOperation h operator.code (.int x) (.int 0) =
        fail h .zeroDivisionError "integer division or modulo by zero") ∧
    ∀ operator : Arithmetic,
      binaryOperation h (operator.code + Arithmetic.inPlace) (.int x) (.int y) =
        binaryOperation h operator.code (.int x) (.int y) := by
  refine ⟨fun divisor => ?_, ?_, fun operator => ?_⟩
  · obtain ⟨quotient, remainder, left⟩ := floorDivMod_parts x divisor
    have known : (y == 0) = false := beq_eq_false_iff_ne.mpr divisor
    refine ⟨?_, (floorDivMod x y).2, ?_, remainder, left⟩
    · rw [(inPlace_int h .floorDivide x y).2, integerOperation, known, quotient]
      rfl
    · rw [(inPlace_int h .remainder x y).2, integerOperation, known]
      rfl
  · simp only [List.mem_cons, List.not_mem_nil, or_false, forall_eq_or_imp, forall_eq]
    exact ⟨rfl, rfl⟩
  · rw [(inPlace_int h operator x y).1, (inPlace_int h operator x y).2]

/-- The least integer divided by minus one wraps around, and nothing is left. -/
theorem integers_divide_least : (-1 : Int64) ≠ 0 ∧
    binaryOperation {} Arithmetic.floorDivide.code (.int (-0x8000000000000000)) (.int (-1)) =
      give {} (.int (-0x8000000000000000)) ∧
    binaryOperation {} Arithmetic.remainder.code (.int (-0x8000000000000000)) (.int (-1)) =
      give {} (.int 0) := by
  obtain ⟨divides, _⟩ := integers_divide {} (-0x8000000000000000) (-1)
  obtain ⟨quotient, r, remainder, exact_, _⟩ := divides (by decide)
  have whole : floored (-0x8000000000000000 : Int64).toInt (-1 : Int64).toInt = 0x8000000000000000 :=
    floored_unique (r := 0) (by decide) (residual_iff.mpr (by decide))
  rw [whole] at quotient exact_
  have none : r = 0 := Int64.toInt_inj.mp (exact_.trans (by decide))
  exact ⟨by decide, quotient, none ▸ remainder⟩

end Lowering.Proofs
