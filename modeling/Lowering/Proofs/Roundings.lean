import Mathlib
import Lowering.Decimal.Nearest
import Lowering.Machine.Arithmetic

/-! Integers as double-precision numbers. A number of this precision has 53 significant binary digits, so that
an integer is rounded to the nearest one, a tie going to the even one, and integers of up to 53 digits are
kept. The order of the numbers is the order of the rounded integers. -/

namespace Lowering.Proofs
open Decimal (roundedQuotient)
open Float.Model (Format UnpackedFloat totalExponent)
open Float.Model.UnpackedFloat

private theorem roundedQuotient_bounds (m den : Nat) :
    m / den ≤ roundedQuotient m den ∧ roundedQuotient m den ≤ m / den + 1 := by
  unfold roundedQuotient
  dsimp only
  split <;> omega

private theorem roundedQuotient_mul (q den : Nat) (positive : 0 < den) :
    roundedQuotient (q * den) den = q := by
  unfold roundedQuotient
  simp only [Nat.mul_mod_left, Nat.mul_div_cancel _ positive]
  simp
  omega

private theorem roundedQuotient_mono {a b : Nat} (less : a ≤ b) (den : Nat) :
    roundedQuotient a den ≤ roundedQuotient b den := by
  have quotients : a / den ≤ b / den := Nat.div_le_div_right less
  rcases Nat.lt_or_eq_of_le quotients with smaller | same
  · have upper := (roundedQuotient_bounds a den).2
    have lower := (roundedQuotient_bounds b den).1
    omega
  · have remainders : a % den ≤ b % den := by
      have left := Nat.div_add_mod a den
      have right := Nat.div_add_mod b den
      rw [same] at left
      omega
    unfold roundedQuotient
    simp only [same, Bool.or_eq_true, decide_eq_true_eq, Bool.and_eq_true]
    split <;> split <;> omega

private theorem roundedQuotient_scale (m den : Nat) {factor : Nat} (positive : 0 < factor) :
    roundedQuotient (m * factor) (den * factor) = roundedQuotient m den := by
  unfold roundedQuotient
  simp only [Nat.mul_div_mul_right _ _ positive, Nat.mul_mod_mul_right]
  have double : 2 * (m % den * factor) = 2 * (m % den) * factor := by ring
  simp only [double, gt_iff_lt, Nat.mul_lt_mul_right positive, Nat.mul_left_inj positive.ne']

/-- The number of 53 binary digits and an exponent that is nearest to a natural number. -/
def nearestNat (m : Nat) : Nat := roundedQuotient m (2 ^ (m.log2 - 52)) * 2 ^ (m.log2 - 52)

/-- The integer of 53 binary digits and an exponent that is nearest to an integer, a tie going to the even
one. -/
def nearest (n : Int) : Int := n.sign * nearestNat n.natAbs

private theorem nearestNat_small {m : Nat} (small : m < 2 ^ 53) : nearestNat m = m := by
  have short : m.log2 - 52 = 0 := by
    by_cases zero : m = 0
    · simp [zero]
    · have := (Nat.log2_lt zero).mpr small
      omega
  rw [nearestNat, short, Nat.pow_zero, Nat.mul_one]
  simpa using roundedQuotient_mul m 1 Nat.one_pos

private theorem quotient_bounds {m : Nat} (long : 52 ≤ m.log2) :
    2 ^ 52 ≤ roundedQuotient m (2 ^ (m.log2 - 52)) ∧
      roundedQuotient m (2 ^ (m.log2 - 52)) ≤ 2 ^ 53 := by
  have positive : m ≠ 0 := by
    rintro rfl
    simp at long
  have least := Nat.log2_self_le positive
  have most := Nat.lt_log2_self (n := m)
  have lower : 2 ^ 52 ≤ m / 2 ^ (m.log2 - 52) := by
    rw [Nat.le_div_iff_mul_le (Nat.two_pow_pos _), ← Nat.pow_add, Nat.add_sub_cancel' long]
    exact least
  have upper : m / 2 ^ (m.log2 - 52) < 2 ^ 53 := by
    rw [Nat.div_lt_iff_lt_mul (Nat.two_pow_pos _), ← Nat.pow_add,
      show 53 + (m.log2 - 52) = m.log2 + 1 by omega]
    exact most
  have bounds := roundedQuotient_bounds m (2 ^ (m.log2 - 52))
  omega

private theorem nearestNat_bounds {m : Nat} (positive : 0 < m) :
    2 ^ m.log2 ≤ nearestNat m ∧ nearestNat m ≤ 2 ^ (m.log2 + 1) := by
  rcases Nat.lt_or_ge m.log2 52 with short | long
  · have small : m < 2 ^ 53 := (Nat.log2_lt positive.ne').mp (by omega)
    rw [nearestNat_small small]
    exact ⟨Nat.log2_self_le positive.ne', Nat.lt_log2_self.le⟩
  · obtain ⟨lower, upper⟩ := quotient_bounds long
    have first := Nat.mul_le_mul_right (2 ^ (m.log2 - 52)) lower
    have last := Nat.mul_le_mul_right (2 ^ (m.log2 - 52)) upper
    rw [← Nat.pow_add, Nat.add_sub_cancel' long] at first
    rw [← Nat.pow_add, show 53 + (m.log2 - 52) = m.log2 + 1 by omega] at last
    exact ⟨first, last⟩

private theorem nearestNat_mono {a b : Nat} (less : a ≤ b) : nearestNat a ≤ nearestNat b := by
  rcases Nat.eq_zero_or_pos a with rfl | positive
  · rw [nearestNat_small (by decide)]
    exact Nat.zero_le _
  have digits : a.log2 ≤ b.log2 :=
    (Nat.le_log2 (by omega)).mpr ((Nat.log2_self_le positive.ne').trans less)
  rcases Nat.lt_or_eq_of_le digits with fewer | same
  · calc nearestNat a ≤ 2 ^ (a.log2 + 1) := (nearestNat_bounds positive).2
      _ ≤ 2 ^ b.log2 := Nat.pow_le_pow_right Nat.two_pos fewer
      _ ≤ nearestNat b := (nearestNat_bounds (positive.trans_le less)).1
  · rw [nearestNat, nearestNat, same]
    exact Nat.mul_le_mul_right _ (roundedQuotient_mono less _)

@[simp] theorem nearest_neg (n : Int) : nearest (-n) = -nearest n := by
  simp [nearest]

@[simp] theorem nearest_natCast (m : Nat) : nearest (m : Int) = nearestNat m := by
  rcases Nat.eq_zero_or_pos m with rfl | positive
  · rfl
  · rw [nearest, Int.sign_natCast_of_ne_zero positive.ne', Int.natAbs_natCast, Int.one_mul]

theorem nearest_eq {n : Int} (small : n.natAbs ≤ 2 ^ 53) : nearest n = n := by
  have kept : nearestNat n.natAbs = n.natAbs := by
    rcases Nat.lt_or_eq_of_le small with less | same
    · exact nearestNat_small less
    · rw [same]
      decide +kernel
  rw [nearest, kept, Int.sign_mul_natAbs]

theorem nearest_mono {a b : Int} (less : a ≤ b) : nearest a ≤ nearest b := by
  obtain ⟨m, rfl | rfl⟩ := a.eq_nat_or_neg <;> obtain ⟨n, rfl | rfl⟩ := b.eq_nat_or_neg <;>
    simp only [nearest_neg, nearest_natCast] at less ⊢
  · have := nearestNat_mono (show m ≤ n by omega)
    omega
  · obtain ⟨rfl, rfl⟩ : m = 0 ∧ n = 0 := by omega
    decide
  · omega
  · have := nearestNat_mono (show n ≤ m by omega)
    omega

/-- An extended mantissa holds the quotient by a power of two, and how the remainder compares with half of
it. -/
private structure Shifted (m t : Nat) (em : ExtendedMantissa) : Prop where
  quotient : em.mantissa = m / 2 ^ t
  round : em.roundBit = true ↔ 2 ^ t ≤ 2 * (m % 2 ^ t)
  sticky : em.stickyBit = true ↔ m % 2 ^ t ≠ 0 ∧ 2 * (m % 2 ^ t) ≠ 2 ^ t

private theorem Shifted.step {m t : Nat} {em : ExtendedMantissa} (shifted : Shifted m t em) :
    Shifted m (t + 1) em.shiftRightOne := by
  obtain ⟨quotient, round, sticky⟩ := shifted
  have small : m % 2 ^ t < 2 ^ t := Nat.mod_lt _ (Nat.two_pow_pos t)
  have double : 2 ^ (t + 1) = 2 ^ t * 2 := Nat.pow_succ ..
  -- The lowest digit of the quotient becomes the highest one of the remainder.
  have rest : m % 2 ^ (t + 1) = m % 2 ^ t + 2 ^ t * (m / 2 ^ t % 2) := Nat.mod_pow_succ
  have digit : m / 2 ^ t % 2 = 0 ∨ m / 2 ^ t % 2 = 1 := by omega
  constructor
  · rw [ExtendedMantissa.shiftRightOne, quotient, Nat.div_div_eq_div_mul, Nat.pow_succ]
  · rw [ExtendedMantissa.shiftRightOne, quotient, bne_iff_ne, rest, double]
    rcases digit with digit | digit <;> rw [digit] <;> omega
  · rw [ExtendedMantissa.shiftRightOne, Bool.or_eq_true, round, sticky, rest, double]
    rcases digit with digit | digit <;> rw [digit] <;> omega

private theorem shiftRight_shifted (m t : Nat) :
    Shifted m t (ExtendedMantissa.ofMantissaAndAccuracy m .exact >>> t) := by
  induction t with
  | zero =>
    have start : ExtendedMantissa.ofMantissaAndAccuracy m .exact >>> 0 = ⟨m, false, false⟩ := rfl
    rw [start]
    constructor <;> simp [Nat.mod_one]
  | succ t ih => exact ih.step

private theorem shiftRight_rounded (m t : Nat) :
    (ExtendedMantissa.ofMantissaAndAccuracy m .exact >>> t).roundedMantissa =
      roundedQuotient m (2 ^ t) := by
  obtain ⟨quotient, round, sticky⟩ := shiftRight_shifted m t
  generalize ExtendedMantissa.ofMantissaAndAccuracy m .exact >>> t = em at quotient round sticky
  obtain ⟨mantissa, roundBit, stickyBit⟩ := em
  dsimp only at quotient round sticky
  subst quotient
  simp only [roundedQuotient, ExtendedMantissa.roundedMantissa, Bool.or_eq_true, decide_eq_true_eq,
    Bool.and_eq_true]
  cases roundBit <;> cases stickyBit <;>
    simp only [ExtendedMantissa.accuracy, Accuracy.roundToNearestEven, reduceCtorEq, false_iff,
      true_iff, not_and, not_not] at round sticky ⊢ <;>
    split <;> omega

/-- An unpacked number is an integer: zero, or one whose mantissa has all 53 digits. -/
def Denotes (n : Int) : UnpackedFloat → Prop
  | .zero _ => n = 0
  | .finite s m e _ => 2 ^ 52 ≤ m ∧ m < 2 ^ 53 ∧ -52 ≤ e ∧ e ≤ 971 ∧
      s.apply (m * 2 ^ (e + 52).toNat : Nat) = n * 2 ^ 52
  | _ => False

private theorem digits_lt {m n i j : Nat} (full : 2 ^ 52 ≤ m) (most : m < 2 ^ 53) (full' : 2 ^ 52 ≤ n)
    (most' : n < 2 ^ 53) : m * 2 ^ i < n * 2 ^ j ↔ i < j ∨ i = j ∧ m < n := by
  have apart : ∀ {m n i j : Nat}, m < 2 ^ 53 → 2 ^ 52 ≤ n → i < j → m * 2 ^ i < n * 2 ^ j := by
    intro m n i j most full less
    calc m * 2 ^ i < 2 ^ 53 * 2 ^ i := Nat.mul_lt_mul_of_pos_right most (Nat.two_pow_pos i)
      _ = 2 ^ 52 * 2 ^ (i + 1) := by ring
      _ ≤ n * 2 ^ j := Nat.mul_le_mul full (Nat.pow_le_pow_right Nat.two_pos less)
  rcases Nat.lt_trichotomy i j with less | same | more
  · exact ⟨fun _ => .inl less, fun _ => apart most full' less⟩
  · subst same
    simp [Nat.mul_lt_mul_right (Nat.two_pow_pos i)]
  · have below := apart most' full more
    omega

private theorem compare_digits {m n : Nat} {i j : Int} (full : 2 ^ 52 ≤ m) (most : m < 2 ^ 53)
    (full' : 2 ^ 52 ≤ n) (most' : n < 2 ^ 53) (low : -52 ≤ i) (low' : -52 ≤ j) :
    (compare i j).then (compare m n) = .lt ↔
      (m * 2 ^ (i + 52).toNat : Nat) < n * 2 ^ (j + 52).toNat := by
  rw [digits_lt full most full' most', Ordering.then_eq_lt, Int.compare_eq_lt, Std.compare_eq_iff_eq,
    Nat.compare_eq_lt]
  omega

/-- Numbers are ordered as the integers they are. -/
theorem Denotes.lt {u v : UnpackedFloat} {a b : Int} (left : Denotes a u) (right : Denotes b v) :
    u.lt v = true ↔ a < b := by
  rw [UnpackedFloat.lt, beq_iff_eq]
  cases u with
  | notANumber | infinity => exact left.elim
  | zero s =>
    cases v with
    | notANumber | infinity => exact right.elim
    | zero t => simp [UnpackedFloat.compare, show a = 0 from left, show b = 0 from right]
    | finite t n j _ =>
      obtain ⟨full, most, low, high, value⟩ := right
      have zero : a = 0 := left
      have positive : 0 < n * 2 ^ (j + 52).toNat := Nat.mul_pos (by omega) (Nat.two_pow_pos _)
      cases t <;> simp only [UnpackedFloat.compare, Sign.apply, zero] at value ⊢ <;> simp <;> omega
  | finite s m i _ =>
    obtain ⟨full, most, low, _, value⟩ := left
    have positive : 0 < m * 2 ^ (i + 52).toNat := Nat.mul_pos (by omega) (Nat.two_pow_pos _)
    cases v with
    | notANumber | infinity => exact right.elim
    | zero t =>
      have zero : b = 0 := right
      cases s <;> simp only [UnpackedFloat.compare, Sign.apply, zero] at value ⊢ <;> simp <;> omega
    | finite t n j _ =>
      obtain ⟨full', most', low', _, value'⟩ := right
      have positive' : 0 < n * 2 ^ (j + 52).toNat := Nat.mul_pos (by omega) (Nat.two_pow_pos _)
      have upward := compare_digits full most full' most' low low'
      have downward := compare_digits full' most' full most low' low
      rw [← Int.compare_swap, ← Nat.compare_swap, ← Ordering.swap_then] at downward
      cases s with
      | positive =>
        cases t with
        | positive =>
          simp only [UnpackedFloat.compare, Sign.apply, Option.some.injEq, upward] at value value' ⊢
          omega
        | negative =>
          simp only [UnpackedFloat.compare, Sign.apply] at value value' ⊢
          exact iff_of_false (by decide) (by omega)
      | negative =>
        cases t with
        | positive =>
          simp only [UnpackedFloat.compare, Sign.apply, true_iff] at value value' ⊢
          omega
        | negative =>
          simp only [UnpackedFloat.compare, Sign.apply, Option.some.injEq, downward] at value value' ⊢
          omega

private theorem Denotes.pack {n : Int} {u : UnpackedFloat} (denotes : Denotes n u) :
    (Float.Model.pack u).unpack = u := by
  change UnpackedFloat.unpack Format.binary64 (UnpackedFloat.pack Format.binary64 u) = u
  cases u with
  | notANumber | infinity => exact denotes.elim
  | zero s => exact unpack_packedZero
  | finite s m e positive =>
    obtain ⟨full, most, low, high, _⟩ := denotes
    have digits : m.log2 + 1 = Format.binary64.mantissaBits := by
      rw [(Nat.log2_eq_iff (by omega)).mpr ⟨full, most⟩]
      rfl
    obtain ⟨biased, same⟩ : ∃ biased : Nat, (biased : Int) = e + 1075 := ⟨(e + 1075).toNat, by omega⟩
    have exponent : (e + Format.binary64.exponentBias + Format.binary64.mantissaBitsWithoutImplicit).toNat =
        biased := by
      have bias : ((Format.binary64.exponentBias : Nat) : Int) = 1023 := rfl
      have bits : ((Format.binary64.mantissaBitsWithoutImplicit : Nat) : Int) = 52 := rfl
      omega
    have room : ¬ 2 ^ Format.binary64.exponentBits ≤ biased + 1 := by
      change ¬ 2 ^ 11 ≤ biased + 1
      omega
    simp only [UnpackedFloat.pack, exponent, if_neg room, if_pos digits]
    have stored : (BitVec.ofNat 11 biased).toNat = biased := by
      rw [BitVec.toNat_ofNat]
      omega
    have ordinary : BitVec.ofNat 11 biased ≠ -1#11 ∧ BitVec.ofNat 11 biased ≠ 0#11 := by
      constructor <;> intro special <;>
        · have := congrArg BitVec.toNat special
          rw [stored] at this
          simp at this
          omega
    have fraction : (1#1 ++ BitVec.ofNat 52 m).toNat = m := by
      rw [BitVec.toNat_append, ← Nat.shiftLeft_add_eq_or_of_lt (BitVec.isLt _), BitVec.toNat_ofNat,
        Nat.shiftLeft_eq]
      simp
      omega
    unfold UnpackedFloat.unpack
    simp only [unpackExponent_packComponents, unpackMantissa_packComponents, unpackSign_packComponents]
    rw [if_neg ordinary.1, if_neg ordinary.2]
    congr 1
    · cases s <;> rfl
    · have bias : ((Format.binary64.exponentBias : Nat) : Int) = 1023 := rfl
      omega

private theorem log2_mul_pow {m : Nat} (positive : 0 < m) (s : Nat) : (m * 2 ^ s).log2 = m.log2 + s := by
  rw [Nat.log2_eq_iff (Nat.mul_pos positive (Nat.two_pow_pos s)).ne']
  have least := Nat.mul_le_mul_right (2 ^ s) (Nat.log2_self_le positive.ne')
  have most := Nat.mul_lt_mul_of_pos_right (Nat.lt_log2_self (n := m)) (Nat.two_pow_pos s)
  rw [← Nat.pow_add] at least most
  exact ⟨least, by rwa [show m.log2 + s + 1 = m.log2 + 1 + s by omega]⟩

private theorem shiftToTargetExponent_eq {m t : Nat} {e : Int} (digits : m.log2 = t + 52)
    (low : -1074 ≤ e + t) : shiftToTargetExponent Format.binary64 m e .exact =
      (ExtendedMantissa.ofMantissaAndAccuracy m .exact >>> t, e + t) := by
  have target : Format.binary64.targetExponent (totalExponent m e) = e + t := by
    have bits : ((Format.binary64.mantissaBits : Nat) : Int) = 53 := rfl
    have least : Format.binary64.minExponent = -1074 := rfl
    unfold Format.targetExponent totalExponent
    omega
  have amount : (e + t - e).toNat = t := by omega
  simp only [shiftToTargetExponent, target, shiftToExponent, amount]

private theorem roundedQuotient_value {m s t : Nat} (positive : 0 < m) (digits : m.log2 + s = t + 52) :
    roundedQuotient (m * 2 ^ s) (2 ^ t) * 2 ^ m.log2 = nearestNat m * 2 ^ 52 := by
  rcases Nat.lt_or_ge m.log2 52 with short | long
  · have small : m < 2 ^ 53 := (Nat.log2_lt positive.ne').mp (by omega)
    have whole : m * 2 ^ s = m * 2 ^ (52 - m.log2) * 2 ^ t := by
      rw [Nat.mul_assoc, ← Nat.pow_add, show 52 - m.log2 + t = s by omega]
    rw [whole, roundedQuotient_mul _ _ (Nat.two_pow_pos t), nearestNat_small small, Nat.mul_assoc,
      ← Nat.pow_add, show 52 - m.log2 + m.log2 = 52 by omega]
  · have divisor : 2 ^ t = 2 ^ (m.log2 - 52) * 2 ^ s := by
      rw [← Nat.pow_add, show m.log2 - 52 + s = t by omega]
    rw [divisor, roundedQuotient_scale _ _ (Nat.two_pow_pos s), nearestNat, Nat.mul_assoc,
      ← Nat.pow_add, show m.log2 - 52 + 52 = m.log2 by omega]

private theorem roundWithAccuracy_finite {m quotient : Nat} {e e₁ e₂ : Int} {em₁ em₂ : ExtendedMantissa}
    {s : Sign} (first : shiftToTargetExponent Format.binary64 m e .exact = (em₁, e₁))
    (rounded : em₁.roundedMantissa = quotient)
    (second : shiftToTargetExponent Format.binary64 quotient e₁ .exact = (em₂, e₂))
    (positive : 0 < em₂.mantissa) :
    roundWithAccuracy Format.binary64 s m e .exact = .finite s em₂.mantissa e₂ positive := by
  simp only [roundWithAccuracy, first, rounded, second]
  rw [dif_neg positive.ne']

private theorem roundWithAccuracy_denotes {m s : Nat} (positive : 0 < m) (small : m.log2 < 64)
    (wide : 52 ≤ m.log2 + s) :
    Denotes (nearestNat m) (roundWithAccuracy Format.binary64 .positive (m * 2 ^ s) (-s) .exact) := by
  obtain ⟨t, digits⟩ : ∃ t, m.log2 + s = t + 52 := ⟨m.log2 + s - 52, by omega⟩
  have first := shiftToTargetExponent_eq (e := -s) ((log2_mul_pow positive s).trans digits) (by omega)
  rw [show (-s + t : Int) = m.log2 - 52 by omega] at first
  have value := roundedQuotient_value positive digits
  have rounded := shiftRight_rounded (m * 2 ^ s) t
  generalize roundedQuotient (m * 2 ^ s) (2 ^ t) = quotient at value rounded
  have bounds := nearestNat_bounds positive
  have full : 2 ^ 52 ≤ quotient := by
    refine Nat.le_of_mul_le_mul_right ?_ (Nat.two_pow_pos m.log2)
    rw [value, Nat.mul_comm]
    exact Nat.mul_le_mul_right _ bounds.1
  have most : quotient ≤ 2 ^ 53 := by
    refine Nat.le_of_mul_le_mul_right ?_ (Nat.two_pow_pos m.log2)
    calc quotient * 2 ^ m.log2 = nearestNat m * 2 ^ 52 := value
      _ ≤ 2 ^ (m.log2 + 1) * 2 ^ 52 := Nat.mul_le_mul_right _ bounds.2
      _ = 2 ^ 53 * 2 ^ m.log2 := by ring
  rcases Nat.lt_or_eq_of_le most with most | carry
  · have settled : quotient.log2 = 0 + 52 := (Nat.log2_eq_iff (by omega)).mpr ⟨full, most⟩
    have second := shiftToTargetExponent_eq (e := m.log2 - 52) settled (by omega)
    have kept : (ExtendedMantissa.ofMantissaAndAccuracy quotient .exact >>> 0).mantissa = quotient := rfl
    rw [roundWithAccuracy_finite first rounded second (by omega)]
    refine ⟨full, most, by omega, by omega, ?_⟩
    rw [kept, show ((m.log2 : Int) - 52 + (0 : Nat) + 52).toNat = m.log2 by omega, value]
    rfl
  · subst carry
    have second := shiftToTargetExponent_eq (m := 2 ^ 53) (t := 1) (e := m.log2 - 52) (by decide) (by omega)
    have halved : (ExtendedMantissa.ofMantissaAndAccuracy (2 ^ 53) .exact >>> 1).mantissa = 2 ^ 52 := rfl
    rw [roundWithAccuracy_finite first rounded second (by omega)]
    refine ⟨halved.ge, halved ▸ by decide, by omega, by omega, ?_⟩
    rw [halved, show ((m.log2 : Int) - 52 + (1 : Nat) + 52).toNat = m.log2 + 1 by omega,
      show 2 ^ 52 * 2 ^ (m.log2 + 1) = 2 ^ 53 * 2 ^ m.log2 by ring, value]
    rfl

private theorem Denotes.neg {n : Int} {u : UnpackedFloat} (denotes : Denotes n u) : Denotes (-n) u.neg := by
  cases u with
  | notANumber | infinity => exact denotes.elim
  | zero s => exact Int.neg_eq_zero.mpr denotes
  | finite s m e _ =>
    obtain ⟨full, most, low, high, value⟩ := denotes
    refine ⟨full, most, low, high, ?_⟩
    rw [Int.neg_mul, ← value]
    cases s with
    | positive => rfl
    | negative => exact (Int.neg_neg _).symm

private theorem ofUInt64_denotes {m : Nat} (positive : 0 < m) (small : m < 2 ^ 53) :
    Denotes m (UnpackedFloat.ofUInt64 Format.binary64 m.toUInt64) := by
  have digits : m.log2 < 53 := (Nat.log2_lt positive.ne').mpr small
  have word : m.toUInt64.toNat = m := by
    rw [Nat.toUInt64, UInt64.toNat_ofNat']
    omega
  have sign : compare (m : Int) 0 = .gt := Int.compare_eq_gt.mpr (by omega)
  have target : Format.binary64.targetExponent (totalExponent m 0) = m.log2 - 52 := by
    have bits : ((Format.binary64.mantissaBits : Nat) : Int) = 53 := rfl
    have least : Format.binary64.minExponent = -1074 := rfl
    unfold Format.targetExponent totalExponent
    omega
  have amount : (-(m.log2 - 52) : Int).toNat = 52 - m.log2 := by omega
  have rounded := roundWithAccuracy_denotes (s := 52 - m.log2) positive (by omega) (by omega)
  rw [nearestNat_small small] at rounded
  simpa only [UnpackedFloat.ofUInt64, UnpackedFloat.ofNat, UnpackedFloat.ofInt, UnpackedFloat.normalize,
    word, sign, UnpackedFloat.round, decreaseExponent, Int.toNat_natCast, target, amount,
    Nat.shiftLeft_eq, Int.zero_sub] using rounded

private theorem one_unpack : (Float.ofBits 4607182418800017408).toModel.unpack =
    .finite .positive (2 ^ 52) (-52) (by decide) := by rfl

private theorem mul_one_denotes {m : Nat} (positive : 0 < m) (small : m < 2 ^ 53) {u : UnpackedFloat}
    (denotes : Denotes m u) : Denotes m
      (UnpackedFloat.mul Format.binary64 u (.finite .positive (2 ^ 52) (-52) (by decide))) := by
  have digits : m.log2 < 53 := (Nat.log2_lt positive.ne').mpr small
  cases u with
  | notANumber | infinity => exact denotes.elim
  | zero => exact denotes
  | finite s n e _ =>
    obtain ⟨full, most, low, high, value⟩ := denotes
    cases s with
    | negative =>
      simp only [Sign.apply] at value
      omega
    | positive =>
      have value : n * 2 ^ (e + 52).toNat = m * 2 ^ 52 := by
        simp only [Sign.apply] at value
        exact_mod_cast value
      obtain ⟨i, same⟩ : ∃ i : Nat, e = i - 52 := ⟨(e + 52).toNat, by omega⟩
      rw [show (e + 52).toNat = i by omega] at value
      have less : 2 ^ i < 2 ^ 53 := by
        refine Nat.lt_of_mul_lt_mul_left (a := 2 ^ 52) ?_
        calc 2 ^ 52 * 2 ^ i ≤ n * 2 ^ i := Nat.mul_le_mul_right _ full
          _ = m * 2 ^ 52 := value
          _ < 2 ^ 52 * 2 ^ 53 := by omega
      have short : i < 53 := (Nat.pow_lt_pow_iff_right (by decide)).mp less
      have product : n * 2 ^ 52 = m * 2 ^ (104 - i) := by
        refine Nat.eq_of_mul_eq_mul_right (Nat.two_pow_pos i) ?_
        calc n * 2 ^ 52 * 2 ^ i = n * 2 ^ i * 2 ^ 52 := by ring
          _ = m * 2 ^ 104 := by rw [value]; ring
          _ = m * 2 ^ (104 - i) * 2 ^ i := by
            rw [Nat.mul_assoc, ← Nat.pow_add, show 104 - i + i = 104 by omega]
      have rounded := roundWithAccuracy_denotes (s := 104 - i) positive (by omega) (by omega)
      rw [nearestNat_small small, ← product, show (-(104 - i : Nat) : Int) = e + -52 by omega] at rounded
      exact rounded

private theorem ofNat_denotes {m : Nat} (small : m < 2 ^ 64) :
    Denotes (nearestNat m) (Float.ofNat m).toModel.unpack := by
  rcases Nat.eq_zero_or_pos m with rfl | positive
  · have zero : (Float.ofNat 0).toModel.unpack = .zero .positive := by rfl
    rw [zero]
    rfl
  unfold Float.ofNat
  change Denotes _ (Float.ofScientific m false 0).toModel.unpack
  unfold Float.ofScientific
  split
  · next few =>
    have converted := (ofUInt64_denotes positive few.1).pack
    have denotes := mul_one_denotes positive few.1 (ofUInt64_denotes positive few.1)
    have product : (m.toUInt64.toFloat * Float.ofBits 4607182418800017408).toModel.unpack =
        (Float.Model.pack (UnpackedFloat.mul Format.binary64 (m.toUInt64.toFloat).toModel.unpack
          (Float.ofBits 4607182418800017408).toModel.unpack)).unpack := rfl
    have word : (m.toUInt64.toFloat).toModel.unpack = UnpackedFloat.ofUInt64 Format.binary64 m.toUInt64 :=
      converted
    rw [one_unpack, word, denotes.pack] at product
    rw [nearestNat_small few.1]
    exact product ▸ denotes
  · next many =>
    have long : 2 ^ 53 ≤ m := by omega
    have digits : m.log2 < 64 := (Nat.log2_lt positive.ne').mpr small
    have denotes := roundWithAccuracy_denotes (s := 53) positive digits (by omega)
    have converted : UnpackedFloat.ofScientific Format.binary64 m 0 =
        roundWithAccuracy Format.binary64 .positive (m * 2 ^ 53) (-53) .exact := by
      have above : ¬ (0 : Int) < -((2 : Int) ^ 11 + m.log2) := by omega
      have shifted : m <<< 53 * 10 ^ 0 = m * 2 ^ 53 := by rw [Nat.shiftLeft_eq, Nat.pow_zero, Nat.mul_one]
      rw [← shifted, UnpackedFloat.ofScientific, dif_neg positive.ne', if_neg (by decide), if_neg above,
        if_pos (Int.le_refl 0)]
      rfl
    have packed := denotes.pack
    change Denotes _ (Float.Model.pack (UnpackedFloat.ofScientific Format.binary64 m 0)).unpack
    rw [converted]
    exact packed.symm ▸ denotes

theorem toFloat_denotes (n : Int64) : Denotes (nearest n.toInt) (Machine.toFloat n).toModel.unpack := by
  have low := n.le_toInt
  have high := n.toInt_lt
  unfold Machine.toFloat
  generalize n.toInt = n at low high ⊢
  cases n with
  | ofNat m =>
    rw [Int.ofNat_eq_natCast] at high
    have denotes := ofNat_denotes (m := m) (by omega)
    exact (nearest_natCast m).symm ▸ denotes
  | negSucc m =>
    have denotes := (ofNat_denotes (m := m + 1) (by omega)).neg
    have packed : (Float.ofInt (.negSucc m)).toModel.unpack =
        (Float.Model.pack (Float.ofNat (m + 1)).toModel.unpack.neg).unpack := rfl
    rw [packed, denotes.pack, Int.negSucc_eq, nearest_neg]
    exact (nearest_natCast (m + 1)).symm ▸ denotes

theorem toFloat_lt (x y : Int64) :
    Machine.toFloat x < Machine.toFloat y ↔ nearest x.toInt < nearest y.toInt := by
  change Float.lt (Machine.toFloat x) (Machine.toFloat y) = true ↔ _
  rw [Float.lt, decide_eq_true_eq]
  exact (toFloat_denotes x).lt (toFloat_denotes y)

end Lowering.Proofs
