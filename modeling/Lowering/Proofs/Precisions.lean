import Mathlib
import Lowering.Cbor.Precision

/-! Numbers of less than double precision. A number that a format can hold is the same number when it is
widened again, its sign and its zeros included. -/

namespace Lowering.Proofs
open Decimal (twoTo)
open Cbor (Precision)
open Float.Model (Format)
open Float.Model.UnpackedFloat (packComponents unpackSign unpackExponent unpackMantissa Sign)

section
variable (b : BitVec Format.binary64.numBits)

private theorem unpackSign_toNat : (unpackSign b).toNat = b.toNat / 2 ^ 63 := by
  have small : b.toNat < 2 ^ 64 := b.isLt
  change (b.toNat >>> 63) % 2 = _
  rw [Nat.shiftRight_eq_div_pow, Nat.mod_eq_of_lt (by omega)]

private theorem unpackExponent_toNat : (unpackExponent b).toNat = b.toNat / 2 ^ 52 % 2 ^ 11 := by
  change (b.toNat >>> 52) % 2 ^ 11 = _
  rw [Nat.shiftRight_eq_div_pow]

private theorem unpackMantissa_toNat : (unpackMantissa b).toNat = b.toNat % 2 ^ 52 := by
  change (b.toNat >>> 0) % 2 ^ 52 = _
  rw [Nat.shiftRight_zero]

private theorem packComponents_parts :
    packComponents Format.binary64 (.ofBitVec (unpackSign b)) (unpackExponent b) (unpackMantissa b) =
      b := by
  have sign : ∀ s : BitVec 1, (Sign.ofBitVec s).toBitVec = s := by decide
  have small : b.toNat < 2 ^ 64 := b.isLt
  apply BitVec.eq_of_toNat_eq
  rw [packComponents, sign, BitVec.toNat_append, BitVec.toNat_append,
    ← Nat.shiftLeft_add_eq_or_of_lt (unpackExponent b).isLt,
    ← Nat.shiftLeft_add_eq_or_of_lt (unpackMantissa b).isLt, unpackSign_toNat, unpackExponent_toNat,
    unpackMantissa_toNat]
  simp only [Nat.shiftLeft_eq]
  omega

private theorem pack_unpack (valid : Format.binary64.Valid b) :
    Float.Model.UnpackedFloat.pack Format.binary64 (.unpack Format.binary64 b) = b := by
  have whole := packComponents_parts b
  have wide : (unpackExponent b).toNat < 2 ^ 11 := (unpackExponent b).isLt
  have long : (unpackMantissa b).toNat < 2 ^ 52 := (unpackMantissa b).isLt
  unfold Float.Model.UnpackedFloat.unpack
  dsimp only
  split
  next ones =>
    split
    · next zero =>
      rw [ones, zero] at whole
      exact whole
    · next other => exact (valid.eq_packedNaN ones other).symm
  next low =>
    have below : (unpackExponent b).toNat ≠ 2047 := fun same => low (BitVec.eq_of_toNat_eq same)
    split
    next none =>
      rw [none] at whole
      split
      · next zero =>
        rw [zero] at whole
        exact whole
      · next other =>
        have positive : (unpackMantissa b).toNat ≠ 0 := fun zero => other (BitVec.eq_of_toNat_eq zero)
        have less := (Nat.log2_lt positive).mpr long
        have short : ¬ (unpackMantissa b).toNat.log2 + 1 = Format.binary64.mantissaBits := by
          change ¬ _ = 53
          omega
        unfold Float.Model.UnpackedFloat.pack
        dsimp only
        rw [none, if_neg (by decide), if_neg short, BitVec.ofNat_toNat, BitVec.setWidth_eq]
        exact whole
    next =>
      have value : (1#1 ++ unpackMantissa b).toNat = 2 ^ 52 + (unpackMantissa b).toNat := by
        rw [BitVec.toNat_append, ← Nat.shiftLeft_add_eq_or_of_lt (unpackMantissa b).isLt]
        rfl
      have top : (1#1 ++ unpackMantissa b).toNat.log2 = 52 := by
        rw [value]
        exact (Nat.log2_eq_iff (by omega)).mpr ⟨by omega, by omega⟩
      have biased : ((unpackExponent b).toNat - ((Format.binary64.exponentBias : Nat) + (52 : Nat)) +
          (Format.binary64.exponentBias : Nat) + (52 : Nat) : Int).toNat = (unpackExponent b).toNat := by
        omega
      have fraction : BitVec.ofNat 52 (1#1 ++ unpackMantissa b).toNat = unpackMantissa b := by
        apply BitVec.eq_of_toNat_eq
        rw [value, BitVec.toNat_ofNat]
        omega
      unfold Float.Model.UnpackedFloat.pack
      dsimp only
      rw [biased, if_neg (by omega), if_pos (by rw [top]; rfl), BitVec.ofNat_toNat,
        BitVec.setWidth_eq, fraction]
      exact whole

end

theorem float_ext {x y : Float} (same : x.toModel.unpack = y.toModel.unpack) : x = y := by
  have packed : ∀ z : Float, z = .ofModel (.pack z.toModel.unpack) := by
    rintro ⟨bits, valid⟩
    have whole := UInt64.toBitVec_inj.mp (pack_unpack bits.toBitVec valid)
    simp only [Float.Model.pack, Float.Model.unpack]
    congr 2
    exact whole.symm
  rw [packed x, same, ← packed y]

theorem ofBits_toBits (x : Float) : Float.ofBits x.toBits = x := by
  obtain ⟨⟨bits, valid⟩⟩ := x
  have whole := UInt64.toBitVec_inj.mp (pack_unpack bits.toBitVec valid)
  simp only [Float.ofBits, Float.toBits, Float.Model.ofBits, Float.Model.pack]
  congr 2

theorem nan_unique {x : Float} (nan : x.isNaN = true) : x = Float.ofBits 0x7ff8000000000001 := by
  change x.toModel.unpack.isNaN = true at nan
  apply float_ext
  cases kind : x.toModel.unpack with
  | notANumber => rfl
  | infinity | zero | finite => rw [kind] at nan; cases nan

theorem infinite_unique {x : Float} (infinite : x.isInf = true) :
    x = Float.ofBits (if x < 0 then 0xfff0000000000000 else 0x7ff0000000000000) := by
  change x.toModel.unpack.isInf = true at infinite
  have below : x < 0 ↔ x.toModel.unpack.lt (Float.toModel 0).unpack = true := by
    change Float.lt x 0 = true ↔ _
    simp only [Float.lt, decide_eq_true_eq]
    rfl
  cases kind : x.toModel.unpack with
  | infinity sign =>
    cases sign with
    | positive =>
      have above : ¬ x < 0 := by
        rw [below, kind]
        decide
      rw [if_neg above]
      exact float_ext (kind.trans rfl)
    | negative =>
      have negative : x < 0 := by
        rw [below, kind]
        rfl
      rw [if_pos negative]
      exact float_ext (kind.trans rfl)
  | notANumber | zero | finite => rw [kind] at infinite; cases infinite

private theorem twoTo_eq (n : Nat) : twoTo n = 2 ^ n := rfl

private theorem fields_of_sum {width high low s c f : Nat} (sign : s < 2) (exponent : c < 2 ^ high)
    (fraction : f < 2 ^ low) (bits : width = s * 2 ^ (high + low) + c * 2 ^ low + f) :
    width / 2 ^ (high + low) % 2 = s ∧ width / 2 ^ low % 2 ^ high = c ∧ width % 2 ^ low = f := by
  subst bits
  have whole : s * 2 ^ (high + low) + c * 2 ^ low + f = (s * 2 ^ high + c) * 2 ^ low + f := by ring
  have upper : ((s * 2 ^ high + c) * 2 ^ low + f) / 2 ^ low = s * 2 ^ high + c := by
    rw [Nat.add_comm, Nat.add_mul_div_right _ _ (Nat.two_pow_pos low), Nat.div_eq_of_lt fraction,
      Nat.zero_add]
  refine ⟨?_, ?_, ?_⟩
  · rw [whole, Nat.add_comm high, Nat.pow_add, ← Nat.div_div_eq_div_mul, upper, Nat.add_comm,
      Nat.add_mul_div_right _ _ (Nat.two_pow_pos high), Nat.div_eq_of_lt exponent, Nat.zero_add,
      Nat.mod_eq_of_lt sign]
  · rw [whole, upper, Nat.add_comm, Nat.add_mul_mod_self_right, Nat.mod_eq_of_lt exponent]
  · rw [whole, Nat.add_comm, Nat.add_mul_mod_self_right, Nat.mod_eq_of_lt fraction]

private theorem scaled_bounds {f lost m : Nat} (fraction : f < 2 ^ 52) (scaled : 2 ^ 52 + f = m * 2 ^ lost)
    (few : lost ≤ 52) : 2 ^ (52 - lost) ≤ m ∧ m < 2 ^ (52 - lost + 1) := by
  have power : (2 : Nat) ^ 52 = 2 ^ (52 - lost) * 2 ^ lost := by rw [← Nat.pow_add]; congr 1; omega
  constructor
  · apply Nat.le_of_mul_le_mul_right _ (Nat.two_pow_pos lost)
    omega
  · apply Nat.lt_of_mul_lt_mul_right (a := 2 ^ lost)
    rw [Nat.pow_succ, Nat.mul_right_comm, ← power]
    omega

private theorem doubleBits_scaled {s e f lost m : Nat} {q : Int} (fraction : f < 2 ^ 52)
    (scaled : 2 ^ 52 + f = m * 2 ^ lost) (few : lost ≤ 52) (exponent : q + (52 - lost : Nat) + 1023 = e)
    (sign : s < 2) :
    Precision.doubleBits (s = 1) m q = UInt64.ofNat (s * 2 ^ 63 + e * 2 ^ 52 + f) := by
  obtain ⟨least, most⟩ := scaled_bounds fraction scaled few
  have top : m.log2 = 52 - lost :=
    (Nat.log2_eq_iff (by have := Nat.two_pow_pos (52 - lost); omega)).mpr ⟨least, most⟩
  have back : 52 - (52 - lost) = lost := by omega
  unfold Precision.doubleBits
  simp only [twoTo_eq, top, back, exponent]
  have sum : (if decide (s = 1) then 2 ^ 63 else 0) + (e : Int).toNat * 2 ^ 52 + (m * 2 ^ lost - 2 ^ 52) =
      s * 2 ^ 63 + e * 2 ^ 52 + f := by
    rw [← scaled, Int.toNat_natCast, Nat.add_sub_cancel_left]
    rcases (by omega : s = 0 ∨ s = 1) with rfl | rfl
    · rw [if_neg (by decide), Nat.zero_mul]
    · rw [if_pos (by decide), Nat.one_mul]
  rw [sum]

private theorem toBits_parts (x : Float) : ∃ s e f, s < 2 ∧ e < 2 ^ 11 ∧ f < 2 ^ 52 ∧
    x.toBits.toNat = s * 2 ^ (11 + 52) + e * 2 ^ 52 + f := by
  have small : x.toBits.toNat < 2 ^ 64 := x.toBits.toNat_lt
  refine ⟨x.toBits.toNat / 2 ^ 63, x.toBits.toNat / 2 ^ 52 % 2 ^ 11, x.toBits.toNat % 2 ^ 52, ?_⟩
  omega

/-- Parts of a format that are those of a finite number. -/
structure Fitting (p : Precision) (s c f : Nat) : Prop where
  sign : s < 2
  exponent : c < 2 ^ p.exponentBits - 1
  fraction : f < 2 ^ p.fractionBits

/-- The bits of a format that are made of parts. -/
def joined (p : Precision) (s c f : Nat) : Nat :=
  s * 2 ^ (p.exponentBits + p.fractionBits) + c * 2 ^ p.fractionBits + f

section
variable {p : Precision} {s c f : Nat}

theorem Fitting.small (fitting : Fitting p s c f) :
    joined p s c f < 2 ^ (1 + p.exponentBits + p.fractionBits) := by
  obtain ⟨sign, exponent, fraction⟩ := fitting
  have low : c * 2 ^ p.fractionBits + 2 ^ p.fractionBits ≤ 2 ^ (p.exponentBits + p.fractionBits) := by
    rw [← Nat.succ_mul, Nat.pow_add]
    exact Nat.mul_le_mul_right _ (by omega)
  have high : s * 2 ^ (p.exponentBits + p.fractionBits) ≤ 1 * 2 ^ (p.exponentBits + p.fractionBits) :=
    Nat.mul_le_mul_right _ (by omega)
  rw [Nat.add_assoc, Nat.add_comm 1, Nat.pow_succ, joined]
  omega

theorem Fitting.widen (fitting : Fitting p s c f) :
    p.widen (joined p s c f) =
      if c = 0 then
        if f = 0 then Float.ofBits (if s = 1 then 0x8000000000000000 else 0)
        else Float.ofBits (Precision.doubleBits (s = 1) f (1 - (p.bias : Int) - p.fractionBits))
      else Float.ofBits (Precision.doubleBits (s = 1) (2 ^ p.fractionBits + f)
        (1 - (p.bias : Int) - p.fractionBits + c - 1)) := by
  obtain ⟨sign, exponent, fraction⟩ := fitting
  obtain ⟨s_eq, c_eq, f_eq⟩ := fields_of_sum sign (by omega) fraction (rfl : joined p s c f = _)
  unfold Precision.widen
  simp only [twoTo_eq, s_eq, c_eq, f_eq]
  rw [if_neg (by omega)]

end

theorem narrow?_spec {p : Precision} {x : Float} {bits : Nat} (narrow : p.narrow? x = some bits)
    (wide : 0 < p.exponentBits) (coarse : p.fractionBits ≤ 52) :
    bits < 2 ^ (1 + p.exponentBits + p.fractionBits) ∧ p.widen bits = x := by
  obtain ⟨s, e, f, sign, exponent, fraction, whole⟩ := toBits_parts x
  obtain ⟨_, e_eq, f_eq⟩ := fields_of_sum sign exponent fraction whole
  have s_eq : x.toBits.toNat / 2 ^ 63 = s := by omega
  have restored : Float.ofBits (UInt64.ofNat (s * 2 ^ 63 + e * 2 ^ 52 + f)) = x := by
    have same : s * 2 ^ 63 + e * 2 ^ 52 + f = x.toBits.toNat := whole.symm
    rw [same, UInt64.ofNat_toNat, ofBits_toBits]
  have room : 0 < 2 ^ p.exponentBits - 1 := by
    have := Nat.one_lt_two_pow (Nat.ne_of_gt wide)
    omega
  unfold Precision.narrow? at narrow
  simp only [twoTo_eq, s_eq, e_eq, f_eq] at narrow
  split at narrow
  next zero =>
    split at narrow
    next none =>
      have fitting : Fitting p s 0 0 := ⟨sign, room, Nat.two_pow_pos _⟩
      have made : bits = joined p s 0 0 := by
        simp only [Option.some.injEq] at narrow
        rw [← narrow, joined]
        omega
      rw [made, fitting.widen, if_pos rfl, if_pos rfl, ← restored, zero, none]
      refine ⟨fitting.small, ?_⟩
      rcases (by omega : s = 0 ∨ s = 1) with rfl | rfl <;> rfl
    next => cases narrow
  next normal =>
    split at narrow
    next => cases narrow
    next kept =>
      simp only [ge_iff_le, ne_eq, decide_not, Bool.or_eq_true, decide_eq_true_eq, Bool.not_eq_true',
        decide_eq_false_iff_not, not_or, not_le, not_not] at kept
      obtain ⟨below, divides⟩ := kept
      generalize placed : 52 - p.fractionBits + (1 - ((e : Int) - 1023 + p.bias)).toNat = lost
        at narrow divides
      generalize given : (2 ^ 52 + f) / 2 ^ lost = m at narrow
      have scaled : 2 ^ 52 + f = m * 2 ^ lost := by
        rw [← given, Nat.div_mul_cancel (Nat.dvd_of_mod_eq_zero divides)]
      have few : lost ≤ 52 := by
        have least : 2 ^ lost ≤ 2 ^ 52 + f := Nat.le_of_dvd (by omega) (Nat.dvd_of_mod_eq_zero divides)
        have less : 2 ^ lost < 2 ^ 53 := by omega
        have := (Nat.pow_lt_pow_iff_right (by decide)).mp less
        omega
      obtain ⟨least, most⟩ := scaled_bounds fraction scaled few
      split at narrow
      next high =>
        have same : 52 - lost = p.fractionBits := by omega
        rw [same] at least most
        rw [Nat.pow_succ] at most
        have fitting : Fitting p s ((e : Int) - 1023 + p.bias).toNat (m - 2 ^ p.fractionBits) :=
          ⟨sign, by omega, by omega⟩
        have made : bits = joined p s ((e : Int) - 1023 + p.bias).toNat (m - 2 ^ p.fractionBits) :=
          (Option.some.inj narrow).symm
        have back : 2 ^ p.fractionBits + (m - 2 ^ p.fractionBits) = m := by omega
        rw [made, fitting.widen, if_neg (by omega), back,
          doubleBits_scaled (e := e) fraction scaled few (by omega) sign]
        exact ⟨fitting.small, restored⟩
      next low =>
        have short : m < 2 ^ p.fractionBits :=
          Nat.lt_of_lt_of_le most (Nat.pow_le_pow_right (by decide) (by omega))
        have positive := Nat.lt_of_lt_of_le (Nat.two_pow_pos _) least
        have fitting : Fitting p s 0 m := ⟨sign, room, short⟩
        have made : bits = joined p s 0 m := by
          rw [joined, Nat.zero_mul, Nat.add_zero]
          exact (Option.some.inj narrow).symm
        rw [made, fitting.widen, if_pos rfl, if_neg (by omega),
          doubleBits_scaled (e := e) fraction scaled few (by omega) sign]
        exact ⟨fitting.small, restored⟩

end Lowering.Proofs
