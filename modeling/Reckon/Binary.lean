namespace Reckon

-- Halfway cases go to the even quotient.
def nearest (numerator denominator : Nat) : Nat :=
  let whole := numerator / denominator
  let doubled := 2 * (numerator % denominator)
  if doubled < denominator then whole
  else if denominator < doubled then whole + 1
  else whole + whole % 2

theorem nearest_exact (n : Nat) {d : Nat} (positive : 0 < d) : nearest (n * d) d = n := by
  simp [nearest,Nat.mul_div_cancel _ positive,positive]

theorem nearest_scaled (n d : Nat) {factor : Nat} (positive : 0 < factor) :
    nearest (n * factor) (d * factor) = nearest n d := by
  have double : 2 * (n % d * factor) = 2 * (n % d) * factor := (Nat.mul_assoc ..).symm
  unfold nearest
  dsimp only
  rw [Nat.mul_div_mul_right _ _ positive,Nat.mul_mod_mul_right,double]
  simp only [Nat.mul_lt_mul_right positive]

-- The words of a format are sign, biased exponent and fraction from the top. The precision
-- counts the leading bit of a significand, which is not stored.
structure BinaryFormat where
  exponentWidth : Nat
  precision : Nat
  deriving DecidableEq

namespace BinaryFormat

-- Powers are those of the natural numbers, also where powers in monoids are known.
attribute [local instance(2000)] instPowNat

def double : BinaryFormat := ⟨11,53⟩
def single : BinaryFormat := ⟨8,24⟩

def fractionWidth (F : BinaryFormat) : Nat := F.precision - 1

def infinity (F : BinaryFormat) : Nat := (2 ^ F.exponentWidth - 1) * 2 ^ F.fractionWidth

def signWeight (F : BinaryFormat) : Nat := 2 ^ (F.exponentWidth + F.fractionWidth)

-- Finite values are multiples of the least positive one, which is two to the minus scale.
-- Sizes are counted in that unit.
def scale (F : BinaryFormat) : Nat := 2 ^ (F.exponentWidth - 1) + F.precision - 3

def size (F : BinaryFormat) (magnitude : Nat) : Nat :=
  let exponent := magnitude / 2 ^ F.fractionWidth
  let fraction := magnitude % 2 ^ F.fractionWidth
  if exponent = 0 then fraction else (2 ^ F.fractionWidth + fraction) * 2 ^ (exponent - 1)

-- A significand that rounds up to the next power of two carries into the exponent by plain
-- addition, and what leaves the finite range becomes infinity.
def round (F : BinaryFormat) (numerator denominator : Nat) : Nat :=
  let units := numerator * 2 ^ F.scale
  let coarser := (units / denominator).log2 - F.fractionWidth
  min F.infinity (coarser * 2 ^ F.fractionWidth + nearest units (denominator * 2 ^ coarser))

theorem round_size (F : BinaryFormat) {magnitude : Nat} (finite : magnitude < F.infinity) :
    F.round (F.size magnitude) (2 ^ F.scale) = magnitude := by
  have positive : 0 < 2 ^ F.scale := Nat.two_pow_pos _
  have width : 0 < 2 ^ F.fractionWidth := Nat.two_pow_pos _
  have small : magnitude % 2 ^ F.fractionWidth < 2 ^ F.fractionWidth := Nat.mod_lt _ width
  have parts := Nat.div_add_mod magnitude (2 ^ F.fractionWidth)
  unfold round size
  dsimp only
  rw [Nat.mul_div_cancel _ positive]
  split
  · rename_i lowest
    rw [lowest,Nat.mul_zero,Nat.zero_add] at parts
    rw [parts] at small ⊢
    have order : magnitude.log2 - F.fractionWidth = 0 := by
      rcases Nat.eq_zero_or_pos magnitude with rfl | more
      · simp
      · have below := (Nat.log2_lt (by omega)).mpr small
        omega
    rw [order,Nat.pow_zero,Nat.mul_one,nearest_exact _ positive]
    omega
  · rename_i normal
    generalize magnitude / 2 ^ F.fractionWidth = exponent at *
    generalize magnitude % 2 ^ F.fractionWidth = fraction at *
    have order : ((2 ^ F.fractionWidth + fraction) * 2 ^ (exponent - 1)).log2 =
        F.fractionWidth + (exponent - 1) := by
      rw [Nat.log2_eq_iff (Nat.ne_of_gt (Nat.mul_pos (by omega) (Nat.two_pow_pos _)))]
      constructor
      · rw [Nat.pow_add]
        exact Nat.mul_le_mul_right _ (by omega)
      · rw [Nat.add_right_comm,Nat.pow_add]
        exact Nat.mul_lt_mul_of_pos_right (by rw [Nat.pow_succ]; omega) (Nat.two_pow_pos _)
    rw [order,Nat.add_sub_cancel_left,Nat.mul_assoc,Nat.mul_comm (2 ^ (exponent - 1)),
      nearest_exact _ (Nat.mul_pos positive (Nat.two_pow_pos _))]
    have carried : (exponent - 1) * 2 ^ F.fractionWidth + (2 ^ F.fractionWidth + fraction) = magnitude := by
      have back : (exponent - 1) * 2 ^ F.fractionWidth + 2 ^ F.fractionWidth = exponent * 2 ^ F.fractionWidth := by
        rw [← Nat.succ_mul]; congr 1; omega
      rw [← parts,Nat.mul_comm _ exponent]
      omega
    omega

theorem round_scaled (F : BinaryFormat) (numerator denominator : Nat) {factor : Nat} (positive : 0 < factor) :
    F.round (numerator * factor) (denominator * factor) = F.round numerator denominator := by
  have shared (n d : Nat) : nearest (n * factor) (d * factor) = nearest n d := nearest_scaled n d positive
  unfold round
  dsimp only
  rw [Nat.mul_right_comm numerator,Nat.mul_div_mul_right _ _ positive,Nat.mul_right_comm denominator,shared]

end BinaryFormat

namespace Packing
open Float.Model.UnpackedFloat
attribute [local instance(2000)] instPowNat

theorem exponent_toNat (spec : Float.Model.Format) (bits : BitVec spec.numBits) :
    (unpackExponent bits).toNat = bits.toNat / 2 ^ spec.mantissaBitsWithoutImplicit % 2 ^ spec.exponentBits := by
  have width : spec.mantissaBitsWithoutImplicit + spec.exponentBits - 1 -
      spec.mantissaBitsWithoutImplicit + 1 = spec.exponentBits := by have := spec.he; omega
  simp [unpackExponent,BitVec.extractLsb_toNat,Nat.shiftRight_eq_div_pow,width]

theorem mantissa_toNat (spec : Float.Model.Format) (bits : BitVec spec.numBits) :
    (unpackMantissa bits).toNat = bits.toNat % 2 ^ spec.mantissaBitsWithoutImplicit := by
  have width : spec.mantissaBitsWithoutImplicit - 1 + 1 = spec.mantissaBitsWithoutImplicit := by
    have := spec.hm; omega
  simp [unpackMantissa,BitVec.extractLsb_toNat,width]

theorem ones_toNat (width : Nat) : (-BitVec.ofNat width 1).toNat = 2 ^ width - 1 := by
  rw [BitVec.neg_one_eq_allOnes,BitVec.toNat_allOnes]

theorem components (spec : Float.Model.Format) (bits : BitVec spec.numBits) :
    packComponents spec (Sign.ofBitVec (unpackSign bits)) (unpackExponent bits) (unpackMantissa bits) = bits := by
  have sign (v : BitVec 1) : (Sign.ofBitVec v).toBitVec = v := by revert v; decide
  have one := spec.hm
  have two := spec.he
  apply BitVec.eq_of_getLsbD_eq
  intro i bound
  unfold packComponents
  rw [sign]
  unfold unpackSign unpackExponent unpackMantissa
  simp only [BitVec.getLsbD_append,BitVec.getLsbD_cast,BitVec.getLsbD_extractLsb]
  by_cases low : i < spec.mantissaBitsWithoutImplicit
  · simp [low]; omega
  · by_cases middle : i - spec.mantissaBitsWithoutImplicit < spec.exponentBits
    · have place : spec.mantissaBitsWithoutImplicit + (i - spec.mantissaBitsWithoutImplicit) = i := by omega
      simp [low,middle,place]; omega
    · have place : spec.mantissaBitsWithoutImplicit + spec.exponentBits +
          (i - spec.mantissaBitsWithoutImplicit - spec.exponentBits) = i := by omega
      have top : i - spec.mantissaBitsWithoutImplicit - spec.exponentBits = 0 := by
        simp only [Float.Model.Format.numBits] at bound; omega
      simp [low,middle,place]
      simp [top]

theorem leading (width : Nat) (mantissa : BitVec width) :
    (BitVec.ofNat 1 1 ++ mantissa).toNat = 2 ^ width + mantissa.toNat := by
  have shifted := Nat.shiftLeft_add_eq_or_of_lt mantissa.isLt 1
  rw [BitVec.toNat_append,show (BitVec.ofNat 1 1).toNat = 1 from rfl,← shifted,Nat.shiftLeft_eq,Nat.one_mul]

-- One word stands for all values that are not numbers. It is kept, as every word of a number is.
theorem pack_unpack (spec : Float.Model.Format) (bits : BitVec spec.numBits)
    (wide : 2 ≤ spec.exponentBits) (valid : spec.Valid bits) : pack spec (unpack spec bits) = bits := by
  have whole := components spec bits
  have valid := valid.eq_packedNaN
  have positive := spec.hm
  have room : 2 ^ 2 ≤ 2 ^ spec.exponentBits := Nat.pow_le_pow_right (by decide) wide
  have fraction := (unpackMantissa bits).isLt
  have order := (unpackExponent bits).isLt
  unfold unpack
  dsimp only
  by_cases full : unpackExponent bits = -1#_
  · rw [if_pos full]
    by_cases zero : unpackMantissa bits = 0#_
    · rw [if_pos zero]
      rw [full,zero] at whole
      exact whole
    · rw [if_neg zero]
      exact (valid full zero).symm
  · rw [if_neg full]
    by_cases low : unpackExponent bits = 0#_
    · rw [if_pos low]
      by_cases zero : unpackMantissa bits = 0#_
      · rw [dif_pos zero]
        rw [low,zero] at whole
        exact whole
      · rw [dif_neg zero]
        unfold pack
        dsimp only
        have biased : (((unpackExponent bits).toNat : Int) -
            (↑spec.exponentBias + ↑spec.mantissaBitsWithoutImplicit) + 1 + ↑spec.exponentBias +
            ↑spec.mantissaBitsWithoutImplicit).toNat = 1 := by
          rw [low]; simp; omega
        have small : (unpackMantissa bits).toNat.log2 < spec.mantissaBitsWithoutImplicit :=
          (Nat.log2_lt fun none => zero (BitVec.eq_of_toNat_eq (by simpa using none))).mpr fraction
        rw [biased,if_neg (by omega),if_neg (by unfold Float.Model.Format.mantissaBits; omega),
          BitVec.ofNat_toNat,BitVec.setWidth_eq]
        rw [low] at whole
        exact whole
    · rw [if_neg low]
      unfold pack
      dsimp only
      have biased : (((unpackExponent bits).toNat : Int) -
          (↑spec.exponentBias + ↑spec.mantissaBitsWithoutImplicit) + ↑spec.exponentBias +
          ↑spec.mantissaBitsWithoutImplicit).toNat = (unpackExponent bits).toNat := by omega
      have below : (unpackExponent bits).toNat + 1 ≠ 2 ^ spec.exponentBits := by
        intro equal
        exact full (BitVec.eq_of_toNat_eq (by rw [ones_toNat]; omega))
      have log : (2 ^ spec.mantissaBitsWithoutImplicit + (unpackMantissa bits).toNat).log2 =
          spec.mantissaBitsWithoutImplicit := by
        rw [Nat.log2_eq_iff (by omega),Nat.pow_succ]
        omega
      have cut : BitVec.ofNat spec.mantissaBitsWithoutImplicit
          (2 ^ spec.mantissaBitsWithoutImplicit + (unpackMantissa bits).toNat) = unpackMantissa bits := by
        apply BitVec.eq_of_toNat_eq
        rw [BitVec.toNat_ofNat,Nat.add_mod_left,Nat.mod_eq_of_lt fraction]
      rw [biased,if_neg (by omega),leading,log,if_pos (by unfold Float.Model.Format.mantissaBits; omega),
        cut,BitVec.ofNat_toNat,BitVec.setWidth_eq]
      exact whole

theorem valid_number (spec : Float.Model.Format) (bits : BitVec spec.numBits)
    (number : bits.toNat % 2 ^ (spec.exponentBits + spec.mantissaBitsWithoutImplicit) ≤
      (2 ^ spec.exponentBits - 1) * 2 ^ spec.mantissaBitsWithoutImplicit) : spec.Valid bits := by
  refine ⟨fun full nonzero => (nonzero ?_).elim⟩
  have exponent := congrArg BitVec.toNat full
  rw [exponent_toNat,ones_toNat] at exponent
  apply BitVec.eq_of_toNat_eq
  rw [mantissa_toNat,BitVec.toNat_ofNat,Nat.zero_mod]
  rw [Nat.add_comm,Nat.pow_add,Nat.mod_mul,exponent,Nat.mul_comm] at number
  omega

theorem double_stable {bits : UInt64} (valid : Float.Model.Format.binary64.Valid bits.toBitVec) :
    (Float.ofBits bits).toBits = bits :=
  congrArg UInt64.ofBitVec (pack_unpack Float.Model.Format.binary64 bits.toBitVec (by decide) valid)

theorem double_word (x : Float) : Float.ofBits x.toBits = x := by
  have determined (a b : Float.Model) (same : a.toBits = b.toBits) : a = b := by
    cases a
    cases b
    cases same
    rfl
  exact congrArg Float.ofModel (determined _ x.toModel (double_stable x.toModel.valid))

theorem double_number (bits : UInt64) (number : bits.toNat % 0x8000000000000000 ≤ 0x7ff0000000000000) :
    (Float.ofBits bits).toBits = bits :=
  double_stable (valid_number _ _ number)

theorem single_stable {bits : UInt32} (valid : Float.Model.Format.binary32.Valid bits.toBitVec) :
    (Float32.ofBits bits).toBits = bits :=
  congrArg UInt32.ofBitVec (pack_unpack Float.Model.Format.binary32 bits.toBitVec (by decide) valid)

theorem single_word (x : Float32) : Float32.ofBits x.toBits = x := by
  have determined (a b : Float32.Model) (same : a.toBits = b.toBits) : a = b := by
    cases a
    cases b
    cases same
    rfl
  exact congrArg Float32.ofModel (determined _ x.toModel (single_stable x.toModel.valid))

theorem single_number (bits : UInt32) (number : bits.toNat % 0x80000000 ≤ 0x7f800000) :
    (Float32.ofBits bits).toBits = bits :=
  single_stable (valid_number _ _ number)

end Packing
end Reckon
