import DeferredMatrix.Proofs.Binary.Single

/-!
# Reciprocals of 32-bit floats

The reciprocal of a float is zero only if the float is infinite (`recip_beq_zero`): the largest
finite float is small enough for its reciprocal not to vanish, though it is subnormal.

Rounding shifts a mantissa to the right by no more than it is longer than 24 bits, so that nothing
but zero is rounded to zero (`roundWithAccuracy_eq_finite`), as long as the exponent is not below
the least one.
-/

namespace DeferredMatrix.Single

open Float.Model (UnpackedFloat Format)
open Float.Model.UnpackedFloat

/-! ## Rounding -/

theorem mantissa_shiftRight (em : ExtendedMantissa) (n : Nat) :
    (em >>> n).mantissa = em.mantissa / 2 ^ n := by
  show (n.repeat ExtendedMantissa.shiftRightOne em).mantissa = _
  induction n with
  | zero => simp [Nat.repeat]
  | succ n ih =>
    rw [Nat.repeat, Nat.pow_succ, ← Nat.div_div_eq_div_mul, ← ih]
    rfl

theorem mantissa_ofMantissaAndAccuracy (m : Nat) (a : Accuracy) :
    (ExtendedMantissa.ofMantissaAndAccuracy m a).mantissa = m := by
  cases a with
  | exact => rfl
  | inexact o => cases o <;> rfl

theorem targetExponent_eq (t : Int) : Format.binary32.targetExponent t = max (t - 24) (-149) := rfl

/-- The mantissa that is left has at least one bit and at most 24. -/
theorem shiftToTargetExponent_bounds {m : Nat} {e : Int} (a : Accuracy) (hm : 0 < m)
    (he : -149 ≤ e) : 0 < (shiftToTargetExponent .binary32 m e a).1.mantissa ∧
      (shiftToTargetExponent .binary32 m e a).1.mantissa < 2 ^ 24 ∧
      -149 ≤ (shiftToTargetExponent .binary32 m e a).2 := by
  simp only [shiftToTargetExponent, shiftToExponent, mantissa_shiftRight,
    mantissa_ofMantissaAndAccuracy, targetExponent_eq, Float.Model.totalExponent]
  generalize hk : (max (↑m.log2 + 1 + e - 24) (-149) - e).toNat = k
  have hlow : k ≤ m.log2 := by omega
  have hhigh : m.log2 + 1 ≤ 24 + k := by omega
  refine ⟨Nat.div_pos ?_ (Nat.two_pow_pos k), ?_, by omega⟩
  · calc 2 ^ k ≤ 2 ^ m.log2 := Nat.pow_le_pow_right Nat.two_pos hlow
      _ ≤ m := Nat.log2_self_le (Nat.ne_of_gt hm)
  · rw [Nat.div_lt_iff_lt_mul (Nat.two_pow_pos k), ← Nat.pow_add]
    calc m < 2 ^ (m.log2 + 1) := Nat.lt_log2_self
      _ ≤ 2 ^ (24 + k) := Nat.pow_le_pow_right Nat.two_pos hhigh

theorem mantissa_le_roundedMantissa (em : ExtendedMantissa) :
    em.mantissa ≤ em.roundedMantissa := by
  unfold ExtendedMantissa.roundedMantissa Accuracy.roundToNearestEven
  split <;> omega

theorem roundWithAccuracy_eq_finite (s : Sign) {m : Nat} {e : Int} (a : Accuracy) (hm : 0 < m)
    (he : -149 ≤ e) : ∃ m' e' hm', roundWithAccuracy .binary32 s m e a = .finite s m' e' hm' ∧
      m' < 2 ^ 24 ∧ -149 ≤ e' := by
  obtain ⟨hpos, -, hmin⟩ := shiftToTargetExponent_bounds a hm he
  obtain ⟨hpos', hlt, hmin'⟩ := shiftToTargetExponent_bounds .exact
    (Nat.lt_of_lt_of_le hpos (mantissa_le_roundedMantissa _)) hmin
  refine ⟨_, _, hpos', ?_, hlt, hmin'⟩
  unfold roundWithAccuracy
  simp only
  rw [dif_neg (Nat.ne_of_gt hpos')]

/-! ## Packing -/

theorem isZero_unpack_iff (bits : BitVec 32) :
    isZero (UnpackedFloat.unpack .binary32 bits) = true ↔
      @unpackExponent .binary32 bits = 0#8 ∧ @unpackMantissa .binary32 bits = 0#23 := by
  rcases unpack_cases bits with ⟨he, -, s, h⟩ | ⟨he, -, h⟩ | ⟨he, hm, s, h⟩ |
    ⟨-, hne, s, m, e, hpos, h, -⟩ <;> rw [h]
  · exact iff_of_false nofun fun hbits => absurd (he.symm.trans hbits.1) (by decide)
  · exact iff_of_false nofun fun hbits => absurd (he.symm.trans hbits.1) (by decide)
  · exact iff_of_true rfl ⟨he, hm⟩
  · exact iff_of_false nofun hne

/-- No mantissa of at most 24 bits is packed to zero. -/
theorem isZero_unpack_pack {s : Sign} {m : Nat} {e : Int} {hm : 0 < m} (hlt : m < 2 ^ 24)
    (he : -149 ≤ e) :
    isZero (UnpackedFloat.unpack .binary32 (UnpackedFloat.pack .binary32 (.finite s m e hm))) =
      false := by
  apply Bool.eq_false_iff.2
  intro hzero
  obtain ⟨hexponent, hmantissa⟩ := (isZero_unpack_iff _).1 hzero
  simp only [UnpackedFloat.pack] at hexponent hmantissa
  split at hexponent
  · rw [packedInfinity, unpackExponent_packComponents] at hexponent
    cases hexponent
  · rename_i hfits
    rw [if_neg hfits] at hmantissa
    split at hexponent
    · rw [unpackExponent_packComponents] at hexponent
      have hnat := congrArg BitVec.toNat hexponent
      simp [Format.exponentBias] at hnat hfits
      omega
    · rename_i hbits
      rw [if_neg hbits, unpackMantissa_packComponents] at hmantissa
      have hnat := congrArg BitVec.toNat hmantissa
      simp [Format.mantissaBits] at hnat hbits
      have hlog : m.log2 < 24 := (Nat.log2_lt (Nat.ne_of_gt hm)).2 hlt
      have hsmall : m < 2 ^ 23 := (Nat.log2_lt (Nat.ne_of_gt hm)).1 (by omega)
      omega

/-! ## Division -/

/-- Bounds on the mantissa and the exponent of a finite float. -/
theorem bounds_of_unpack {x : Float32} {s : Sign} {m : Nat} {e : Int} {hm : 0 < m}
    (h : x.toModel.unpack = .finite s m e hm) : m < 2 ^ 24 ∧ e ≤ 104 := by
  rcases unpack_cases x.toModel.toBits.toBitVec with ⟨-, -, s', h'⟩ | ⟨-, -, h'⟩ |
    ⟨-, -, s', h'⟩ | ⟨-, -, s', m', e', hm', h', hlt, he⟩
  · cases h'.symm.trans h
  · cases h'.symm.trans h
  · cases h'.symm.trans h
  · cases h'.symm.trans h
    exact ⟨hlt, he⟩

/-- The quotient of one by a finite float is computed to at least one bit. -/
theorem divCore_bounds {m : Nat} {e : Int} (hlt : m < 2 ^ 24) (he : e ≤ 104) (hm : 0 < m) :
    0 < (divCore .binary32 (2 ^ 23) (-23) m e).1 ∧
      -149 ≤ (divCore .binary32 (2 ^ 23) (-23) m e).2.1 := by
  simp only [divCore, targetExponent_eq, Float.Model.totalExponent, Nat.log2_two_pow]
  have hlog : m.log2 < 24 := (Nat.log2_lt (Nat.ne_of_gt hm)).2 hlt
  refine ⟨Nat.div_pos ?_ hm, by omega⟩
  generalize hk : (-23 - e - min (-23 - e)
    (max (((23 : Nat) : Int) + 1 + -23 - (↑m.log2 + 1 + e) - 24) (-149))).toNat = k
  have hshift : m.log2 + 1 ≤ 23 + k := by omega
  rw [Nat.shiftLeft_eq, ← Nat.pow_add]
  calc m ≤ 2 ^ (m.log2 + 1) := Nat.le_of_lt Nat.lt_log2_self
    _ ≤ 2 ^ (23 + k) := Nat.pow_le_pow_right Nat.two_pos hshift

/-- A reciprocal is zero only if its operand is infinite. -/
theorem recip_beq_zero (x : Float32) : (Scalar.recip x == 0) = x.isInf := by
  have hone : (1 : Float32).toModel.unpack = .finite .positive (2 ^ 23) (-23) (by decide) := rfl
  rw [beq_zero]
  show isZero (UnpackedFloat.unpack .binary32 (UnpackedFloat.pack .binary32
    (UnpackedFloat.div .binary32 (1 : Float32).toModel.unpack x.toModel.unpack))) =
      x.toModel.unpack.isInf
  rw [hone]
  cases hx : x.toModel.unpack with
  | notANumber => decide
  | infinity s => cases s <;> decide
  | zero s => cases s <;> decide
  | finite s m e hm =>
    obtain ⟨hlt, he⟩ := bounds_of_unpack hx
    obtain ⟨hpos, hmin⟩ := divCore_bounds hlt he hm
    obtain ⟨m', e', hm', hround, hlt', hmin'⟩ := roundWithAccuracy_eq_finite (.positive / s)
      (divCore .binary32 (2 ^ 23) (-23) m e).2.2 hpos hmin
    have hquotient : UnpackedFloat.div .binary32 (.finite .positive (2 ^ 23) (-23) (by decide))
        (.finite s m e hm) = .finite (.positive / s) m' e' hm' := hround
    rw [hquotient]
    exact isZero_unpack_pack hlt' hmin'

end DeferredMatrix.Single
