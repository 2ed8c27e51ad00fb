import Mathlib
import DeferredMatrix.Scalar

/-!
# 32-bit floats that are no number

* `mul_comm` : products do not depend on the order of their factors, not even where they are no
  number.
* `isNaN_mul` : when a product is no number.
* `isNaN_recip` : a reciprocal is no number only if its operand is none.
* `reaches_of_zero`, `isNaN_of_reaches` : how zero and values that are no number compare with a
  threshold.

All of them are read off unpacked floats, which say what a bit pattern stands for.
-/

namespace DeferredMatrix.Single

open Float.Model (UnpackedFloat Format)
open Float.Model.UnpackedFloat

/-! ## Bit patterns -/

/-- What a bit pattern stands for. Its exponent and its mantissa say which of the four it is. -/
theorem unpack_cases (bits : BitVec 32) :
    (@unpackExponent .binary32 bits = -1#8 ∧ @unpackMantissa .binary32 bits = 0#23 ∧
      ∃ s, UnpackedFloat.unpack .binary32 bits = .infinity s) ∨
    (@unpackExponent .binary32 bits = -1#8 ∧ @unpackMantissa .binary32 bits ≠ 0#23 ∧
      UnpackedFloat.unpack .binary32 bits = .notANumber) ∨
    (@unpackExponent .binary32 bits = 0#8 ∧ @unpackMantissa .binary32 bits = 0#23 ∧
      ∃ s, UnpackedFloat.unpack .binary32 bits = .zero s) ∨
    (@unpackExponent .binary32 bits ≠ -1#8 ∧
      ¬ (@unpackExponent .binary32 bits = 0#8 ∧ @unpackMantissa .binary32 bits = 0#23) ∧
      ∃ s m e hm, UnpackedFloat.unpack .binary32 bits = .finite s m e hm ∧ m < 2 ^ 24 ∧
        e ≤ 104) := by
  have hbias : Format.binary32.exponentBias = 127 := rfl
  have hmantissa := (@unpackMantissa .binary32 bits).isLt
  unfold UnpackedFloat.unpack
  simp only
  by_cases htop : @unpackExponent .binary32 bits = -1#8
  · rw [if_pos htop]
    by_cases hzero : @unpackMantissa .binary32 bits = 0#23
    · exact Or.inl ⟨htop, hzero, _, if_pos hzero⟩
    · exact Or.inr (Or.inl ⟨htop, hzero, if_neg hzero⟩)
  · have hexponent : (@unpackExponent .binary32 bits).toNat < 255 := by
      have hlt := (@unpackExponent .binary32 bits).isLt
      have hne := fun heq => htop (BitVec.eq_of_toNat_eq heq)
      simp at hlt hne
      omega
    rw [if_neg htop]
    by_cases hbottom : @unpackExponent .binary32 bits = 0#8
    · rw [if_pos hbottom]
      by_cases hzero : @unpackMantissa .binary32 bits = 0#23
      · exact Or.inr (Or.inr (Or.inl ⟨hbottom, hzero, _, dif_pos hzero⟩))
      · have hpos : 0 < (@unpackMantissa .binary32 bits).toNat :=
          Nat.pos_of_ne_zero fun heq => hzero (BitVec.eq_of_toNat_eq heq)
        refine Or.inr (Or.inr (Or.inr ⟨htop, fun h => hzero h.2, _, _, _, hpos, dif_neg hzero,
          Nat.lt_trans hmantissa (by decide), ?_⟩))
        rw [hbottom, hbias]
        decide
    · have hpos : 0 < (1#1 ++ @unpackMantissa .binary32 bits).toNat := by
        rw [BitVec.toNat_append]
        exact Nat.lt_of_lt_of_le (by decide) Nat.left_le_or
      exact Or.inr (Or.inr (Or.inr ⟨htop, fun h => hbottom h.1, _, _, _, hpos, if_neg hbottom,
        BitVec.isLt _, by omega⟩))

theorem isNaN_unpack_iff (bits : BitVec 32) :
    (UnpackedFloat.unpack .binary32 bits).isNaN = true ↔
      @unpackExponent .binary32 bits = -1#8 ∧ @unpackMantissa .binary32 bits ≠ 0#23 := by
  rcases unpack_cases bits with ⟨-, hm, s, h⟩ | ⟨he, hm, h⟩ | ⟨-, hm, s, h⟩ |
    ⟨he, -, s, m, e, hpos, h, -⟩ <;> rw [h]
  · exact iff_of_false nofun fun hbits => hbits.2 hm
  · exact iff_of_true rfl ⟨he, hm⟩
  · exact iff_of_false nofun fun hbits => hbits.2 hm
  · exact iff_of_false nofun fun hbits => he hbits.1

/-- An exponent whose bits are not all set belongs to a number. -/
theorem isNaN_unpack_of_exponent {bits : BitVec 32}
    (h : @unpackExponent .binary32 bits ≠ -1#8) :
    (UnpackedFloat.unpack .binary32 bits).isNaN = false :=
  Bool.eq_false_iff.2 fun hnan => h ((isNaN_unpack_iff bits).1 hnan).1

/-- So does a mantissa without any bit, be the exponent that of infinity or not. -/
theorem isNaN_unpack_of_mantissa {bits : BitVec 32}
    (h : @unpackMantissa .binary32 bits = 0#23) :
    (UnpackedFloat.unpack .binary32 bits).isNaN = false :=
  Bool.eq_false_iff.2 fun hnan => ((isNaN_unpack_iff bits).1 hnan).2 h

/-- Packing makes nothing that is no number, and does not hide it either. -/
theorem isNaN_unpack_pack (u : UnpackedFloat) :
    (UnpackedFloat.unpack .binary32 (UnpackedFloat.pack .binary32 u)).isNaN = u.isNaN := by
  cases u with
  | notANumber => decide
  | infinity s => exact isNaN_unpack_of_mantissa unpackMantissa_packComponents
  | zero s => exact isNaN_unpack_of_mantissa unpackMantissa_packComponents
  | finite s m e hm =>
    simp only [UnpackedFloat.pack]
    split
    · exact isNaN_unpack_of_mantissa unpackMantissa_packComponents
    · rename_i hexponent
      apply isNaN_unpack_of_exponent
      split
      · rw [unpackExponent_packComponents]
        intro hall
        have hnat := congrArg BitVec.toNat hall
        simp at hnat hexponent
        omega
      · rw [unpackExponent_packComponents]
        decide

theorem isNaN_ofBits (bits : UInt32) :
    (Float32.ofBits bits).isNaN = (UnpackedFloat.unpack .binary32 bits.toBitVec).isNaN :=
  isNaN_unpack_pack _

theorem toNat_unpackExponent (bits : BitVec 32) :
    (@unpackExponent .binary32 bits).toNat = bits.toNat / 2 ^ 23 % 2 ^ 8 := by
  simp [unpackExponent, BitVec.extractLsb, Nat.shiftRight_eq_div_pow]

theorem toNat_unpackMantissa (bits : BitVec 32) :
    (@unpackMantissa .binary32 bits).toNat = bits.toNat % 2 ^ 23 := by
  simp [unpackMantissa, BitVec.extractLsb]

/-- Up to infinity, bit patterns without their sign belong to numbers. -/
theorem isNaN_ofBits_of_le {bits : UInt32} (h : bits.toNat % 0x80000000 ≤ 0x7f800000) :
    (Float32.ofBits bits).isNaN = false := by
  rw [isNaN_ofBits]
  by_cases hexponent : @unpackExponent .binary32 bits.toBitVec = -1#8
  · apply isNaN_unpack_of_mantissa
    have htop : bits.toNat / 2 ^ 23 % 2 ^ 8 = 255 := by
      rw [← UInt32.toNat_toBitVec, ← toNat_unpackExponent, hexponent]
      rfl
    have hlow : bits.toNat % 2 ^ 23 = 0 := by omega
    exact BitVec.eq_of_toNat_eq ((toNat_unpackMantissa _).trans hlow)
  · exact isNaN_unpack_of_exponent hexponent

theorem exponent_eq_top_iff (bits : UInt32) :
    @unpackExponent .binary32 bits.toBitVec = -1#8 ↔ 0x7f800000 ≤ bits.toNat % 0x80000000 := by
  rw [← BitVec.toNat_inj, toNat_unpackExponent, UInt32.toNat_toBitVec]
  show bits.toNat / 2 ^ 23 % 2 ^ 8 = 255 ↔ _
  omega

/-- Below infinity, bit patterns without their sign are finite. -/
theorem isFinite_iff (x : Float32) :
    x.isFinite = true ↔ x.toBits.toNat % 0x80000000 < 0x7f800000 := by
  rw [← not_le, ← exponent_eq_top_iff]
  show (UnpackedFloat.unpack .binary32 x.toBits.toBitVec).isFinite = true ↔ _
  rcases unpack_cases x.toBits.toBitVec with ⟨he, -, s, h⟩ | ⟨he, -, h⟩ | ⟨he, -, s, h⟩ |
    ⟨he, -, s, m, e, hpos, h, -⟩ <;> rw [h]
  · exact iff_of_false nofun fun hne => hne he
  · exact iff_of_false nofun fun hne => hne he
  · refine iff_of_true rfl ?_
    rw [he]
    decide
  · exact iff_of_true rfl he

theorem isFinite_eq (x : Float32) : x.isFinite = (!x.isInf && !x.isNaN) := by
  show x.toModel.unpack.isFinite = (!x.toModel.unpack.isInf && !x.toModel.unpack.isNaN)
  cases x.toModel.unpack <;> rfl

/-! ## Products and reciprocals -/

theorem isNaN_roundWithAccuracy (spec : Format) (s : Sign) (m : Nat) (e : Int) (a : Accuracy) :
    (roundWithAccuracy spec s m e a).isNaN = false := by
  unfold roundWithAccuracy
  simp only
  split <;> rfl

theorem sign_mul_comm (s t : Sign) : s * t = t * s := by
  cases s <;> cases t <;> rfl

theorem unpacked_mul_comm (spec : Format) (u v : UnpackedFloat) :
    UnpackedFloat.mul spec u v = UnpackedFloat.mul spec v u := by
  cases u with
  | notANumber => cases v <;> rfl
  | infinity s =>
    cases v with
    | notANumber | zero t => rfl
    | infinity t | finite t m e hm => exact congrArg _ (sign_mul_comm s t)
  | zero s =>
    cases v with
    | notANumber | infinity t => rfl
    | zero t | finite t m e hm => exact congrArg _ (sign_mul_comm s t)
  | finite s m e hm =>
    cases v with
    | notANumber => rfl
    | infinity t | zero t => exact congrArg _ (sign_mul_comm s t)
    | finite t n f hn =>
      show roundWithAccuracy spec (s * t) (m * n) (e + f) .exact =
        roundWithAccuracy spec (t * s) (n * m) (f + e) .exact
      rw [sign_mul_comm, Nat.mul_comm, Int.add_comm]

/-- There is one bit pattern only for what is no number. -/
theorem mul_comm (x y : Float32) : x * y = y * x :=
  congrArg (fun u => (⟨.pack u⟩ : Float32)) (unpacked_mul_comm _ _ _)

/-- Zero of either sign. -/
def isZero : UnpackedFloat → Bool
  | .zero _ => true
  | _ => false

theorem unpack_zero : (0 : Float32).toModel.unpack = .zero .positive := rfl

theorem beq_zero (x : Float32) : (x == 0) = isZero x.toModel.unpack := by
  show (x.toModel.unpack.compare (0 : Float32).toModel.unpack == some .eq) = _
  rw [unpack_zero]
  cases x.toModel.unpack with
  | notANumber => rfl
  | infinity s => cases s <;> rfl
  | zero s => rfl
  | finite s m e hm => cases s <;> rfl

theorem unpack_of_beq_zero {x : Float32} (h : (x == 0) = true) :
    ∃ s, x.toModel.unpack = .zero s := by
  rw [beq_zero] at h
  cases hx : x.toModel.unpack with
  | zero s => exact ⟨s, rfl⟩
  | _ => simp [hx, isZero] at h

/-- A product is no number if a factor is none or the factors are infinity and zero. -/
theorem isNaN_mul (x y : Float32) : (x * y).isNaN =
    (x.isNaN || y.isNaN || x.isInf && y == 0 || x == 0 && y.isInf) := by
  have hproduct : (x * y).isNaN =
      (UnpackedFloat.mul .binary32 x.toModel.unpack y.toModel.unpack).isNaN :=
    isNaN_unpack_pack _
  rw [hproduct, beq_zero, beq_zero]
  show _ = (x.toModel.unpack.isNaN || y.toModel.unpack.isNaN ||
    x.toModel.unpack.isInf && isZero y.toModel.unpack ||
    isZero x.toModel.unpack && y.toModel.unpack.isInf)
  cases x.toModel.unpack with
  | notANumber => rfl
  | infinity s => cases y.toModel.unpack <;> rfl
  | zero s => cases y.toModel.unpack <;> rfl
  | finite s m e hm =>
    cases y.toModel.unpack with
    | finite s' m' e' hm' => exact isNaN_roundWithAccuracy _ _ _ _ _
    | _ => rfl

theorem isNaN_recip (x : Float32) : (Scalar.recip x).isNaN = x.isNaN := by
  have hquotient : (Scalar.recip x).isNaN =
      (UnpackedFloat.div .binary32 (1 : Float32).toModel.unpack x.toModel.unpack).isNaN :=
    isNaN_unpack_pack _
  obtain ⟨m, e, hm, hone⟩ : ∃ m e hm, (1 : Float32).toModel.unpack = .finite .positive m e hm :=
    ⟨_, _, _, rfl⟩
  rw [hquotient, hone]
  show _ = x.toModel.unpack.isNaN
  cases x.toModel.unpack with
  | finite s' m' e' hm' => exact isNaN_roundWithAccuracy _ _ _ _ _
  | _ => rfl

/-! ## Comparisons with thresholds -/

theorem compare_notANumber (u : UnpackedFloat) : u.compare .notANumber = none := by
  cases u <;> rfl

theorem unpack_of_isNaN {x : Float32} (h : x.isNaN = true) : x.toModel.unpack = .notANumber := by
  cases hx : x.toModel.unpack with
  | notANumber => rfl
  | _ => exact absurd ((congrArg UnpackedFloat.isNaN hx).symm.trans h) nofun

/-- What is no number reaches no threshold. -/
theorem isNaN_of_reaches {x threshold : Float32} (h : Scalar.reaches x threshold = true) :
    x.isNaN = false := by
  cases hnan : x.isNaN with
  | false => rfl
  | true =>
    have habs : x.abs.toModel.unpack = .notANumber := by
      show UnpackedFloat.unpack .binary32 (UnpackedFloat.pack .binary32 x.toModel.unpack.abs) = _
      rw [unpack_of_isNaN hnan]
      rfl
    have hle : (threshold.toModel.unpack.compare x.abs.toModel.unpack).any (·.isLE) = true :=
      of_decide_eq_true (of_decide_eq_true h)
    rw [habs, compare_notANumber] at hle
    cases hle

theorem abs_of_zero {x : Float32} (h : (x == 0) = true) : x.abs = 0 := by
  obtain ⟨s, hs⟩ := unpack_of_beq_zero h
  show (⟨.pack x.toModel.unpack.abs⟩ : Float32) = _
  rw [hs]
  rfl

theorem reaches_of_zero {x : Float32} (h : (x == 0) = true) (threshold : Float32) :
    Scalar.reaches x threshold = decide (threshold ≤ 0) := by
  rw [← abs_of_zero h]
  rfl

theorem le_zero_iff {x : Float32} (h : x.isNaN = false) : x ≤ 0 ↔ ¬ 0 < x := by
  have hle : x ≤ 0 ↔ (x.toModel.unpack.compare (.zero .positive)).any (·.isLE) = true := by
    rw [← unpack_zero]
    exact decide_eq_true_iff
  have hlt : 0 < x ↔ (UnpackedFloat.compare (.zero .positive) x.toModel.unpack) = some .lt := by
    rw [← unpack_zero]
    exact decide_eq_true_iff.trans beq_iff_eq
  rw [hle, hlt]
  cases hx : x.toModel.unpack with
  | notANumber => exact absurd ((congrArg UnpackedFloat.isNaN hx).symm.trans h) nofun
  | infinity s => cases s <;> decide
  | zero s => cases s <;> decide
  | finite s m e hm => cases s <;> simp [UnpackedFloat.compare]

end DeferredMatrix.Single
