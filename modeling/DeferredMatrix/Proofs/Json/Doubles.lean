import DeferredMatrix.Json.Number
import DeferredMatrix.Proofs.Binary.Rounding

/-!
# How decimals are read as doubles

A significand that a double can hold, times a power of ten, is read with an error of one rounding
if the power is a double, and of two roundings if it has to be rounded as well
(`Double.ofParts_spec`). In the first case doubles are read exactly.
-/

namespace DeferredMatrix.Json.Double

open Binary

/-! ## Rounding numbers in range -/

/-- Numbers far from both ends of the range. -/
def Moderate (x : ℚ) : Prop := 2 ^ (-1000 : Int) ≤ x ∧ x < 2 ^ (1000 : Int)

section Moderate

variable {num den : Nat} {x : ℚ} (h : Moderate x)

include h

theorem Moderate.pos : 0 < x := (two_zpow_pos _).trans_le h.1

theorem Moderate.fits :
    ((Format.double.lastExponent x - Format.double.minExponent).toNat + 2) *
      Format.double.binade < Format.double.infinity := by
  have hlog : Int.log 2 x < 1000 :=
    (Int.lt_zpow_iff_log_lt (by decide) h.pos).1 (by exact_mod_cast h.2)
  have hexponent : Format.double.lastExponent x = max (-1074) (Int.log 2 x - 52) := rfl
  have hbinade : Format.double.binade = 2 ^ 52 := rfl
  have hinfinity : Format.double.infinity = 2047 * 2 ^ 52 := rfl
  have hmin : Format.double.minExponent = -1074 := rfl
  rw [hbinade, hinfinity, hmin]
  omega

theorem Moderate.nearest_lt_infinity (hq : IsQuotient (num, den) x) :
    Format.double.nearest num den < Format.double.infinity := by
  obtain ⟨r, -, hlt, -⟩ := Format.value_nearest (f := .double) (by decide) hq h.pos h.fits
  exact hlt

theorem Moderate.abs_value_nearest_sub_le (hq : IsQuotient (num, den) x) :
    |Format.double.value (Format.double.nearest num den) - x| ≤ x / 2 ^ 53 := by
  refine Format.abs_value_nearest_sub_le (f := .double) (by decide) hq h.pos h.fits ?_
  refine le_trans ?_ h.1
  rw [Format.cast_binade, ← zpow_natCast, ← zpow_add₀ (by norm_num)]
  exact zpow_le_zpow_right₀ (by norm_num) (by decide)

theorem Moderate.nearest_exact (hq : IsQuotient (num, den) x) {m : Nat} {t : Int} (hm : m < 2 ^ 53)
    (ht : -1074 ≤ t) (hmember : x = m * 2 ^ t) :
    Format.double.value (Format.double.nearest num den) = x :=
  Format.nearest_exact (f := .double) (by decide) hq h.pos h.fits hm ht hmember

end Moderate

/-! ## Significands and powers of ten -/

theorem moderate_of_bounds {x : ℚ} (hlow : 1 / 2 ^ 250 ≤ x) (hhigh : x ≤ 2 ^ 255) :
    Moderate x := by
  refine ⟨le_trans ?_ hlow, hhigh.trans_lt ?_⟩
  · rw [one_div, ← zpow_natCast, ← zpow_neg]
    exact zpow_le_zpow_right₀ (by norm_num) (by decide)
  · rw [← zpow_natCast]
    exact zpow_lt_zpow_right₀ (by norm_num) (by decide)

section Parts

variable {n j : Nat} (hn : 0 < n) (hn' : n < 2 ^ 53) (hj : j ≤ 60)

include hn hn' in
theorem value_significand : Format.double.value (Format.double.nearest n 1) = n := by
  have hone : (1 : ℚ) ≤ n := by exact_mod_cast hn
  have hlt : (n : ℚ) < 2 ^ 53 := by exact_mod_cast hn'
  have hmoderate : Moderate n := moderate_of_bounds (by linarith) (by linarith)
  exact hmoderate.nearest_exact (IsQuotient.natCast n) hn' (t := 0) (by decide) (by simp)

include hj in
theorem pow10_bounds : (1 : ℚ) ≤ 10 ^ j ∧ (10 : ℚ) ^ j ≤ 2 ^ 200 := by
  refine ⟨one_le_pow₀ (by norm_num), ?_⟩
  calc (10 : ℚ) ^ j ≤ 10 ^ 60 := pow_le_pow_right₀ (by norm_num) hj
    _ ≤ 2 ^ 200 := by norm_num

theorem isQuotient_pow10 (j : Nat) : IsQuotient (Nat.pow 10 j, 1) (10 ^ j) := by
  have h := IsQuotient.natCast (10 ^ j)
  rwa [Nat.cast_pow, Nat.cast_ofNat] at h

include hj in
theorem value_pow10 : |Format.double.value (pow10 j) - 10 ^ j| ≤ 10 ^ j / 2 ^ 53 ∧
    (j ≤ 22 → Format.double.value (pow10 j) = 10 ^ j) := by
  obtain ⟨hlow, hhigh⟩ := pow10_bounds hj
  have hmoderate : Moderate (10 ^ j) := moderate_of_bounds (by linarith) (by linarith)
  rw [pow10]
  refine ⟨hmoderate.abs_value_nearest_sub_le (isQuotient_pow10 j), fun hsmall => ?_⟩
  have hmantissa : 5 ^ j < 2 ^ 53 :=
    (Nat.pow_le_pow_right (by decide) hsmall).trans_lt (by decide)
  have hmember : (10 : ℚ) ^ j = (5 ^ j : Nat) * 2 ^ (j : Int) := by
    rw [zpow_natCast, Nat.cast_pow, ← mul_pow]
    norm_num
  exact hmoderate.nearest_exact (isQuotient_pow10 j) hmantissa (by omega) hmember

include hj in
/-- A rounded power of ten is not far from the power. -/
theorem value_pow10_bounds :
    (1 : ℚ) / 2 ≤ Format.double.value (pow10 j) ∧ Format.double.value (pow10 j) ≤ 2 ^ 201 := by
  obtain ⟨hlow, hhigh⟩ := pow10_bounds hj
  obtain ⟨h1, h2⟩ := abs_le.1 (value_pow10 hj).1
  constructor <;> linarith

/-! ## Products and quotients -/

include hn hn' hj

/-- The significand times a rounded power of ten is rounded. -/
theorem ofParts_of_nonneg : ∃ num den,
    IsQuotient (num, den) (n * Format.double.value (pow10 j)) ∧
    Moderate (n * Format.double.value (pow10 j)) ∧
    ofParts n j = some (Format.double.nearest num den) := by
  obtain ⟨hlow, hhigh⟩ := value_pow10_bounds hj
  have hone : (1 : ℚ) ≤ n := by exact_mod_cast hn
  have hlt : (n : ℚ) ≤ 2 ^ 53 := by exact_mod_cast hn'.le
  have hmoderate : Moderate (n * Format.double.value (pow10 j)) := by
    apply moderate_of_bounds
    · calc (1 : ℚ) / 2 ^ 250 ≤ 1 * (1 / 2) := by norm_num
        _ ≤ _ := mul_le_mul hone hlow (by norm_num) (by linarith)
    · calc n * Format.double.value (pow10 j) ≤ 2 ^ 53 * 2 ^ 201 :=
          mul_le_mul hlt hhigh (by linarith) (by norm_num)
        _ ≤ 2 ^ 255 := by norm_num
  have hquotient := (Format.isQuotient_quotient .double (Format.double.nearest n 1)).mul
    (Format.isQuotient_quotient .double (pow10 j))
  rw [value_significand hn hn'] at hquotient
  refine ⟨_, _, hquotient, hmoderate, ?_⟩
  have hfinite := hmoderate.nearest_lt_infinity hquotient
  rw [ofParts]
  simp only [Int.not_lt.2 (Int.natCast_nonneg j), if_false, Int.toNat_natCast]
  rw [if_pos (hj.trans (by decide)), mul, if_pos hfinite]

/-- The significand divided by a rounded power of ten is rounded. -/
theorem ofParts_of_neg (hpos : 0 < j) : ∃ num den,
    IsQuotient (num, den) (n / Format.double.value (pow10 j)) ∧
    Moderate (n / Format.double.value (pow10 j)) ∧
    ofParts n (-(j : Int)) = some (Format.double.nearest num den) := by
  obtain ⟨hlow, hhigh⟩ := value_pow10_bounds hj
  have hone : (1 : ℚ) ≤ n := by exact_mod_cast hn
  have hlt : (n : ℚ) ≤ 2 ^ 53 := by exact_mod_cast hn'.le
  have hpower : 0 < Format.double.value (pow10 j) := by linarith
  have hmoderate : Moderate (n / Format.double.value (pow10 j)) := by
    apply moderate_of_bounds
    · rw [le_div_iff₀ hpower]
      linarith
    · rw [div_le_iff₀ hpower]
      linarith
  have hquotient := (Format.isQuotient_quotient .double (Format.double.nearest n 1)).div
    (Format.isQuotient_quotient .double (pow10 j)) hpower
  rw [value_significand hn hn'] at hquotient
  refine ⟨_, _, hquotient, hmoderate, ?_⟩
  rw [ofParts]
  simp only [show -(j : Int) < 0 by omega, if_true, Int.natAbs_neg, Int.natAbs_natCast]
  rw [divPow10, if_pos (hj.trans (by decide)), div]

end Parts

/-! ## Decimals -/

/-- The relative error with which decimals that end in the place `k` are read, in units of
`1 / 2 ^ 60`: one rounding if the power of ten is a double, and two otherwise. -/
def errorUnits (k : Int) : Nat := if k.natAbs ≤ 22 then 128 else 257

theorem abs_product_sub_le {n p p' z : ℚ} (hn : 0 ≤ n) (hp : |p' - p| ≤ p / 2 ^ 53)
    (hz : |z - n * p'| ≤ n * p' / 2 ^ 53) : |z - n * p| ≤ 257 / 2 ^ 60 * (n * p) := by
  have hdist : |n * p' - n * p| ≤ n * p / 2 ^ 53 := by
    rw [← mul_sub, abs_mul, abs_of_nonneg hn, mul_div_assoc]
    exact mul_le_mul_of_nonneg_left hp hn
  rw [abs_le] at *
  constructor <;> linarith

theorem abs_quotient_sub_le {n p p' z : ℚ} (hn : 0 ≤ n) (hpos : 0 < p) (hp : |p' - p| ≤ p / 2 ^ 53)
    (hz : |z - n / p'| ≤ n / p' / 2 ^ 53) : |z - n / p| ≤ 257 / 2 ^ 60 * (n / p) := by
  have hpos' : 0 < p' := by
    have := (abs_le.1 hp).1
    linarith
  have hdist : |n / p' - n / p| ≤ n / p' / 2 ^ 53 := by
    have hdiff : n / p' - n / p = n / p' * ((p - p') / p) := by
      field_simp
    have hratio : |(p - p') / p| ≤ 1 / 2 ^ 53 := by
      rw [abs_div, abs_of_pos hpos, div_le_iff₀ hpos, abs_sub_comm]
      linarith
    rw [hdiff, abs_mul, abs_of_nonneg (div_nonneg hn hpos'.le),
      div_eq_mul_one_div _ ((2 : ℚ) ^ 53)]
    exact mul_le_mul_of_nonneg_left hratio (div_nonneg hn hpos'.le)
  rw [abs_le] at *
  constructor <;> linarith

/-- A decimal is read as a double next to it. Where the power of ten is a double, decimals that
are doubles are read exactly. -/
theorem ofParts_spec {n : Nat} {k : Int} (hn : 0 < n) (hn' : n < 2 ^ 53) (hk : k.natAbs ≤ 60) :
    ∃ code, ofParts n k = some code ∧
      |Format.double.value code - n * 10 ^ k| ≤ errorUnits k / 2 ^ 60 * (n * 10 ^ k) ∧
      (k.natAbs ≤ 22 → ∀ (m : Nat) (t : Int), m < 2 ^ 53 → -1074 ≤ t →
        (n : ℚ) * 10 ^ k = m * 2 ^ t → Format.double.value code = n * 10 ^ k) := by
  have hunits (hsmall : k.natAbs ≤ 22) : errorUnits k = 128 := if_pos hsmall
  have hunits' (hlarge : ¬ k.natAbs ≤ 22) : errorUnits k = 257 := if_neg hlarge
  rcases Int.lt_or_le k 0 with hneg | hnonneg
  · obtain ⟨j, hj⟩ := Int.eq_ofNat_of_zero_le (a := -k) (by omega)
    obtain rfl : k = -(j : Int) := by omega
    rw [Int.natAbs_neg, Int.natAbs_natCast] at *
    obtain ⟨num, den, hquotient, hmoderate, hcode⟩ := ofParts_of_neg hn hn' hk (by omega)
    obtain ⟨herror, hexact⟩ := value_pow10 hk
    have hvalue : (n : ℚ) * 10 ^ (-(j : Int)) = n / 10 ^ j := by
      rw [zpow_neg, zpow_natCast, div_eq_mul_inv]
    rw [hvalue]
    refine ⟨_, hcode, ?_, fun hsmall m t hm ht hmember => ?_⟩
    · have hz := hmoderate.abs_value_nearest_sub_le hquotient
      by_cases hsmall : j ≤ 22
      · rw [hexact hsmall] at hz
        rw [hunits hsmall]
        exact hz.trans_eq (by norm_num; ring)
      · rw [hunits' hsmall]
        exact_mod_cast abs_quotient_sub_le (Nat.cast_nonneg n) (by positivity) herror hz
    · rw [hexact hsmall] at hquotient hmoderate
      exact hmoderate.nearest_exact hquotient hm ht hmember
  · obtain ⟨j, rfl⟩ := Int.eq_ofNat_of_zero_le hnonneg
    rw [Int.natAbs_natCast] at *
    obtain ⟨num, den, hquotient, hmoderate, hcode⟩ := ofParts_of_nonneg hn hn' hk
    obtain ⟨herror, hexact⟩ := value_pow10 hk
    rw [zpow_natCast]
    refine ⟨_, hcode, ?_, fun hsmall m t hm ht hmember => ?_⟩
    · have hz := hmoderate.abs_value_nearest_sub_le hquotient
      by_cases hsmall : j ≤ 22
      · rw [hexact hsmall] at hz
        rw [hunits hsmall]
        exact hz.trans_eq (by norm_num; ring)
      · rw [hunits' hsmall]
        exact_mod_cast abs_product_sub_le (Nat.cast_nonneg n) herror hz
    · rw [hexact hsmall] at hquotient hmoderate
      exact hmoderate.nearest_exact hquotient hm ht hmember

end DeferredMatrix.Json.Double
