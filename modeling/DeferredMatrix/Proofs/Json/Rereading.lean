import DeferredMatrix.Proofs.Json.Separation

/-!
# Floats are read back from their shortest decimals

The shortest decimal of a 32-bit float is read as a double, which is then rounded to 32 bits. The
double need not be the one nearest to the decimal, but it is on the same side of every midpoint,
so that the second rounding gives the float (`readsAs_shortest`).
-/

namespace DeferredMatrix.Json

open Binary Decimal

/-! ## What is read from the text of a decimal -/

/-- The significand and the exponent that a decimal is read with. A whole number that is written
without an exponent has its zeros, and one more behind the point, among its digits. -/
def readParts (d : Decimal) : Nat × Int :=
  if 0 ≤ d.exponent ∧ d.magnitude ≤ 12 then (d.digits * Nat.pow 10 (d.exponent.toNat + 1), -1)
  else (d.digits, d.exponent)

/-- The code of the float that a decimal is read as, if it is in range. -/
def reread (d : Decimal) : Option Nat :=
  (Double.ofParts (readParts d).1 (readParts d).2).map fun code =>
    Format.single.nearest (Format.double.quotient code).1 (Format.double.quotient code).2

/-- A decimal of moderate size that is read as the float with the given code. -/
structure ReadsAs (d : Decimal) (code : Nat) : Prop where
  digits_pos : 0 < d.digits
  digits_lt : d.digits < 2 ^ 53
  exponent_le : d.exponent.natAbs ≤ 60
  reread_eq : reread d = some code

instance (d : Decimal) (code : Nat) : Decidable (ReadsAs d code) :=
  decidable_of_iff
    (0 < d.digits ∧ d.digits < 2 ^ 53 ∧ d.exponent.natAbs ≤ 60 ∧ reread d = some code)
    ⟨fun h => ⟨h.1, h.2.1, h.2.2.1, h.2.2.2⟩,
      fun h => ⟨h.digits_pos, h.digits_lt, h.exponent_le, h.reread_eq⟩⟩

theorem readParts_spec {d : Decimal} (hpos : 0 < d.digits) (hlt : d.digits < 2 ^ 53) :
    ((readParts d).1 : ℚ) * 10 ^ (readParts d).2 = d.value ∧ 0 < (readParts d).1 ∧
      (readParts d).1 < 2 ^ 53 ∧ ((readParts d).2 = d.exponent ∨
        (readParts d).2.natAbs ≤ 22 ∧ d.exponent.natAbs ≤ 22) := by
  unfold readParts
  split
  · rename_i h
    obtain ⟨hnonneg, hmagnitude⟩ := h
    obtain ⟨j, hj⟩ := Int.eq_ofNat_of_zero_le hnonneg
    obtain ⟨hcount, -, hdigits⟩ := digitCount_spec hpos.ne'
    simp only [Decimal.magnitude, hj] at hmagnitude
    have hbound : d.digits * 10 ^ (j + 1) < 2 ^ 53 := by
      calc d.digits * 10 ^ (j + 1) ≤ 10 ^ digitCount d.digits * 10 ^ (j + 1) :=
            Nat.mul_le_mul_right _ hdigits.le
        _ = 10 ^ (digitCount d.digits + (j + 1)) := (Nat.pow_add _ _ _).symm
        _ ≤ 10 ^ 14 := Nat.pow_le_pow_right (by decide) (by omega)
        _ < 2 ^ 53 := by decide
    simp only [hj, Int.toNat_natCast, Nat.pow_eq]
    refine ⟨?_, Nat.mul_pos hpos (by positivity), hbound, Or.inr ⟨by decide, by omega⟩⟩
    rw [Decimal.value, hj, zpow_natCast]
    push_cast
    rw [pow_succ]
    norm_num
    ring
  · exact ⟨rfl, hpos, hlt, Or.inl rfl⟩

theorem errorUnits_readParts {d : Decimal} (hpos : 0 < d.digits) (hlt : d.digits < 2 ^ 53) :
    Double.errorUnits (readParts d).2 = Double.errorUnits d.exponent := by
  rcases (readParts_spec hpos hlt).2.2.2 with h | ⟨h, h'⟩
  · rw [h]
  · rw [Double.errorUnits, Double.errorUnits, if_pos h, if_pos h']

/-! ## Floats with the same step on both sides -/

section Regular

variable {code : Nat} (hfinite : code < Format.single.infinity)

include hfinite in
theorem single_exponent_bounds :
    -149 ≤ Format.single.exponent code ∧ Format.single.exponent code ≤ 104 := by
  refine ⟨Format.single.minExponent_le_exponent code, ?_⟩
  have hbinade : Format.single.binade = 2 ^ 23 := rfl
  have hmin : Format.single.minExponent = -149 := rfl
  have hinfinity : Format.single.infinity = 255 * 2 ^ 23 := rfl
  simp only [Format.exponent, Format.isSubnormal, hbinade, hmin]
  split
  · decide
  · have hdiv : code / 2 ^ 23 < 255 := Nat.div_lt_of_lt_mul (by omega)
    omega

include hfinite in
/-- The places of decimals that are found for floats. -/
theorem exponent_natAbs_le {d : Decimal} (hpos : 0 < code) (hd : d.StandsFor .single code) :
    d.exponent.natAbs ≤ 60 := by
  obtain ⟨hlow, hhigh⟩ := single_exponent_bounds hfinite
  obtain ⟨hd1, hd2⟩ := abs_le.1 hd.rounds.dist_le
  have hpow := two_zpow_pos (Format.single.exponent code)
  have hdigits : (d.digits : ℚ) ≤ 2 ^ 28 := by
    have hle : d.digits ≤ 20 * 2 ^ 23 := hd.digits_le
    exact_mod_cast hle.trans (by decide)
  have hone : (1 : ℚ) ≤ d.digits := by exact_mod_cast hd.digits_pos
  have hten := ten_zpow_pos d.exponent
  have hstep : (2 : ℚ) ^ (-149 : Int) ≤ 2 ^ Format.single.exponent code ∧
      (2 : ℚ) ^ Format.single.exponent code ≤ 2 ^ (104 : Int) :=
    ⟨zpow_le_zpow_right₀ (by norm_num) hlow, zpow_le_zpow_right₀ (by norm_num) hhigh⟩
  have hmantissa : (1 : ℚ) ≤ Format.single.mantissa code ∧
      (Format.single.mantissa code : ℚ) ≤ 2 ^ 24 := by
    have hlt : Format.single.mantissa code < 2 * 2 ^ 23 := Format.mantissa_lt _ code
    exact ⟨by exact_mod_cast Format.mantissa_pos _ hpos, by exact_mod_cast hlt.le⟩
  have hvalue : 1 / 2 * 2 ^ Format.single.exponent code ≤ d.value ∧
      d.value ≤ 2 ^ 25 * 2 ^ Format.single.exponent code := by
    rw [← le_div_iff₀ hpow, ← div_le_iff₀ hpow]
    constructor <;> linarith
  rw [Decimal.value] at hvalue
  have hupper : (10 : ℚ) ^ d.exponent < 10 ^ (60 : Int) := by
    norm_num at hstep ⊢
    nlinarith
  have hlower : (10 : ℚ) ^ (-60 : Int) < 10 ^ d.exponent := by
    norm_num at hstep ⊢
    nlinarith
  have h1 := (zpow_lt_zpow_iff_right₀ (by norm_num)).1 hupper
  have h2 := (zpow_lt_zpow_iff_right₀ (by norm_num)).1 hlower
  omega

theorem two_zpow_half (q : Int) : (2 : ℚ) ^ q = 2 * 2 ^ (q - 1) := by
  rw [← zpow_one_add₀ (by norm_num), add_sub_cancel]

theorem isNearest_of_lt {m : Nat} {h y : ℚ} (hh : 0 < h) (hlow : (m - 1 / 2) * h < y)
    (hhigh : y < (m + 1 / 2) * h) : IsNearest m (y / h) := by
  rw [← lt_div_iff₀ hh] at hlow
  rw [← div_lt_iff₀ hh] at hhigh
  exact Or.inl (abs_lt.2 ⟨by linarith, by linarith⟩)

/-- Where a decimal lies that stands for a float, in units of half the step. -/
theorem value_bounds {d : Decimal} (hd : d.StandsFor .single code) :
    (2 * Format.single.mantissa code - 1 : ℚ) * 2 ^ (Format.single.exponent code - 1) ≤ d.value ∧
    d.value ≤ (2 * Format.single.mantissa code + 1 : ℚ) * 2 ^ (Format.single.exponent code - 1) ∧
    d.value ≤ 2 ^ 25 * 2 ^ (Format.single.exponent code - 1) := by
  have hpow := two_zpow_pos (Format.single.exponent code - 1)
  obtain ⟨hlow, hhigh⟩ := abs_le.1 hd.rounds.dist_le
  have hmantissa : (Format.single.mantissa code : ℚ) + 1 ≤ 2 ^ 24 := by
    have hlt : Format.single.mantissa code < 2 * 2 ^ 23 := Format.mantissa_lt _ code
    exact_mod_cast hlt
  have hlow' : (Format.single.mantissa code - 1 / 2 : ℚ) * 2 ^ Format.single.exponent code ≤
      d.value := by
    rw [← le_div_iff₀ (two_zpow_pos _)]
    linarith
  have hhigh' : d.value ≤
      (Format.single.mantissa code + 1 / 2 : ℚ) * 2 ^ Format.single.exponent code := by
    rw [← div_le_iff₀ (two_zpow_pos _)]
    linarith
  rw [two_zpow_half] at hlow' hhigh'
  refine ⟨by linarith, by linarith, hhigh'.trans ?_⟩
  nlinarith

include hfinite in
/-- A decimal next to a float on a grid that is finer than floats keeps away from midpoints. -/
theorem isNearest_of_fine {d : Decimal} (hd : d.StandsFor .single code) {k : Int} {y : ℚ}
    (hy : |y - d.value| ≤ 257 / 2 ^ 60 * d.value)
    (hfine : (10 : ℚ) ^ k < 2 ^ Format.single.exponent code)
    (hnext : |d.value - Format.single.value code| ≤ 10 ^ k / 2) :
    IsNearest (Format.single.mantissa code) (y / 2 ^ Format.single.exponent code) := by
  have hpow := two_zpow_pos (Format.single.exponent code - 1)
  have hexponent := single_exponent_bounds hfinite
  have hmargin := ten_zpow_le_of_lt (e := Format.single.exponent code - 1) (by omega)
    (two_zpow_half _ ▸ hfine)
  obtain ⟨-, -, hvalue⟩ := value_bounds hd
  rw [Format.value] at hnext
  rw [abs_le] at hy hnext
  refine isNearest_of_lt (two_zpow_pos _) ?_ ?_ <;> rw [two_zpow_half] at hnext ⊢ <;> linarith

include hfinite in
/-- A decimal that is no finer than the floats is not read on the other side of a midpoint. -/
theorem isNearest_of_coarse {d : Decimal} (hd : d.StandsFor .single code) {y : ℚ}
    (hy : |y - d.value| ≤ Double.errorUnits d.exponent / 2 ^ 60 * d.value)
    (hexact : d.exponent.natAbs ≤ 22 → ∀ (m : Nat) (t : Int), m < 2 ^ 53 → -1074 ≤ t →
      d.value = m * 2 ^ t → y = d.value)
    (hcoarse : (2 : ℚ) ^ Format.single.exponent code ≤ 10 ^ d.exponent)
    (hcrowded : ¬ (IsCrowded (Format.single.exponent code - 1) d.exponent ∧ d.digits = 7038531)) :
    IsNearest (Format.single.mantissa code) (y / 2 ^ Format.single.exponent code) := by
  have hexponent := single_exponent_bounds hfinite
  have hpow := two_zpow_pos (Format.single.exponent code - 1)
  have hpositive : 0 < d.value := mul_pos (Nat.cast_pos.2 hd.digits_pos) (ten_zpow_pos _)
  obtain ⟨hlow, hhigh, hbound⟩ := value_bounds hd
  rw [two_zpow_half] at hcoarse
  -- A midpoint is a double, and it is read exactly.
  have hmidpoint (m : Int) (hm : d.value = m * 2 ^ (Format.single.exponent code - 1))
      (hsmall : d.exponent.natAbs ≤ 22) :
      IsNearest (Format.single.mantissa code) (y / 2 ^ Format.single.exponent code) := by
    have hmpos : (0 : ℚ) < m := pos_of_mul_pos_left (hm ▸ hpositive) hpow.le
    have hmle : (m : ℚ) ≤ 2 ^ 25 := le_of_mul_le_mul_right (hm ▸ hbound) hpow
    have hmpos' : 0 < m := by exact_mod_cast hmpos
    have hmle' : m ≤ 2 ^ 25 := by exact_mod_cast hmle
    obtain ⟨j, rfl⟩ := Int.eq_ofNat_of_zero_le hmpos'.le
    rw [hexact hsmall j (Format.single.exponent code - 1) (by omega) (by omega) hm]
    exact hd.rounds
  have hseparate (m : Int) := separation m (e := Format.single.exponent code - 1) (by omega)
    hd.digits_pos hcoarse hbound
  rcases hseparate (2 * Format.single.mantissa code + 1) with h | ⟨hm, hsmall⟩ | habove
  · exact absurd h hcrowded
  · exact hmidpoint _ hm hsmall
  · rcases hseparate (2 * Format.single.mantissa code - 1) with h | ⟨hm, hsmall⟩ | hbelow
    · exact absurd h hcrowded
    · exact hmidpoint _ hm hsmall
    · rw [← Decimal.value] at habove hbelow
      push_cast at habove hbelow
      rw [abs_of_nonpos (sub_nonpos.2 hhigh)] at habove
      rw [abs_of_nonneg (sub_nonneg.2 hlow)] at hbelow
      obtain ⟨hy1, hy2⟩ := abs_le.1 hy
      refine isNearest_of_lt (two_zpow_pos _) ?_ ?_ <;> rw [two_zpow_half] <;> linarith

/-- The one decimal that comes too near to a midpoint is read as it should be all the same. -/
theorem reread_crowded {d : Decimal} (hd : d.StandsFor .single code)
    (hcrowded : IsCrowded (Format.single.exponent code - 1) d.exponent)
    (hdigits : d.digits = 7038531) : reread d = some code := by
  obtain ⟨he, hk⟩ := hcrowded
  have hexponent : Format.single.exponent code = -107 := by omega
  obtain ⟨hlow, hhigh⟩ := abs_le.1 hd.rounds.dist_le
  rw [Decimal.value, hdigits, hk, hexponent] at hlow hhigh
  have hmantissa : Format.single.mantissa code = 11420669 := by
    norm_num at hlow hhigh
    have h1 : (Format.single.mantissa code : ℚ) < 11420670 := by linarith
    have h2 : (11420668 : ℚ) < Format.single.mantissa code := by linarith
    have h1' : Format.single.mantissa code < 11420670 := by exact_mod_cast h1
    have h2' : 11420668 < Format.single.mantissa code := by exact_mod_cast h2
    omega
  have hcode := Format.pack_mantissa .single code
  rw [hexponent, hmantissa] at hcode
  obtain rfl : d = ⟨7038531, -32⟩ := by
    cases d
    simp_all
  rw [← hcode]
  decide +kernel

include hfinite in
theorem readsAs_regular (hregular : Format.single.isBinadeStart code = false) (hpos : 0 < code) :
    ReadsAs (shortest .single .even code) code := by
  have hd : (shortest .single .even code).StandsFor .single code :=
    shortest_standsFor (by decide) hregular hpos .even
  generalize shortest .single .even code = d at hd
  have hdigits : d.digits < 2 ^ 53 := by
    have hle : d.digits ≤ 20 * 2 ^ 23 := hd.digits_le
    omega
  have hplace := exponent_natAbs_le hfinite hpos hd
  refine ⟨hd.digits_pos, hdigits, hplace, ?_⟩
  by_cases hcrowded :
      IsCrowded (Format.single.exponent code - 1) d.exponent ∧ d.digits = 7038531
  · exact reread_crowded hd hcrowded.1 hcrowded.2
  · obtain ⟨hvalue, hs, hs', hexponent⟩ := readParts_spec hd.digits_pos hdigits
    have hplace' : (readParts d).2.natAbs ≤ 60 := by omega
    have hunits := errorUnits_readParts hd.digits_pos hdigits
    obtain ⟨c, hc, herror, hexact⟩ := Double.ofParts_spec hs hs' hplace'
    rw [hvalue, hunits] at herror
    rw [hvalue] at hexact
    have hvaluepos : 0 < d.value := mul_pos (Nat.cast_pos.2 hd.digits_pos) (ten_zpow_pos _)
    have herror' : |Format.double.value c - d.value| ≤ 257 / 2 ^ 60 * d.value := by
      refine herror.trans (mul_le_mul_of_nonneg_right ?_ hvaluepos.le)
      rw [Double.errorUnits]
      split <;> norm_num
    have hpositive : 0 < Format.double.value c := by linarith [(abs_le.1 herror').1]
    have hnear : IsNearest (Format.single.mantissa code)
        (Format.double.value c / 2 ^ Format.single.exponent code) := by
      -- A decimal on a grid finer than the floats was chosen next to the float, so it is far from
      -- midpoints. On a coarser grid it could be anywhere between them.
      rcases hd.grid with hcoarse | ⟨k, hfine, hnext⟩
      · exact isNearest_of_coarse hfinite hd herror (fun hsmall => hexact (by omega)) hcoarse
          hcrowded
      · exact isNearest_of_fine hfinite hd herror' hfine hnext
    have hquotient := Format.isQuotient_quotient .double c
    rw [reread, hc, Option.map_some]
    generalize Format.double.quotient c = q at hquotient
    rw [Format.nearest_of_near (by decide) hquotient hpositive hfinite hregular hnear]

end Regular

/-! ## All floats -/

/-- Floats with a smaller step below them are the powers of two. -/
theorem readsAs_binadeStart : ∀ j < 253,
    ReadsAs (shortest .single .even ((j + 2) * Format.single.binade))
      ((j + 2) * Format.single.binade) := by
  decide +kernel

/-- Every float is read back from its shortest decimal. -/
theorem readsAs_shortest {code : Nat} (hfinite : code < Format.single.infinity)
    (hpos : 0 < code) : ReadsAs (shortest .single .even code) code := by
  cases hregular : Format.single.isBinadeStart code with
  | false => exact readsAs_regular hfinite hregular hpos
  | true =>
    simp only [Format.isBinadeStart, Bool.and_eq_true, beq_iff_eq, decide_eq_true_eq] at hregular
    obtain ⟨hmod, hle⟩ := hregular
    obtain ⟨i, rfl⟩ := Nat.dvd_of_mod_eq_zero hmod
    have hbinade : Format.single.binade = 2 ^ 23 := rfl
    have hinfinity : Format.single.infinity = 255 * 2 ^ 23 := rfl
    have htwo : 2 ≤ i := by
      rw [hbinade] at hle
      omega
    have htop : i < 255 := by
      rw [hbinade, hinfinity] at hfinite
      omega
    obtain ⟨j, rfl⟩ := Nat.exists_eq_add_of_le' htwo
    rw [Nat.mul_comm]
    exact readsAs_binadeStart j (by omega)

end DeferredMatrix.Json
