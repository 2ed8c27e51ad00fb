import Mathlib
import DeferredMatrix.Binary.Format

/-!
# Rounding to a format

What the codes of a format and rounding to them mean for rational numbers.

* `Format.value_pack` : the value of a code that is put together from a mantissa and an exponent.
* `Format.nearest_of_near` : what is nearer to a member than half its step is rounded to it.
* `Format.abs_nearest_sub_le` : the relative error of rounding.
* `Format.nearest_exact` : members of the format are not changed.
-/

namespace DeferredMatrix.Binary

theorem two_zpow_pos (e : Int) : (0 : ℚ) < 2 ^ e := by positivity

/-- Powers of two with different exponents are at least a factor of two apart. -/
theorem lt_of_two_zpow_lt {a b : Int} (h : (2 : ℚ) ^ a < 2 ^ b) : a < b :=
  (zpow_lt_zpow_iff_right₀ (by norm_num)).1 h

/-! ## Quotients of naturals -/

/-- A numerator and a denominator stand for a rational number. -/
def IsQuotient (q : Nat × Nat) (x : ℚ) : Prop := 0 < q.2 ∧ (q.1 : ℚ) = x * q.2

namespace IsQuotient

variable {q r : Nat × Nat} {x y : ℚ}

theorem den_pos (h : IsQuotient q x) : (0 : ℚ) < q.2 := Nat.cast_pos.2 h.1

theorem eq_div (h : IsQuotient q x) : x = q.1 / q.2 := by
  rw [h.2, mul_div_cancel_right₀ _ h.den_pos.ne']

theorem num_pos (h : IsQuotient q x) (hx : 0 < x) : 0 < q.1 := by
  have hnum : (0 : ℚ) < q.1 := h.2 ▸ mul_pos hx h.den_pos
  exact Nat.cast_pos.1 hnum

theorem natCast (n : Nat) : IsQuotient (n, 1) n := ⟨Nat.one_pos, by simp⟩

theorem mul (hq : IsQuotient q x) (hr : IsQuotient r y) :
    IsQuotient (q.1 * r.1, q.2 * r.2) (x * y) := by
  refine ⟨Nat.mul_pos hq.1 hr.1, ?_⟩
  push_cast
  rw [hq.2, hr.2]
  ring

theorem div (hq : IsQuotient q x) (hr : IsQuotient r y) (hy : 0 < y) :
    IsQuotient (q.1 * r.2, q.2 * r.1) (x / y) := by
  refine ⟨Nat.mul_pos hq.1 (hr.num_pos hy), ?_⟩
  push_cast
  rw [hq.2, hr.2]
  field_simp

theorem scaleDown (h : IsQuotient q x) (e : Int) :
    IsQuotient (scaleDown q.1 q.2 e) (x / 2 ^ e) := by
  have hpow (n : Nat) : ((Nat.pow 2 n : Nat) : ℚ) = 2 ^ n := by simp
  unfold Binary.scaleDown
  split
  · rename_i he
    refine ⟨Nat.mul_pos h.1 (by simp), ?_⟩
    obtain ⟨n, rfl⟩ := Int.eq_ofNat_of_zero_le he
    simp only [Int.toNat_natCast, Nat.cast_mul, hpow, zpow_natCast, h.2]
    field_simp
  · rename_i he
    refine ⟨h.1, ?_⟩
    obtain ⟨n, hn⟩ := Int.eq_ofNat_of_zero_le (a := -e) (by omega)
    obtain rfl : e = -(n : Int) := by omega
    simp only [neg_neg, Int.toNat_natCast, Nat.cast_mul, hpow, zpow_neg, zpow_natCast, h.2]
    field_simp

end IsQuotient

/-! ## Rounding to naturals -/

/-- What rounding to the nearest natural gives: a half is left only to the even neighbour. -/
def IsNearest (m : Nat) (x : ℚ) : Prop := |x - m| < 1 / 2 ∨ |x - m| = 1 / 2 ∧ m % 2 = 0

theorem IsNearest.dist_le {m : Nat} {x : ℚ} (h : IsNearest m x) : |x - m| ≤ 1 / 2 :=
  h.elim le_of_lt fun h => h.1.le

theorem IsNearest.unique {m n : Nat} {x : ℚ} (hm : IsNearest m x) (hn : IsNearest n x) :
    m = n := by
  have hdist : |(m : ℚ) - n| ≤ |x - m| + |x - n| := by
    rw [abs_sub_comm x m]
    exact abs_sub_le _ _ _
  have hint : |(m : ℚ) - n| = ((|(m : Int) - n| : Int) : ℚ) := by push_cast; rfl
  have hle : |(m : Int) - n| ≤ 1 := by
    have hone : |(m : ℚ) - n| ≤ 1 := hdist.trans (by linarith [hm.dist_le, hn.dist_le])
    exact_mod_cast hint ▸ hone
  have hlt (h : |(m : ℚ) - n| < 1) : m = n := by
    have hzero : |(m : Int) - n| < 1 := by exact_mod_cast hint ▸ h
    have := Int.abs_lt_one_iff.1 hzero
    omega
  rcases hm with hm | ⟨hm, hmeven⟩
  · exact hlt (hdist.trans_lt (by linarith [hn.dist_le]))
  · rcases hn with hn | ⟨hn, hneven⟩
    · exact hlt (hdist.trans_lt (by linarith))
    · rw [abs_le] at hle
      omega

theorem isNearest_roundHalfEven {q : Nat × Nat} {x : ℚ} (hq : IsQuotient q x) :
    IsNearest (roundHalfEven q.1 q.2) x := by
  obtain ⟨num, den⟩ := q
  have hden := hq.den_pos
  have hx := hq.eq_div
  simp only at hden hx ⊢
  -- `x` is a natural and a fraction `t` below one.
  set t : ℚ := (num % den : Nat) / den with ht
  have hsplit : x = (num / den : Nat) + t := by
    rw [hx, ht, div_eq_iff hden.ne', add_mul, div_mul_cancel₀ _ hden.ne']
    exact_mod_cast (Nat.div_add_mod' num den).symm
  have hnonneg : 0 ≤ t := by positivity
  have hlt : t < 1 := by
    rw [ht, div_lt_one hden]
    exact_mod_cast Nat.mod_lt num (Nat.cast_pos.1 hden)
  have hup : den < 2 * (num % den) ↔ 1 / 2 < t := by
    rw [ht, lt_div_iff₀ hden, ← @Nat.cast_lt ℚ]
    push_cast
    constructor <;> intro h <;> linarith
  have htie : 2 * (num % den) = den ↔ t = 1 / 2 := by
    rw [ht, div_eq_iff hden.ne', ← @Nat.cast_inj ℚ]
    push_cast
    constructor <;> intro h <;> linarith
  simp only [roundHalfEven, Bool.or_eq_true, decide_eq_true_eq, Bool.and_eq_true, beq_iff_eq,
    hup, htie]
  split
  · rename_i h
    have hdist : |x - ((num / den + 1 : Nat) : ℚ)| = 1 - t := by
      rw [hsplit, abs_of_nonpos (by push_cast; linarith)]
      push_cast
      ring
    rcases h with h | ⟨h, hodd⟩
    · exact Or.inl (by rw [hdist]; linarith)
    · exact Or.inr ⟨by rw [hdist, h]; norm_num, by omega⟩
  · rename_i h
    have hdist : |x - ((num / den : Nat) : ℚ)| = t := by
      rw [hsplit, add_sub_cancel_left, abs_of_nonneg hnonneg]
    rcases lt_or_ge t (1 / 2) with hsmall | hlarge
    · exact Or.inl (by rw [hdist]; exact hsmall)
    · have hhalf : t = 1 / 2 := le_antisymm (not_lt.1 fun hgt => h (Or.inl hgt)) hlarge
      have heven : ¬ num / den % 2 = 1 := fun hodd => h (Or.inr ⟨hhalf, hodd⟩)
      exact Or.inr ⟨by rw [hdist, hhalf], by omega⟩

/-! ## Leading digits -/

/-- The powers around a number determine its logarithm. -/
theorem log_eq_of_mem {b : Nat} (hb : 1 < b) {x : ℚ} (hx : 0 < x) {k : Int}
    (hlow : (b : ℚ) ^ k ≤ x) (hhigh : x < (b : ℚ) ^ (k + 1)) : Int.log b x = k := by
  have hle := (Int.zpow_le_iff_le_log hb hx).1 hlow
  have hlt := (Int.lt_zpow_iff_log_lt hb hx).1 hhigh
  omega

theorem log2Quotient_eq_log {q : Nat × Nat} {x : ℚ} (hq : IsQuotient q x) (hx : 0 < x) :
    log2Quotient q.1 q.2 = Int.log 2 x := by
  have hnum := hq.num_pos hx
  have hden := hq.1
  set k : Int := (Nat.log2 q.1 : Int) - Nat.log2 q.2 with hk
  have hbetween : (2 : ℚ) ^ (k - 1) ≤ x ∧ x < 2 ^ (k + 1) := by
    have hnum' : (2 : ℚ) ^ q.1.log2 ≤ q.1 ∧ (q.1 : ℚ) < 2 ^ (q.1.log2 + 1) :=
      ⟨mod_cast Nat.log2_self_le hnum.ne', mod_cast Nat.lt_log2_self⟩
    have hden' : (2 : ℚ) ^ q.2.log2 ≤ q.2 ∧ (q.2 : ℚ) < 2 ^ (q.2.log2 + 1) :=
      ⟨mod_cast Nat.log2_self_le hden.ne', mod_cast Nat.lt_log2_self⟩
    have hlow : (2 : ℚ) ^ (k - 1) = 2 ^ q.1.log2 / 2 ^ (q.2.log2 + 1) := by
      rw [hk, sub_sub, zpow_sub₀ (by norm_num)]
      norm_cast
    have hhigh : (2 : ℚ) ^ (k + 1) = 2 ^ (q.1.log2 + 1) / 2 ^ q.2.log2 := by
      rw [hk, sub_add_eq_add_sub, zpow_sub₀ (by norm_num)]
      norm_cast
    rw [hlow, hhigh, hq.eq_div, div_le_div_iff₀ (by positivity) hq.den_pos,
      div_lt_div_iff₀ hq.den_pos (by positivity)]
    constructor
    · exact mul_le_mul hnum'.1 hden'.2.le (by positivity) (by positivity)
    · exact mul_lt_mul_of_pos_of_nonneg' hnum'.2 hden'.1 (by positivity) (by positivity)
  have hscaled := hq.scaleDown k
  have hreach : (scaleDown q.1 q.2 k).2 ≤ (scaleDown q.1 q.2 k).1 ↔ (2 : ℚ) ^ k ≤ x := by
    have hpos : (0 : ℚ) < 2 ^ k := by positivity
    rw [← @Nat.cast_le ℚ, hscaled.2, le_mul_iff_one_le_left hscaled.den_pos, le_div_iff₀ hpos,
      one_mul]
  unfold log2Quotient
  simp only [← hk]
  split
  · rename_i h
    exact (log_eq_of_mem (by decide) hx (mod_cast hreach.1 h) (mod_cast hbetween.2)).symm
  · rename_i h
    have hbelow : x < 2 ^ k := not_le.1 fun hle => h (hreach.2 hle)
    exact (log_eq_of_mem (by decide) hx (mod_cast hbetween.1)
      (by rw [sub_add_cancel]; exact_mod_cast hbelow)).symm

/-! ## The numbers behind codes -/

namespace Format

variable {f : Format}

theorem binade_pos (f : Format) : 0 < f.binade := Nat.pow_pos (by decide)

theorem cast_binade (f : Format) : (f.binade : ℚ) = 2 ^ (f.precision - 1) := by simp [binade]

/-- The number that a code stands for. -/
def value (f : Format) (code : Nat) : ℚ := f.mantissa code * 2 ^ f.exponent code

theorem isQuotient_quotient (f : Format) (code : Nat) :
    IsQuotient (f.quotient code) (f.value code) := by
  have hpow (n : Nat) : ((Nat.pow 2 n : Nat) : ℚ) = 2 ^ n := by simp
  simp only [quotient, value]
  split
  · rename_i he
    refine ⟨Nat.one_pos, ?_⟩
    obtain ⟨n, hn⟩ := Int.eq_ofNat_of_zero_le he
    simp only [hn, Int.toNat_natCast, Nat.cast_mul, hpow, zpow_natCast, Nat.cast_one, mul_one]
  · rename_i he
    refine ⟨Nat.pow_pos (by decide), ?_⟩
    obtain ⟨n, hn⟩ := Int.eq_ofNat_of_zero_le (a := -f.exponent code) (by omega)
    have hexponent : f.exponent code = -(n : Int) := by omega
    simp only [hexponent, neg_neg, Int.toNat_natCast, hpow, zpow_neg, zpow_natCast]
    field_simp

/-- The value of a code that is put together from an exponent and a mantissa. The mantissa may
have reached the next power of two. -/
theorem value_pack {e : Int} {r : Nat} (he : f.minExponent ≤ e) (hr : r ≤ 2 * f.binade)
    (hlow : f.binade ≤ r ∨ e = f.minExponent) :
    f.value ((e - f.minExponent).toNat * f.binade + r) = r * 2 ^ e := by
  obtain ⟨j, hj⟩ := Int.eq_ofNat_of_zero_le (a := e - f.minExponent) (by omega)
  have hB := f.binade_pos
  simp only [value, mantissa, exponent, isSubnormal, decide_eq_true_eq, hj, Int.toNat_natCast]
  rcases Nat.lt_or_ge r f.binade with hsmall | hlarge
  · have hmin : e = f.minExponent := hlow.resolve_left (by omega)
    obtain rfl : j = 0 := by omega
    rw [Nat.zero_mul, Nat.zero_add, if_pos hsmall, if_pos hsmall, hmin]
  · have hnormal : ¬ j * f.binade + r < f.binade := by omega
    rw [if_neg hnormal, if_neg hnormal]
    rcases Nat.lt_or_ge r (2 * f.binade) with hinside | hcarry
    · have hcode : j * f.binade + r = (r - f.binade) + (j + 1) * f.binade := by
        rw [Nat.add_mul]
        omega
      have hmod : (j * f.binade + r) % f.binade = r - f.binade := by
        rw [hcode, Nat.add_mul_mod_self_right, Nat.mod_eq_of_lt (by omega)]
      have hdiv : (j * f.binade + r) / f.binade = j + 1 := by
        rw [hcode, Nat.add_mul_div_right _ _ hB, Nat.div_eq_of_lt (by omega), Nat.zero_add]
      rw [hmod, hdiv, Nat.add_sub_cancel' hlarge]
      congr 2
      push_cast
      omega
    · obtain rfl : r = 2 * f.binade := by omega
      have hcode : j * f.binade + 2 * f.binade = (j + 2) * f.binade := by rw [Nat.add_mul]
      have hexponent : f.minExponent + ((j + 2 : Nat) : Int) - 1 = e + 1 := by
        push_cast
        omega
      rw [hcode, Nat.mul_mod_left, Nat.mul_div_cancel _ hB, Nat.add_zero, hexponent,
        zpow_add_one₀ (by norm_num)]
      push_cast
      ring

theorem minExponent_le_exponent (f : Format) (code : Nat) :
    f.minExponent ≤ f.exponent code := by
  simp only [exponent, isSubnormal, decide_eq_true_eq]
  split
  · exact le_refl _
  · rename_i h
    have hdiv : 0 < code / f.binade := Nat.div_pos (not_lt.1 h) f.binade_pos
    omega

theorem mantissa_pos (f : Format) {code : Nat} (h : 0 < code) : 0 < f.mantissa code := by
  have hB := f.binade_pos
  simp only [mantissa]
  split <;> omega

theorem mantissa_lt (f : Format) (code : Nat) : f.mantissa code < 2 * f.binade := by
  have hmod := Nat.mod_lt code f.binade_pos
  simp only [mantissa, isSubnormal, decide_eq_true_eq]
  split <;> omega

/-- A member with the same step on both sides has neighbours with this step. -/
theorem mantissa_of_regular {code : Nat} (hregular : f.isBinadeStart code = false) :
    f.mantissa code + 1 ≤ 2 * f.binade ∧
      (f.exponent code = f.minExponent ∨ f.binade + 1 ≤ f.mantissa code) := by
  have hmod := Nat.mod_lt code f.binade_pos
  simp only [isBinadeStart, Bool.and_eq_false_iff, beq_eq_false_iff_ne, ne_eq,
    decide_eq_false_iff_not, not_le] at hregular
  simp only [mantissa, exponent, isSubnormal, decide_eq_true_eq]
  split
  · exact ⟨by omega, Or.inl rfl⟩
  · rename_i hnormal
    refine ⟨by omega, ?_⟩
    rcases hregular with hinside | hfirst
    · exact Or.inr (by omega)
    · have hdiv : code / f.binade = 1 := Nat.div_eq_of_lt_le (by omega) (by omega)
      exact Or.inl (by rw [hdiv]; simp)

/-- A code is put together from its exponent and its mantissa. -/
theorem pack_mantissa (f : Format) (code : Nat) :
    (f.exponent code - f.minExponent).toNat * f.binade + f.mantissa code = code := by
  simp only [exponent, mantissa, isSubnormal, decide_eq_true_eq]
  split
  · simp
  · rename_i h
    have hdiv : 0 < code / f.binade := Nat.div_pos (not_lt.1 h) f.binade_pos
    have hexponent : (f.minExponent + (code / f.binade : Nat) - 1 - f.minExponent).toNat =
        code / f.binade - 1 := by omega
    rw [hexponent, Nat.sub_mul, Nat.one_mul]
    have hle : f.binade ≤ code / f.binade * f.binade := Nat.le_mul_of_pos_left _ hdiv
    have hsplit := Nat.div_add_mod' code f.binade
    omega

/-! ## Rounding -/

/-- The exponent of the last place next to a number. -/
def lastExponent (f : Format) (x : ℚ) : Int :=
  max f.minExponent (Int.log 2 x - (f.precision - 1))

theorem minExponent_le_lastExponent (f : Format) (x : ℚ) :
    f.minExponent ≤ f.lastExponent x := le_max_left _ _

theorem lastExponent_spec (hp : 0 < f.precision) {x : ℚ} (hx : 0 < x) :
    x < 2 * f.binade * 2 ^ f.lastExponent x ∧
      (f.lastExponent x = f.minExponent ∨ f.binade * 2 ^ f.lastExponent x ≤ x) := by
  have hpower (e : Int) : (f.binade : ℚ) * 2 ^ e = 2 ^ (e + (f.precision - 1)) := by
    rw [cast_binade, add_comm, zpow_add₀ (by norm_num), ← zpow_natCast, Nat.cast_sub hp]
    rfl
  have hbelow : (2 : ℚ) ^ Int.log 2 x ≤ x := Int.zpow_log_le_self (by decide) hx
  have habove : x < (2 : ℚ) ^ (Int.log 2 x + 1) := Int.lt_zpow_succ_log_self (by decide) x
  rw [mul_assoc, hpower, ← zpow_one_add₀ (by norm_num)]
  constructor
  · exact habove.trans_le (zpow_le_zpow_right₀ (by norm_num) (by simp only [lastExponent]; omega))
  · rcases le_total f.minExponent (Int.log 2 x - (f.precision - 1)) with h | h
    · refine Or.inr (le_trans (le_of_eq ?_) hbelow)
      rw [lastExponent, max_eq_right h, sub_add_cancel]
    · exact Or.inl (max_eq_left h)

theorem lastExponent_eq (hp : 0 < f.precision) {x : ℚ} (hx : 0 < x) {e : Int}
    (he : f.minExponent ≤ e) (hhigh : x < 2 * f.binade * 2 ^ e)
    (hlow : e = f.minExponent ∨ f.binade * 2 ^ e ≤ x) : f.lastExponent x = e := by
  obtain ⟨hlt, hle⟩ := lastExponent_spec hp hx
  have hB : (0 : ℚ) < f.binade := Nat.cast_pos.2 f.binade_pos
  have hmin := f.minExponent_le_lastExponent x
  -- Neither exponent can be the greater one.
  have habove {a b : Int} (ha : a = f.minExponent ∨ f.binade * 2 ^ a ≤ x)
      (hb : x < 2 * f.binade * 2 ^ b) (hmin : f.minExponent ≤ b) : a ≤ b := by
    rcases ha with rfl | ha
    · exact hmin
    · have hpow : (2 : ℚ) ^ a < 2 ^ (b + 1) := by
        rw [zpow_add_one₀ (by norm_num)]
        refine lt_of_mul_lt_mul_left (ha.trans_lt (hb.trans_eq ?_)) hB.le
        ring
      exact Int.lt_add_one_iff.1 (lt_of_two_zpow_lt hpow)
  exact le_antisymm (habove hle hhigh he) (habove hlow hlt hmin)

section Nearest

variable {num den : Nat} {x : ℚ} (hp : 0 < f.precision) (hq : IsQuotient (num, den) x) (hx : 0 < x)

include hq hx

theorem nearest_spec : ∃ r, IsNearest r (x / 2 ^ f.lastExponent x) ∧ f.nearest num den =
    min ((f.lastExponent x - f.minExponent).toNat * f.binade + r) f.infinity := by
  have hlast : f.lastPlace num den = f.lastExponent x := by
    rw [lastPlace, lastExponent, log2Quotient_eq_log hq hx]
  refine ⟨_, isNearest_roundHalfEven (hq.scaleDown (f.lastExponent x)), ?_⟩
  simp only [nearest, if_neg (hq.num_pos hx).ne', hlast]

include hp

/-- What is nearer to a member than half its step is rounded to it, unless the step is smaller
on one side. -/
theorem nearest_of_near {code : Nat} (hcode : code < f.infinity)
    (hregular : f.isBinadeStart code = false)
    (hnear : IsNearest (f.mantissa code) (x / 2 ^ f.exponent code)) :
    f.nearest num den = code := by
  have hpow := two_zpow_pos (f.exponent code)
  have hdist := abs_le.1 hnear.dist_le
  have hlow : (f.mantissa code - 1 / 2 : ℚ) * 2 ^ f.exponent code ≤ x := by
    rw [← le_div_iff₀ hpow]
    linarith
  have hhigh : x ≤ (f.mantissa code + 1 / 2 : ℚ) * 2 ^ f.exponent code := by
    rw [← div_le_iff₀ hpow]
    linarith
  obtain ⟨habove, hbelow⟩ := mantissa_of_regular hregular
  have hlast : f.lastExponent x = f.exponent code := by
    refine lastExponent_eq hp hx (f.minExponent_le_exponent code) (hhigh.trans_lt ?_) ?_
    · refine mul_lt_mul_of_pos_right ?_ hpow
      have hcast : (f.mantissa code : ℚ) + 1 ≤ 2 * f.binade := by exact_mod_cast habove
      linarith
    · refine hbelow.imp_right fun h => le_trans ?_ hlow
      refine mul_le_mul_of_nonneg_right ?_ hpow.le
      have hcast : (f.binade : ℚ) + 1 ≤ f.mantissa code := by exact_mod_cast h
      linarith
  obtain ⟨r, hr, hnearest⟩ := nearest_spec (f := f) hq hx
  rw [hlast] at hr hnearest
  rw [hnearest, hr.unique hnear, pack_mantissa, min_eq_left hcode.le]

/-- The value that a number below the largest member is rounded to. -/
theorem value_nearest
    (hfits : ((f.lastExponent x - f.minExponent).toNat + 2) * f.binade < f.infinity) :
    ∃ r, IsNearest r (x / 2 ^ f.lastExponent x) ∧ f.nearest num den < f.infinity ∧
      f.value (f.nearest num den) = r * 2 ^ f.lastExponent x := by
  obtain ⟨r, hr, hnearest⟩ := nearest_spec (f := f) hq hx
  obtain ⟨hlt, hle⟩ := lastExponent_spec hp hx
  have hpow := two_zpow_pos (f.lastExponent x)
  have hdist := abs_le.1 hr.dist_le
  have hhigh : r ≤ 2 * f.binade := by
    have hbound : (r : ℚ) < 2 * f.binade + 1 := by
      rw [← div_lt_iff₀ hpow] at hlt
      linarith
    exact Nat.lt_add_one_iff.1 (by exact_mod_cast hbound)
  have hlow : f.binade ≤ r ∨ f.lastExponent x = f.minExponent := by
    refine hle.symm.imp_left fun h => ?_
    have hbound : (f.binade : ℚ) < r + 1 := by
      rw [← le_div_iff₀ hpow] at h
      linarith
    exact Nat.lt_add_one_iff.1 (by exact_mod_cast hbound)
  have hlt' : (f.lastExponent x - f.minExponent).toNat * f.binade + r < f.infinity := by
    rw [Nat.add_mul] at hfits
    omega
  rw [min_eq_left hlt'.le] at hnearest
  refine ⟨r, hr, hnearest ▸ hlt', ?_⟩
  rw [hnearest, value_pack (f.minExponent_le_lastExponent x) hhigh hlow]

/-- A number that is not too small is rounded with a relative error of half a unit in the last
place. -/
theorem abs_value_nearest_sub_le
    (hfits : ((f.lastExponent x - f.minExponent).toNat + 2) * f.binade < f.infinity)
    (hlarge : f.binade * 2 ^ f.minExponent ≤ x) :
    |f.value (f.nearest num den) - x| ≤ x / 2 ^ f.precision := by
  obtain ⟨r, hr, -, hvalue⟩ := value_nearest hp hq hx hfits
  have hpow := two_zpow_pos (f.lastExponent x)
  have hbinade : f.binade * 2 ^ f.lastExponent x ≤ x :=
    (lastExponent_spec hp hx).2.elim (fun h => h ▸ hlarge) id
  have hprecision : (2 : ℚ) ^ f.precision = 2 * f.binade := by
    rw [cast_binade, mul_pow_sub_one hp.ne']
  have hB : (0 : ℚ) < f.binade := Nat.cast_pos.2 f.binade_pos
  calc |f.value (f.nearest num den) - x|
      = |x / 2 ^ f.lastExponent x - r| * 2 ^ f.lastExponent x := by
        rw [hvalue, ← abs_of_pos hpow, ← abs_mul, abs_of_pos hpow, sub_mul,
          div_mul_cancel₀ _ hpow.ne', abs_sub_comm]
    _ ≤ 1 / 2 * 2 ^ f.lastExponent x := mul_le_mul_of_nonneg_right hr.dist_le hpow.le
    _ ≤ x / 2 ^ f.precision := by
        rw [hprecision, le_div_iff₀ (by positivity)]
        linarith

/-- Members of the format are not changed. -/
theorem nearest_exact
    (hfits : ((f.lastExponent x - f.minExponent).toNat + 2) * f.binade < f.infinity) {m : Nat}
    {t : Int} (hm : m < 2 * f.binade) (ht : f.minExponent ≤ t) (hmember : x = m * 2 ^ t) :
    f.value (f.nearest num den) = x := by
  obtain ⟨r, hr, -, hvalue⟩ := value_nearest hp hq hx hfits
  have hB : (0 : ℚ) < f.binade := Nat.cast_pos.2 f.binade_pos
  have hle : f.lastExponent x ≤ t := by
    rcases (lastExponent_spec hp hx).2 with h | h
    · exact h ▸ ht
    · have hpow : (2 : ℚ) ^ f.lastExponent x < 2 ^ (t + 1) := by
        rw [zpow_add_one₀ (by norm_num)]
        have hm' : (m : ℚ) < 2 * f.binade := by exact_mod_cast hm
        have hlt : (m : ℚ) * 2 ^ t < 2 * f.binade * 2 ^ t :=
          mul_lt_mul_of_pos_right hm' (two_zpow_pos t)
        refine lt_of_mul_lt_mul_left (h.trans_lt (hmember ▸ hlt.trans_eq ?_)) hB.le
        ring
      exact Int.lt_add_one_iff.1 (lt_of_two_zpow_lt hpow)
  obtain ⟨j, hj⟩ := Int.eq_ofNat_of_zero_le (a := t - f.lastExponent x) (by omega)
  have hwhole : x / 2 ^ f.lastExponent x = ((m * 2 ^ j : Nat) : ℚ) := by
    have hpow : (2 : ℚ) ^ t = 2 ^ j * 2 ^ f.lastExponent x := by
      rw [← zpow_natCast, ← zpow_add₀ (by norm_num), ← hj, sub_add_cancel]
    rw [div_eq_iff (two_zpow_pos _).ne', Nat.cast_mul, Nat.cast_pow, mul_assoc, Nat.cast_ofNat,
      ← hpow]
    exact hmember
  have hself : IsNearest (m * 2 ^ j) (x / 2 ^ f.lastExponent x) :=
    Or.inl (by rw [hwhole, sub_self]; norm_num)
  rw [hvalue, hr.unique hself, ← hwhole, div_mul_cancel₀ _ (two_zpow_pos _).ne']

end Nearest

end Format

end DeferredMatrix.Binary
