import DeferredMatrix.Decimal.Shortest
import DeferredMatrix.Proofs.Binary.Rounding

/-!
# What the search for the shortest decimal finds

A member of a format whose step is the same on both sides stands for a power of two, the step,
times a mantissa. The decimal found for it rounds to that mantissa in units of the step
(`shortest_standsFor`). Either the last place of the decimal is as coarse as the step, or the
decimal is the one nearest to the member on some finer grid.
-/

namespace DeferredMatrix.Decimal

open Binary

theorem ten_zpow_pos (k : Int) : (0 : ℚ) < 10 ^ k := by positivity

/-! ## Leading digits -/

theorem digitCount_spec {n : Nat} (hn : n ≠ 0) : 0 < digitCount n ∧
    10 ^ (digitCount n - 1) ≤ n ∧ n < 10 ^ digitCount n := by
  have hpos : 0 < (Nat.toDigits 10 n).length := Nat.length_toDigits_pos
  rw [digitCount, if_neg hn]
  refine ⟨hpos, ?_, (Nat.length_toDigits_le_iff (by decide) hpos).1 (le_refl _)⟩
  rcases Nat.eq_zero_or_pos ((Nat.toDigits 10 n).length - 1) with hzero | hlater
  · rw [hzero]
    exact Nat.pos_of_ne_zero hn
  · refine not_lt.1 fun hlt => ?_
    have hle := (Nat.length_toDigits_le_iff (by decide) hlater).2 hlt
    omega

theorem exists_digitCount {n : Nat} (hn : n ≠ 0) :
    ∃ c, digitCount n = c + 1 ∧ 10 ^ c ≤ n ∧ n < 10 ^ (c + 1) := by
  obtain ⟨hpos, hlow, hhigh⟩ := digitCount_spec hn
  obtain ⟨c, hc⟩ := Nat.exists_eq_succ_of_ne_zero hpos.ne'
  rw [hc, Nat.succ_sub_one] at hlow
  rw [hc] at hhigh
  exact ⟨c, hc, hlow, hhigh⟩

/-- A quotient rounded up and decreased by one. -/
theorem ceil_sub_one_spec {num den : Nat} (hnum : 0 < num) (hlt : num < den) :
    (den + num - 1) / num - 1 ≠ 0 ∧ ((den + num - 1) / num - 1) * num < den ∧
      den ≤ ((den + num - 1) / num - 1 + 1) * num := by
  have htwo : 2 ≤ (den + num - 1) / num := (Nat.le_div_iff_mul_le hnum).2 (by omega)
  have hcover := Nat.lt_div_mul_add (a := den + num - 1) hnum
  have hfloor := Nat.div_mul_le_self (den + num - 1) num
  refine ⟨by omega, ?_, ?_⟩
  · rw [Nat.sub_mul]
    omega
  · rw [Nat.sub_add_cancel (by omega)]
    omega

theorem log10Quotient_eq_log {q : Nat × Nat} {x : ℚ} (hq : IsQuotient q x) (hx : 0 < x) :
    log10Quotient q.1 q.2 = Int.log 10 x := by
  obtain ⟨num, den⟩ := q
  have hnum : 0 < num := hq.num_pos hx
  have hden : 0 < den := hq.1
  have hden' := hq.den_pos
  have hx' : x = num / den := hq.eq_div
  simp only [log10Quotient] at hden' ⊢
  split
  · rename_i hle
    obtain ⟨c, hc, hlow, hhigh⟩ := exists_digitCount (Nat.div_pos hle hden).ne'
    have hk : ((digitCount (num / den) : Nat) : Int) - 1 = c := by rw [hc]; simp
    rw [hk]
    refine (log_eq_of_mem (by decide) hx ?_ ?_).symm
    · rw [hx', le_div_iff₀ hden', zpow_natCast]
      exact_mod_cast (Nat.le_div_iff_mul_le hden).1 hlow
    · rw [hx', div_lt_iff₀ hden']
      exact_mod_cast (Nat.div_lt_iff_lt_mul hden).1 hhigh
  · rename_i hlt
    obtain ⟨hne, hdown, hup⟩ := ceil_sub_one_spec hnum (not_le.1 hlt)
    obtain ⟨c, hc, hlow, hhigh⟩ := exists_digitCount hne
    rw [hc]
    refine (log_eq_of_mem (by decide) hx ?_ ?_).symm
    · have hcover : den ≤ 10 ^ (c + 1) * num := hup.trans (Nat.mul_le_mul_right _ hhigh)
      rw [hx', zpow_neg, inv_le_iff_one_le_mul₀' (by positivity), mul_div_assoc',
        one_le_div hden']
      exact_mod_cast hcover
    · have hcover : 10 ^ c * num < den := (Nat.mul_le_mul_right _ hlow).trans_lt hdown
      have hexponent : -((c + 1 : Nat) : Int) + 1 = -(c : Int) := by omega
      rw [hexponent, hx', zpow_neg, lt_inv_comm₀ (by positivity) (by positivity), inv_div,
        lt_div_iff₀ (by positivity)]
      exact_mod_cast hcover

/-! ## Points of a decimal grid -/

/-- Both grids are brought to whole numbers by one factor. -/
theorem commonScale_spec (e k : Int) : ∃ s : ℚ, 0 < s ∧
    ((commonScale e k).1 : ℚ) = 2 ^ e * s ∧ ((commonScale e k).2 : ℚ) = 10 ^ k * s := by
  refine ⟨10 ^ (-k).toNat * 2 ^ (-e).toNat, by positivity, ?_, ?_⟩
  · have hpow : (2 : ℚ) ^ e * 2 ^ (-e).toNat = 2 ^ e.toNat := by
      rw [← zpow_natCast, ← zpow_natCast, ← zpow_add₀ (by norm_num)]
      congr 1
      omega
    simp only [commonScale, Nat.pow_eq, Nat.cast_mul, Nat.cast_pow, Nat.cast_ofNat]
    rw [← hpow]
    ring
  · have hpow : (10 : ℚ) ^ k * 10 ^ (-k).toNat = 10 ^ k.toNat := by
      rw [← zpow_natCast, ← zpow_natCast, ← zpow_add₀ (by norm_num)]
      congr 1
      omega
    simp only [commonScale, Nat.pow_eq, Nat.cast_mul, Nat.cast_pow, Nat.cast_ofNat]
    rw [← hpow]
    ring

section Scale

variable (e k : Int) (b c : Nat)

theorem le_commonScale_iff :
    b * (commonScale e k).1 ≤ c * (commonScale e k).2 ↔ (b : ℚ) * 2 ^ e ≤ c * 10 ^ k := by
  obtain ⟨s, hs, hp, hq⟩ := commonScale_spec e k
  rw [← @Nat.cast_le ℚ, Nat.cast_mul, Nat.cast_mul, hp, hq, ← mul_assoc, ← mul_assoc,
    mul_le_mul_iff_left₀ hs]

theorem commonScale_le_iff :
    c * (commonScale e k).2 ≤ b * (commonScale e k).1 ↔ (c : ℚ) * 10 ^ k ≤ b * 2 ^ e := by
  obtain ⟨s, hs, hp, hq⟩ := commonScale_spec e k
  rw [← @Nat.cast_le ℚ, Nat.cast_mul, Nat.cast_mul, hp, hq, ← mul_assoc, ← mul_assoc,
    mul_le_mul_iff_left₀ hs]

end Scale

namespace Interval

/-- The number that an interval is about. -/
def value (i : Interval) : ℚ := i.center * 2 ^ i.exponent

variable (i : Interval) (tie : Tie) (k : Int)

theorem below_spec : (i.below k : ℚ) * 10 ^ k ≤ i.value ∧ i.value < (i.below k + 1) * 10 ^ k := by
  obtain ⟨s, hs, -, hq⟩ := commonScale_spec i.exponent k
  have hpos : 0 < (commonScale i.exponent k).2 := by
    have : (0 : ℚ) < (commonScale i.exponent k).2 := hq ▸ mul_pos (ten_zpow_pos k) hs
    exact Nat.cast_pos.1 this
  refine ⟨(commonScale_le_iff _ _ _ _).1 (Nat.div_mul_le_self _ _), not_le.1 fun h => ?_⟩
  have hle := (commonScale_le_iff i.exponent k i.center (i.below k + 1)).2 (by exact_mod_cast h)
  exact absurd ((Nat.le_div_iff_mul_le hpos).2 hle) (Nat.not_succ_le_self _)

/-- The nearer neighbour is not farther away than half a step. -/
theorem nearer_spec : (i.nearer tie k = i.below k ∨ i.nearer tie k = i.below k + 1) ∧
    |(i.nearer tie k : ℚ) * 10 ^ k - i.value| ≤ 10 ^ k / 2 := by
  obtain ⟨hlow, hhigh⟩ := i.below_spec k
  obtain ⟨s, hs, hp, hq⟩ := commonScale_spec i.exponent k
  have hgapBelow : ((i.center * (commonScale i.exponent k).1 -
      i.below k * (commonScale i.exponent k).2 : Nat) : ℚ) =
      (i.value - i.below k * 10 ^ k) * s := by
    have hle : i.below k * (commonScale i.exponent k).2 ≤
        i.center * (commonScale i.exponent k).1 := Nat.div_mul_le_self _ _
    rw [Nat.cast_sub hle, Nat.cast_mul, Nat.cast_mul, hp, hq, value]
    ring
  have hgapAbove : (((i.below k + 1) * (commonScale i.exponent k).2 -
      i.center * (commonScale i.exponent k).1 : Nat) : ℚ) =
      ((i.below k + 1) * 10 ^ k - i.value) * s := by
    have hle : i.center * (commonScale i.exponent k).1 ≤
        (i.below k + 1) * (commonScale i.exponent k).2 :=
      (le_commonScale_iff _ _ _ _).2 (by exact_mod_cast hhigh.le)
    rw [Nat.cast_sub hle, Nat.cast_mul, Nat.cast_mul, hp, hq, value]
    push_cast
    ring
  have hbelow (h : i.value - i.below k * 10 ^ k ≤ (i.below k + 1) * 10 ^ k - i.value) :
      |(i.below k : ℚ) * 10 ^ k - i.value| ≤ 10 ^ k / 2 := by
    rw [abs_of_nonpos (by linarith)]
    linarith
  have habove (h : (i.below k + 1) * 10 ^ k - i.value ≤ i.value - i.below k * 10 ^ k) :
      |((i.below k + 1 : Nat) : ℚ) * 10 ^ k - i.value| ≤ 10 ^ k / 2 := by
    push_cast
    rw [abs_of_nonneg (by linarith)]
    linarith
  unfold nearer
  simp only [← @Nat.cast_lt ℚ, hgapBelow, hgapAbove, mul_lt_mul_iff_left₀ hs]
  split
  · rename_i h
    exact ⟨Or.inl rfl, hbelow h.le⟩
  · rename_i hle
    split
    · rename_i h
      exact ⟨Or.inr rfl, habove h.le⟩
    · rename_i hge
      cases tie with
      | even =>
        simp only
        split
        · exact ⟨Or.inl rfl, hbelow (not_lt.1 hge)⟩
        · exact ⟨Or.inr rfl, habove (not_lt.1 hle)⟩
      | away => exact ⟨Or.inr rfl, habove (not_lt.1 hle)⟩

end Interval

/-! ## Members with the same step on both sides -/

namespace Interval

variable {f : Format} {code : Nat}

theorem value_ofCode (f : Format) (code : Nat) : (ofCode f code).value = f.value code := by
  have hpow : (2 : ℚ) ^ f.exponent code = 4 * 2 ^ (f.exponent code - 2) := by
    rw [zpow_sub₀ (by norm_num)]
    norm_num
    ring
  simp only [value, ofCode, Format.value, Nat.cast_mul, Nat.cast_ofNat, hpow]
  ring

/-- The interval holds what rounds to the mantissa in units of the step. -/
theorem holds_iff (hregular : f.isBinadeStart code = false) (hpos : 0 < code) (k : Int)
    (c : Nat) : (ofCode f code).holds k c = true ↔
      IsNearest (f.mantissa code) (c * 10 ^ k / 2 ^ f.exponent code) := by
  have hmantissa := f.mantissa_pos hpos
  set y : ℚ := c * 10 ^ k / 2 ^ f.exponent code with hy
  -- The unit of the bounds is a quarter of the step.
  have hcandidate : (c : ℚ) * 10 ^ k = 4 * y * 2 ^ (f.exponent code - 2) := by
    have hpow : (2 : ℚ) ^ f.exponent code = 4 * 2 ^ (f.exponent code - 2) := by
      rw [zpow_sub₀ (by norm_num)]
      norm_num
      ring
    rw [hy, hpow]
    field_simp
  have habove (b : Nat) : b * (commonScale (f.exponent code - 2) k).1 ≤
      c * (commonScale (f.exponent code - 2) k).2 ↔ (b : ℚ) ≤ 4 * y := by
    rw [le_commonScale_iff, hcandidate, mul_le_mul_iff_left₀ (two_zpow_pos _)]
  have hbelow (b : Nat) : c * (commonScale (f.exponent code - 2) k).2 ≤
      b * (commonScale (f.exponent code - 2) k).1 ↔ 4 * y ≤ (b : ℚ) := by
    rw [commonScale_le_iff, hcandidate, mul_le_mul_iff_left₀ (two_zpow_pos _)]
  have hlow : ((4 * f.mantissa code - 2 : Nat) : ℚ) = 4 * f.mantissa code - 2 := by
    rw [Nat.cast_sub (by omega)]
    push_cast
    ring
  have hhigh : ((4 * f.mantissa code + 2 : Nat) : ℚ) = 4 * f.mantissa code + 2 := by push_cast; ring
  simp only [holds, ofCode, hregular, Bool.false_eq_true, if_false]
  split
  · rename_i heven
    have heven' : f.mantissa code % 2 = 0 := by simpa using heven
    simp only [Bool.and_eq_true, decide_eq_true_eq, habove, hbelow, hlow, hhigh]
    constructor
    · rintro ⟨h1, h2⟩
      have hdist : |y - f.mantissa code| ≤ 1 / 2 := abs_le.2 ⟨by linarith, by linarith⟩
      exact hdist.lt_or_eq.imp_right fun h => ⟨h, heven'⟩
    · intro h
      obtain ⟨h1, h2⟩ := abs_le.1 h.dist_le
      exact ⟨by linarith, by linarith⟩
  · rename_i hodd
    have hodd' : ¬ f.mantissa code % 2 = 0 := by simpa using hodd
    simp only [Bool.and_eq_true, decide_eq_true_eq, ← not_le, habove, hbelow, hlow, hhigh]
    constructor
    · rintro ⟨h1, h2⟩
      exact Or.inl (abs_lt.2 ⟨by linarith, by linarith⟩)
    · intro h
      obtain ⟨h1, h2⟩ := abs_lt.1 (h.resolve_right fun heq => hodd' heq.2)
      exact ⟨by linarith, by linarith⟩

/-- Points outside the interval are at least half a step away. -/
theorem far_of_not_holds (hregular : f.isBinadeStart code = false) (hpos : 0 < code) {k : Int}
    {c : Nat} (h : (ofCode f code).holds k c = false) :
    2 ^ f.exponent code / 2 ≤ |(c : ℚ) * 10 ^ k - f.value code| := by
  have hpow := two_zpow_pos (f.exponent code)
  have hdist : |(c : ℚ) * 10 ^ k - f.value code| =
      |(c : ℚ) * 10 ^ k / 2 ^ f.exponent code - f.mantissa code| * 2 ^ f.exponent code := by
    rw [← abs_of_pos hpow, ← abs_mul, abs_of_pos hpow, sub_mul, div_mul_cancel₀ _ hpow.ne']
    rfl
  have hfar : 1 / 2 ≤ |(c : ℚ) * 10 ^ k / 2 ^ f.exponent code - f.mantissa code| := by
    refine not_lt.1 fun hnear => ?_
    rw [(holds_iff hregular hpos k c).2 (Or.inl hnear)] at h
    cases h
  rw [hdist, div_eq_inv_mul, ← one_div]
  exact mul_le_mul_of_nonneg_right hfar hpow.le

/-- What is picked lies in the interval. On a grid finer than the step, something is picked, and
it is the point next to the member. -/
theorem pick_spec (hregular : f.isBinadeStart code = false) (hpos : 0 < code) (tie : Tie)
    (k : Int) :
    (∀ c, (ofCode f code).pick tie k = some c →
      ((ofCode f code).below k ≤ c ∧ c ≤ (ofCode f code).below k + 1) ∧
      IsNearest (f.mantissa code) ((c : ℚ) * 10 ^ k / 2 ^ f.exponent code) ∧
      ((10 : ℚ) ^ k < 2 ^ f.exponent code → |(c : ℚ) * 10 ^ k - f.value code| ≤ 10 ^ k / 2)) ∧
    ((ofCode f code).pick tie k = none → (2 : ℚ) ^ f.exponent code ≤ 10 ^ k) := by
  obtain ⟨hlow, hhigh⟩ := (ofCode f code).below_spec k
  obtain ⟨hchoice, hnearer⟩ := (ofCode f code).nearer_spec tie k
  rw [value_ofCode] at hlow hhigh hnearer
  have hbelow (h : (ofCode f code).holds k ((ofCode f code).below k) = false) :
      2 ^ f.exponent code / 2 ≤ f.value code - (ofCode f code).below k * 10 ^ k := by
    rw [← abs_of_nonneg (sub_nonneg.2 hlow), abs_sub_comm]
    exact far_of_not_holds hregular hpos h
  have habove (h : (ofCode f code).holds k ((ofCode f code).below k + 1) = false) :
      2 ^ f.exponent code / 2 ≤ ((ofCode f code).below k + 1) * 10 ^ k - f.value code := by
    rw [← abs_of_nonneg (sub_nonneg.2 hhigh.le)]
    exact_mod_cast far_of_not_holds hregular hpos h
  have hpair : ((ofCode f code).below k + 1 : ℚ) * 10 ^ k =
      (ofCode f code).below k * 10 ^ k + 10 ^ k := by ring
  cases hb : (ofCode f code).holds k ((ofCode f code).below k) with
  | false =>
    cases ha : (ofCode f code).holds k ((ofCode f code).below k + 1) with
    | false =>
      refine ⟨fun c hc => ?_, fun _ => by linarith [hbelow hb, habove ha]⟩
      simp [pick, hb, ha] at hc
    | true =>
      refine ⟨fun c hc => ?_, fun hc => by simp [pick, hb, ha] at hc⟩
      obtain rfl : (ofCode f code).below k + 1 = c := by simpa [pick, hb, ha] using hc
      refine ⟨⟨Nat.le_succ _, le_refl _⟩, (holds_iff hregular hpos k _).1 ha, fun hfine => ?_⟩
      push_cast
      rw [abs_of_nonneg (sub_nonneg.2 hhigh.le)]
      linarith [hbelow hb]
  | true =>
    cases ha : (ofCode f code).holds k ((ofCode f code).below k + 1) with
    | false =>
      refine ⟨fun c hc => ?_, fun hc => by simp [pick, hb, ha] at hc⟩
      obtain rfl : (ofCode f code).below k = c := by simpa [pick, hb, ha] using hc
      refine ⟨⟨le_refl _, Nat.le_succ _⟩, (holds_iff hregular hpos k _).1 hb, fun hfine => ?_⟩
      rw [abs_of_nonpos (sub_nonpos.2 hlow)]
      linarith [habove ha]
    | true =>
      refine ⟨fun c hc => ?_, fun hc => by simp [pick, hb, ha] at hc⟩
      obtain rfl : (ofCode f code).nearer tie k = c := by simpa [pick, hb, ha] using hc
      refine ⟨by rcases hchoice with h | h <;> omega, (holds_iff hregular hpos k _).1 ?_,
        fun _ => hnearer⟩
      rcases hchoice with h | h <;> rw [h] <;> assumption

end Interval

/-! ## The search -/

/-- The number that a decimal stands for. -/
def value (d : Decimal) : ℚ := d.digits * 10 ^ d.exponent

/-- A decimal that reads back as a member of a format. -/
structure StandsFor (d : Decimal) (f : Format) (code : Nat) : Prop where
  digits_pos : 0 < d.digits
  digits_le : d.digits ≤ 20 * f.binade
  rounds : IsNearest (f.mantissa code) (d.value / 2 ^ f.exponent code)
  /-- Its last place is not below the step, or it is next to the member on a finer grid. -/
  grid : (2 : ℚ) ^ f.exponent code ≤ 10 ^ d.exponent ∨
    ∃ k : Int, (10 : ℚ) ^ k < 2 ^ f.exponent code ∧ |d.value - f.value code| ≤ 10 ^ k / 2

variable {f : Format} {code : Nat}

theorem ten_zpow_succ (k : Int) : (10 : ℚ) ^ (k + 1) = 10 * 10 ^ k := by
  rw [zpow_add_one₀ (by norm_num), mul_comm]

theorem value_lt (f : Format) (code : Nat) :
    f.value code < 2 * f.binade * 2 ^ f.exponent code := by
  refine mul_lt_mul_of_pos_right ?_ (two_zpow_pos _)
  exact_mod_cast f.mantissa_lt code

/-- A point that is picked is a decimal as it should be; ten is written as one. -/
theorem standsFor_of_pick (hregular : f.isBinadeStart code = false) (hpos : 0 < code) {tie : Tie}
    {k : Int} {c : Nat} (hpick : (Interval.ofCode f code).pick tie k = some c)
    (hlead : (10 : ℚ) ^ k ≤ f.value code)
    (hdigits : f.value code < 10 ^ (k + 1) ∨ (2 : ℚ) ^ f.exponent code ≤ 10 ^ (k + 1)) :
    StandsFor (if c = 10 then ⟨1, k + 1⟩ else ⟨c, k⟩) f code := by
  obtain ⟨⟨hbelow, habove⟩, hrounds, hfine⟩ :=
    (Interval.pick_spec hregular hpos tie k).1 c hpick
  obtain ⟨hlow, hhigh⟩ := (Interval.ofCode f code).below_spec k
  rw [Interval.value_ofCode] at hlow hhigh
  have hten := ten_zpow_pos k
  have hB := f.binade_pos
  have hc : 0 < c := by
    refine hbelow.trans_lt' (Nat.pos_of_ne_zero fun hzero => ?_)
    rw [hzero, Nat.cast_zero, zero_add, one_mul] at hhigh
    linarith
  have hle : c ≤ 20 * f.binade := by
    have hlt : ((Interval.ofCode f code).below k : ℚ) < 20 * f.binade := by
      have hvalue : f.value code < 20 * f.binade * 10 ^ k := by
        rw [ten_zpow_succ] at hdigits
        rcases hdigits with h | h
        · have : (1 : ℚ) ≤ f.binade := by exact_mod_cast hB
          nlinarith
        · have hmul := mul_le_mul_of_nonneg_left h (by positivity : (0 : ℚ) ≤ 2 * f.binade)
          linarith [value_lt f code]
      exact lt_of_mul_lt_mul_right (hlow.trans_lt hvalue) hten.le
    have hlt' : (Interval.ofCode f code).below k < 20 * f.binade := by exact_mod_cast hlt
    omega
  have hgrid : (2 : ℚ) ^ f.exponent code ≤ 10 ^ k ∨ ∃ k' : Int,
      (10 : ℚ) ^ k' < 2 ^ f.exponent code ∧ |(c : ℚ) * 10 ^ k - f.value code| ≤ 10 ^ k' / 2 :=
    (le_or_gt _ _).imp_right fun h => ⟨k, h, hfine h⟩
  split
  · rename_i hcten
    have hvalue : value ⟨1, k + 1⟩ = c * 10 ^ k := by
      rw [value, ten_zpow_succ, hcten]
      push_cast
      ring
    refine ⟨Nat.one_pos, show 1 ≤ _ by omega, by rw [hvalue]; exact hrounds, ?_⟩
    rw [hvalue, ten_zpow_succ]
    exact hgrid.imp_left fun h => by linarith
  · exact ⟨hc, hle, hrounds, hgrid⟩

/-- The search gets through the grids that are coarser than the step. -/
theorem search_standsFor (hregular : f.isBinadeStart code = false) (hpos : 0 < code) (tie : Tie)
    (places : Nat) (k : Int) (hlead : (10 : ℚ) ^ k ≤ f.value code)
    (hplaces : (10 : ℚ) ^ k < 10 ^ places * 2 ^ f.exponent code)
    (hdigits : f.value code < 10 ^ (k + 1) ∨ (2 : ℚ) ^ f.exponent code ≤ 10 ^ (k + 1)) :
    ((Interval.ofCode f code).search tie (places + 1) k).StandsFor f code := by
  induction places generalizing k with
  | zero =>
    rw [Interval.search]
    split
    · rename_i hpick
      exact standsFor_of_pick hregular hpos hpick hlead hdigits
    · rename_i hpick
      have hcoarse := (Interval.pick_spec hregular hpos tie k).2 hpick
      linarith
  | succ places ih =>
    rw [Interval.search]
    split
    · rename_i hpick
      exact standsFor_of_pick hregular hpos hpick hlead hdigits
    · rename_i hpick
      have hcoarse := (Interval.pick_spec hregular hpos tie k).2 hpick
      have hstep : (10 : ℚ) ^ k = 10 * 10 ^ (k - 1) := by
        rw [← ten_zpow_succ, sub_add_cancel]
      refine ih (k - 1) (by linarith [ten_zpow_pos (k - 1)]) ?_ ?_
      · rw [pow_succ] at hplaces
        linarith
      · rw [sub_add_cancel]
        exact Or.inr hcoarse

/-- The shortest decimal is found for every member with the same step on both sides. -/
theorem shortest_standsFor (hp : 2 ≤ f.precision) (hregular : f.isBinadeStart code = false)
    (hpos : 0 < code) (tie : Tie) : (shortest f tie code).StandsFor f code := by
  obtain ⟨p, hp'⟩ := Nat.exists_eq_add_of_le hp
  have hvalue : 0 < f.value code :=
    mul_pos (Nat.cast_pos.2 (f.mantissa_pos hpos)) (two_zpow_pos _)
  have hbelow : (10 : ℚ) ^ Int.log 10 (f.value code) ≤ f.value code :=
    Int.zpow_log_le_self (by decide) hvalue
  have habove : f.value code < (10 : ℚ) ^ (Int.log 10 (f.value code) + 1) :=
    Int.lt_zpow_succ_log_self (by decide) _
  have hprecision : f.precision = p + 1 + 1 := by omega
  have hplaces : (2 : ℚ) * f.binade ≤ 10 ^ (p + 1) := by
    rw [f.cast_binade, hprecision, Nat.add_sub_cancel, ← pow_succ']
    calc (2 : ℚ) ^ (p + 1 + 1) = 4 * 2 ^ p := by ring
      _ ≤ 10 * 10 ^ p := by gcongr <;> norm_num
      _ = 10 ^ (p + 1) := (pow_succ' _ _).symm
  have hlog : log10Quotient (f.quotient code).1 (f.quotient code).2 = Int.log 10 (f.value code) :=
    log10Quotient_eq_log (f.isQuotient_quotient code) hvalue
  have hsearch : shortest f tie code = (Interval.ofCode f code).search tie f.precision
      (log10Quotient (f.quotient code).1 (f.quotient code).2) := rfl
  rw [hsearch, hlog, hprecision]
  refine search_standsFor hregular hpos tie (p + 1) _ hbelow ?_ (Or.inl habove)
  exact (hbelow.trans_lt (value_lt f code)).trans_le
    (mul_le_mul_of_nonneg_right hplaces (two_zpow_pos _).le)

end DeferredMatrix.Decimal
