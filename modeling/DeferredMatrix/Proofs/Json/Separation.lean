import DeferredMatrix.Proofs.Decimal.Shortest
import DeferredMatrix.Proofs.Json.Doubles

/-!
# Decimals keep away from midpoints

Between two neighbouring 32-bit floats lies a midpoint `m * 2 ^ e`. A decimal `n * 10 ^ k` that is
read as a double could be moved to the other side of it. It is not if it is no finer than the
floats around it: then it is farther from every midpoint than the error of reading, or it is
a midpoint itself, or it is one decimal that is exceptionally near to one (`separation`).

How near `n * 10 ^ k` comes to `m * 2 ^ e` is bounded by two approximations of `10 ^ k / 2 ^ e` by
quotients, between which the true ratio lies: `n` and `m` are whole combinations of their
denominators and numerators, and few combinations come nearer than the worse approximation
(`Approximations.cases`). The approximations are convergents of the ratio. That they are good
enough is checked over all exponents (`checked_table`).
-/

namespace DeferredMatrix.Json

open Binary Decimal

/-! ## Two approximations -/

/-- Two approximations `p / q` and `p' / q'` of a ratio of naturals `Q / P`. -/
structure Approximations where
  p : Nat
  q : Nat
  p' : Nat
  q' : Nat

namespace Approximations

variable (a : Approximations) (P Q : Nat)

/-- What is left of `Q` by the first approximation. -/
def remainder : Int := a.q * Q - a.p * P

def remainder' : Int := a.q' * Q - a.p' * P

/-- The approximations are neighbours, and the ratio lies between them. -/
structure Enclose : Prop where
  neighbours : a.p * a.q' = a.p' * a.q + 1 ∨ a.p * a.q' + 1 = a.p' * a.q
  between : a.p * P ≤ a.q * Q ∧ a.q' * Q ≤ a.p' * P ∨ a.q * Q ≤ a.p * P ∧ a.p' * P ≤ a.q' * Q
  pos : 0 < a.q'

variable {a P Q}

/-- Whole numbers are whole combinations of neighbours. -/
theorem Enclose.exists_combination (h : a.Enclose P Q) (n m : Int) : ∃ x y : Int,
    n = x * a.q + y * a.q' ∧
    n * Q - m * P = x * a.remainder P Q + y * a.remainder' P Q := by
  obtain ⟨d, hd, hone⟩ : ∃ d : Int, a.p * a.q' - a.p' * a.q = d ∧ d * d = 1 := by
    rcases h.neighbours with h | h
    · have hdet : (a.p * a.q' : Int) = a.p' * a.q + 1 := by exact_mod_cast h
      exact ⟨1, by linarith, by norm_num⟩
    · have hdet : (a.p * a.q' : Int) + 1 = a.p' * a.q := by exact_mod_cast h
      exact ⟨-1, by linarith, by norm_num⟩
  have hn : n = d * (m * a.q' - n * a.p') * a.q + d * (n * a.p - m * a.q) * a.q' := by
    linear_combination (-n) * hone + (-n * d) * hd
  have hm : m = d * (m * a.q' - n * a.p') * a.p + d * (n * a.p - m * a.q) * a.p' := by
    linear_combination (-m) * hone + (-m * d) * hd
  refine ⟨d * (m * a.q' - n * a.p'), d * (n * a.p - m * a.q), hn, ?_⟩
  rw [remainder, remainder']
  linear_combination (Q : Int) * hn - (P : Int) * hm

theorem Enclose.opposite (h : a.Enclose P Q) : 0 ≤ a.remainder P Q ∧ a.remainder' P Q ≤ 0 ∨
    a.remainder P Q ≤ 0 ∧ 0 ≤ a.remainder' P Q := by
  simp only [remainder, remainder', sub_nonneg, sub_nonpos]
  exact_mod_cast h.between

/-- Remainders of opposite signs do not cancel if they are taken with opposite signs. -/
theorem abs_le_of_opposite {r r' x y : Int} (h : 0 ≤ r ∧ r' ≤ 0 ∨ r ≤ 0 ∧ 0 ≤ r') (hx : 0 < x)
    (hy : y ≤ 0) : |r| ≤ |x * r + y * r'| := by
  rcases h with ⟨hr, hr'⟩ | ⟨hr, hr'⟩
  · have hle : r ≤ x * r + y * r' := by nlinarith [mul_nonneg_of_nonpos_of_nonpos hy hr']
    rw [abs_of_nonneg hr]
    exact hle.trans (le_abs_self _)
  · have hle : -r ≤ -(x * r + y * r') := by nlinarith [mul_nonpos_of_nonpos_of_nonneg hy hr']
    rw [abs_of_nonpos hr]
    exact hle.trans (neg_le_abs _)

/-- A combination that comes nearer than the first approximation is a multiple of the second, or
it takes positive multiples of both. -/
theorem Enclose.cases (h : a.Enclose P Q) {x y : Int} (hn : 0 < x * a.q + y * a.q') :
    |a.remainder P Q| ≤ |x * a.remainder P Q + y * a.remainder' P Q| ∨ x = 0 ∨ 0 < x ∧ 0 < y := by
  have hq : (0 : Int) ≤ a.q := Int.natCast_nonneg _
  have hq' : (0 : Int) < a.q' := by exact_mod_cast h.pos
  rcases lt_trichotomy x 0 with hx | hx | hx
  · have hy : 0 ≤ y := by
      refine not_lt.1 fun hy => ?_
      nlinarith
    refine Or.inl ((abs_le_of_opposite h.opposite (neg_pos.2 hx) (neg_nonpos.2 hy)).trans_eq ?_)
    rw [neg_mul, neg_mul, ← neg_add, abs_neg]
  · exact Or.inr (Or.inl hx)
  · rcases le_or_gt y 0 with hy | hy
    · exact Or.inl (abs_le_of_opposite h.opposite hx hy)
    · exact Or.inr (Or.inr ⟨hx, hy⟩)

/-- Fractions with denominators below that of the second approximation do not come nearer than
the first. If the second approximation is exact, no fraction does that is not exact too. -/
theorem Enclose.abs_remainder_le (h : a.Enclose P Q) {n : Nat} {m : Int} (hn : 0 < n)
    (hbound : n < a.q' ∨ a.remainder' P Q = 0) :
    a.q' ≤ n ∧ (n * Q : Int) = m * P ∨ |a.remainder P Q| ≤ |(n * Q : Int) - m * P| := by
  obtain ⟨x, y, hxy, hremainder⟩ := h.exists_combination n m
  have hq : (0 : Int) ≤ a.q := Int.natCast_nonneg _
  have hpos : 0 < x * a.q + y * a.q' := hxy ▸ Int.natCast_pos.2 hn
  rcases h.cases hpos with hle | hx | ⟨hx, hy⟩
  · exact Or.inr (hremainder ▸ hle)
  · rw [hx, zero_mul, zero_add] at hxy hpos
    have hy : 0 < y := (pos_iff_pos_of_mul_pos hpos).2 (Int.natCast_pos.2 h.pos)
    have hle : a.q' ≤ n := by
      have : (a.q' : Int) ≤ n := hxy ▸ le_mul_of_one_le_left (Int.natCast_nonneg _) hy
      exact_mod_cast this
    rw [hx, hbound.resolve_left (not_lt.2 hle), mul_zero, zero_mul, add_zero] at hremainder
    exact Or.inl ⟨hle, sub_eq_zero.1 hremainder⟩
  · rcases hbound with hlt | hexact
    · have hlt' : (n : Int) < a.q' := by exact_mod_cast hlt
      nlinarith
    · rw [hremainder, hexact, mul_zero, add_zero, abs_mul]
      exact Or.inr (le_mul_of_one_le_left (abs_nonneg _) (Int.one_le_abs hx.ne'))

/-- Other fractions with denominators below twice that of the second approximation do not come
much nearer. -/
theorem Enclose.abs_remainder_sub_le (h : a.Enclose P Q) {n : Nat} {m : Int} (hn : 0 < n)
    (hbound : n < 2 * a.q') (hne : n ≠ a.q') :
    |a.remainder P Q| - |a.remainder' P Q| ≤ |(n * Q : Int) - m * P| := by
  obtain ⟨x, y, hxy, hremainder⟩ := h.exists_combination n m
  have hq : (0 : Int) ≤ a.q := Int.natCast_nonneg _
  have hbound' : (n : Int) < 2 * a.q' := by exact_mod_cast hbound
  have hpos : 0 < x * a.q + y * a.q' := hxy ▸ Int.natCast_pos.2 hn
  have hone (hx : 0 ≤ x) (hy : 0 < y) : y = 1 := by
    have hprod := mul_nonneg hx hq
    by_contra hy'
    have : 2 ≤ y := by omega
    nlinarith
  rcases h.cases hpos with hle | hx | ⟨hx, hy⟩
  · rw [hremainder]
    linarith [abs_nonneg (a.remainder' P Q)]
  · rw [hx, zero_mul, zero_add] at hxy hpos
    have hy := (pos_iff_pos_of_mul_pos hpos).2 (Int.natCast_pos.2 h.pos)
    rw [hone hx.ge hy, one_mul] at hxy
    exact absurd (by exact_mod_cast hxy) hne
  · rw [hremainder, hone hx.le hy, one_mul]
    have hx' : |a.remainder P Q| ≤ |x * a.remainder P Q| := by
      rw [abs_mul]
      exact le_mul_of_one_le_left (abs_nonneg _) (Int.one_le_abs hx.ne')
    have htriangle := abs_sub_abs_le_abs_sub (x * a.remainder P Q) (-a.remainder' P Q)
    rw [abs_neg, sub_neg_eq_add] at htriangle
    linarith

/-- What makes approximations good enough for decimals that end in the place `k`: fractions that
are in question have smaller denominators, or are exact where powers of ten are doubles, and what
is left by the first approximation exceeds the error of reading. -/
structure Separate (a : Approximations) (P Q : Nat) (k : Int) : Prop where
  enclose : a.Enclose P Q
  reach : a.q' * Q = a.p' * P ∧ k.natAbs ≤ 22 ∨ 2 ^ 25 * P < a.q' * Q
  apart : Double.errorUnits k * P + 2 ^ 35 * (a.p * P) < 2 ^ 35 * (a.q * Q) ∨
    Double.errorUnits k * P + 2 ^ 35 * (a.q * Q) < 2 ^ 35 * (a.p * P)

theorem Separate.error_lt {k : Int} (h : a.Separate P Q k) {n : Nat} {m : Int} (hn : 0 < n)
    (hbound : n * Q ≤ 2 ^ 25 * P) : (n * Q : Int) = m * P ∧ k.natAbs ≤ 22 ∨
      (Double.errorUnits k * (n * Q) : Int) < 2 ^ 60 * |(n * Q : Int) - m * P| := by
  have hsmall : 2 ^ 25 * P < a.q' * Q → n < a.q' := fun h =>
    lt_of_mul_lt_mul_right (hbound.trans_lt h) (Nat.zero_le _)
  have hexact : a.q' * Q = a.p' * P → a.remainder' P Q = 0 := fun h =>
    sub_eq_zero.2 (by exact_mod_cast h)
  rcases h.enclose.abs_remainder_le (m := m) hn (h.reach.symm.imp hsmall fun h => hexact h.1) with
    ⟨hle, hexact⟩ | hle
  · exact Or.inl ⟨hexact, (h.reach.resolve_right fun h => not_lt.2 hle (hsmall h)).2⟩
  · refine Or.inr ?_
    have hapart : (Double.errorUnits k * P : Int) < |a.remainder P Q| * 2 ^ 35 := by
      rw [remainder]
      rcases h.apart with h | h
      · have h' : (Double.errorUnits k * P + 2 ^ 35 * (a.p * P) : Int) < 2 ^ 35 * (a.q * Q) := by
          exact_mod_cast h
        linarith [le_abs_self (a.q * Q - a.p * P : Int)]
      · have h' : (Double.errorUnits k * P + 2 ^ 35 * (a.q * Q) : Int) < 2 ^ 35 * (a.p * P) := by
          exact_mod_cast h
        linarith [neg_le_abs (a.q * Q - a.p * P : Int)]
    calc (Double.errorUnits k * (n * Q) : Int) ≤ Double.errorUnits k * (2 ^ 25 * P) :=
          mul_le_mul_of_nonneg_left (by exact_mod_cast hbound) (Int.natCast_nonneg _)
      _ = Double.errorUnits k * P * 2 ^ 25 := by ring
      _ < |a.remainder P Q| * 2 ^ 35 * 2 ^ 25 := by linarith
      _ ≤ 2 ^ 60 * |(n * Q : Int) - m * P| := by linarith

instance : Decidable (a.Enclose P Q) :=
  decidable_of_iff
    ((a.p * a.q' = a.p' * a.q + 1 ∨ a.p * a.q' + 1 = a.p' * a.q) ∧
      (a.p * P ≤ a.q * Q ∧ a.q' * Q ≤ a.p' * P ∨ a.q * Q ≤ a.p * P ∧ a.p' * P ≤ a.q' * Q) ∧
      0 < a.q')
    ⟨fun ⟨h, h', h''⟩ => ⟨h, h', h''⟩, fun h => ⟨h.neighbours, h.between, h.pos⟩⟩

instance {k : Int} : Decidable (a.Separate P Q k) :=
  decidable_of_iff
    (a.Enclose P Q ∧ (a.q' * Q = a.p' * P ∧ k.natAbs ≤ 22 ∨ 2 ^ 25 * P < a.q' * Q) ∧
      (Double.errorUnits k * P + 2 ^ 35 * (a.p * P) < 2 ^ 35 * (a.q * Q) ∨
        Double.errorUnits k * P + 2 ^ 35 * (a.q * Q) < 2 ^ 35 * (a.p * P)))
    ⟨fun ⟨h, h', h''⟩ => ⟨h, h', h''⟩, fun h => ⟨h.enclose, h.reach, h.apart⟩⟩

/-- Euclid's algorithm with remainders `u` and `v`. It stops where the second approximation is
exact or its denominator is out of question. -/
def convergents (P Q : Nat) : (steps : Nat) → (u v : Nat) → Approximations → Approximations
  | 0, _, _, a => a
  | steps + 1, u, v, a =>
    if v = 0 ∨ 2 ^ 25 * P < a.q' * Q then a
    else convergents P Q steps v (u % v) ⟨a.p', a.q', u / v * a.p' + a.p, u / v * a.q' + a.q⟩

end Approximations

/-! ## All exponents -/

/-- The one pair of exponents where a decimal comes too near to a midpoint. -/
def IsCrowded (e k : Int) : Prop := e = -108 ∧ k = -32

instance (e k : Int) : Decidable (IsCrowded e k) := inferInstanceAs (Decidable (_ ∧ _))

/-- What is checked of a pair of exponents: powers of ten that are finer than floats are so by
a margin, and those that are not have good approximations. -/
def Checked (e k : Int) : Prop :=
  let P := (commonScale e k).1
  let Q := (commonScale e k).2
  (1 * Q < 2 * P → 64 * Q ≤ 127 * P) ∧
  (2 * P ≤ 1 * Q → 1 * Q ≤ 2 ^ 25 * P → ¬ IsCrowded e k →
    (Approximations.convergents P Q 60 P (Q % P) ⟨1, 0, Q / P, 1⟩).Separate P Q k)

instance (e k : Int) : Decidable (Checked e k) := inferInstanceAs (Decidable (_ ∧ _))

/-- The place of the leading digit of the step of the floats around `2 ^ e`. -/
def leadingPlace (e : Int) : Int := (e + 1) * 30103 / 100000

/-- Powers of ten on both sides of the step. -/
def IsLeading (e k : Int) : Prop :=
  1 * (commonScale e k).2 ≤ 2 * (commonScale e k).1 ∧
    ¬ 1 * (commonScale e (k + 1)).2 ≤ 2 * (commonScale e (k + 1)).1

instance (e k : Int) : Decidable (IsLeading e k) := inferInstanceAs (Decidable (_ ∧ _))

theorem isLeading_table : ∀ i : Nat, i < 254 →
    IsLeading ((i : Int) - 150) (leadingPlace ((i : Int) - 150)) := by
  decide +kernel

theorem checked_table : ∀ i : Nat, i < 254 → ∀ j : Nat, j < 9 →
    Checked ((i : Int) - 150) (leadingPlace ((i : Int) - 150) + j) := by
  decide +kernel

section Exponents

variable {e k : Int} (he : -150 ≤ e ∧ e ≤ 103)

include he

theorem leadingPlace_spec : (10 : ℚ) ^ leadingPlace e ≤ 2 * 2 ^ e ∧
    (2 : ℚ) * 2 ^ e < 10 ^ (leadingPlace e + 1) := by
  obtain ⟨i, hi⟩ := Int.eq_ofNat_of_zero_le (a := e + 150) (by omega)
  obtain rfl : e = (i : Int) - 150 := by omega
  obtain ⟨hle, hlt⟩ := isLeading_table i (by omega)
  rw [commonScale_le_iff] at hle hlt
  simpa using And.intro hle (not_le.1 hlt)

theorem checked_of_near (hlow : leadingPlace e ≤ k) (hhigh : (10 : ℚ) ^ k ≤ 2 ^ 25 * 2 ^ e) :
    Checked e k := by
  obtain ⟨i, hi⟩ := Int.eq_ofNat_of_zero_le (a := e + 150) (by omega)
  obtain ⟨j, hj⟩ := Int.eq_ofNat_of_zero_le (a := k - leadingPlace e) (by omega)
  have hbound : (10 : ℚ) ^ k < 10 ^ (leadingPlace e + 9) := by
    have hsplit : (10 : ℚ) ^ (leadingPlace e + 9) = 10 ^ (leadingPlace e + 1) * 10 ^ 8 := by
      rw [← zpow_natCast, ← zpow_add₀ (by norm_num)]
      congr 1
      omega
    rw [hsplit]
    linarith [(leadingPlace_spec he).2, two_zpow_pos e]
  have hk := (zpow_lt_zpow_iff_right₀ (by norm_num)).1 hbound
  have hchecked := checked_table i (by omega) j (by omega)
  rwa [show (i : Int) - 150 = e by omega, show leadingPlace e + (j : Int) = k by omega] at hchecked

/-- Powers of ten below the step of the floats are so by a margin. -/
theorem ten_zpow_le_of_lt (hfine : (10 : ℚ) ^ k < 2 * 2 ^ e) :
    64 * (10 : ℚ) ^ k ≤ 127 * 2 ^ e := by
  obtain ⟨hleading, hnext⟩ := leadingPlace_spec he
  have hle : k ≤ leadingPlace e :=
    Int.lt_add_one_iff.1 ((zpow_lt_zpow_iff_right₀ (by norm_num)).1 (hfine.trans hnext))
  rcases hle.lt_or_eq with hlt | rfl
  · have hmono : (10 : ℚ) ^ (k + 1) ≤ 10 ^ leadingPlace e :=
      zpow_le_zpow_right₀ (by norm_num) (by omega)
    rw [ten_zpow_succ] at hmono
    linarith [two_zpow_pos e]
  · have hchecked := (checked_of_near he le_rfl (by linarith [two_zpow_pos e])).1
    have hfine' := not_le.1
      (mt (le_commonScale_iff e (leadingPlace e) 2 1).1 (by simpa using hfine))
    exact_mod_cast (commonScale_le_iff e (leadingPlace e) 127 64).1 (hchecked hfine')

end Exponents

/-! ## Decimals and midpoints -/

section Midpoints

variable {e k : Int} {n : Nat} {m : Int}

/-- Whether a decimal is a midpoint, and how far it is from one, in whole numbers. -/
theorem scaled_iff :
    ((n * (commonScale e k).2 : Int) = m * (commonScale e k).1 ↔ (n : ℚ) * 10 ^ k = m * 2 ^ e) ∧
    ((Double.errorUnits k * (n * (commonScale e k).2) : Int) <
        2 ^ 60 * |(n * (commonScale e k).2 : Int) - m * (commonScale e k).1| ↔
      Double.errorUnits k / 2 ^ 60 * (n * 10 ^ k) < |(n : ℚ) * 10 ^ k - m * 2 ^ e|) := by
  obtain ⟨s, hs, hP, hQ⟩ := commonScale_spec e k
  constructor
  · rw [← @Int.cast_inj ℚ]
    push_cast
    rw [hP, hQ, ← mul_assoc, ← mul_assoc, mul_left_inj' hs.ne']
  · have hdist : (n : ℚ) * (10 ^ k * s) - m * (2 ^ e * s) = (n * 10 ^ k - m * 2 ^ e) * s := by ring
    rw [← @Int.cast_lt ℚ]
    push_cast
    rw [hP, hQ, hdist, abs_mul, abs_of_pos hs, ← mul_assoc, ← mul_assoc, ← mul_assoc,
      mul_lt_mul_iff_left₀ hs, div_mul_eq_mul_div, div_lt_iff₀' (by norm_num), mul_assoc]
    norm_num

/-- Where decimals come too near to a midpoint, all but one of them keep away. -/
theorem separation_of_crowded (hcrowded : IsCrowded e k) (hn : 0 < n) (hne : n ≠ 7038531)
    (hbound : (n : ℚ) * 10 ^ k ≤ 2 ^ 25 * 2 ^ e) :
    Double.errorUnits k / 2 ^ 60 * (n * 10 ^ k) < |(n : ℚ) * 10 ^ k - m * 2 ^ e| := by
  obtain ⟨rfl, rfl⟩ := hcrowded
  let a : Approximations := ⟨14495598, 4466801, 22841339, 7038531⟩
  have hP : (commonScale (-108) (-32)).1 = 10 ^ 32 := by decide +kernel
  have hQ : (commonScale (-108) (-32)).2 = 2 ^ 108 := by decide +kernel
  have henclose : a.Enclose (10 ^ 32) (2 ^ 108) := by decide +kernel
  have hscaled : n * 2 ^ 108 ≤ 2 ^ 25 * 10 ^ 32 := by
    have hle := (commonScale_le_iff (-108) (-32) (2 ^ 25) n).2 (by exact_mod_cast hbound)
    rwa [hP, hQ] at hle
  have hfar := henclose.abs_remainder_sub_le (m := m) hn (show n < 2 * 7038531 by omega) hne
  have hr : a.remainder (10 ^ 32) (2 ^ 108) = 14161621728095866040877056 := by decide +kernel
  have hr' : a.remainder' (10 ^ 32) (2 ^ 108) = -72308226071337384280064 := by decide +kernel
  rw [hr, hr'] at hfar
  rw [← scaled_iff.2, hP, hQ]
  have hunits : Double.errorUnits (-32) = 257 := by decide
  have hscaled' : (n : Int) * 2 ^ 108 ≤ 2 ^ 25 * 10 ^ 32 := by exact_mod_cast hscaled
  rw [hunits]
  push_cast at hfar ⊢
  norm_num at hfar hscaled' ⊢
  linarith

/-- A decimal that is no finer than the floats around it keeps away from midpoints. -/
theorem separation (m : Int) (he : -150 ≤ e ∧ e ≤ 103) (hn : 0 < n)
    (hcoarse : 2 * 2 ^ e ≤ (10 : ℚ) ^ k) (hbound : (n : ℚ) * 10 ^ k ≤ 2 ^ 25 * 2 ^ e) :
    (IsCrowded e k ∧ n = 7038531) ∨ ((n : ℚ) * 10 ^ k = m * 2 ^ e ∧ k.natAbs ≤ 22) ∨
      Double.errorUnits k / 2 ^ 60 * (n * 10 ^ k) < |(n : ℚ) * 10 ^ k - m * 2 ^ e| := by
  by_cases hcrowded : IsCrowded e k
  · by_cases hne : n = 7038531
    · exact Or.inl ⟨hcrowded, hne⟩
    · exact Or.inr (Or.inr (separation_of_crowded hcrowded hn hne hbound))
  · have hone : (10 : ℚ) ^ k ≤ n * 10 ^ k :=
      le_mul_of_one_le_left (ten_zpow_pos k).le (by exact_mod_cast hn)
    have hlow : leadingPlace e ≤ k :=
      (zpow_le_zpow_iff_right₀ (by norm_num)).1 ((leadingPlace_spec he).1.trans hcoarse)
    have hreach := hone.trans hbound
    have hseparate := (checked_of_near he hlow hreach).2
      ((le_commonScale_iff e k 2 1).2 (by push_cast; linarith))
      ((commonScale_le_iff e k (2 ^ 25) 1).2 (by push_cast; linarith)) hcrowded
    have hscaled : n * (commonScale e k).2 ≤ 2 ^ 25 * (commonScale e k).1 :=
      (commonScale_le_iff e k (2 ^ 25) n).2 (by exact_mod_cast hbound)
    exact Or.inr ((hseparate.error_lt hn hscaled).imp
      (fun h => ⟨scaled_iff.1.1 h.1, h.2⟩) scaled_iff.2.1)

end Midpoints

end DeferredMatrix.Json
