import Mathlib

/-! # Log-concave power series

A power series with nonnegative coefficients is log-concave if the ratios of neighbouring
coefficients fall. Its coefficients are taken at the integers here, where they are 0 below 0
(`coeffAt`), so that the sums of a product have no ends.

A product of log-concave series is log-concave (`LogConcave.mul`). By the formula of Cauchy and
Binet the difference of the two sides is a sum of products of two minors each, of one factor and of
the other, and the two have one sign (`sum_mul_sum_le`). -/

namespace Mlmq.Lib.Series

open PowerSeries

variable {K : Type*} [Field K]

/-- The coefficient, and 0 below 0. -/
noncomputable def coeffAt (f : PowerSeries K) (x : ℤ) : K := if 0 ≤ x then coeff x.toNat f else 0

theorem coeffAt_natCast (f : PowerSeries K) (n : ℕ) : coeffAt f n = coeff n f := by
  rw [coeffAt, if_pos (Int.natCast_nonneg n), Int.toNat_natCast]

theorem coeffAt_of_neg (f : PowerSeries K) {x : ℤ} (hx : x < 0) : coeffAt f x = 0 :=
  if_neg (not_le.mpr hx)

/-! ### Products -/

/-- A coefficient of a product, as a sum over any range that is long enough. -/
theorem coeffAt_mul (f g : PowerSeries K) {x : ℤ} {N : ℕ} (hx : x < N) :
    coeffAt (f * g) x = ∑ k ∈ Finset.range N, coeffAt f (x - k) * coeffAt g k := by
  rcases lt_or_ge x 0 with hneg | hpos
  · rw [coeffAt_of_neg _ hneg]
    refine (Finset.sum_eq_zero fun k _ => ?_).symm
    rw [coeffAt_of_neg f (by omega), zero_mul]
  · lift x to ℕ using hpos
    have hsub : Finset.range (x + 1) ⊆ Finset.range N := Finset.range_subset_range.mpr (by omega)
    rw [coeffAt_natCast, mul_comm, coeff_mul, Finset.Nat.sum_antidiagonal_eq_sum_range_succ
      (fun i j => coeff i g * coeff j f), ← Finset.sum_subset hsub fun k _ hk => ?_]
    · refine Finset.sum_congr rfl fun k hk => ?_
      have hle : k ≤ x := Nat.lt_succ_iff.mp (Finset.mem_range.mp hk)
      rw [← Nat.cast_sub hle, coeffAt_natCast, coeffAt_natCast, mul_comm]
    · rw [Finset.mem_range] at hk
      rw [coeffAt_of_neg f (by omega), zero_mul]

/-- The same with the second factor one place further on. -/
theorem coeffAt_mul_shift (f g : PowerSeries K) {x : ℤ} {N : ℕ} (hx : x < N) :
    coeffAt (f * g) x =
      ∑ k ∈ Finset.range (N + 1), coeffAt f (x + 1 - k) * coeffAt g (k - 1) := by
  rw [Finset.sum_range_succ', coeffAt_mul f g hx]
  have hzero : coeffAt g (((0 : ℕ) : ℤ) - 1) = 0 := coeffAt_of_neg g (by norm_num)
  rw [hzero, mul_zero, add_zero]
  refine Finset.sum_congr rfl fun k _ => ?_
  congr 2
  · push_cast
    ring
  · push_cast
    ring

variable [LinearOrder K]

/-- The ratios of neighbouring coefficients fall. -/
structure LogConcave (f : PowerSeries K) : Prop where
  nonneg : ∀ x, 0 ≤ coeffAt f x
  ratio : ∀ x y, x ≤ y → coeffAt f x * coeffAt f (y + 1) ≤ coeffAt f (x + 1) * coeffAt f y

variable {f g : PowerSeries K}

/-- Of four places with one sum, the inner ones have the greater product. -/
theorem LogConcave.spread (h : LogConcave f) {x y : ℤ} (hxy : x ≤ y) (d : ℕ) :
    coeffAt f x * coeffAt f (y + d) ≤ coeffAt f (x + d) * coeffAt f y := by
  induction d generalizing x with
  | zero => simp
  | succ d ih =>
    rcases hxy.eq_or_lt with rfl | hlt
    · exact (mul_comm _ _).le
    · have hstep := h.ratio x (y + d) (by omega)
      have hrest := ih (x := x + 1) (by omega)
      rw [show x + 1 + (d : ℤ) = x + ((d + 1 : ℕ) : ℤ) by push_cast; ring] at hrest
      rw [show y + (d : ℤ) + 1 = y + ((d + 1 : ℕ) : ℤ) by push_cast; ring] at hstep
      exact hstep.trans hrest

variable [IsStrictOrderedRing K]

/-- Sums of products against each other, when the minors have one sign. -/
theorem sum_mul_sum_le {s : Finset ℕ} {α β b c : ℕ → K}
    (h : ∀ k l, 0 ≤ (α k * β l - α l * β k) * (b k * c l - b l * c k)) :
    (∑ k ∈ s, α k * c k) * (∑ k ∈ s, β k * b k) ≤
      (∑ k ∈ s, α k * b k) * (∑ k ∈ s, β k * c k) := by
  have hexpand : ∑ k ∈ s, ∑ l ∈ s, (α k * β l - α l * β k) * (b k * c l - b l * c k) =
      2 * ((∑ k ∈ s, α k * b k) * (∑ k ∈ s, β k * c k) -
        (∑ k ∈ s, α k * c k) * (∑ k ∈ s, β k * b k)) := by
    calc ∑ k ∈ s, ∑ l ∈ s, (α k * β l - α l * β k) * (b k * c l - b l * c k)
        = ∑ k ∈ s, ∑ l ∈ s, (α k * b k * (β l * c l) - α k * c k * (β l * b l) -
            (β k * b k * (α l * c l) - β k * c k * (α l * b l))) :=
          Finset.sum_congr rfl fun k _ => Finset.sum_congr rfl fun l _ => by ring
      _ = _ := by
          simp only [Finset.sum_sub_distrib, ← Finset.sum_mul_sum]
          ring
  have hnonneg : 0 ≤ ∑ k ∈ s, ∑ l ∈ s, (α k * β l - α l * β k) * (b k * c l - b l * c k) :=
    Finset.sum_nonneg fun k _ => Finset.sum_nonneg fun l _ => h k l
  rw [hexpand] at hnonneg
  exact sub_nonneg.mp (nonneg_of_mul_nonneg_right hnonneg two_pos)

/-- The minors of a log-concave series have one sign. -/
theorem LogConcave.minor (h : LogConcave f) {x y : ℤ} (hxy : x ≤ y) {k l : ℕ} (hkl : k ≤ l) :
    0 ≤ coeffAt f (x - k) * coeffAt f (y - l) - coeffAt f (x - l) * coeffAt f (y - k) := by
  have hspread := h.spread (show x - l ≤ y - l by omega) (l - k)
  rw [show x - l + ((l - k : ℕ) : ℤ) = x - k by omega,
    show y - l + ((l - k : ℕ) : ℤ) = y - k by omega] at hspread
  exact sub_nonneg.mpr hspread

/-- **A product of log-concave series is log-concave.** -/
theorem LogConcave.mul (hf : LogConcave f) (hg : LogConcave g) : LogConcave (f * g) := by
  refine ⟨fun x => ?_, fun x y hxy => ?_⟩
  · rw [coeffAt_mul f g (show x < (x.toNat + 1 : ℕ) by omega)]
    exact Finset.sum_nonneg fun k _ => mul_nonneg (hf.nonneg _) (hg.nonneg _)
  · obtain ⟨N, hN⟩ : ∃ N : ℕ, y + 1 < N := ⟨(y + 2).toNat, by omega⟩
    rw [coeffAt_mul_shift f g (show x < N by omega), coeffAt_mul_shift f g (show y < N by omega),
      coeffAt_mul f g (show x + 1 < (N + 1 : ℕ) by omega),
      coeffAt_mul f g (show y + 1 < (N + 1 : ℕ) by omega)]
    refine sum_mul_sum_le fun k l => ?_
    have hminors : ∀ {k l : ℕ}, k ≤ l →
        0 ≤ (coeffAt f (x + 1 - k) * coeffAt f (y + 1 - l) -
          coeffAt f (x + 1 - l) * coeffAt f (y + 1 - k)) *
          (coeffAt g k * coeffAt g (l - 1) - coeffAt g l * coeffAt g (k - 1)) := by
      intro k l hkl
      have hratio := hg.ratio (k - 1) (l - 1) (by omega)
      rw [sub_add_cancel, sub_add_cancel, mul_comm (coeffAt g (k - 1))] at hratio
      exact mul_nonneg (hf.minor (by omega) hkl) (sub_nonneg.mpr hratio)
    rcases le_total k l with hkl | hkl
    · exact hminors hkl
    · have hswap := hminors hkl
      linarith

end Mlmq.Lib.Series
