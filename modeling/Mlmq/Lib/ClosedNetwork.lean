import Mathlib

/-! # Closed networks of stations

`n` customers are spread over stations. A station has a weight for each number of customers; the
product-form distribution gives each way to spread the customers the product of its weights, over
the sum of these products (`normalizing`). As generating functions, the normalizing constants are
the product of the stations' weights.

* `sum_marginal`, `marginal_nonneg`: what a station sees is a distribution.
* `marginal_succ`: the distribution for one more customer, from the one before.
* `sum_mean`: the mean numbers of customers add up.
* `mean_geometric`, `mean_exponential`: the means of a station with one server, and of one where
  nobody waits.
* `forall_sum_mean_eq_zero_iff`: a linear relation between the means, for all populations up to
  `n`, is one between the power sums of the stations (`powerSum`), which each station has for
  itself. -/

namespace Mlmq.Lib.ClosedNetwork

open PowerSeries

/-- A station, by the weights of its numbers of customers. -/
structure Station (K : Type*) [Field K] [LinearOrder K] where
  weights : PowerSeries K
  weights_zero : constantCoeff weights = 1
  weights_nonneg : ∀ j, 0 ≤ coeff j weights

variable {K : Type*} [Field K]

/-- The power sums, from the weights. -/
def powerSum (w : ℕ → K) (k : ℕ) : K :=
  k * w k - ∑ i : Fin k, powerSum w i * w (k - i)
termination_by k
decreasing_by exact i.isLt

/-- The power sums of a geometric sequence are its powers. -/
theorem powerSum_geometric (D : K) {k : ℕ} (hk : 1 ≤ k) :
    powerSum (fun j => D ^ j) k = D ^ k := by
  induction k using Nat.strong_induction_on with
  | _ k ih =>
    have hterm : ∀ i ∈ Finset.range k, powerSum (fun j => D ^ j) i * D ^ (k - i) =
        if i = 0 then 0 else D ^ k := by
      intro i hi
      have hik := Finset.mem_range.mp hi
      split_ifs with h0
      · rw [h0, powerSum]
        simp
      · rw [ih i hik (Nat.pos_of_ne_zero h0), ← pow_add, Nat.add_sub_cancel' hik.le]
    rw [powerSum, Fin.sum_univ_eq_sum_range (fun i => powerSum (fun j => D ^ j) i * D ^ (k - i)) k,
      Finset.sum_congr rfl hterm]
    obtain ⟨k, rfl⟩ : ∃ l, k = l + 1 := ⟨k - 1, by omega⟩
    rw [Finset.sum_range_succ']
    simp only [Nat.succ_ne_zero, if_false, if_true, Finset.sum_const, Finset.card_range]
    push_cast
    simp only [nsmul_eq_mul]
    ring

theorem coeff_X_mul_derivative (g : PowerSeries K) (n : ℕ) :
    coeff n (X * derivative K g) = n * coeff n g := by
  cases n with
  | zero => simp
  | succ n =>
    rw [coeff_succ_X_mul, coeff_derivative]
    push_cast
    ring

theorem coeff_sum_mul (l : List (PowerSeries K)) (g : PowerSeries K) (n : ℕ) :
    coeff n (l.sum * g) = (l.map fun h => coeff n (h * g)).sum := by
  induction l with
  | nil => simp
  | cons h l ih => rw [List.sum_cons, add_mul, map_add, ih, List.map_cons, List.sum_cons]

/-- A product with a series that starts with 1 vanishes up to `n` with its other factor. -/
theorem forall_coeff_mul_eq_zero_iff {g : PowerSeries K} (hg : constantCoeff g = 1)
    (h : PowerSeries K) (n : ℕ) :
    (∀ k ≤ n, coeff k (h * g) = 0) ↔ ∀ k ≤ n, coeff k h = 0 := by
  have hunit : IsUnit g := isUnit_iff_constantCoeff.mpr (hg ▸ isUnit_one)
  have hdvd := hunit.dvd_mul_right (a := X ^ (n + 1)) (b := h)
  rw [X_pow_dvd_iff, X_pow_dvd_iff] at hdvd
  simpa only [Nat.lt_succ_iff] using hdvd

variable [LinearOrder K]

/-- The normalizing constants of a network. -/
noncomputable def normalizing (net : List (Station K)) : PowerSeries K := (net.map Station.weights).prod

/-- The throughput with `n + 1` customers. -/
noncomputable def throughput (net : List (Station K)) (n : ℕ) : K :=
  coeff n (normalizing net) / coeff (n + 1) (normalizing net)

/-- The probability of `j` customers at a station when there are `n` in the network. -/
noncomputable def marginal (net : List (Station K)) (f : Station K) (n j : ℕ) : K :=
  coeff j f.weights * coeff (n - j) (normalizing net * f.weights⁻¹) / coeff n (normalizing net)

/-- The mean number of customers at a station when there are `n` in the network. -/
noncomputable def mean (net : List (Station K)) (f : Station K) (n : ℕ) : K :=
  ∑ j ∈ Finset.range (n + 1), j * marginal net f n j

/-- The logarithmic derivative of the weights: for `1 / ((1 - a z) (1 - b z) ⋯)` its coefficients are
the power sums of `a`, `b`, …. -/
noncomputable def powerSums (f : Station K) : PowerSeries K :=
  X * derivative K f.weights * f.weights⁻¹

variable {net : List (Station K)} {f : Station K} {n j : ℕ}

theorem Station.weights_ne_zero (f : Station K) : constantCoeff f.weights ≠ 0 := by
  rw [f.weights_zero]
  exact one_ne_zero

/-! ### The power sums -/

theorem powerSums_mul (f : Station K) :
    powerSums f * f.weights = X * derivative K f.weights := by
  unfold powerSums
  rw [mul_assoc, PowerSeries.inv_mul_cancel _ f.weights_ne_zero, mul_one]

/-- The recursion computes the coefficients of the logarithmic derivative. -/
theorem coeff_powerSums (f : Station K) (k : ℕ) :
    coeff k (powerSums f) = powerSum (fun j => coeff j f.weights) k := by
  induction k using Nat.strong_induction_on with
  | _ k ih =>
    have hmul : coeff k (powerSums f * f.weights) = k * coeff k f.weights := by
      rw [powerSums_mul, coeff_X_mul_derivative]
    have hzero : coeff 0 f.weights = 1 := by
      rw [coeff_zero_eq_constantCoeff_apply, f.weights_zero]
    rw [coeff_mul, Finset.Nat.sum_antidiagonal_eq_sum_range_succ_mk, Finset.sum_range_succ,
      Nat.sub_self, hzero, mul_one] at hmul
    rw [powerSum, ← hmul, Fin.sum_univ_eq_sum_range
      (fun i => powerSum (fun j => coeff j f.weights) i * coeff (k - i) f.weights) k]
    have hsum : ∑ i ∈ Finset.range k, powerSum (fun j => coeff j f.weights) i *
        coeff (k - i) f.weights =
        ∑ i ∈ Finset.range k, coeff i (powerSums f) * coeff (k - i) f.weights :=
      Finset.sum_congr rfl fun i hi => by rw [ih i (Finset.mem_range.mp hi)]
    rw [hsum]
    ring

/-- The logarithmic derivative of a product is the sum of those of its factors. -/
theorem X_mul_derivative_normalizing (net : List (Station K)) :
    X * derivative K (normalizing net) = (net.map powerSums).sum * normalizing net := by
  unfold normalizing
  induction net with
  | nil => simp
  | cons f net ih =>
    rw [List.map_cons, List.map_cons, List.prod_cons, List.sum_cons, Derivation.leibniz, mul_add,
      smul_eq_mul, smul_eq_mul]
    calc X * (f.weights * derivative K (net.map Station.weights).prod) +
          X * ((net.map Station.weights).prod * derivative K f.weights)
        = f.weights * (X * derivative K (net.map Station.weights).prod) +
          X * derivative K f.weights * (net.map Station.weights).prod := by ring
      _ = _ := by
        rw [ih, ← powerSums_mul]
        ring

/-! ### The other stations -/

/-- The normalizing constants without a station. -/
noncomputable def others (net : List (Station K)) (f : Station K) : PowerSeries K :=
  normalizing net * f.weights⁻¹

theorem mul_others (net : List (Station K)) (f : Station K) :
    f.weights * others net f = normalizing net := by
  unfold others
  rw [mul_left_comm, PowerSeries.mul_inv_cancel _ f.weights_ne_zero, mul_one]

theorem others_append (l l' : List (Station K)) (f : Station K) :
    others (l ++ f :: l') f = normalizing (l ++ l') := by
  unfold others normalizing
  simp only [List.map_append, List.map_cons, List.prod_append, List.prod_cons]
  calc (l.map Station.weights).prod * (f.weights * (l'.map Station.weights).prod) * f.weights⁻¹
      = f.weights * f.weights⁻¹ *
        ((l.map Station.weights).prod * (l'.map Station.weights).prod) := by ring
    _ = _ := by rw [PowerSeries.mul_inv_cancel _ f.weights_ne_zero, one_mul]

theorem exists_others (hf : f ∈ net) : ∃ net', others net f = normalizing net' := by
  obtain ⟨l, l', rfl⟩ := List.append_of_mem hf
  exact ⟨l ++ l', others_append l l' f⟩

theorem normalizing_zero (net : List (Station K)) : coeff 0 (normalizing net) = 1 := by
  rw [coeff_zero_eq_constantCoeff_apply]
  unfold normalizing
  induction net with
  | nil => simp
  | cons f net ih => rw [List.map_cons, List.prod_cons, map_mul, f.weights_zero, ih, one_mul]

section Ordered

variable [IsStrictOrderedRing K]

theorem normalizing_nonneg (net : List (Station K)) (n : ℕ) : 0 ≤ coeff n (normalizing net) := by
  unfold normalizing
  induction net generalizing n with
  | nil =>
    rw [List.map_nil, List.prod_nil, coeff_one]
    split_ifs
    · exact zero_le_one
    · exact le_rfl
  | cons f net ih =>
    rw [List.map_cons, List.prod_cons, coeff_mul]
    exact Finset.sum_nonneg fun i _ => mul_nonneg (f.weights_nonneg _) (ih _)

/-- One station that has room for everybody is enough. -/
theorem normalizing_pos (hf : f ∈ net) (hpos : ∀ j, 0 < coeff j f.weights) (n : ℕ) :
    0 < coeff n (normalizing net) := by
  obtain ⟨net', hothers⟩ := exists_others hf
  rw [← mul_others net f, hothers, coeff_mul]
  refine Finset.sum_pos' (fun i _ => mul_nonneg (hpos _).le (normalizing_nonneg _ _))
    ⟨(n, 0), by simp, ?_⟩
  rw [normalizing_zero, mul_one]
  exact hpos n

/-- Without customers elsewhere there is no room elsewhere: when every station has room for everybody
or for nobody, the same holds of the network. -/
theorem normalizing_pos_or (hnet : ∀ f ∈ net, (∀ j, 0 < coeff j f.weights) ∨ f.weights = 1) :
    (∀ n, 0 < coeff n (normalizing net)) ∨ normalizing net = 1 := by
  by_cases hroom : ∃ f ∈ net, ∀ j, 0 < coeff j f.weights
  · obtain ⟨f, hf, hpos⟩ := hroom
    exact Or.inl (normalizing_pos hf hpos)
  · right
    unfold normalizing
    refine List.prod_eq_one fun w hw => ?_
    obtain ⟨f, hf, rfl⟩ := List.mem_map.mp hw
    exact (hnet f hf).resolve_left fun hpos => hroom ⟨f, hf, hpos⟩

/-! ### What a station sees -/

theorem marginal_nonneg (hf : f ∈ net) (n j : ℕ) : 0 ≤ marginal net f n j := by
  obtain ⟨net', hothers⟩ := exists_others hf
  have hrest : 0 ≤ coeff (n - j) (normalizing net * f.weights⁻¹) := by
    show 0 ≤ coeff (n - j) (others net f)
    rw [hothers]
    exact normalizing_nonneg _ _
  exact div_nonneg (mul_nonneg (f.weights_nonneg j) hrest) (normalizing_nonneg net n)

/-- A station that is never empty with `n` customers is not with `n + 1`. -/
theorem marginal_zero_succ (hf : f ∈ net)
    (hnet : ∀ f ∈ net, (∀ j, 0 < coeff j f.weights) ∨ f.weights = 1)
    (hn : coeff n (normalizing net) ≠ 0) (hzero : marginal net f n 0 = 0) :
    marginal net f (n + 1) 0 = 0 := by
  obtain ⟨l, l', rfl⟩ := List.append_of_mem hf
  have hothers : others (l ++ f :: l') f = normalizing (l ++ l') := others_append l l' f
  have hsplit := normalizing_pos_or fun g (hg : g ∈ l ++ l') => hnet g (by
    rw [List.mem_append] at hg ⊢
    exact hg.imp_right (List.mem_cons_of_mem f))
  have hfree : coeff n (normalizing (l ++ l')) = 0 := by
    rw [← hothers]
    have hmul := (div_eq_zero_iff.mp hzero).resolve_right hn
    rw [coeff_zero_eq_constantCoeff_apply, f.weights_zero, one_mul] at hmul
    exact hmul
  have hone : normalizing (l ++ l') = 1 :=
    hsplit.resolve_left fun hpos => (hpos n).ne' hfree
  have hnext : coeff (n + 1) (others (l ++ f :: l') f) = 0 := by
    rw [hothers, hone, coeff_one, if_neg (Nat.succ_ne_zero n)]
  unfold marginal
  show _ * coeff (n + 1) (others (l ++ f :: l') f) / _ = 0
  rw [hnext, mul_zero, zero_div]

theorem throughput_pos (hn : 0 < coeff n (normalizing net))
    (hn' : 0 < coeff (n + 1) (normalizing net)) : 0 < throughput net n := div_pos hn hn'

end Ordered

theorem sum_marginal (hn : coeff n (normalizing net) ≠ 0) (f : Station K) :
    ∑ j ∈ Finset.range (n + 1), marginal net f n j = 1 := by
  have hmul : coeff n (f.weights * others net f) = coeff n (normalizing net) := by
    rw [mul_others]
  rw [coeff_mul, Finset.Nat.sum_antidiagonal_eq_sum_range_succ_mk] at hmul
  unfold marginal
  rw [← Finset.sum_div, div_eq_one_iff_eq hn]
  exact hmul

theorem marginal_zero (f : Station K) : marginal net f 0 0 = 1 := by
  have hone : coeff 0 (normalizing net) ≠ 0 := by
    rw [normalizing_zero]
    exact one_ne_zero
  have hsum := sum_marginal hone f
  simpa using hsum

/-- One more customer in the network sees the station as it was without. -/
theorem marginal_succ {d : K} (hn : coeff n (normalizing net) ≠ 0)
    (hd : coeff (j + 1) f.weights = d * coeff j f.weights) :
    marginal net f (n + 1) (j + 1) = throughput net n * d * marginal net f n j := by
  unfold marginal throughput
  rw [Nat.add_sub_add_right, hd]
  field_simp

/-! ### The means -/

theorem mean_eq (net : List (Station K)) (f : Station K) (n : ℕ) : mean net f n =
    coeff n (powerSums f * normalizing net) / coeff n (normalizing net) := by
  have hsplit : powerSums f * normalizing net = X * derivative K f.weights * others net f := by
    unfold powerSums others
    ring
  rw [hsplit, coeff_mul, Finset.Nat.sum_antidiagonal_eq_sum_range_succ_mk, Finset.sum_div]
  unfold mean
  refine Finset.sum_congr rfl fun j _ => ?_
  rw [coeff_X_mul_derivative]
  unfold marginal others
  ring

theorem mean_zero (net : List (Station K)) (f : Station K) : mean net f 0 = 0 := by
  simp [mean]

/-- **The mean numbers of customers add up.** -/
theorem sum_mean (hn : coeff n (normalizing net) ≠ 0) :
    (net.map fun f => mean net f n).sum = n := by
  have hmean : (net.map fun f => mean net f n).sum =
      (net.map fun f => coeff n (powerSums f * normalizing net)).sum *
        (coeff n (normalizing net))⁻¹ := by
    rw [← List.sum_map_mul_right]
    simp only [mean_eq, div_eq_mul_inv]
  have hcoeff : (net.map fun f => coeff n (powerSums f * normalizing net)).sum =
      n * coeff n (normalizing net) := by
    rw [← coeff_X_mul_derivative, X_mul_derivative_normalizing, coeff_sum_mul, List.map_map]
    rfl
  rw [hmean, hcoeff, mul_inv_cancel_right₀ hn]

/-- One server: the weights are a geometric sequence. -/
theorem mean_geometric {D : K} (hf : f.weights = 1 + C D * X * f.weights)
    (hn : coeff n (normalizing net) ≠ 0) :
    mean net f (n + 1) = D * throughput net n * (1 + mean net f n) := by
  have hsums : powerSums f = C D * X * f.weights := by
    have hunit : (1 - C D * X) * f.weights = 1 := by linear_combination hf
    have hder : derivative K f.weights = C D * f.weights + C D * X * derivative K f.weights := by
      have h := congrArg (derivative K) hf
      rw [map_add, Derivation.leibniz, Derivation.leibniz, derivative_C, derivative_X,
        derivative_one] at h
      simp only [smul_eq_mul] at h
      linear_combination h
    have hsq : derivative K f.weights = C D * f.weights * f.weights := by
      linear_combination f.weights * hder - derivative K f.weights * hunit
    unfold powerSums
    rw [hsq]
    linear_combination
      (C D * X * f.weights) * PowerSeries.mul_inv_cancel _ f.weights_ne_zero
  have hnext : coeff (n + 1) (powerSums f * normalizing net) =
      D * (coeff n (normalizing net) + coeff n (powerSums f * normalizing net)) := by
    have hfg : powerSums f * normalizing net =
        X * (C D * (normalizing net + powerSums f * normalizing net)) := by
      rw [hsums]
      linear_combination (C D * X * normalizing net) * hf
    rw [hfg, coeff_succ_X_mul, coeff_C_mul, map_add, ← hfg]
  rw [mean_eq, mean_eq, hnext]
  unfold throughput
  field_simp

/-- Nobody waits: the weights are those of the exponential series. -/
theorem mean_exponential {D : K} (hf : X * derivative K f.weights = C D * X * f.weights)
    (n : ℕ) : mean net f (n + 1) = D * throughput net n := by
  have hsums : powerSums f = X * C D := by
    unfold powerSums
    rw [hf]
    linear_combination (C D * X) * PowerSeries.mul_inv_cancel _ f.weights_ne_zero
  rw [mean_eq, hsums, mul_assoc, coeff_succ_X_mul, coeff_C_mul]
  unfold throughput
  ring

/-! ### Relations between the means -/

/-- **A linear relation between the means**, for every population up to `n`, is one between the power
sums of the stations. -/
theorem forall_sum_mean_eq_zero_iff (hnet : ∀ k ≤ n, coeff k (normalizing net) ≠ 0)
    (l : List (K × Station K)) :
    (∀ k ≤ n, (l.map fun x => x.1 * mean net x.2 k).sum = 0) ↔
      ∀ k ≤ n, (l.map fun x => x.1 * powerSum (fun j => coeff j x.2.weights) k).sum = 0 := by
  have hconst : constantCoeff (normalizing net) = 1 := by
    rw [← coeff_zero_eq_constantCoeff_apply, normalizing_zero]
  have hiff := forall_coeff_mul_eq_zero_iff hconst (l.map fun x => C x.1 * powerSums x.2).sum n
  have hmean : ∀ k ≤ n, (l.map fun x => x.1 * mean net x.2 k).sum = 0 ↔
      coeff k ((l.map fun x => C x.1 * powerSums x.2).sum * normalizing net) = 0 := by
    intro k hk
    have hsum : (l.map fun x => x.1 * mean net x.2 k).sum =
        coeff k ((l.map fun x => C x.1 * powerSums x.2).sum * normalizing net) *
          (coeff k (normalizing net))⁻¹ := by
      rw [coeff_sum_mul, List.map_map, ← List.sum_map_mul_right]
      refine congrArg List.sum (List.map_congr_left fun x _ => ?_)
      rw [mean_eq]
      simp only [Function.comp_apply, mul_assoc, coeff_C_mul, div_eq_mul_inv]
    rw [hsum, mul_eq_zero, or_iff_left (inv_ne_zero (hnet k hk))]
  have hpower : ∀ k, coeff k (l.map fun x => C x.1 * powerSums x.2).sum =
      (l.map fun x => x.1 * powerSum (fun j => coeff j x.2.weights) k).sum := by
    intro k
    rw [map_list_sum, List.map_map]
    refine congrArg List.sum (List.map_congr_left fun x _ => ?_)
    rw [Function.comp_apply, coeff_C_mul, coeff_powerSums]
  rw [forall₂_congr hmean, hiff]
  simp only [hpower]

/-! ### Stations by their service times -/

/-- A station at which a departure takes the time `d j` on average when there are `j + 1`
customers. -/
noncomputable def Station.ofTimes [IsStrictOrderedRing K] (d : ℕ → K) (hd : ∀ j, 0 ≤ d j) :
    Station K where
  weights := PowerSeries.mk fun j => ∏ i ∈ Finset.range j, d i
  weights_zero := by simp [← coeff_zero_eq_constantCoeff_apply]
  weights_nonneg j := by
    rw [coeff_mk]
    exact Finset.prod_nonneg fun i _ => hd i

section OfTimes

variable [IsStrictOrderedRing K] {d : ℕ → K} {hd : ∀ j, 0 ≤ d j}

theorem coeff_ofTimes (j : ℕ) :
    coeff j (Station.ofTimes d hd).weights = ∏ i ∈ Finset.range j, d i := by
  rw [Station.ofTimes, coeff_mk]

theorem coeff_succ_ofTimes (j : ℕ) : coeff (j + 1) (Station.ofTimes d hd).weights =
    d j * coeff j (Station.ofTimes d hd).weights := by
  rw [coeff_ofTimes, coeff_ofTimes, Finset.prod_range_succ, mul_comm]

theorem coeff_ofTimes_pos (hpos : ∀ j, 0 < d j) (j : ℕ) :
    0 < coeff j (Station.ofTimes d hd).weights := by
  rw [coeff_ofTimes]
  exact Finset.prod_pos fun i _ => hpos i

theorem marginal_succ_ofTimes (hn : coeff n (normalizing net) ≠ 0) (j : ℕ) :
    marginal net (Station.ofTimes d hd) (n + 1) (j + 1) =
      throughput net n * d j * marginal net (Station.ofTimes d hd) n j :=
  marginal_succ hn (coeff_succ_ofTimes j)

/-- The mean number of customers is the throughput times their mean time there. -/
theorem mean_succ_ofTimes (hn : coeff n (normalizing net) ≠ 0) :
    mean net (Station.ofTimes d hd) (n + 1) = throughput net n * ∑ j ∈ Finset.range (n + 1),
      (j + 1) * d j * marginal net (Station.ofTimes d hd) n j := by
  unfold mean
  rw [Finset.sum_range_succ', Nat.cast_zero, zero_mul, add_zero, Finset.mul_sum]
  refine Finset.sum_congr rfl fun j _ => ?_
  rw [marginal_succ_ofTimes hn]
  push_cast
  ring

theorem ofTimes_geometric {D : K} (hD : ∀ j, d j = D) : (Station.ofTimes d hd).weights =
    1 + C D * X * (Station.ofTimes d hd).weights := by
  ext j
  rw [map_add, mul_assoc, coeff_C_mul, coeff_one]
  cases j with
  | zero => simp [coeff_ofTimes]
  | succ j => rw [coeff_succ_X_mul, coeff_succ_ofTimes, hD, if_neg (Nat.succ_ne_zero j), zero_add]

theorem ofTimes_exponential {D : K} (hD : ∀ j : ℕ, d j = D / (j + 1)) :
    X * derivative K (Station.ofTimes d hd).weights =
      C D * X * (Station.ofTimes d hd).weights := by
  ext j
  rw [coeff_X_mul_derivative, mul_assoc, coeff_C_mul]
  cases j with
  | zero => simp
  | succ j =>
    have hj : (j : K) + 1 ≠ 0 := Nat.cast_add_one_ne_zero j
    rw [coeff_succ_X_mul, coeff_succ_ofTimes, hD]
    push_cast
    field_simp

/-- Customers who think for the time `Z`, and do not wait. -/
noncomputable def thinking {Z : K} (hZ : 0 ≤ Z) : Station K :=
  Station.ofTimes (fun j => Z / (j + 1)) fun j => by positivity

theorem thinking_pos_or {Z : K} (hZ : 0 ≤ Z) :
    (∀ j, 0 < coeff j (thinking hZ).weights) ∨ (thinking hZ).weights = 1 := by
  rcases hZ.eq_or_lt with rfl | hpos
  · right
    ext j
    unfold thinking
    rw [coeff_ofTimes, coeff_one]
    cases j with
    | zero => rfl
    | succ j => simp
  · exact Or.inl (coeff_ofTimes_pos fun j => by positivity)

theorem mean_thinking {Z : K} (hZ : 0 ≤ Z) (n : ℕ) :
    mean net (thinking hZ) (n + 1) = Z * throughput net n :=
  mean_exponential (ofTimes_exponential fun _ => rfl) n

/-- A network of stations and customers who think: there is room for everybody when there is a
station with room, or time to think. -/
theorem normalizing_thinking_pos {Z : K} {hZ : 0 ≤ Z}
    (hnet : ∀ f ∈ net, ∀ j, 0 < coeff j f.weights) (hroom : net ≠ [] ∨ 0 < Z) (n : ℕ) :
    0 < coeff n (normalizing (thinking hZ :: net)) := by
  rcases hroom with hne | hpos
  · obtain ⟨f, hf⟩ := List.exists_mem_of_ne_nil _ hne
    exact normalizing_pos (List.mem_cons_of_mem _ hf) (hnet f hf) n
  · exact normalizing_pos List.mem_cons_self (coeff_ofTimes_pos fun j => by positivity) n

end OfTimes

end Mlmq.Lib.ClosedNetwork
