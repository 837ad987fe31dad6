import Mlmq.Model.QueueMMmB

/-! # M/M/m/B queues with 150 digits

The probability of no jobs as the program computes it: with a `BigDecimal` for each number, and each
quotient rounded to `PRECISION` digits behind the point. The rounding decides what is divided by
zero. A service rate below half of the last digit is 0, and so is `m` times it; and the intensity is
1 wherever it is rounded to 1 (`RoundsToOne`), which is neither implied by `λ s = m` nor implies it.

Beyond `B = 14316556` the power of an intensity that is not 0 has a scale that is no `int`, so that
the program fails before it divides (`noDivisionByZero_iff`). -/

namespace Mlmq.Model.Rounding

open Lib.Decimal Lib.Decimal.BigDecimal

/-! ### The functions of the source -/

def getMeanServiceRate (q : Queue) : Except ArithmeticException BigDecimal :=
  ONE.divide (ofDouble q.s) PRECISION

def factorial (m : ℕ) : Except ArithmeticException BigDecimal :=
  (List.range' 2 (m - 1)).foldlM (fun result _ => result.multiply (ofInt m)) ONE

def getTraficIntensity (q : QueueMMmB) : Except ArithmeticException BigDecimal := do
  let mu ← getMeanServiceRate q.toQueue
  let mTimesMu ← (ofInt q.m).multiply mu
  (ofDouble q.lambda).divide mTimesMu PRECISION

/-- The loop of the third summand. -/
def thirdSummand (mTimesRho : BigDecimal) (m : ℕ) : Except ArithmeticException BigDecimal :=
  (List.range' 1 (m - 1)).foldlM (fun tmp3 (n : ℕ) => do
    return tmp3.add (← (← mTimesRho.pow n).divide (← factorial n) PRECISION)) ZERO

def getProbabilityZeroJobsInSystemGeneral (q : QueueMMmB) :
    Except ArithmeticException BigDecimal := do
  let rho ← getTraficIntensity q
  let mTimesRho ← rho.multiply (ofInt q.m)
  let tmp ← mTimesRho.pow q.m
  let tmp2 := ONE.subtract (← rho.pow (toInt (q.B - q.m + 1)))
  let tmp ← tmp.multiply tmp2
  let tmp ← tmp.divide (← factorial q.m) PRECISION
  let tmp ← tmp.divide (ONE.subtract rho) PRECISION
  let tmp3 ← thirdSummand mTimesRho q.m
  ONE.divide ((ONE.add tmp).add tmp3) PRECISION

def getProbabilityZeroJobsInSystem (q : QueueMMmB) : Except ArithmeticException BigDecimal := do
  if q.m ≠ 1 then
    getProbabilityZeroJobsInSystemGeneral q
  else
    let rho ← getTraficIntensity q
    if ONE.equals rho then
      ONE.divide (ofInt (toInt (q.B + 1))) PRECISION
    else
      let tmp := ONE.subtract rho
      let tmp2 := ONE.subtract (← rho.pow (toInt (q.B + 1)))
      tmp.divide tmp2 PRECISION

/-! ### What is to hold -/

/-- **M/M/m/B is defined and normalised**: nothing is divided by zero, and in exact numbers the
probabilities are those of a distribution. -/
def Normalised (q : QueueMMmB) : Prop :=
  getProbabilityZeroJobsInSystem q ≠ .error .divisionByZero ∧ q.Distribution

/-- The mean service rate with `PRECISION` digits. -/
def rate (q : QueueMMmB) : ℚ := rescale (1 / q.s) PRECISION

/-- The intensity that is computed. -/
def intensity (q : QueueMMmB) : BigDecimal :=
  ⟨rescale (q.lambda / (q.m * rate q)) PRECISION, PRECISION⟩

/-- **The intensity is rounded to 1**: it is 1 up to half of the last digit. -/
def RoundsToOne (q : QueueMMmB) : Prop :=
  q.m * rate q * (10 ^ PRECISION - 1 / 2) ≤ q.lambda * 10 ^ PRECISION ∧
    q.lambda * 10 ^ PRECISION < q.m * rate q * (10 ^ PRECISION + 1 / 2)

/-- The power of the intensity has a scale. -/
def HasScale (q : QueueMMmB) : Prop := PRECISION * (q.B + 1) < 2 ^ 31

instance (q : QueueMMmB) : Decidable (RoundsToOne q) := inferInstanceAs (Decidable (_ ∧ _))

instance (q : QueueMMmB) : Decidable (HasScale q) := inferInstanceAs (Decidable (_ < _))

/-! ### The intensity -/

variable {q : QueueMMmB}

theorem rate_nonneg (h : q.Valid) : 0 ≤ rate q :=
  rescale_nonneg (one_div_nonneg.mpr h.s_pos.le) _

/-- The rate is rounded to zero when a service takes too long. -/
theorem rate_eq_zero_iff (h : q.Valid) : rate q = 0 ↔ 2 * 10 ^ PRECISION < q.s := by
  have hs := h.s_pos
  unfold rate
  rw [rescale_eq_zero_iff (one_div_nonneg.mpr hs.le), one_div_mul_eq_div,
    div_lt_div_iff₀ hs two_pos]
  constructor <;> intro hlt <;> linarith

/-- The rate, and the product with the number of servers. -/
theorem mTimesMu_eq (h : q.Valid) : (do
    let mu ← getMeanServiceRate q.toQueue
    (ofInt q.m).multiply mu) = .ok ⟨q.m * rate q, PRECISION⟩ := by
  have hrate : getMeanServiceRate q.toQueue = .ok ⟨rate q, PRECISION⟩ :=
    divide_eq_ok h.s_pos.ne' _ _
  have hmu : (ofInt q.m).multiply ⟨rate q, PRECISION⟩ = .ok ⟨q.m * rate q, PRECISION⟩ := by
    rw [multiply_of_lt (show 0 + PRECISION < 2 ^ 31 by decide)]
    simp [ofInt]
  rw [hrate]
  exact hmu

theorem getTraficIntensity_eq (h : q.Valid) (hrate : rate q ≠ 0) :
    getTraficIntensity q = .ok (intensity q) := by
  have hmu := mTimesMu_eq h
  unfold getTraficIntensity
  rw [← bind_assoc, hmu]
  exact divide_eq_ok (mul_ne_zero h.m_cast_pos.ne' hrate) _ _

theorem getTraficIntensity_error (h : q.Valid) (hrate : rate q = 0) :
    getTraficIntensity q = .error .divisionByZero := by
  have hmu := mTimesMu_eq h
  unfold getTraficIntensity
  rw [← bind_assoc, hmu]
  refine divide_eq_error ?_ _ _
  rw [hrate, mul_zero]

theorem intensity_nonneg (h : q.Valid) : 0 ≤ (intensity q).value :=
  rescale_nonneg (div_nonneg h.lambda_pos.le (mul_nonneg h.m_cast_pos.le (rate_nonneg h))) _

theorem intensity_eq_one_iff (h : q.Valid) (hrate : rate q ≠ 0) :
    (intensity q).value = 1 ↔ RoundsToOne q := by
  have hpos : 0 < q.m * rate q :=
    mul_pos h.m_cast_pos (lt_of_le_of_ne (rate_nonneg h) hrate.symm)
  unfold intensity RoundsToOne
  rw [rescale_eq_one_iff (div_nonneg h.lambda_pos.le hpos.le), div_mul_eq_mul_div, le_div_iff₀ hpos,
    div_lt_iff₀ hpos, mul_comm (q.m * rate q), mul_comm (q.m * rate q)]

theorem clean_getTraficIntensity (h : q.Valid) (hrate : rate q ≠ 0) :
    Clean (getTraficIntensity q) fun rho => rho = intensity q := by
  rw [getTraficIntensity_eq h hrate]
  rfl

/-- The intensity is never equal to `BigDecimal.ONE`. -/
theorem not_equals_intensity (q : QueueMMmB) : ONE.equals (intensity q) = false :=
  QueueMMmB.not_equals_intensity _

/-! ### The factorial, and the third summand -/

theorem factorial_eq (m : ℕ) : factorial m = .ok ⟨Queue.factorial m, 0⟩ := by
  have hloop : ∀ (l : List ℕ) (x : ℚ),
      l.foldlM (fun result _ => result.multiply (ofInt m)) (⟨x, 0⟩ : BigDecimal) =
        .ok ⟨l.foldl (fun result _ => result * m) x, 0⟩ := by
    intro l
    induction l with
    | nil => exact fun _ => rfl
    | cons i l ih =>
      intro x
      have hstep : (⟨x, 0⟩ : BigDecimal).multiply (ofInt m) = .ok ⟨x * m, 0⟩ := by
        rw [multiply_of_lt (show 0 + 0 < 2 ^ 31 by decide)]
        simp [ofInt]
      rw [List.foldlM_cons, hstep, List.foldl_cons]
      exact ih _
  exact hloop _ 1

theorem clean_factorial (m : ℕ) : Clean (factorial m) fun f => 0 < f.value := by
  rw [factorial_eq]
  exact Queue.factorial_pos m

theorem clean_thirdSummand {x : BigDecimal} (hx : 0 ≤ x.value) (m : ℕ) :
    Clean (thirdSummand x m) fun tmp3 => 0 ≤ tmp3.value := by
  refine Clean.foldlM le_rfl fun r hr n _ => ?_
  refine (clean_pow x n).bind fun y hy => ?_
  refine (clean_factorial n).bind fun f hf => ?_
  refine (clean_divide hf.ne' y PRECISION).bind fun z hz => ?_
  have hpow : 0 ≤ y.value := by
    rw [hy.2.1]
    exact pow_nonneg hx _
  have hquotient : 0 ≤ z.value := by
    rw [hz]
    exact rescale_nonneg (div_nonneg hpow hf.le) _
  exact add_nonneg hr hquotient

/-! ### Away from a rounded intensity of 1 -/

/-- The second summand is not below 0: the factor of the geometric sum has the sign of `1 - ρ`. -/
theorem geometric_nonneg {rho f : ℚ} (hrho : 0 ≤ rho) (hf : 0 < f) {c : ℚ} (hc : 0 ≤ c) (k : ℕ) :
    0 ≤ rescale (c * (1 - rho ^ k) / f) PRECISION / (1 - rho) := by
  rcases le_total rho 1 with hle | hge
  · have hpow : rho ^ k ≤ 1 := pow_le_one₀ hrho hle
    have hnum : 0 ≤ c * (1 - rho ^ k) / f := div_nonneg (mul_nonneg hc (by linarith)) hf.le
    exact div_nonneg (rescale_nonneg hnum _) (by linarith)
  · have hpow : 1 ≤ rho ^ k := one_le_pow₀ hge
    have hnum : c * (1 - rho ^ k) / f ≤ 0 :=
      div_nonpos_of_nonpos_of_nonneg (mul_nonpos_of_nonneg_of_nonpos hc (by linarith)) hf.le
    exact div_nonneg_of_nonpos (rescale_nonpos hnum _) (by linarith)

theorem general_clean (h : q.Valid) (hrate : rate q ≠ 0) (hone : (intensity q).value ≠ 1) :
    Clean (getProbabilityZeroJobsInSystemGeneral q) fun _ => True := by
  have hrho := intensity_nonneg h
  refine (clean_getTraficIntensity h hrate).bind fun rho hrho' => ?_
  subst hrho'
  refine (clean_multiply _ _).bind fun x hx => ?_
  refine (clean_pow x _).bind fun y hy => ?_
  refine (clean_pow _ _).bind fun z hz => ?_
  refine (clean_multiply y _).bind fun t ht => ?_
  refine (clean_factorial q.m).bind fun f hf => ?_
  refine (clean_divide hf.ne' t PRECISION).bind fun t' ht' => ?_
  refine (clean_divide (sub_ne_zero.mpr hone.symm) t' PRECISION).bind fun u hu => ?_
  have hx' : 0 ≤ x.value := by
    rw [hx.1]
    exact mul_nonneg hrho (by simp [ofInt])
  refine (clean_thirdSummand hx' q.m).bind fun v hv => ?_
  have hu' : 0 ≤ u.value := by
    rw [hu, ht', ht.1]
    refine rescale_nonneg ?_ _
    show 0 ≤ rescale (y.value * (1 - z.value) / f.value) PRECISION / (1 - (intensity q).value)
    rw [hy.2.1, hz.2.1]
    exact geometric_nonneg hrho hf (pow_nonneg hx' _) _
  have hsum : ((ONE.add u).add v).value ≠ 0 := by
    show 1 + u.value + v.value ≠ 0
    linarith
  exact (clean_divide hsum ONE PRECISION).mono fun _ _ => trivial

/-- The exponent `B + 1` has overflown, or it has not. -/
theorem toInt_succ {B : ℕ} (hB : B < 2 ^ 31) (h : 0 ≤ toInt (B + 1)) : toInt (B + 1) = B + 1 := by
  by_cases hlt : B + 1 < 2 ^ 31
  · exact toInt_of_lt (by omega) (by omega)
  · have hlast : (B : ℤ) + 1 = 2147483648 := by omega
    rw [hlast] at h
    exact absurd h (by decide +kernel)

theorem oneServer_clean (h : q.Valid) (hB : q.B < 2 ^ 31) (hrate : rate q ≠ 0)
    (hone : (intensity q).value ≠ 1) (hm : q.m = 1) :
    Clean (getProbabilityZeroJobsInSystem q) fun _ => True := by
  unfold getProbabilityZeroJobsInSystem
  rw [if_neg (by simp [hm])]
  refine (clean_getTraficIntensity h hrate).bind fun rho hrho => ?_
  subst hrho
  rw [not_equals_intensity, if_neg (by decide)]
  refine (clean_pow _ _).bind fun z hz => ?_
  have hexponent : (toInt (q.B + 1)).toNat ≠ 0 := by
    have hsucc := toInt_succ hB hz.1
    omega
  have hz' : z.value ≠ 1 := by
    rw [hz.2.1]
    exact fun heq => hone ((pow_eq_one_iff_of_nonneg (intensity_nonneg h) hexponent).mp heq)
  exact (clean_divide (sub_ne_zero.mpr hz'.symm) _ _).mono fun _ _ => trivial

/-! ### A rounded intensity of 1 -/

theorem HasScale.le (hscale : HasScale q) : q.B + 1 ≤ 14316557 := by
  have h : 150 * (q.B + 1) < 2 ^ 31 := hscale
  omega

theorem intensity_eq (hone : (intensity q).value = 1) : intensity q = ⟨1, PRECISION⟩ :=
  congrArg (BigDecimal.mk · PRECISION) hone

/-- A difference of 1 and 1 divides nothing. -/
theorem divide_one_sub_one (a : BigDecimal) (s : ℕ) :
    a.divide (ONE.subtract ⟨1, s⟩) PRECISION = .error .divisionByZero :=
  divide_eq_error (sub_self 1) _ _

/-- The powers of an intensity of 1. -/
theorem pow_one_eq {k : ℕ} (hk : PRECISION * k < 2 ^ 31) :
    (⟨1, PRECISION⟩ : BigDecimal).pow (toInt k) = .ok ⟨1, PRECISION * k⟩ := by
  have hle : k ≤ 14316557 := by
    have hscale : 150 * k < 2 ^ 31 := hk
    omega
  rw [toInt_of_lt (by omega) (by omega), pow_of_lt (by omega) (by omega)]
  · rw [Int.toNat_natCast, one_pow]
  · exact hk

/-- With an intensity of 1 the program divides by zero, once it has the powers. -/
theorem general_error (h : q.Valid) (hrate : rate q ≠ 0) (hone : (intensity q).value = 1)
    (hscale : HasScale q) :
    getProbabilityZeroJobsInSystemGeneral q = .error .divisionByZero := by
  have hm := h.m_pos
  have hle := h.m_le
  have hB := hscale.le
  have hPRECISION : PRECISION = 150 := rfl
  have hrho : getTraficIntensity q = .ok ⟨1, PRECISION⟩ :=
    (getTraficIntensity_eq h hrate).trans (congrArg Except.ok (intensity_eq hone))
  have hmTimesRho : (⟨1, PRECISION⟩ : BigDecimal).multiply (ofInt q.m) = .ok ⟨q.m, PRECISION⟩ := by
    rw [multiply_of_lt (show PRECISION + 0 < 2 ^ 31 by decide)]
    simp [ofInt]
  have hpow : (⟨q.m, PRECISION⟩ : BigDecimal).pow q.m =
      .ok ⟨(q.m : ℚ) ^ q.m, PRECISION * q.m⟩ := by
    refine pow_of_lt (n := (q.m : ℤ)) (by omega) (by omega) ?_
    show 150 * q.m < 2 ^ 31
    omega
  have hpow' : (⟨1, PRECISION⟩ : BigDecimal).pow (toInt (q.B - q.m + 1)) =
      .ok ⟨1, PRECISION * (q.B - q.m + 1)⟩ := by
    have hexponent : (q.B - q.m + 1 : ℤ) = (q.B - q.m + 1 : ℕ) := by omega
    have hpowScale : 150 * (q.B - q.m + 1) < 2 ^ 31 := by omega
    rw [hexponent]
    exact pow_one_eq hpowScale
  have hproduct := multiply_of_lt (a := ⟨(q.m : ℚ) ^ q.m, PRECISION * q.m⟩)
    (b := ONE.subtract ⟨1, PRECISION * (q.B - q.m + 1)⟩)
    (show 150 * q.m + max 0 (150 * (q.B - q.m + 1)) < 2 ^ 31 by omega)
  unfold getProbabilityZeroJobsInSystemGeneral
  simp only [hrho, hmTimesRho, hpow, hpow', hproduct, factorial_eq, ok_bind,
    divide_eq_ok (b := ⟨Queue.factorial q.m, 0⟩) (Queue.factorial_pos q.m).ne',
    divide_one_sub_one, error_bind]

/-- The same with a single server. -/
theorem oneServer_error (h : q.Valid) (hrate : rate q ≠ 0) (hone : (intensity q).value = 1)
    (hscale : HasScale q) (hm : q.m = 1) :
    getProbabilityZeroJobsInSystem q = .error .divisionByZero := by
  have hpow : (⟨1, PRECISION⟩ : BigDecimal).pow (toInt (q.B + 1)) =
      .ok ⟨1, PRECISION * (q.B + 1)⟩ := pow_one_eq hscale
  have hequals := not_equals_intensity q
  unfold getProbabilityZeroJobsInSystem
  rw [intensity_eq hone] at hequals
  rw [if_neg (by simp [hm]), getTraficIntensity_eq h hrate]
  show (if ONE.equals (intensity q) then _ else _) = _
  rw [intensity_eq hone, hequals, if_neg (by decide), hpow, ok_bind, divide_one_sub_one]

/-- Without the powers the program does not come to the division. -/
theorem clean_of_not_hasScale (h : q.Valid) (hB : q.B < 2 ^ 31) (hrate : rate q ≠ 0)
    (hone : (intensity q).value = 1) (hscale : ¬ HasScale q) :
    Clean (getProbabilityZeroJobsInSystem q) fun _ => True := by
  have hm := h.m_pos
  have hle := h.m_le
  have hne : (intensity q).value ≠ 0 := hone ▸ one_ne_zero
  have hPRECISION : (intensity q).scale = 150 := rfl
  have hscale : ¬ 150 * (q.B + 1) < 2 ^ 31 := hscale
  unfold getProbabilityZeroJobsInSystem
  split_ifs with hm
  · refine (clean_getTraficIntensity h hrate).bind fun rho hrho => ?_
    subst hrho
    refine (clean_multiply _ _).bind fun x hx => ?_
    have hx' : x.value ≠ 0 := by
      rw [hx.1, hone, one_mul]
      exact h.m_cast_pos.ne'
    refine (clean_pow x _).bind fun y hy => ?_
    refine (clean_pow _ _).bind fun z hz => ?_
    have hy' : y.value ≠ 0 := by
      rw [hy.2.1]
      exact pow_ne_zero _ hx'
    refine (clean_multiply y _).bind fun t ht => ?_
    -- the scales of both powers together
    have hxscale : x.scale = 150 + 0 := (hx.2 hne).1
    have hyscale := (hy.2.2 hx').1
    have hzscale := (hz.2.2 hne).1
    have htscale : y.scale + max 0 z.scale < 2 ^ 31 := (ht.2 hy').2
    rw [toInt_of_lt (by omega) (by omega), hPRECISION] at hzscale
    rw [hxscale, Int.toNat_natCast] at hyscale
    omega
  · refine (clean_getTraficIntensity h hrate).bind fun rho hrho => ?_
    subst hrho
    rw [not_equals_intensity, if_neg (by decide)]
    refine (clean_pow _ _).bind fun z hz => ?_
    have hzscale := (hz.2.2 hne).2
    rw [toInt_succ hB hz.1, hPRECISION] at hzscale
    omega

/-! ### Every load -/

/-- **Nothing is divided by zero** unless the rate is rounded to 0, or the intensity to 1 while its
powers have a scale. -/
theorem noDivisionByZero_iff (h : q.Valid) (hB : q.B < 2 ^ 31) :
    getProbabilityZeroJobsInSystem q ≠ .error .divisionByZero ↔
      q.s ≤ 2 * 10 ^ PRECISION ∧ ¬ (RoundsToOne q ∧ HasScale q) := by
  by_cases hrate : rate q = 0
  · have herror : getProbabilityZeroJobsInSystem q = .error .divisionByZero := by
      unfold getProbabilityZeroJobsInSystem getProbabilityZeroJobsInSystemGeneral
      rw [getTraficIntensity_error h hrate, error_bind, error_bind, ite_self]
    have hlong := (rate_eq_zero_iff h).mp hrate
    exact iff_of_false (fun hne => hne herror) fun hle => absurd hle.1 (not_le.mpr hlong)
  · have hle : q.s ≤ 2 * 10 ^ PRECISION := not_lt.mp fun hlt => hrate ((rate_eq_zero_iff h).mpr hlt)
    rw [and_iff_right hle, ← intensity_eq_one_iff h hrate]
    by_cases hone : (intensity q).value = 1
    · rw [and_iff_right hone]
      by_cases hscale : HasScale q
      · have herror : getProbabilityZeroJobsInSystem q = .error .divisionByZero := by
          by_cases hm : q.m = 1
          · exact oneServer_error h hrate hone hscale hm
          · unfold getProbabilityZeroJobsInSystem
            rw [if_pos hm]
            exact general_error h hrate hone hscale
        exact iff_of_false (fun hne => hne herror) fun hnot => hnot hscale
      · exact iff_of_true (clean_iff.mp (clean_of_not_hasScale h hB hrate hone hscale)) hscale
    · refine iff_of_true (clean_iff.mp ?_) fun hand => hone hand.1
      by_cases hm : q.m = 1
      · exact oneServer_clean h hB hrate hone hm
      · unfold getProbabilityZeroJobsInSystem
        rw [if_pos hm]
        exact general_clean h hrate hone

/-- **M/M/m/B is defined and normalised** unless a service takes so long that its rate is rounded to
0, the intensity is 1 or is rounded to 1, or the buffer is too large for the powers. -/
theorem normalised_iff (h : q.Valid) (hB : q.B < 2 ^ 31) : Normalised q ↔
    (q.s ≤ 2 * 10 ^ PRECISION ∧ ¬ (RoundsToOne q ∧ HasScale q)) ∧
      q.lambda * q.s ≠ q.m ∧ q.Powers :=
  and_congr (noDivisionByZero_iff h hB) (QueueMMmB.distribution_iff h)

theorem normalised_iff_threeOfFive : Normalised QueueMMmB.threeOfFive ↔
    ((1 / 2 : ℚ) ≤ 2 * 10 ^ PRECISION ∧
      ¬ (RoundsToOne QueueMMmB.threeOfFive ∧ HasScale QueueMMmB.threeOfFive)) ∧
      (3 : ℚ) * (1 / 2) ≠ (3 : ℕ) ∧ QueueMMmB.threeOfFive.Powers :=
  normalised_iff QueueMMmB.valid_threeOfFive (by decide)

/-- One server, always busy. -/
def alwaysBusy : QueueMMmB := { lambda := 1, s := 1, queueMultiplicity := 1, m := 1, B := 1 }

/-- The intensity is 1: the program divides by zero, and no probability is defined. -/
theorem alwaysBusy_not_normalised : alwaysBusy.Valid ∧ alwaysBusy.B < 2 ^ 31 ∧
    getTraficIntensity alwaysBusy = .ok ⟨1, PRECISION⟩ ∧
    getProbabilityZeroJobsInSystem alwaysBusy = .error .divisionByZero ∧
    ¬ alwaysBusy.Distribution ∧ ¬ Normalised alwaysBusy := by
  have hvalid : alwaysBusy.Valid :=
    ⟨by norm_num [alwaysBusy], by norm_num [alwaysBusy], by decide, by decide⟩
  have herror : getProbabilityZeroJobsInSystem alwaysBusy = .error .divisionByZero := by
    decide +kernel
  refine ⟨hvalid, by decide, by decide +kernel, herror, fun hd => ?_, fun hn => hn.1 herror⟩
  exact ((QueueMMmB.distribution_iff hvalid).mp hd).1 (by norm_num [alwaysBusy])

/-- An intensity of 1 need not be rounded to 1: the rate of a third is not a third. -/
example : getTraficIntensity { lambda := 1, s := 3, queueMultiplicity := 1, m := 3, B := 5 } =
    .ok ⟨1 + 1 / 10 ^ PRECISION, PRECISION⟩ := by decide +kernel

/-- A rate that is rounded to 0. -/
example : getTraficIntensity
      { lambda := 1, s := 10 ^ 151, queueMultiplicity := 1, m := 1, B := 1 } =
    .error .divisionByZero := by decide +kernel

end Mlmq.Model.Rounding
