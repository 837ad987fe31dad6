import Mlmq.Lib.Decimal
import Mlmq.Model.QueueMMm

/-! # M/M/m/B queues

A queue with room for `B` jobs. It is stable under every load, so the traffic intensity may be below,
at or above 1.

The formulas for the probability of no jobs divide by `1 - ρ`. For one server a comparison of the
intensity with `BigDecimal.ONE` is to catch `ρ = 1`, but `equals` compares the scales too, and the
intensity comes out of a division with the scale `PRECISION`. So in exact numbers the probabilities
are those of a distribution except at `ρ = 1`, where there are none, and except where the buffer is
so large that `BigDecimal.pow` refuses an exponent (`distribution_iff`). The digits are in
`Rounding`.

`getProbabilityOfQueueing` is the formula of the queue without a bound, and never the probability of
at least `m` jobs (`not_queueingIsTail`). -/

namespace Mlmq.Model

open Lib.Decimal (BigDecimal)

/-- The scale of the quotients. -/
def PRECISION : ℕ := 150

/-- The value of an expression of type `int`. -/
@[irreducible]
def toInt (n : ℤ) : ℤ := n.bmod (2 ^ 32)

theorem toInt_of_lt {n : ℤ} (hn : 0 ≤ n) (hn' : n < 2 ^ 31) : toInt n = n := by
  unfold toInt
  rw [Int.bmod_eq_of_le (by omega) (by omega)]

/-- `BigDecimal.pow`, which refuses an exponent that is negative or has more than nine digits. -/
def pow (x : ℚ) (n : ℤ) : Option ℚ := if n < 0 ∨ 999999999 < n then none else some (x ^ n.toNat)

theorem pow_natCast {n : ℕ} (hn : n ≤ 999999999) (x : ℚ) : pow x n = some (x ^ n) := by
  unfold pow
  rw [if_neg (by omega), Int.toNat_natCast]

theorem le_of_pow {x y : ℚ} {n : ℤ} (h : pow x n = some y) : n ≤ 999999999 := by
  by_contra hn
  unfold pow at h
  rw [if_pos (Or.inr (not_le.mp hn))] at h
  cases h

/-- The number of servers and the size of the buffer. -/
structure QueueMMmB extends Queue where
  m : ℕ
  B : ℕ
deriving DecidableEq, Repr

namespace QueueMMmB

open Queue (factorial factorial_pos)

/-- The queue without a bound. -/
def toMMm (q : QueueMMmB) : QueueMMm := { q.toQueue with m := q.m }

/-! ### The functions of the source -/

def getServiceRateWithNJobs (q : QueueMMmB) (n : ℕ) : Option ℚ := q.toMMm.getServiceRateWithNJobs n

def getTraficIntensity (q : QueueMMmB) : Option BigDecimal := do
  let mu ← q.getMeanServiceRate
  return { value := ← divide q.lambda (q.m * mu), scale := PRECISION }

def getProbabilityZeroJobsInSystemGeneral (q : QueueMMmB) : Option ℚ := do
  let rho := (← q.getTraficIntensity).value
  let mTimesRho := rho * q.m
  let tmp ← pow mTimesRho q.m
  let tmp2 := 1 - (← pow rho (toInt (q.B - q.m + 1)))
  let tmp ← divide (tmp * tmp2) (factorial q.m)
  let tmp ← divide tmp (1 - rho)
  let tmp3 ← QueueMMm.thirdSummand mTimesRho q.m
  divide 1 (1 + tmp + tmp3)

def getProbabilityZeroJobsInSystem (q : QueueMMmB) : Option ℚ := do
  if q.m ≠ 1 then
    q.getProbabilityZeroJobsInSystemGeneral
  else
    let rho ← q.getTraficIntensity
    if BigDecimal.ONE.equals rho then
      divide 1 (toInt (q.B + 1))
    else
      divide (1 - rho.value) (1 - (← pow rho.value (toInt (q.B + 1))))

def getProbabilityNumJobsInSystem (q : QueueMMmB) (n : ℕ) : Option ℚ := do
  let p0 ← q.getProbabilityZeroJobsInSystem
  if n = 0 then
    return p0
  else
    let rho := (← q.getTraficIntensity).value
    if n < q.m then
      let mTimesRho := rho * q.m
      divide ((← pow mTimesRho n) * p0) (factorial n)
    else
      divide ((← pow rho n) * (← pow q.m q.m) * p0) (factorial q.m)

def getProbabilityOfQueueing (q : QueueMMmB) : Option ℚ := do
  let p0 ← q.getProbabilityZeroJobsInSystem
  let rho := (← q.getTraficIntensity).value
  let mTimesRho := rho * q.m
  let tmp ← divide ((← pow mTimesRho q.m) * p0) (1 - rho)
  divide tmp (factorial q.m)

/-! ### The probabilities -/

/-- A queue with jobs, and with a place for each job that is served. -/
structure Valid (q : QueueMMmB) : Prop where
  lambda_pos : 0 < q.lambda
  s_pos : 0 < q.s
  m_pos : 1 ≤ q.m
  m_le : q.m ≤ q.B

/-- No exponent is refused: there is one of `B`, and one of `B + 1` for a single server. -/
def Powers (q : QueueMMmB) : Prop := q.B + (if q.m = 1 then 1 else 0) ≤ 999999999

instance (q : QueueMMmB) : Decidable q.Powers := inferInstanceAs (Decidable (_ ≤ _))

/-- **The probabilities of `0` to `B` jobs are defined and those of a distribution.** -/
def Distribution (q : QueueMMmB) : Prop :=
  ∃ p : ℕ → ℚ, (∀ n ≤ q.B, q.getProbabilityNumJobsInSystem n = some (p n)) ∧
    (∀ n ≤ q.B, 0 ≤ p n) ∧ ∑ n ∈ Finset.range (q.B + 1), p n = 1

/-- **The probability of queueing is that of at least `m` jobs**, and a probability. -/
def QueueingIsTail (q : QueueMMmB) : Prop :=
  ∃ (p : ℕ → ℚ) (queueing : ℚ), (∀ n ≤ q.B, q.getProbabilityNumJobsInSystem n = some (p n)) ∧
    q.getProbabilityOfQueueing = some queueing ∧
    queueing = ∑ n ∈ Finset.Icc q.m q.B, p n ∧ 0 ≤ queueing ∧ queueing ≤ 1

/-- The weights of all numbers of jobs there is room for. -/
def total (q : QueueMMmB) : ℚ := ∑ n ∈ Finset.range (q.B + 1), q.toMMm.weight n

variable {q : QueueMMmB} {n : ℕ}

theorem Valid.m_cast_pos (h : q.Valid) : (0 : ℚ) < q.m := by exact_mod_cast h.m_pos

theorem Valid.load_pos (h : q.Valid) : 0 < q.lambda * q.s := mul_pos h.lambda_pos h.s_pos

theorem Valid.intensity_pos (h : q.Valid) : 0 < q.lambda * q.s / q.m :=
  div_pos h.load_pos h.m_cast_pos

theorem Valid.intensity_ne_one_iff (h : q.Valid) :
    q.lambda * q.s / q.m ≠ 1 ↔ q.lambda * q.s ≠ q.m := by
  rw [Ne, div_eq_one_iff_eq h.m_cast_pos.ne']

theorem Valid.getTraficIntensity_eq (h : q.Valid) :
    q.getTraficIntensity = some ⟨q.lambda * q.s / q.m, PRECISION⟩ := by
  have hs := h.s_pos
  have hm := h.m_cast_pos
  have hrho : q.lambda / (q.m * (1 / q.s)) = q.lambda * q.s / q.m := by field_simp
  unfold getTraficIntensity
  simp only [Queue.getMeanServiceRate_of_pos hs, Option.bind_eq_bind, Option.bind_some]
  rw [divide_of_ne_zero (by positivity), hrho]
  rfl

/-- The intensity is never equal to `BigDecimal.ONE`. -/
theorem not_equals_intensity (rho : ℚ) :
    BigDecimal.ONE.equals ⟨rho, PRECISION⟩ = false := by
  simp [BigDecimal.equals, BigDecimal.ONE, PRECISION]

theorem Valid.weight_of_le (h : q.Valid) (hn : n ≤ q.m) :
    q.toMMm.weight n = (q.lambda * q.s) ^ n / factorial n :=
  QueueMMm.weight_of_le (q := q.toMMm) h.m_cast_pos hn

theorem Valid.weight_zero (h : q.Valid) : q.toMMm.weight 0 = 1 := by
  rw [h.weight_of_le (Nat.zero_le _), Queue.factorial_eq]
  simp

theorem Valid.weight_pos (h : q.Valid) (n : ℕ) : 0 < q.toMMm.weight n := by
  have hload : 0 < q.toMMm.lambda * q.toMMm.s := h.load_pos
  have hm : (0 : ℚ) < q.toMMm.m := h.m_cast_pos
  have hF := factorial_pos n
  have hF' := factorial_pos q.toMMm.m
  unfold QueueMMm.weight
  split_ifs <;> positivity

theorem Valid.total_pos (h : q.Valid) : 0 < q.total :=
  Finset.sum_pos (fun n _ => h.weight_pos n) ⟨0, Finset.mem_range.mpr (Nat.succ_pos _)⟩

/-- The weights of at least `m` jobs are a geometric sum. -/
theorem Valid.sum_weight_tail (h : q.Valid) (hrho : q.lambda * q.s ≠ q.m) :
    ∑ n ∈ Finset.Icc q.m q.B, q.toMMm.weight n = q.toMMm.weight q.m *
      (1 - (q.lambda * q.s / q.m) ^ (q.B + 1 - q.m)) / (1 - q.lambda * q.s / q.m) := by
  have hne := h.intensity_ne_one_iff.mpr hrho
  have hle := h.m_le
  calc ∑ n ∈ Finset.Icc q.m q.B, q.toMMm.weight n
      = ∑ n ∈ Finset.Ico q.m (q.B + 1), q.toMMm.weight n := by
        rw [Finset.Ico_add_one_right_eq_Icc]
    _ = ∑ i ∈ Finset.range (q.B + 1 - q.m), (q.lambda * q.s / q.m) ^ i * q.toMMm.weight q.m := by
        rw [Finset.sum_Ico_eq_sum_range]
        exact Finset.sum_congr rfl fun i _ => QueueMMm.weight_add i
    _ = _ := by
        rw [← Finset.sum_mul, geom_sum_eq hne]
        have hden : q.lambda * q.s / q.m - 1 ≠ 0 := sub_ne_zero.mpr hne
        have hden' : 1 - q.lambda * q.s / q.m ≠ 0 := sub_ne_zero.mpr hne.symm
        rw [div_mul_eq_mul_div, div_eq_div_iff hden hden']
        ring

/-- No job, fewer jobs than servers, and at least as many. -/
theorem Valid.total_eq (h : q.Valid) : q.total = 1 +
    ∑ n ∈ Finset.Icc q.m q.B, q.toMMm.weight n +
    ∑ n ∈ Finset.Ico 1 q.m, (q.lambda * q.s) ^ n / factorial n := by
  have hm := h.m_pos
  have hle := h.m_le
  unfold total
  rw [Finset.range_eq_Ico, ← Finset.sum_Ico_consecutive _ (Nat.zero_le q.m) (by omega),
    Finset.sum_eq_sum_Ico_succ_bot (by omega), h.weight_zero, Finset.Ico_add_one_right_eq_Icc,
    Finset.sum_congr rfl fun n hn => h.weight_of_le (Finset.mem_Ico.mp hn).2.le]
  ring

/-! ### Away from intensity 1 -/

theorem Powers.le (h : q.Powers) : q.B ≤ 999999999 := (Nat.le_add_right _ _).trans h

/-- The power of the geometric sum. -/
theorem Valid.pow_eq (h : q.Valid) (hpow : q.Powers) (x : ℚ) :
    pow x (toInt (q.B - q.m + 1)) = some (x ^ (q.B + 1 - q.m)) := by
  have hle := h.m_le
  have hm := h.m_pos
  have hB := hpow.le
  rw [toInt_of_lt (by omega) (by omega), ← pow_natCast (by omega)]
  congr 1
  omega

theorem Valid.general_eq (h : q.Valid) (hrho : q.lambda * q.s ≠ q.m) (hpow : q.Powers) :
    q.getProbabilityZeroJobsInSystemGeneral = some (1 / q.total) := by
  have hm := h.m_cast_pos
  have hle : q.m ≤ 999999999 := h.m_le.trans hpow.le
  have hF := factorial_pos q.m
  have hload : q.lambda * q.s / q.m * q.m = q.lambda * q.s := div_mul_cancel₀ _ hm.ne'
  have hden : 1 - q.lambda * q.s / q.m ≠ 0 :=
    sub_ne_zero.mpr (h.intensity_ne_one_iff.mpr hrho).symm
  have hthird := QueueMMm.thirdSummand_eq (q.lambda * q.s) q.m
  rw [Lib.Tables.sum_range'_one, Nat.sub_add_cancel h.m_pos] at hthird
  have htotal : 1 + (q.lambda * q.s) ^ q.m * (1 - (q.lambda * q.s / q.m) ^ (q.B + 1 - q.m)) /
      factorial q.m / (1 - q.lambda * q.s / q.m) +
      ∑ n ∈ Finset.Ico 1 q.m, (q.lambda * q.s) ^ n / factorial n = q.total := by
    rw [h.total_eq, h.sum_weight_tail hrho, h.weight_of_le le_rfl]
    congr 2
    ring
  unfold getProbabilityZeroJobsInSystemGeneral
  simp only [h.getTraficIntensity_eq, hload, h.pow_eq hpow, pow_natCast hle, hthird,
    divide_of_ne_zero hF.ne', divide_of_ne_zero hden, Option.bind_eq_bind, Option.bind_some]
  rw [htotal, divide_of_ne_zero h.total_pos.ne']

/-- With one server the formula is that of a geometric sum. -/
theorem Valid.oneServer_eq (h : q.Valid) (hrho : q.lambda * q.s ≠ q.m) (hpow : q.Powers)
    (hm : q.m = 1) : q.getProbabilityZeroJobsInSystem = some (1 / q.total) := by
  unfold Powers at hpow
  rw [if_pos hm] at hpow
  have hne := h.intensity_ne_one_iff.mpr hrho
  have hpos := h.intensity_pos
  have hfree : 1 - q.lambda * q.s / q.m ≠ 0 := sub_ne_zero.mpr hne.symm
  have hfree' : 1 - (q.lambda * q.s / q.m) ^ (q.B + 1) ≠ 0 :=
    sub_ne_zero.mpr fun heq => hne ((pow_eq_one_iff_of_nonneg hpos.le (Nat.succ_ne_zero _)).mp
      heq.symm)
  have hweight : ∀ n, q.toMMm.weight n = (q.lambda * q.s / q.m) ^ n := by
    intro n
    induction n with
    | zero => rw [h.weight_zero, pow_zero]
    | succ n ih =>
      rw [pow_succ', ← ih]
      by_cases hn : n = 0
      · subst hn
        rw [h.weight_zero, h.weight_of_le hm.ge, Queue.factorial_eq]
        simp [hm]
      · exact QueueMMm.weight_succ_of_ge (hm.trans_le (Nat.pos_of_ne_zero hn))
  have htotal : q.total = (1 - (q.lambda * q.s / q.m) ^ (q.B + 1)) /
      (1 - q.lambda * q.s / q.m) := by
    unfold total
    rw [Finset.sum_congr rfl fun n _ => hweight n, geom_sum_eq hne, ← neg_sub, ← neg_sub (1 : ℚ),
      neg_div_neg_eq]
  unfold getProbabilityZeroJobsInSystem
  have hexponent : toInt (q.B + 1) = (q.B + 1 : ℕ) := by
    rw [toInt_of_lt (by omega) (by omega)]
    push_cast
    rfl
  rw [if_neg (by simp [hm]), h.getTraficIntensity_eq]
  simp only [Option.bind_eq_bind, Option.bind_some, not_equals_intensity, Bool.false_eq_true,
    if_false, hexponent, pow_natCast hpow]
  rw [divide_of_ne_zero hfree', htotal, one_div_div]

theorem Valid.zeroJobs_eq (h : q.Valid) (hrho : q.lambda * q.s ≠ q.m) (hpow : q.Powers) :
    q.getProbabilityZeroJobsInSystem = some (1 / q.total) := by
  by_cases hm : q.m = 1
  · exact h.oneServer_eq hrho hpow hm
  · unfold getProbabilityZeroJobsInSystem
    rw [if_pos hm]
    exact h.general_eq hrho hpow

/-- A probability is the share of its weight. -/
theorem Valid.numJobs_eq (h : q.Valid) (hrho : q.lambda * q.s ≠ q.m) (hpow : q.Powers)
    (hn : n ≤ q.B) : q.getProbabilityNumJobsInSystem n = some (q.toMMm.weight n / q.total) := by
  have hload : q.lambda * q.s / q.m * q.m = q.lambda * q.s :=
    div_mul_cancel₀ _ h.m_cast_pos.ne'
  have hle : q.m ≤ 999999999 := h.m_le.trans hpow.le
  unfold getProbabilityNumJobsInSystem
  simp only [h.zeroJobs_eq hrho hpow, h.getTraficIntensity_eq, hload, pow_natCast hle,
    pow_natCast (hn.trans hpow.le), Option.bind_eq_bind, Option.bind_some,
    divide_of_ne_zero (factorial_pos _).ne']
  by_cases hn : n = 0
  · rw [if_pos hn, hn, h.weight_zero]
    rfl
  · rw [if_neg hn]
    unfold QueueMMm.weight
    show _ = some ((if n < q.m then (q.lambda * q.s) ^ n / factorial n
      else (q.lambda * q.s / q.m) ^ n * (q.m : ℚ) ^ q.m / factorial q.m) / q.total)
    split_ifs <;> congr 1 <;> ring

/-- A probability of `B` jobs takes the powers. -/
theorem Valid.powers_of_numJobs (h : q.Valid) {x : ℚ}
    (hx : q.getProbabilityNumJobsInSystem q.B = some x) : q.Powers := by
  have hm := h.m_pos
  have hle := h.m_le
  obtain ⟨p0, hp0, hx⟩ := Option.bind_eq_some_iff.mp hx
  rw [if_neg (by omega)] at hx
  obtain ⟨rho, -, hx⟩ := Option.bind_eq_some_iff.mp hx
  rw [if_neg (by omega)] at hx
  obtain ⟨y, hy, -⟩ := Option.bind_eq_some_iff.mp hx
  have hB := le_of_pow hy
  unfold Powers
  split_ifs with hone
  · unfold getProbabilityZeroJobsInSystem at hp0
    rw [if_neg (by simp [hone]), h.getTraficIntensity_eq] at hp0
    simp only [Option.bind_eq_bind, Option.bind_some, not_equals_intensity, Bool.false_eq_true,
      if_false] at hp0
    obtain ⟨z, hz, -⟩ := Option.bind_eq_some_iff.mp hp0
    rw [toInt_of_lt (by omega) (by omega)] at hz
    have hB' := le_of_pow hz
    omega
  · omega

/-! ### Intensity 1 -/

theorem divide_zero (a : ℚ) : divide a 0 = none := if_pos rfl

/-- At intensity 1 both formulas divide by zero. -/
theorem Valid.zeroJobs_none (h : q.Valid) (hrho : q.lambda * q.s = q.m) (hpow : q.Powers) :
    q.getProbabilityZeroJobsInSystem = none := by
  have hle : q.m ≤ 999999999 := h.m_le.trans hpow.le
  have hone : q.lambda * q.s / q.m = 1 := by rw [hrho, div_self h.m_cast_pos.ne']
  have hrate : q.getTraficIntensity = some ⟨1, PRECISION⟩ := by rw [h.getTraficIntensity_eq, hone]
  unfold getProbabilityZeroJobsInSystem
  by_cases hm : q.m = 1
  · unfold Powers at hpow
    rw [if_pos hm] at hpow
    have hexponent : toInt (q.B + 1) = (q.B + 1 : ℕ) := by
      rw [toInt_of_lt (by omega) (by omega)]
      push_cast
      rfl
    rw [if_neg (by simp [hm]), hrate]
    simp only [Option.bind_eq_bind, Option.bind_some, not_equals_intensity, Bool.false_eq_true,
      if_false, hexponent, pow_natCast hpow, one_pow, sub_self, divide_zero]
  · rw [if_pos hm]
    unfold getProbabilityZeroJobsInSystemGeneral
    simp only [hrate, h.pow_eq hpow, pow_natCast hle, divide_of_ne_zero (factorial_pos q.m).ne',
      sub_self, divide_zero, Option.bind_eq_bind, Option.bind_some, Option.bind_none]

/-! ### The distribution -/

/-- **The probabilities are defined and those of a distribution** unless the intensity is 1 or an
exponent is refused. -/
theorem distribution_iff (h : q.Valid) :
    q.Distribution ↔ q.lambda * q.s ≠ q.m ∧ q.Powers := by
  constructor
  · rintro ⟨p, hp, -⟩
    have hpow := h.powers_of_numJobs (hp q.B le_rfl)
    refine ⟨fun hrho => ?_, hpow⟩
    have hzero := hp 0 (Nat.zero_le _)
    unfold getProbabilityNumJobsInSystem at hzero
    rw [h.zeroJobs_none hrho hpow] at hzero
    cases hzero
  · rintro ⟨hrho, hpow⟩
    have htotal := h.total_pos
    refine ⟨fun n => q.toMMm.weight n / q.total, fun n hn => h.numJobs_eq hrho hpow hn,
      fun n _ => div_nonneg (h.weight_pos n).le htotal.le, ?_⟩
    rw [← Finset.sum_div]
    exact div_self htotal.ne'

/-- Three servers and five places. -/
def threeOfFive : QueueMMmB := { lambda := 3, s := 1 / 2, queueMultiplicity := 1, m := 3, B := 5 }

theorem valid_threeOfFive : threeOfFive.Valid where
  lambda_pos := by norm_num [threeOfFive]
  s_pos := by norm_num [threeOfFive]
  m_pos := by decide
  m_le := by decide

/-! ### The probability of queueing -/

/-- The code returns the probability of at least `m` jobs over `1 - ρ ^ (B - m + 1)`. -/
theorem Valid.getProbabilityOfQueueing_eq (h : q.Valid) (hrho : q.lambda * q.s ≠ q.m)
    (hpow : q.Powers) : q.getProbabilityOfQueueing =
      some (q.toMMm.weight q.m / q.total / (1 - q.lambda * q.s / q.m)) := by
  have hload : q.lambda * q.s / q.m * q.m = q.lambda * q.s :=
    div_mul_cancel₀ _ h.m_cast_pos.ne'
  have hden : 1 - q.lambda * q.s / q.m ≠ 0 :=
    sub_ne_zero.mpr (h.intensity_ne_one_iff.mpr hrho).symm
  unfold getProbabilityOfQueueing
  simp only [h.zeroJobs_eq hrho hpow, h.getTraficIntensity_eq, hload, divide_of_ne_zero hden,
    pow_natCast (h.m_le.trans hpow.le), divide_of_ne_zero (factorial_pos _).ne',
    Option.bind_eq_bind, Option.bind_some]
  rw [h.weight_of_le le_rfl]
  congr 1
  ring

/-- The code does not return the probability of at least `m` jobs. -/
theorem Valid.ne_queueing (h : q.Valid) (hrho : q.lambda * q.s ≠ q.m) {p : ℕ → ℚ}
    (hp : ∀ n ≤ q.B, q.getProbabilityNumJobsInSystem n = some (p n)) :
    q.getProbabilityOfQueueing ≠ some (∑ n ∈ Finset.Icc q.m q.B, p n) := by
  have hpowers := h.powers_of_numJobs (hp q.B le_rfl)
  have hpw : ∀ n ∈ Finset.Icc q.m q.B, p n = q.toMMm.weight n / q.total := fun n hn =>
    have hn := (Finset.mem_Icc.mp hn).2
    Option.some.inj ((hp n hn).symm.trans (h.numJobs_eq hrho hpowers hn))
  have hden : 1 - q.lambda * q.s / q.m ≠ 0 :=
    sub_ne_zero.mpr (h.intensity_ne_one_iff.mpr hrho).symm
  have hweight := (h.weight_pos q.m).ne'
  have htotal := h.total_pos.ne'
  have hpow : (q.lambda * q.s / q.m) ^ (q.B + 1 - q.m) ≠ 0 := (pow_pos h.intensity_pos _).ne'
  rw [Finset.sum_congr rfl hpw, ← Finset.sum_div, h.sum_weight_tail hrho,
    h.getProbabilityOfQueueing_eq hrho hpowers]
  intro heq
  have hsum := Option.some.inj heq
  field_simp at hsum
  exact hpow (by linarith)

/-- **The probability of queueing is never that of at least `m` jobs.** -/
theorem not_queueingIsTail (h : q.Valid) (hrho : q.lambda * q.s ≠ q.m) : ¬ q.QueueingIsTail := by
  rintro ⟨p, queueing, hp, hqueueing, rfl, -⟩
  exact h.ne_queueing hrho hp hqueueing

theorem not_queueingIsTail_threeOfFive : ¬ threeOfFive.QueueingIsTail :=
  not_queueingIsTail valid_threeOfFive (by norm_num [threeOfFive])

/-- One server that gets jobs twice as fast as it serves them. -/
def overloaded : QueueMMmB := { lambda := 2, s := 1, queueMultiplicity := 1, m := 1, B := 1 }

/-- The probability of queueing there is negative. -/
theorem overloaded_queueing : overloaded.Valid ∧ overloaded.lambda * overloaded.s ≠ overloaded.m ∧
    overloaded.getProbabilityOfQueueing = some (-2 / 3) ∧ ¬ overloaded.QueueingIsTail := by
  have hqueueing : overloaded.getProbabilityOfQueueing = some (-2 / 3) := by decide +kernel
  refine ⟨⟨by norm_num [overloaded], by norm_num [overloaded], by decide, by decide⟩,
    by norm_num [overloaded], hqueueing, ?_⟩
  rintro ⟨p, queueing, -, heq, -, hnonneg, -⟩
  obtain rfl := Option.some.inj (heq.symm.trans hqueueing)
  norm_num at hnonneg

end QueueMMmB

end Mlmq.Model
