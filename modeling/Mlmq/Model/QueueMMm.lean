import Mlmq.Lib.Tables
import Mlmq.Model.Queue

/-! # M/M/m queues

`getProbabilityNumJobsInSystem` is the probability of no jobs times a weight (`weight`), which the
code assembles in two branches: for fewer jobs than servers, and for at least as many. A solution of
the queue keeps the balance between `n` and `n + 1` jobs: as many jobs arrive as are finished.

The weights for `n ≤ m` are quotients with `factorial`, so the balance holds where `factorial` has
the recursion of the factorial, and from `m` on (`balanced_iff`).

The mean number of waiting jobs is a series, with the sum `P ρ / (1 - ρ)` for the probability of
queueing `P` (`Stable.hasSum_waiting`). The code multiplies by `1 - ρ` instead, so its mean is too
small by the factor `(1 - ρ)²`, for every load (`not_meansOfProbabilities`). -/

namespace Mlmq.Model

/-- The number of servers. -/
structure QueueMMm extends Queue where
  m : ℕ
deriving DecidableEq, Repr

namespace QueueMMm

open Queue (factorial factorial_pos factorial_succ_iff)

/-! ### The functions of the source -/

def getServiceRateWithNJobs (q : QueueMMm) (n : ℕ) : Option ℚ := do
  if n * q.queueMultiplicity < q.m * q.queueMultiplicity then
    return (← divide n q.s) * q.queueMultiplicity
  else
    return (← divide q.m q.s) * q.queueMultiplicity

def getTraficIntensity (q : QueueMMm) : Option ℚ := do
  let mu ← q.getMeanServiceRate
  divide q.lambda (q.m * mu)

/-- The third summand: the sum over fewer jobs than servers. -/
def thirdSummand (mTimesRho : ℚ) (m : ℕ) : Option ℚ :=
  (List.range' 1 (m - 1)).foldlM
    (fun tmp2 n => do return tmp2 + (← divide (mTimesRho ^ n) (factorial n))) 0

def getProbabilityZeroJobsInSystem (q : QueueMMm) : Option ℚ := do
  let rho ← q.getTraficIntensity
  let mTimesRho := rho * q.m
  let tmp ← divide (mTimesRho ^ q.m) (factorial q.m)
  let tmp ← divide tmp (1 - rho)
  let tmp2 ← thirdSummand mTimesRho q.m
  divide 1 (1 + tmp + tmp2)

def getProbabilityNumJobsInSystem (q : QueueMMm) (n : ℕ) : Option ℚ := do
  let p0 ← q.getProbabilityZeroJobsInSystem
  if n = 0 then
    return p0
  else
    let rho ← q.getTraficIntensity
    if n < q.m then
      let mTimesRho := rho * q.m
      return (← divide (mTimesRho ^ n) (factorial n)) * p0
    else
      divide (rho ^ n * (q.m : ℚ) ^ q.m * p0) (factorial q.m)

/-- The probability that a job has to wait: that there are at least `m` jobs. -/
def getProbabilityOfQueueing (q : QueueMMm) : Option ℚ := do
  let p0 ← q.getProbabilityZeroJobsInSystem
  let rho ← q.getTraficIntensity
  let mTimesRho := rho * q.m
  let tmp := mTimesRho ^ q.m * p0
  let tmp ← divide tmp (1 - rho)
  divide tmp (factorial q.m)

def getMeanNrOfJobsInQueue (q : QueueMMm) : Option ℚ := do
  let rho ← q.getTraficIntensity
  return (1 - rho) * (← q.getProbabilityOfQueueing) * rho

def getMeanNrOfJobsInSystem (q : QueueMMm) : Option ℚ := do
  let rho ← q.getTraficIntensity
  let mTimesRho := rho * q.m
  return (← q.getMeanNrOfJobsInQueue) + mTimesRho

/-! ### Balance -/

/-- The parameters of a stable queue: the traffic intensity is below 1. -/
structure Stable (q : QueueMMm) : Prop where
  lambda_pos : 0 < q.lambda
  s_pos : 0 < q.s
  m_pos : 1 ≤ q.m
  intensity_lt : ∀ rho ∈ q.getTraficIntensity, rho < 1

/-- **The balance between `n` and `n + 1` jobs**: arrivals with `n` jobs, and completions with
`n + 1` jobs, of which as many are served as there are servers. -/
def Balanced (q : QueueMMm) (n : ℕ) : Prop :=
  ∃ p p', q.getProbabilityNumJobsInSystem n = some p ∧
    q.getProbabilityNumJobsInSystem (n + 1) = some p' ∧
    q.lambda * p = (min (n + 1) q.m : ℕ) / q.s * p'

/-- What a probability is a multiple of. -/
def weight (q : QueueMMm) (n : ℕ) : ℚ :=
  if n < q.m then (q.lambda * q.s) ^ n / factorial n
  else (q.lambda * q.s / q.m) ^ n * (q.m : ℚ) ^ q.m / factorial q.m

variable {q : QueueMMm} {n : ℕ}

/-- The rate of the completions: as many servers work as have a job, for each of the brokers. -/
theorem getServiceRateWithNJobs_eq (hs : 0 < q.s) (n : ℕ) :
    q.getServiceRateWithNJobs n = some ((min n q.m : ℕ) / q.s * q.queueMultiplicity) := by
  unfold getServiceRateWithNJobs
  rw [divide_of_ne_zero hs.ne', divide_of_ne_zero hs.ne']
  by_cases hbrokers : q.queueMultiplicity = 0
  · simp [hbrokers]
  · by_cases hn : n < q.m
    · rw [if_pos (Nat.mul_lt_mul_of_pos_right hn (Nat.pos_of_ne_zero hbrokers)),
        min_eq_left hn.le]
      rfl
    · rw [if_neg fun hlt => hn (Nat.lt_of_mul_lt_mul_right hlt), min_eq_right (not_lt.mp hn)]
      rfl

/-! ### The probabilities -/

theorem Stable.m_cast_pos (h : q.Stable) : (0 : ℚ) < q.m := by exact_mod_cast h.m_pos

theorem Stable.load_pos (h : q.Stable) : 0 < q.lambda * q.s := mul_pos h.lambda_pos h.s_pos

theorem Stable.getTraficIntensity_eq (h : q.Stable) :
    q.getTraficIntensity = some (q.lambda * q.s / q.m) := by
  have hs := h.s_pos
  have hm := h.m_cast_pos
  unfold getTraficIntensity
  rw [Queue.getMeanServiceRate_of_pos hs]
  show divide q.lambda (q.m * (1 / q.s)) = _
  rw [divide_of_ne_zero (by positivity)]
  congr 1
  field_simp

theorem Stable.intensity (h : q.Stable) : q.lambda * q.s / q.m < 1 :=
  h.intensity_lt _ h.getTraficIntensity_eq

theorem thirdSummand_eq (a : ℚ) (m : ℕ) : thirdSummand a m =
    some ((List.range' 1 (m - 1)).map fun n => a ^ n / factorial n).sum := by
  unfold thirdSummand
  rw [Lib.Tables.foldlM_add fun n _ => divide_of_ne_zero (factorial_pos n).ne', zero_add]

/-- There is a positive probability of no jobs. -/
theorem Stable.exists_zeroJobs (h : q.Stable) :
    ∃ p0, 0 < p0 ∧ q.getProbabilityZeroJobsInSystem = some p0 := by
  have hm := h.m_cast_pos
  have ha := h.load_pos
  have hrho : (0 : ℚ) < 1 - q.lambda * q.s / q.m := sub_pos.mpr h.intensity
  have hload : q.lambda * q.s / q.m * q.m = q.lambda * q.s := div_mul_cancel₀ _ hm.ne'
  obtain ⟨sum, hsum⟩ : ∃ sum, sum =
    ((List.range' 1 (q.m - 1)).map fun n => (q.lambda * q.s) ^ n / factorial n).sum := ⟨_, rfl⟩
  have hsum_nonneg : 0 ≤ sum := by
    rw [hsum]
    refine List.sum_nonneg fun x hx => ?_
    obtain ⟨n, -, rfl⟩ := List.mem_map.mp hx
    have hF := factorial_pos n
    positivity
  have hF := factorial_pos q.m
  have htotal : 0 < 1 + (q.lambda * q.s) ^ q.m / factorial q.m /
      (1 - q.lambda * q.s / q.m) + sum := by
    positivity
  refine ⟨_, one_div_pos.mpr htotal, ?_⟩
  unfold getProbabilityZeroJobsInSystem
  simp only [h.getTraficIntensity_eq, hload, thirdSummand_eq, divide_of_ne_zero hF.ne',
    divide_of_ne_zero hrho.ne', ← hsum, divide_of_ne_zero htotal.ne', Option.bind_eq_bind,
    Option.bind_some]

/-- A probability is a multiple of its weight. -/
theorem Stable.getProbability_eq (h : q.Stable) {p0 : ℚ}
    (hp0 : q.getProbabilityZeroJobsInSystem = some p0) (n : ℕ) :
    q.getProbabilityNumJobsInSystem n = some (q.weight n * p0) := by
  have hload : q.lambda * q.s / q.m * q.m = q.lambda * q.s := div_mul_cancel₀ _ h.m_cast_pos.ne'
  unfold getProbabilityNumJobsInSystem weight
  simp only [hp0, h.getTraficIntensity_eq, hload, divide_of_ne_zero (factorial_pos _).ne',
    Option.bind_eq_bind, Option.bind_some]
  by_cases hn : n = 0
  · have hm := h.m_pos
    rw [if_pos hn, hn, if_pos (by omega), Queue.factorial_eq]
    simp
  · rw [if_neg hn]
    split_ifs
    · rfl
    · congr 1
      ring

/-! ### The weights -/

/-- Up to `m` both branches agree. -/
theorem weight_of_le (hm : (0 : ℚ) < q.m) (hn : n ≤ q.m) :
    q.weight n = (q.lambda * q.s) ^ n / factorial n := by
  unfold weight
  split_ifs with hlt
  · rfl
  · obtain rfl : n = q.m := by omega
    rw [div_pow, div_mul_cancel₀ _ (by positivity)]

/-- From `m` on the weights are a geometric sequence. -/
theorem weight_succ_of_ge (hn : q.m ≤ n) :
    q.weight (n + 1) = q.lambda * q.s / q.m * q.weight n := by
  unfold weight
  rw [if_neg (by omega), if_neg (by omega), pow_succ']
  ring

/-- The balance of the weights. -/
theorem Stable.weight_balanced_iff (h : q.Stable) (n : ℕ) :
    q.lambda * q.weight n = (min (n + 1) q.m : ℕ) / q.s * q.weight (n + 1) ↔
      n ≤ 1 ∨ q.m ≤ n := by
  have hm := h.m_cast_pos
  have hs := h.s_pos
  have hlambda := h.lambda_pos
  by_cases hn : q.m ≤ n
  · refine iff_of_true ?_ (Or.inr hn)
    rw [min_eq_right (by omega), weight_succ_of_ge hn]
    field_simp
  · have hF := factorial_pos n
    have hF' := factorial_pos (n + 1)
    rw [min_eq_left (by omega), weight_of_le hm (by omega), weight_of_le hm (by omega),
      or_iff_left hn, ← factorial_succ_iff]
    -- `λ aⁿ / n! = ((n + 1) / s) aⁿ⁺¹ / (n + 1)!` with `a = λ s`
    rw [pow_succ]
    push_cast
    field_simp

/-- **The balance holds for at most one job, and from `m` jobs on.** -/
theorem balanced_iff (h : q.Stable) (n : ℕ) : q.Balanced n ↔ n ≤ 1 ∨ q.m ≤ n := by
  obtain ⟨p0, hpos, hp0⟩ := h.exists_zeroJobs
  rw [← h.weight_balanced_iff n]
  unfold Balanced
  rw [h.getProbability_eq hp0, h.getProbability_eq hp0]
  constructor
  · rintro ⟨p, p', hp, hp', hbalance⟩
    obtain rfl := Option.some.inj hp
    obtain rfl := Option.some.inj hp'
    rw [← mul_assoc, ← mul_assoc] at hbalance
    exact mul_right_cancel₀ hpos.ne' hbalance
  · intro hbalance
    exact ⟨_, _, rfl, rfl, by rw [← mul_assoc, hbalance, mul_assoc]⟩

/-- Three servers with half of their capacity in use. -/
def threeServers : QueueMMm := { lambda := 3, s := 1 / 2, queueMultiplicity := 1, m := 3 }

theorem stable_threeServers : threeServers.Stable where
  lambda_pos := by norm_num [threeServers]
  s_pos := by norm_num [threeServers]
  m_pos := by decide
  intensity_lt rho hrho := by
    have heq : threeServers.getTraficIntensity = some (1 / 2) := by decide +kernel
    rw [heq, Option.mem_some_iff] at hrho
    rw [← hrho]
    norm_num

theorem balanced_iff_threeServers : threeServers.Balanced 3 ↔ 3 ≤ 1 ∨ threeServers.m ≤ 3 :=
  balanced_iff stable_threeServers 3

/-- Between two and three jobs the balance fails. -/
theorem not_balanced_threeServers :
    ¬ ∀ (q : QueueMMm) (n : ℕ), q.Stable → q.Balanced n := by
  intro h
  obtain ⟨p, p', hp, hp', hbalance⟩ := h threeServers 2 stable_threeServers
  have hp₂ : threeServers.getProbabilityNumJobsInSystem 2 = some (9 / 35) := by decide +kernel
  have hp₃ : threeServers.getProbabilityNumJobsInSystem 3 = some (3 / 35) := by decide +kernel
  obtain rfl := Option.some.inj (hp.symm.trans hp₂)
  obtain rfl := Option.some.inj (hp'.symm.trans hp₃)
  norm_num [threeServers] at hbalance

/-! ### The means -/

/-- **The means are those of the probabilities**: of the jobs that wait while `m` are served, and of
all jobs. -/
def MeansOfProbabilities (q : QueueMMm) : Prop :=
  ∃ (p : ℕ → ℚ) (inQueue inSystem : ℚ),
    (∀ n, q.getProbabilityNumJobsInSystem n = some (p n)) ∧
    q.getMeanNrOfJobsInQueue = some inQueue ∧
    q.getMeanNrOfJobsInSystem = some inSystem ∧
    HasSum (fun n : ℕ => (n : ℚ) * p (q.m + n)) inQueue ∧
    HasSum (fun n : ℕ => (n : ℚ) * p n) inSystem

theorem weight_add (n : ℕ) :
    q.weight (q.m + n) = (q.lambda * q.s / q.m) ^ n * q.weight q.m := by
  induction n with
  | zero => simp
  | succ n ih =>
    rw [← add_assoc, weight_succ_of_ge (Nat.le_add_right _ _), ih, pow_succ']
    ring

theorem Stable.weight_pos (h : q.Stable) : 0 < q.weight q.m := by
  have ha := h.load_pos
  have hF := factorial_pos q.m
  rw [weight_of_le h.m_cast_pos le_rfl]
  positivity

/-- The mean number of waiting jobs, as a series. -/
theorem Stable.hasSum_waiting (h : q.Stable) (p0 : ℚ) :
    HasSum (fun n : ℕ => (n : ℚ) * (q.weight (q.m + n) * p0))
      (q.lambda * q.s / q.m / (1 - q.lambda * q.s / q.m) ^ 2 * (q.weight q.m * p0)) := by
  have hm := h.m_cast_pos
  have ha := h.load_pos
  have hnorm : ‖q.lambda * q.s / q.m‖ < 1 := by
    have hrho : |q.lambda * q.s / q.m| < 1 := by
      rw [abs_of_pos (by positivity)]
      exact h.intensity
    rw [← Rat.norm_cast_real, Real.norm_eq_abs]
    exact_mod_cast hrho
  refine ((hasSum_coe_mul_geometric_of_norm_lt_one hnorm).mul_right (q.weight q.m * p0)).congr_fun
    fun n => ?_
  rw [weight_add]
  ring

theorem Stable.getProbabilityOfQueueing_eq (h : q.Stable) {p0 : ℚ}
    (hp0 : q.getProbabilityZeroJobsInSystem = some p0) :
    q.getProbabilityOfQueueing =
      some (q.weight q.m * p0 / (1 - q.lambda * q.s / q.m)) := by
  have hm := h.m_cast_pos
  have hload : q.lambda * q.s / q.m * q.m = q.lambda * q.s := div_mul_cancel₀ _ hm.ne'
  unfold getProbabilityOfQueueing
  simp only [hp0, h.getTraficIntensity_eq, hload, Option.bind_eq_bind, Option.bind_some,
    divide_of_ne_zero (sub_pos.mpr h.intensity).ne', divide_of_ne_zero (factorial_pos q.m).ne']
  rw [weight_of_le hm le_rfl]
  congr 1
  ring

/-- **The mean of the code** is too small by the factor `(1 - ρ)²`. -/
theorem Stable.getMeanNrOfJobsInQueue_eq (h : q.Stable) {p0 : ℚ}
    (hp0 : q.getProbabilityZeroJobsInSystem = some p0) :
    q.getMeanNrOfJobsInQueue = some ((1 - q.lambda * q.s / q.m) ^ 2 *
      (q.lambda * q.s / q.m / (1 - q.lambda * q.s / q.m) ^ 2 * (q.weight q.m * p0))) := by
  have hrho := (sub_pos.mpr h.intensity).ne'
  unfold getMeanNrOfJobsInQueue
  rw [h.getTraficIntensity_eq, h.getProbabilityOfQueueing_eq hp0]
  show some _ = _
  congr 1
  field_simp

/-- The sum of the series is not what the code returns. -/
theorem Stable.ne_inQueue (h : q.Stable) {p : ℕ → ℚ} {inQueue : ℚ}
    (hp : ∀ n, q.getProbabilityNumJobsInSystem n = some (p n))
    (hsum : HasSum (fun n : ℕ => (n : ℚ) * p (q.m + n)) inQueue) :
    q.getMeanNrOfJobsInQueue ≠ some inQueue := by
  obtain ⟨p0, hpos, hp0⟩ := h.exists_zeroJobs
  have hpw : p = fun n => q.weight n * p0 := by
    funext n
    exact Option.some.inj ((hp n).symm.trans (h.getProbability_eq hp0 n))
  subst hpw
  have hm := h.m_cast_pos
  have ha := h.load_pos
  have hw := h.weight_pos
  obtain ⟨rho, hrho⟩ : ∃ rho, rho = q.lambda * q.s / q.m := ⟨_, rfl⟩
  have hrho_pos : 0 < rho := by
    rw [hrho]
    positivity
  have hrho_lt : rho < 1 := hrho ▸ h.intensity
  rw [h.getMeanNrOfJobsInQueue_eq hp0, hsum.unique (h.hasSum_waiting p0), ← hrho]
  have hfree : 0 < 1 - rho := sub_pos.mpr hrho_lt
  have hmean : 0 < rho / (1 - rho) ^ 2 * (q.weight q.m * p0) := by positivity
  intro heq
  have hlt : (1 - rho) ^ 2 < 1 := pow_lt_one₀ hfree.le (by linarith) two_ne_zero
  have hlt' := mul_lt_mul_of_pos_right hlt hmean
  rw [one_mul, Option.some.inj heq] at hlt'
  exact lt_irrefl _ hlt'

/-- **The mean numbers of jobs are never those of the probabilities.** -/
theorem not_meansOfProbabilities (h : q.Stable) : ¬ q.MeansOfProbabilities := by
  rintro ⟨p, inQueue, inSystem, hp, hqueue, -, hsum, -⟩
  exact h.ne_inQueue hp hsum hqueue

theorem not_meansOfProbabilities_threeServers : ¬ threeServers.MeansOfProbabilities :=
  not_meansOfProbabilities stable_threeServers

/-- One server that is busy for half of the time. -/
def halfLoad : QueueMMm := { lambda := 1, s := 1 / 2, queueMultiplicity := 1, m := 1 }

/-- Half a job waits there on average, and the code says an eighth. -/
theorem halfLoad_waiting : halfLoad.Stable ∧ halfLoad.getMeanNrOfJobsInQueue = some (1 / 8) ∧
    ¬ halfLoad.MeansOfProbabilities := by
  have hstable : halfLoad.Stable :=
    { lambda_pos := by norm_num [halfLoad]
      s_pos := by norm_num [halfLoad]
      m_pos := by decide
      intensity_lt := by
        have heq : halfLoad.getTraficIntensity = some (1 / 2) := by decide +kernel
        rw [heq]
        rintro _ ⟨⟩
        norm_num }
  refine ⟨hstable, by decide +kernel, ?_⟩
  rintro ⟨p, inQueue, inSystem, hp, hqueue, -, hsum, -⟩
  exact hstable.ne_inQueue hp hsum hqueue

end QueueMMm

end Mlmq.Model
