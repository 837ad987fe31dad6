import Mlmq.Lib.ClosedNetwork
import Mlmq.Lib.Tables
import Mlmq.Model.QueueMMmB

/-! # Load-dependent mean value analysis

`performMVA` adds one user after the other to a closed network of queues. Both kinds of queues depend
on the load: the probabilities `pJ` of the numbers of jobs at a queue are computed from those with one
user less, and `pJ[0]` is what they leave.

With one visit of each queue, the probabilities are those of the product-form distribution, which are
never negative (`performMVA_sound`). -/

namespace Mlmq.Model

open Lib.Tables
open Lib.ClosedNetwork (Station normalizing throughput marginal thinking)

/-! ### The queues -/

inductive AnyQueue
  | mmm (q : QueueMMm)
  | mmmB (q : QueueMMmB)
deriving DecidableEq, Repr

namespace AnyQueue

def toQueue : AnyQueue → Queue
  | mmm q => q.toQueue
  | mmmB q => q.toQueue

def getServiceNodeCount : AnyQueue → ℕ
  | mmm q => q.m
  | mmmB q => q.m

def getServiceRateWithNJobs : AnyQueue → ℕ → Option ℚ
  | mmm q => q.getServiceRateWithNJobs
  | mmmB q => q.getServiceRateWithNJobs

def getMeanServiceTime (q : AnyQueue) : ℚ := q.toQueue.s

def getQueueMultiplicity (q : AnyQueue) : ℕ := q.toQueue.queueMultiplicity

def isLoadDependent : AnyQueue → Bool
  | mmm _ => true
  | mmmB _ => true

/-- Neither kind overrides this. -/
def isFixedCapacityQueue (_ : AnyQueue) : Bool := false

/-- Neither kind overrides this. -/
def isDelayCenter (_ : AnyQueue) : Bool := false

end AnyQueue

/-! ### The analysis -/

/-- A queue with what the arrays hold for it: the mean number of jobs, the probabilities, the response
time, the utilisation and the demand. -/
structure Row where
  queue : AnyQueue
  visitCount : ℤ
  qPerQueue : ℚ
  pJ : Table ℚ
  responseTime : ℚ
  u : ℚ
  d : ℚ
deriving DecidableEq, Repr

def initializeMVA (queues : List (AnyQueue × ℤ)) (N : ℕ) : List Row :=
  queues.map fun x =>
    { queue := x.1, visitCount := x.2, qPerQueue := 0,
      pJ := (List.replicate (N + 1) (some 0)).set 0 (some 1), responseTime := 0, u := 0, d := 0 }

namespace Row

/-- The share of `j` jobs in the response time. -/
def share (row : Row) (j : ℕ) : Option ℚ := do
  let mu_j ← row.queue.getServiceRateWithNJobs j
  divide ((← read row.pJ (j - 1)) * j) mu_j

def calculateResponseTime (row : Row) (n : ℕ) : Option ℚ :=
  if row.queue.isFixedCapacityQueue then
    some (row.queue.getMeanServiceTime * (1 + row.qPerQueue))
  else if row.queue.isLoadDependent then
    (List.range' 1 n).foldlM (fun r j => do return r + (← row.share j)) 0
  else
    some row.queue.getMeanServiceTime

/-- The entry `pJ[j]`, from the old entry below it. -/
def entry (row : Row) (X : ℚ) (j : ℕ) (below : ℚ) : Option ℚ := do
  divide (X * below) (← row.queue.getServiceRateWithNJobs j)

/-- The new queue length. -/
def updateLength (row : Row) (X : ℚ) (n : ℕ) : Option Row :=
  if row.queue.isLoadDependent then do
    let pJ ← shiftDown (row.entry X) n row.pJ
    let newPi0 ← (List.range' 1 (pJ.length - 1)).foldlM
      (fun newPi0 j => do return newPi0 - (← read pJ j)) 1
    return { row with pJ := ← write pJ 0 newPi0 }
  else if row.queue.isFixedCapacityQueue || row.queue.isDelayCenter then
    some { row with qPerQueue := X * row.visitCount * row.responseTime }
  else
    some row

/-- The utilisation of one of the brokers, and the demand. -/
def updateUtilisation (row : Row) (X : ℚ) : Option Row := do
  let u ←
    if row.queue.isLoadDependent then (do return 1 - (← read row.pJ 0))
    else if row.queue.isDelayCenter || row.queue.isFixedCapacityQueue then
      some (X * row.queue.getMeanServiceTime * row.visitCount)
    else none
  let u ← divide u row.queue.getQueueMultiplicity
  return { row with u, d := ← divide u X }

end Row

/-- What a step leaves and logs: the throughput, the response time, and the rows. -/
structure Step where
  X : ℚ
  rTotal : ℚ
  rows : List Row
deriving DecidableEq, Repr

/-- A step with `n` users. -/
def performStep (thinktime : ℤ) (n : ℕ) (rows : List Row) : Option Step := do
  let rows ← rows.mapM fun row => do
    return { row with responseTime := (← row.calculateResponseTime n) }
  let rTotal := (rows.map fun row : Row => row.responseTime * row.visitCount).sum
  let X ← divide n (thinktime + rTotal)
  let rows ← rows.mapM (·.updateLength X n)
  let rows ← rows.mapM (·.updateUtilisation X)
  return { X, rTotal, rows }

/-- The steps with `1` to `n` users. -/
def performMVA (thinktime : ℤ) (rows : List Row) : ℕ → Option Step
  | 0 => some { X := 0, rTotal := 0, rows }
  | n + 1 => do performStep thinktime (n + 1) (← performMVA thinktime rows n).rows

/-! ### What is to hold -/

/-- **A row holds probabilities**: of `0` to `n` jobs, with the mean that Little's law demands. -/
def Row.Sound (N n : ℕ) (X : ℚ) (row : Row) : Prop :=
  ∃ p : ℕ → ℚ, (∀ j ≤ N, read row.pJ j = some (p j)) ∧ (∀ j ≤ N, 0 ≤ p j ∧ p j ≤ 1) ∧
    ∑ j ∈ Finset.range (N + 1), p j = 1 ∧ (∀ j, n < j → j ≤ N → p j = 0) ∧
    ∑ j ∈ Finset.range (N + 1), j * p j = X * row.responseTime ∧
    0 ≤ 1 - p 0 ∧ 1 - p 0 ≤ 1

/-- A queue with jobs and servers. -/
structure AnyQueue.Valid (q : AnyQueue) : Prop where
  s_pos : 0 < q.getMeanServiceTime
  m_pos : 1 ≤ q.getServiceNodeCount
  multiplicity_pos : 1 ≤ q.getQueueMultiplicity

/-- The queues that have all that. -/
abbrev ValidQueue := { q : AnyQueue // q.Valid }

namespace ValidQueue

/-- The mean time until a job is done when there are `j + 1`. -/
def times (q : ValidQueue) (j : ℕ) : ℚ :=
  q.1.getMeanServiceTime /
    ((min (j + 1) q.1.getServiceNodeCount : ℕ) * q.1.getQueueMultiplicity)

theorem times_pos (q : ValidQueue) (j : ℕ) : 0 < q.times j := by
  have hs := q.2.s_pos
  have hm := q.2.m_pos
  have hbrokers : (0 : ℚ) < q.1.getQueueMultiplicity := by
    exact_mod_cast q.2.multiplicity_pos
  have hmin : (0 : ℚ) < (min (j + 1) q.1.getServiceNodeCount : ℕ) := by
    exact_mod_cast (by omega : 0 < min (j + 1) q.1.getServiceNodeCount)
  unfold times
  positivity

noncomputable def station (q : ValidQueue) : Station ℚ :=
  Station.ofTimes q.times fun j => (q.times_pos j).le

theorem getServiceRateWithNJobs_eq (q : ValidQueue) (j : ℕ) :
    q.1.getServiceRateWithNJobs (j + 1) = some (1 / q.times j) := by
  have hs := q.2.s_pos
  have hrate : q.1.getServiceRateWithNJobs (j + 1) =
      some ((min (j + 1) q.1.getServiceNodeCount : ℕ) / q.1.getMeanServiceTime *
        q.1.getQueueMultiplicity) := by
    obtain ⟨q, hq⟩ := q
    cases q with
    | mmm q => exact QueueMMm.getServiceRateWithNJobs_eq hs (j + 1)
    | mmmB q => exact QueueMMm.getServiceRateWithNJobs_eq (q := q.toMMm) hs (j + 1)
  rw [hrate]
  unfold times
  congr 1
  rw [one_div_div]
  ring

end ValidQueue

/-! ### A step -/

/-- The row of a queue that is visited once, with `n` users. -/
structure Solved (net : List (Station ℚ)) (N n : ℕ) (q : ValidQueue) (row : Row) : Prop where
  queue : row.queue = q.1
  visitCount : row.visitCount = 1
  size : row.pJ.length = N + 1
  table : ∀ j ≤ N, read row.pJ j = some (if j ≤ n then marginal net q.station n j else 0)

/-- The response time is the mean number of jobs over the throughput, by Little's law. -/
structure Responded (net : List (Station ℚ)) (N n : ℕ) (q : ValidQueue) (row : Row) : Prop
    extends Solved net N n q row where
  little : throughput net n * row.responseTime = Lib.ClosedNetwork.mean net q.station (n + 1)

/-- The row after a step. -/
structure Finished (net : List (Station ℚ)) (N n : ℕ) (q : ValidQueue) (row : Row) : Prop
    extends Solved net N n q row where
  mean : throughput net (n - 1) * row.responseTime = Lib.ClosedNetwork.mean net q.station n

section

variable {net : List (Station ℚ)} {N n : ℕ} {q : ValidQueue} {row : Row}

theorem sum_range_ite (f : ℕ → ℚ) (hn : n ≤ N) :
    ∑ j ∈ Finset.range (N + 1), (if j ≤ n then f j else 0) = ∑ j ∈ Finset.range (n + 1), f j := by
  rw [← Finset.sum_filter]
  congr 1
  ext j
  simp only [Finset.mem_filter, Finset.mem_range]
  omega

theorem solved_initializeMVA (net : List (Station ℚ)) (N : ℕ) (queues : List ValidQueue) :
    List.Forall₂ (Solved net N 0) queues (initializeMVA (queues.map fun q => (q.1, 1)) N) := by
  unfold initializeMVA
  rw [List.map_map, List.forall₂_map_right_iff]
  refine List.forall₂_same.mpr fun q _ => ⟨rfl, rfl, by simp, fun j hj => ?_⟩
  show Lib.Tables.read ((List.replicate (N + 1) (some 0)).set 0 (some 1)) j = _
  unfold Lib.Tables.read
  rw [List.getElem?_set, List.length_replicate, List.getElem?_replicate]
  by_cases h0 : j = 0
  · subst h0
    rw [if_pos rfl, if_pos (Nat.succ_pos N), if_pos le_rfl, Lib.ClosedNetwork.marginal_zero]
    rfl
  · rw [if_neg (Ne.symm h0), if_pos (Nat.lt_succ_of_le hj), if_neg (by omega)]
    rfl

theorem Solved.calculateResponseTime (h : Solved net N n q row) (hnN : n < N)
    (hn : PowerSeries.coeff n (normalizing net) ≠ 0) :
    ∃ r, row.calculateResponseTime (n + 1) = some r ∧
      Responded net N n q { row with responseTime := r } := by
  have hshare : ∀ j < n + 1, row.share (j + 1) =
      some ((j + 1) * q.times j * marginal net q.station n j) := by
    intro j hj
    have hrate : 1 / q.times j ≠ 0 := (one_div_pos.mpr (q.times_pos j)).ne'
    unfold Row.share
    rw [h.queue, q.getServiceRateWithNJobs_eq, Nat.add_sub_cancel, h.table j (by omega),
      if_pos (Nat.lt_succ_iff.mp hj)]
    simp only [Option.bind_eq_bind, Option.bind_some]
    rw [divide_of_ne_zero hrate]
    congr 1
    push_cast
    field_simp
  have hload : row.queue.isLoadDependent = true := by cases row.queue <;> rfl
  have hmean : Lib.ClosedNetwork.mean net q.station (n + 1) = _ :=
    Lib.ClosedNetwork.mean_succ_ofTimes hn
  refine ⟨∑ j ∈ Finset.range (n + 1), (j + 1) * q.times j * marginal net q.station n j, ?_,
    { h with little := hmean.symm }⟩
  unfold Row.calculateResponseTime
  rw [if_neg (by simp [AnyQueue.isFixedCapacityQueue]), if_pos hload, foldlM_range'_add hshare]

/-- With the throughput of the network, the new entries are the probabilities with one user more, and
`pJ[0]` is the one that is left. -/
theorem Responded.updateLength (h : Responded net N n q row) (hnN : n < N)
    (hn : PowerSeries.coeff n (normalizing net) ≠ 0)
    (hn' : PowerSeries.coeff (n + 1) (normalizing net) ≠ 0) :
    ∃ row', row.updateLength (throughput net n) (n + 1) = some row' ∧
      Finished net N (n + 1) q row' := by
  have hentry : ∀ j < n + 1, row.entry (throughput net n) (j + 1)
      (if j ≤ n then marginal net q.station n j else 0) =
      some (marginal net q.station (n + 1) (j + 1)) := by
    intro j hj
    have hrate : 1 / q.times j ≠ 0 := (one_div_pos.mpr (q.times_pos j)).ne'
    have hnext : marginal net q.station (n + 1) (j + 1) = _ :=
      Lib.ClosedNetwork.marginal_succ_ofTimes hn j
    unfold Row.entry
    rw [h.queue, q.getServiceRateWithNJobs_eq, if_pos (Nat.lt_succ_iff.mp hj), Option.bind_eq_bind,
      Option.bind_some, divide_of_ne_zero hrate, hnext, div_div_eq_mul_div, div_one]
    congr 1
    unfold ValidQueue.station
    ring
  obtain ⟨pJ, hshift, hlen, hread⟩ := exists_shiftDown (by rw [h.size]; omega)
    (fun j (hj : j < n + 1) => h.table j (by omega)) hentry
  rw [h.size] at hlen
  have habove : ∀ j < N, read pJ (j + 1) =
      some (if j + 1 ≤ n + 1 then marginal net q.station (n + 1) (j + 1) else 0) := by
    intro j hj
    rw [hread]
    by_cases hjn : j + 1 ≤ n + 1
    · rw [if_pos ⟨Nat.succ_pos j, hjn⟩, if_pos hjn]
    · rw [if_neg fun hand => hjn hand.2, if_neg hjn, h.table (j + 1) hj, if_neg (by omega)]
  have hsum := Lib.ClosedNetwork.sum_marginal hn' q.station
  rw [← sum_range_ite _ (by omega : n + 1 ≤ N), Finset.sum_range_succ'] at hsum
  have hrest := foldlM_range'_sub habove 1
  rw [sub_eq_of_eq_add' hsum.symm, if_pos (Nat.zero_le _)] at hrest
  obtain ⟨pJ', hwrite, hlen', hread'⟩ := exists_write (P := pJ) (j := 0) (by omega)
    (marginal net q.station (n + 1) 0)
  have hload : row.queue.isLoadDependent = true := by cases row.queue <;> rfl
  refine ⟨{ row with pJ := pJ' }, ?_, { h with
    size := hlen'.trans hlen
    table := fun j hj => ?_
    mean := h.little }⟩
  · unfold Row.updateLength
    rw [if_pos hload]
    simp only [Option.bind_eq_bind] at hrest
    simp only [hshift, hlen, Nat.add_sub_cancel, hrest, hwrite, Option.bind_eq_bind,
      Option.bind_some]
    rfl
  · show Lib.Tables.read pJ' j = _
    rw [hread']
    cases j with
    | zero => rw [if_pos rfl, if_pos (Nat.zero_le _)]
    | succ j =>
      rw [if_neg (Nat.succ_ne_zero j)]
      exact habove j hj

theorem Finished.updateUtilisation (h : Finished net N n q row) {X : ℚ} (hX : X ≠ 0) :
    ∃ row', row.updateUtilisation X = some row' ∧ Finished net N n q row' := by
  have hbrokers : (row.queue.getQueueMultiplicity : ℚ) ≠ 0 := by
    have hpos := q.2.multiplicity_pos
    rw [h.queue]
    exact_mod_cast (by omega : q.1.getQueueMultiplicity ≠ 0)
  have hload : row.queue.isLoadDependent = true := by cases row.queue <;> rfl
  unfold Row.updateUtilisation
  rw [if_pos hload, h.table 0 (Nat.zero_le N)]
  simp only [Option.bind_eq_bind, Option.bind_some, Option.pure_def]
  rw [divide_of_ne_zero hbrokers, Option.bind_some, divide_of_ne_zero hX]
  exact ⟨_, rfl, { h with }⟩

/-- What is to hold of a row, from the probabilities of the network. -/
theorem Finished.sound (h : Finished net N n q row) (hnN : n ≤ N) (hmem : q.station ∈ net)
    (hn : PowerSeries.coeff n (normalizing net) ≠ 0) :
    row.Sound N n (throughput net (n - 1)) := by
  have hnonneg : ∀ j, 0 ≤ if j ≤ n then marginal net q.station n j else 0 := by
    intro j
    split_ifs
    · exact Lib.ClosedNetwork.marginal_nonneg hmem n j
    · exact le_rfl
  have hsum : ∑ j ∈ Finset.range (N + 1), (if j ≤ n then marginal net q.station n j else 0) = 1 := by
    rw [sum_range_ite _ hnN]
    exact Lib.ClosedNetwork.sum_marginal hn q.station
  have hle : ∀ j ≤ N, (if j ≤ n then marginal net q.station n j else 0) ≤ 1 := by
    intro j hj
    rw [← hsum]
    exact Finset.single_le_sum (f := fun j => if j ≤ n then marginal net q.station n j else 0)
      (fun i _ => hnonneg i) (Finset.mem_range.mpr (by omega))
  refine ⟨fun j => if j ≤ n then marginal net q.station n j else 0, h.table,
    fun j hj => ⟨hnonneg j, hle j hj⟩, hsum, fun j hj _ => if_neg (by omega), ?_,
    sub_nonneg.mpr (hle 0 (Nat.zero_le N)), sub_le_self 1 (hnonneg 0)⟩
  rw [h.mean]
  unfold Lib.ClosedNetwork.mean
  rw [← sum_range_ite _ hnN]
  refine Finset.sum_congr rfl fun j _ => ?_
  simp only [mul_ite, mul_zero]

theorem queues_eq {queues : List ValidQueue} {rows : List Row}
    (h : List.Forall₂ (Solved net N n) queues rows) :
    rows.map Row.queue = queues.map Subtype.val := by
  induction h with
  | nil => rfl
  | cons hq _ ih => rw [List.map_cons, List.map_cons, hq.queue, ih]

end

/-! ### All steps -/

/-- The queues, and the users who think. -/
noncomputable def network {thinktime : ℤ} (hZ : 0 ≤ thinktime) (queues : List ValidQueue) :
    List (Station ℚ) :=
  thinking (Int.cast_nonneg hZ) :: queues.map ValidQueue.station

section

variable {thinktime : ℤ} {hZ : 0 ≤ thinktime} {queues : List ValidQueue} {N n : ℕ}

variable (hZ) in
theorem network_normalizing_pos (hne : queues ≠ []) (n : ℕ) :
    0 < PowerSeries.coeff n (normalizing (network hZ queues)) := by
  refine Lib.ClosedNetwork.normalizing_thinking_pos (fun f hf => ?_)
    (Or.inl (List.map_eq_nil_iff.not.mpr hne)) n
  obtain ⟨q, -, rfl⟩ := List.mem_map.mp hf
  exact Lib.ClosedNetwork.coeff_ofTimes_pos q.times_pos

/-- The time of a round, in which all users pass, when the response times obey Little's law. -/
theorem round_time {rows : List Row} (hne : queues ≠ [])
    (h : List.Forall₂ (fun q row => row.visitCount = 1 ∧
      throughput (network hZ queues) n * row.responseTime =
        Lib.ClosedNetwork.mean (network hZ queues) q.station (n + 1)) queues rows) :
    throughput (network hZ queues) n *
      (thinktime + (rows.map fun row => row.responseTime * (row.visitCount : ℚ)).sum) = n + 1 := by
  have hresponses : ∀ {qs : List ValidQueue},
      List.Forall₂ (fun q row => row.visitCount = 1 ∧
        throughput (network hZ queues) n * row.responseTime =
          Lib.ClosedNetwork.mean (network hZ queues) q.station (n + 1)) qs rows →
      throughput (network hZ queues) n *
        (rows.map fun row => row.responseTime * (row.visitCount : ℚ)).sum =
        (qs.map fun q =>
          Lib.ClosedNetwork.mean (network hZ queues) q.station (n + 1)).sum := by
    clear h
    intro qs hqs
    induction hqs with
    | nil => simp
    | @cons q row qs rows hq _ ih =>
      rw [List.map_cons, List.sum_cons, mul_add, ih, List.map_cons, List.sum_cons, ← hq.2, hq.1,
        Int.cast_one, mul_one]
  have hsum := Lib.ClosedNetwork.sum_mean (network_normalizing_pos hZ hne (n + 1)).ne'
  rw [network, List.map_cons, List.sum_cons, List.map_map, ← network,
    Lib.ClosedNetwork.mean_thinking] at hsum
  push_cast at hsum
  rw [mul_add, hresponses h, mul_comm]
  exact hsum

/-- **A step** has the throughput of the network, and finds the probabilities with one user more. -/
theorem performStep_solved (hne : queues ≠ []) (hnN : n < N) {rows : List Row}
    (h : List.Forall₂ (Solved (network hZ queues) N n) queues rows) :
    ∃ step, performStep thinktime (n + 1) rows = some step ∧
      step.X = throughput (network hZ queues) n ∧
      List.Forall₂ (Finished (network hZ queues) N (n + 1)) queues step.rows := by
  have hpos := network_normalizing_pos hZ hne
  have hT := Lib.ClosedNetwork.throughput_pos (hpos n) (hpos (n + 1))
  obtain ⟨rows₁, hresponse, hrows₁⟩ := exists_mapM
    (f := fun row : Row => (row.calculateResponseTime (n + 1)).bind fun r =>
      some { row with responseTime := r }) h fun q _ row hq => by
      obtain ⟨r, hr, hresponded⟩ := hq.calculateResponseTime hnN (hpos n).ne'
      exact ⟨_, by rw [hr]; rfl, hresponded⟩
  have hround := round_time hne (hrows₁.imp fun q row hq => ⟨hq.visitCount, hq.little⟩)
  obtain ⟨rTotal, hrTotal⟩ : ∃ rTotal, rTotal =
    (rows₁.map fun row => row.responseTime * (row.visitCount : ℚ)).sum := ⟨_, rfl⟩
  rw [← hrTotal] at hround
  have hne₀ : (thinktime : ℚ) + rTotal ≠ 0 := by
    intro h0
    rw [h0, mul_zero] at hround
    exact Nat.cast_add_one_ne_zero n hround.symm
  have hX : ((n + 1 : ℕ) : ℚ) / (thinktime + rTotal) = throughput (network hZ queues) n := by
    push_cast
    rw [div_eq_iff hne₀, hround]
  obtain ⟨rows₂, hlength, hrows₂⟩ := exists_mapM hrows₁ fun q _ row hq =>
    hq.updateLength hnN (hpos n).ne' (hpos (n + 1)).ne'
  obtain ⟨rows₃, hutilisation, hrows₃⟩ := exists_mapM hrows₂ fun q _ row hq =>
    hq.updateUtilisation hT.ne'
  refine ⟨⟨throughput (network hZ queues) n, rTotal, rows₃⟩, ?_, rfl, hrows₃⟩
  unfold performStep
  simp only [Option.bind_eq_bind, Option.pure_def, hresponse, Option.bind_some, ← hrTotal,
    divide_of_ne_zero hne₀, hX, hlength, hutilisation]

variable (hZ) in
theorem performMVA_solved (hne : queues ≠ []) (hnN : n ≤ N) :
    ∃ step, performMVA thinktime (initializeMVA (queues.map fun q => (q.1, 1)) N) n = some step ∧
      List.Forall₂ (Solved (network hZ queues) N n) queues step.rows ∧
      (1 ≤ n → step.X = throughput (network hZ queues) (n - 1) ∧
        List.Forall₂ (Finished (network hZ queues) N n) queues step.rows) := by
  induction n with
  | zero => exact ⟨_, rfl, solved_initializeMVA _ N queues, fun h => absurd h (by omega)⟩
  | succ n ih =>
    obtain ⟨step, hstep, hsolved, -⟩ := ih (by omega)
    obtain ⟨step', hstep', hX, hfinished⟩ := performStep_solved hne hnN hsolved
    refine ⟨step', ?_, hfinished.imp fun q row hq => hq.toSolved, fun _ => ⟨hX, hfinished⟩⟩
    rw [performMVA, hstep, Option.bind_eq_bind, Option.bind_some, hstep']

/-- **Every step yields probabilities**, for each of the queues, and the throughput is the one that
lets all users pass in a round. -/
theorem performMVA_sound (hne : queues ≠ []) (hthink : 0 ≤ thinktime) (hn : 1 ≤ n) (hnN : n ≤ N) :
    ∃ step, performMVA thinktime (initializeMVA (queues.map fun q => (q.1, 1)) N) n = some step ∧
      step.rows.map Row.queue = queues.map Subtype.val ∧
      step.X *
        (thinktime + (step.rows.map fun row => row.responseTime * (row.visitCount : ℚ)).sum) = n ∧
      ∀ row ∈ step.rows, row.Sound N n step.X := by
  obtain ⟨step, hstep, hsolved, hfinished⟩ := performMVA_solved hthink hne hnN
  obtain ⟨hX, hfinished⟩ := hfinished hn
  refine ⟨step, hstep, queues_eq hsolved, ?_, fun row hrow => ?_⟩
  · obtain ⟨n, rfl⟩ : ∃ k, n = k + 1 := ⟨n - 1, by omega⟩
    rw [hX]
    push_cast
    exact round_time hne (hfinished.imp fun q row hq => ⟨hq.visitCount, hq.mean⟩)
  · obtain ⟨q, hq, hrow⟩ := exists_of_forall₂ hfinished hrow
    have hmem : q.station ∈ network hthink queues :=
      List.mem_cons_of_mem _ (List.mem_map_of_mem hq)
    rw [hX]
    exact hrow.sound hnN hmem (network_normalizing_pos _ hne n).ne'

end

/-- The database: ten workers. -/
def database : ValidQueue :=
  ⟨.mmm { lambda := 3 / 2, s := 6, queueMultiplicity := 1, m := 10 },
    { s_pos := by norm_num [AnyQueue.getMeanServiceTime, AnyQueue.toQueue]
      m_pos := by decide
      multiplicity_pos := by decide }⟩

/-- The brokers: two of them, with two workers and room for five requests. -/
def brokers : ValidQueue :=
  ⟨.mmmB { lambda := 3 / 2, s := 1 / 2, queueMultiplicity := 2, m := 2, B := 5 },
    { s_pos := by norm_num [AnyQueue.getMeanServiceTime, AnyQueue.toQueue]
      m_pos := by decide
      multiplicity_pos := by decide }⟩

theorem performMVA_sound_system : ∃ step,
    performMVA 10 (initializeMVA ([brokers, database].map fun q => (q.1, 1)) 3) 2 = some step ∧
      step.rows.map Row.queue = [brokers, database].map Subtype.val ∧
      step.X * (((10 : ℤ) : ℚ) +
        (step.rows.map fun row => row.responseTime * (row.visitCount : ℚ)).sum) = (2 : ℕ) ∧
      ∀ row ∈ step.rows, row.Sound 3 2 step.X :=
  performMVA_sound (List.cons_ne_nil _ _) (by decide) (by decide) (by decide)

end Mlmq.Model
