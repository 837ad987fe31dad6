import Mlmq.Lib.ClosedNetwork
import Mlmq.Lib.Tables
import Mlmq.Model.Queue

/-! # Mean value analysis

`MeanValueAnalyzer` adds one customer after the other to a closed network of queues. It computes
from the queues with `i - 1` customers their response times, the throughput, and the queues with
`i`.

The throughput counts a response as often as a queue is visited. The lengths of the fixed capacity
and the delay queues do too, but the table of a load-dependent queue is filled without the visits.
So the tables are those of the network in which each load-dependent queue is visited once
(`Params.station`), for as long as the throughput is the one of that network. That is the case while
the customers add up, and exactly then: while the power sums of the load-dependent queues, weighted
by their visits less one, vanish (`conserves_iff`). -/

namespace Mlmq.Mva

open Model (divide divide_of_ne_zero)
open Lib.Tables
open Lib.ClosedNetwork hiding mean

/-! ### The queues -/

inductive QueueType
  | delayCenter
  | fixedCapacity
  | loadDependent
deriving DecidableEq, Repr

structure Queue where
  serviceTime : ℚ
  visits : ℚ
  type : QueueType
  responseTime : ℚ
  queueLength : ℚ
  numberOfServices : ℕ
  P : Table ℚ
deriving DecidableEq, Repr

namespace Queue

/-- The constructor: an empty queue, with a table of `size` places. -/
def new (serviceTime visits : ℚ) (type : QueueType) (numberOfServices size : ℕ) :
    Option Queue := do
  let P ← write (List.replicate size none) 0 1
  return { serviceTime, visits, type, responseTime := serviceTime, queueLength := 0,
           numberOfServices, P }

def getMu (q : Queue) (i : ℕ) : Option ℚ :=
  if i < q.numberOfServices then divide i q.serviceTime
  else divide q.numberOfServices q.serviceTime

/-- The share of `i` customers in the response time. -/
def share (q : Queue) (i : ℕ) : Option ℚ := do divide ((← read q.P (i - 1)) * i) (← q.getMu i)

def updateResponseTime (q : Queue) (n : ℕ) : Option Queue :=
  match q.type with
  | .fixedCapacity => some { q with responseTime := q.serviceTime * (1 + q.queueLength) }
  | .loadDependent => do
    let responseTime ← (List.range' 1 n).foldlM
      (fun sum i => do return sum + (← q.share i)) 0
    return { q with responseTime }
  | .delayCenter => some q

/-- A number below 0 is replaced by 0. -/
def clamp (x : ℚ) : ℚ := if x < 0 then 0 else x

/-- The entry `P[j]`, from the old entry below it. -/
def entry (q : Queue) (throughput : ℚ) (j : ℕ) (below : ℚ) : Option ℚ := do
  return clamp ((← divide throughput (← q.getMu j)) * below)

def updateQueueLength (q : Queue) (throughput : ℚ) (n : ℕ) : Option Queue :=
  match q.type with
  | .loadDependent => do
    let P ← shiftDown (q.entry throughput) n q.P
    let sum ← (List.range' 1 n).foldlM (fun sum j => do return sum + (← read P j)) 0
    if 0 < (← read P 0) then
      return { q with P := ← write P 0 (clamp (1 - sum)) }
    else
      return { q with P }
  | _ => some { q with queueLength := throughput * q.visits * q.responseTime }

end Queue

/-! ### The analyzer -/

/-- What an iteration leaves: the queues, and the throughput it computed. -/
structure Iteration where
  queues : List Queue
  throughput : ℚ
deriving DecidableEq, Repr

/-- An iteration with `i` customers. -/
def iterate (thinkTime : ℚ) (i : ℕ) (queues : List Queue) : Option Iteration := do
  let queues ← queues.mapM (·.updateResponseTime i)
  let responseTimeTotal := (queues.map fun q => q.responseTime * q.visits).sum
  let throughput ← divide i (thinkTime + responseTimeTotal)
  let queues ← queues.mapM (·.updateQueueLength throughput i)
  return { queues, throughput }

/-- The iterations with `1` to `n` customers. -/
def calculateNetwork (thinkTime : ℚ) (queues : List Queue) : ℕ → Option Iteration
  | 0 => some { queues, throughput := 0 }
  | n + 1 => do iterate thinkTime (n + 1) (← calculateNetwork thinkTime queues n).queues

/-! ### What is to hold -/

/-- `j` customers, as often as there are. -/
def Queue.weighted (q : Queue) (j : ℕ) : Option ℚ := do return j * (← read q.P j)

/-- The customers at a queue: its length, or the mean of its table. -/
def Queue.customers (i : ℕ) (q : Queue) : Option ℚ :=
  match q.type with
  | .loadDependent => (List.range' 1 i).foldlM (fun sum j => do return sum + (← q.weighted j)) 0
  | _ => some q.queueLength

/-- The customers who think and those at the queues are all there are. -/
def Adds (thinkTime : ℚ) (i : ℕ) (it : Iteration) : Prop :=
  ∃ customers, it.queues.mapM (Queue.customers i) = some customers ∧
    it.throughput * thinkTime + customers.sum = i

/-- A table holds probabilities. -/
def Queue.Distribution (i : ℕ) (q : Queue) : Prop :=
  ∃ p : ℕ → ℚ, (∀ j ≤ i, read q.P j = some (p j)) ∧ (∀ j ≤ i, 0 ≤ p j) ∧
    ∑ j ∈ Finset.range (i + 1), p j = 1

/-- **The analysis conserves the customers**, in each iteration. -/
def Conserves (thinkTime : ℚ) (queues : List Queue) (n : ℕ) : Prop :=
  ∀ i, 1 ≤ i → i ≤ n → ∃ it, calculateNetwork thinkTime queues i = some it ∧
    Adds thinkTime i it ∧ ∀ q ∈ it.queues, q.type = .loadDependent → q.Distribution i

/-- The arguments of the constructor of a queue. -/
structure Params where
  serviceTime : ℚ
  visits : ℚ
  type : QueueType
  numberOfServices : ℕ
  size : ℕ
  serviceTime_pos : 0 < serviceTime
  visits_pos : 0 < visits
  services_pos : 0 < numberOfServices
  size_pos : 0 < size

namespace Params

def queue (p : Params) : Queue where
  serviceTime := p.serviceTime
  visits := p.visits
  type := p.type
  responseTime := p.serviceTime
  queueLength := 0
  numberOfServices := p.numberOfServices
  P := (List.replicate p.size none).set 0 (some 1)

theorem new_eq (p : Params) :
    Queue.new p.serviceTime p.visits p.type p.numberOfServices p.size = some p.queue := by
  unfold Queue.new write
  rw [List.length_replicate, if_pos p.size_pos]
  rfl

/-- The mean time until somebody leaves when there are `j + 1` customers, with one visit of a
load-dependent queue. -/
def times (p : Params) (j : ℕ) : ℚ :=
  match p.type with
  | .fixedCapacity => p.visits * p.serviceTime
  | .delayCenter => p.visits * p.serviceTime / (j + 1)
  | .loadDependent => p.serviceTime / (min (j + 1) p.numberOfServices : ℕ)

end Params

/-- **The weighted power sums of the load-dependent queues vanish**, up to `n`. -/
def Balanced (params : List Params) (n : ℕ) : Prop :=
  ∀ k ≤ n, ((params.filter (·.type = .loadDependent)).map fun p =>
    (p.visits - 1) * powerSum (fun j => ∏ i ∈ Finset.range j, p.times i) k).sum = 0

/-! ### The network with one visit -/

namespace Params

theorem times_pos (p : Params) (j : ℕ) : 0 < p.times j := by
  have hs := p.serviceTime_pos
  have hv := p.visits_pos
  have hmin : (0 : ℚ) < (min (j + 1) p.numberOfServices : ℕ) := by
    have := p.services_pos
    exact_mod_cast (by omega : 0 < min (j + 1) p.numberOfServices)
  unfold times
  split
  · positivity
  · positivity
  · exact div_pos hs hmin

noncomputable def station (p : Params) : Station ℚ :=
  Station.ofTimes p.times fun j => (p.times_pos j).le

/-- How often a queue is visited, and a load-dependent one at most once. -/
def visitsOnce (p : Params) : ℚ := if p.type = .loadDependent then 1 else p.visits

theorem getMu_eq (p : Params) {q : Queue} (hs : q.serviceTime = p.serviceTime)
    (hm : q.numberOfServices = p.numberOfServices) (hp : p.type = .loadDependent) (j : ℕ) :
    q.getMu (j + 1) = some (1 / p.times j) := by
  have hpos := p.serviceTime_pos
  unfold Queue.getMu times
  rw [hs, hm, hp, divide_of_ne_zero hpos.ne', divide_of_ne_zero hpos.ne']
  simp only [one_div_div]
  split_ifs with hj
  · rw [min_eq_left hj.le]
  · rw [min_eq_right (not_lt.mp hj)]

end Params

/-- **The network with one visit of each load-dependent queue.** -/
noncomputable def network {thinkTime : ℚ} (hZ : 0 ≤ thinkTime) (params : List Params) :
    List (Station ℚ) :=
  thinking hZ :: params.map Params.station

section Network

variable {thinkTime : ℚ} {hZ : 0 ≤ thinkTime} {params : List Params} {p : Params} {n : ℕ}

theorem station_mem (hp : p ∈ params) : p.station ∈ network hZ params :=
  List.mem_cons_of_mem _ (List.mem_map_of_mem hp)

theorem network_pos_or : ∀ f ∈ network hZ params,
    (∀ j, 0 < PowerSeries.coeff j f.weights) ∨ f.weights = 1 := by
  intro f hf
  rcases List.mem_cons.mp hf with rfl | hf
  · exact thinking_pos_or hZ
  · obtain ⟨p, -, rfl⟩ := List.mem_map.mp hf
    exact Or.inl (coeff_ofTimes_pos p.times_pos)

variable (hZ) in
/-- With a queue, or time to think, there is room for everybody. -/
theorem network_normalizing_pos (hroom : params ≠ [] ∨ 0 < thinkTime) (n : ℕ) :
    0 < PowerSeries.coeff n (normalizing (network hZ params)) := by
  refine normalizing_thinking_pos (fun f hf => ?_)
    (hroom.imp_left fun hne => (List.map_eq_nil_iff.not).mpr hne) n
  obtain ⟨p, -, rfl⟩ := List.mem_map.mp hf
  exact coeff_ofTimes_pos p.times_pos

/-! ### An iteration -/

/-- A queue of `p` whose table holds `f` up to `i`, if it is load-dependent. -/
structure Tabled (f : ℕ → ℚ) (i : ℕ) (p : Params) (q : Queue) : Prop where
  serviceTime : q.serviceTime = p.serviceTime
  visits : q.visits = p.visits
  type : q.type = p.type
  numberOfServices : q.numberOfServices = p.numberOfServices
  size : q.P.length = p.size
  table : p.type = .loadDependent → ∀ j ≤ i, read q.P j = some (f j)

variable {q : Queue} {f : ℕ → ℚ}

/-- The share of `j + 1` customers in the response time. -/
theorem Tabled.share_eq (h : Tabled f n p q) (hp : p.type = .loadDependent) {j : ℕ}
    (hj : j ≤ n) : q.share (j + 1) = some ((j + 1) * p.times j * f j) := by
  have hrate : 1 / p.times j ≠ 0 := (one_div_pos.mpr (p.times_pos j)).ne'
  unfold Queue.share
  rw [Nat.add_sub_cancel, h.table hp j hj, p.getMu_eq h.serviceTime h.numberOfServices hp]
  simp only [Option.bind_eq_bind, Option.bind_some]
  rw [divide_of_ne_zero hrate]
  congr 1
  push_cast
  field_simp

theorem clamp_of_nonneg {x : ℚ} (hx : 0 ≤ x) : Queue.clamp x = x := if_neg (not_lt.mpr hx)

/-- The new entries of a table. -/
theorem Tabled.entry_eq (h : Tabled f n p q) (hp : p.type = .loadDependent) {X : ℚ} (hX : 0 ≤ X)
    {j : ℕ} (hf : 0 ≤ f j) : q.entry X (j + 1) (f j) = some (X * p.times j * f j) := by
  have htime := p.times_pos j
  have hrate : 1 / p.times j ≠ 0 := (one_div_pos.mpr htime).ne'
  unfold Queue.entry
  rw [p.getMu_eq h.serviceTime h.numberOfServices hp]
  simp only [Option.bind_eq_bind, Option.bind_some]
  rw [divide_of_ne_zero hrate]
  simp only [Option.bind_some, div_div_eq_mul_div, div_one]
  rw [clamp_of_nonneg (by positivity)]
  rfl

/-- The table of a load-dependent queue, after an iteration with the throughput `X`: the entries
from 1 on are computed from the old ones, and `P[0]` is what they leave unless it was 0. -/
theorem Tabled.exists_update (h : Tabled f n p q) (hp : p.type = .loadDependent)
    (hf : ∀ j ≤ n, 0 ≤ f j) (hsize : n + 1 < p.size) {X : ℚ} (hX : 0 ≤ X) :
    ∃ P, q.updateQueueLength X (n + 1) = some { q with P } ∧ P.length = p.size ∧
      (∀ j ≤ n, read P (j + 1) = some (X * p.times j * f j)) ∧
      read P 0 = some (if 0 < f 0 then Queue.clamp
        (1 - ∑ j ∈ Finset.range (n + 1), X * p.times j * f j) else f 0) := by
  obtain ⟨P, hshift, hlen, hread⟩ := exists_shiftDown
    (q := fun j => X * p.times (j - 1) * f (j - 1))
    (h.size.symm ▸ hsize) (fun j hj => h.table hp j (Nat.lt_succ_iff.mp hj))
    fun j hj => h.entry_eq hp hX (hf j (Nat.lt_succ_iff.mp hj))
  have habove : ∀ j ≤ n, read P (j + 1) = some (X * p.times j * f j) := by
    intro j hj
    rw [hread, if_pos (by omega), Nat.add_sub_cancel]
  have hzero : read P 0 = some (f 0) := by
    rw [hread, if_neg (by omega)]
    exact h.table hp 0 (Nat.zero_le n)
  have hsum := foldlM_range'_add (n := n + 1) (g := fun j => read P j) fun j hj =>
    habove j (Nat.lt_succ_iff.mp hj)
  have hlen' : P.length = p.size := hlen.trans h.size
  unfold Queue.updateQueueLength
  split
  case h_1 =>
    simp only [Option.bind_eq_bind] at hsum
    simp only [hshift, hsum, hzero, Option.bind_eq_bind, Option.bind_some]
    by_cases hpos : 0 < f 0
    · obtain ⟨P', hwrite, hlen₂, hread₂⟩ := exists_write (P := P) (j := 0) (by omega)
        (Queue.clamp (1 - ∑ j ∈ Finset.range (n + 1), X * p.times j * f j))
      rw [if_pos hpos, if_pos hpos, hwrite]
      refine ⟨P', rfl, hlen₂.trans hlen', fun j hj => ?_, ?_⟩
      · rw [hread₂, if_neg (Nat.succ_ne_zero j)]
        exact habove j hj
      · rw [hread₂, if_pos rfl]
    · rw [if_neg hpos, if_neg hpos]
      exact ⟨P, rfl, hlen', habove, hzero⟩
  case h_2 hother => exact absurd (h.type.trans hp) hother

/-- The other queues keep their length only. -/
theorem Queue.updateQueueLength_of_ne (q : Queue) (hq : q.type ≠ .loadDependent) (X : ℚ) (n : ℕ) :
    q.updateQueueLength X n = some { q with queueLength := X * q.visits * q.responseTime } := by
  unfold Queue.updateQueueLength
  split
  · exact absurd ‹_› hq
  · rfl

/-- The queue of `p`, with `i` customers in a network where each load-dependent queue is visited
once. -/
structure Solved (net : List (Station ℚ)) (i : ℕ) (p : Params) (q : Queue) : Prop where
  serviceTime : q.serviceTime = p.serviceTime
  visits : q.visits = p.visits
  type : q.type = p.type
  numberOfServices : q.numberOfServices = p.numberOfServices
  size : q.P.length = p.size
  queueLength : p.type = .fixedCapacity → q.queueLength = Lib.ClosedNetwork.mean net p.station i
  responseTime : p.type = .delayCenter → q.responseTime = p.serviceTime
  table : p.type = .loadDependent → ∀ j ≤ i, read q.P j = some (marginal net p.station i j)

theorem solved_zero (net : List (Station ℚ)) (p : Params) : Solved net 0 p p.queue where
  serviceTime := rfl
  visits := rfl
  type := rfl
  numberOfServices := rfl
  size := by simp [Params.queue]
  queueLength _ := (mean_zero net p.station).symm
  responseTime _ := rfl
  table _ j hj := by
    obtain rfl : j = 0 := by omega
    obtain ⟨P, hwrite, -, hread⟩ := exists_write (P := List.replicate p.size none) (j := 0)
      (by simpa using p.size_pos) (1 : ℚ)
    have hP : p.queue.P = P := by
      unfold write at hwrite
      rw [if_pos (by simpa using p.size_pos)] at hwrite
      exact Option.some.inj hwrite
    rw [hP, hread, if_pos rfl, marginal_zero]

variable {net : List (Station ℚ)}

theorem Solved.tabled (h : Solved net n p q) : Tabled (marginal net p.station n) n p q :=
  ⟨h.serviceTime, h.visits, h.type, h.numberOfServices, h.size, h.table⟩

/-- **The response times** are the mean numbers of customers over the throughput (Little's law). -/
structure Responded (net : List (Station ℚ)) (i : ℕ) (p : Params) (q : Queue) : Prop
    extends Solved net i p q where
  little : throughput net i * (q.responseTime * p.visitsOnce) =
    Lib.ClosedNetwork.mean net p.station (i + 1)

theorem Solved.updateResponseTime (h : Solved net n p q)
    (hn : PowerSeries.coeff n (normalizing net) ≠ 0) :
    ∃ q', q.updateResponseTime (n + 1) = some q' ∧ Responded net n p q' := by
  unfold Queue.updateResponseTime
  split
  case h_1 hq =>
    have hp : p.type = .fixedCapacity := h.type.symm.trans hq
    have hmean : Lib.ClosedNetwork.mean net p.station (n + 1) = _ :=
      mean_geometric (ofTimes_geometric fun j => by rw [Params.times, hp]) hn
    refine ⟨_, rfl, { h with responseTime := fun hd => ?_, little := ?_ }⟩
    · rw [hp] at hd
      exact absurd hd (by decide)
    · rw [hmean, h.serviceTime, h.queueLength hp, Params.visitsOnce, hp, if_neg (by decide)]
      unfold Params.station
      ring
  case h_2 hq =>
    have hp : p.type = .loadDependent := h.type.symm.trans hq
    have hmean : Lib.ClosedNetwork.mean net p.station (n + 1) = _ := mean_succ_ofTimes hn
    rw [foldlM_range'_add fun j hj => h.tabled.share_eq hp (Nat.lt_succ_iff.mp hj)]
    refine ⟨_, rfl, { h with responseTime := fun hd => ?_, little := ?_ }⟩
    · rw [hp] at hd
      exact absurd hd (by decide)
    · rw [hmean, Params.visitsOnce, hp, if_pos rfl, mul_one]
      rfl
  case h_3 hq =>
    have hp : p.type = .delayCenter := h.type.symm.trans hq
    have hmean : Lib.ClosedNetwork.mean net p.station (n + 1) = _ :=
      mean_exponential (ofTimes_exponential fun j => by rw [Params.times, hp]) n
    refine ⟨q, rfl, { h with little := ?_ }⟩
    rw [hmean, h.responseTime hp, Params.visitsOnce, hp, if_neg (by decide)]
    ring

/-- What an iteration with the throughput `X` makes of a queue: its customers are in proportion to
`X`, and its table is right when `X` is. -/
structure Updated (net : List (Station ℚ)) (n : ℕ) (X : ℚ) (p : Params) (q : Queue) : Prop where
  customers : q.customers (n + 1) =
    some (X * (Lib.ClosedNetwork.mean net p.station (n + 1) / throughput net n))
  solved : X = throughput net n → Solved net (n + 1) p q

/-- The customers of a load-dependent queue, from the entries of its table. -/
theorem Solved.customers_loadDependent (h : Solved net n p q) (hp : p.type = .loadDependent)
    (hn : 0 < PowerSeries.coeff n (normalizing net)) (hT : 0 < throughput net n) {X : ℚ}
    {P : List (Option ℚ)}
    (habove : ∀ j ≤ n, read P (j + 1) = some (X * p.times j * marginal net p.station n j)) :
    Queue.customers (n + 1) { q with P } =
      some (X * (Lib.ClosedNetwork.mean net p.station (n + 1) / throughput net n)) := by
  have hmean : Lib.ClosedNetwork.mean net p.station (n + 1) = _ := mean_succ_ofTimes hn.ne'
  have hweighted : ∀ j < n + 1, Queue.weighted { q with P } (j + 1) =
      some (X * ((j + 1) * p.times j * marginal net p.station n j)) := by
    intro j hj
    unfold Queue.weighted
    rw [habove j (Nat.lt_succ_iff.mp hj), Option.bind_eq_bind, Option.bind_some]
    show some _ = some _
    congr 1
    push_cast
    ring
  unfold Queue.customers
  split
  · rw [foldlM_range'_add hweighted, ← Finset.mul_sum, hmean, mul_div_cancel_left₀ _ hT.ne']
    rfl
  · rename_i hother
    exact absurd (h.type.trans hp) hother

/-- With the right throughput the new table is right. -/
theorem table_of_throughput (hmem : p.station ∈ net)
    (hnet : ∀ f ∈ net, (∀ j, 0 < PowerSeries.coeff j f.weights) ∨ f.weights = 1)
    (hpos : ∀ i, 0 < PowerSeries.coeff i (normalizing net)) {X : ℚ} (hX : X = throughput net n)
    {P : List (Option ℚ)}
    (habove : ∀ j ≤ n, read P (j + 1) = some (X * p.times j * marginal net p.station n j))
    (hzero : read P 0 = some (if 0 < marginal net p.station n 0 then Queue.clamp
      (1 - ∑ j ∈ Finset.range (n + 1), X * p.times j * marginal net p.station n j) else
      marginal net p.station n 0)) (j : ℕ) (hj : j ≤ n + 1) :
    read P j = some (marginal net p.station (n + 1) j) := by
  have hnext : ∀ j, X * p.times j * marginal net p.station n j =
      marginal net p.station (n + 1) (j + 1) := fun j => by
    rw [hX]
    exact (marginal_succ_ofTimes (hpos n).ne' j).symm
  cases j with
  | succ j => exact (habove j (by omega)).trans (congrArg some (hnext j))
  | zero =>
    have hsum := sum_marginal (hpos (n + 1)).ne' p.station
    rw [Finset.sum_range_succ'] at hsum
    rw [hzero, Finset.sum_congr rfl fun j _ => hnext j, sub_eq_of_eq_add' hsum.symm,
      clamp_of_nonneg (marginal_nonneg hmem _ _)]
    split_ifs with hguard
    · rfl
    · -- an empty queue was impossible, and is impossible with one more customer
      have hempty : marginal net p.station n 0 = 0 :=
        le_antisymm (not_lt.mp hguard) (marginal_nonneg hmem n 0)
      rw [hempty, marginal_zero_succ hmem hnet (hpos n).ne' hempty]

theorem Responded.updateQueueLength (h : Responded net n p q) (hmem : p.station ∈ net)
    (hnet : ∀ f ∈ net, (∀ j, 0 < PowerSeries.coeff j f.weights) ∨ f.weights = 1)
    (hpos : ∀ i, 0 < PowerSeries.coeff i (normalizing net)) (hsize : n + 1 < p.size) {X : ℚ}
    (hX : 0 ≤ X) : ∃ q', q.updateQueueLength X (n + 1) = some q' ∧ Updated net n X p q' := by
  have hT := throughput_pos (hpos n) (hpos (n + 1))
  by_cases hp : p.type = .loadDependent
  · obtain ⟨P, hupdate, hlen, habove, hzero⟩ := h.tabled.exists_update hp
      (fun j _ => marginal_nonneg hmem n j) hsize hX
    refine ⟨{ q with P }, hupdate, h.customers_loadDependent hp (hpos n) hT habove,
      fun hXT => { h with
        size := hlen
        queueLength := fun hf => ?_
        responseTime := fun hd => ?_
        table := fun _ => table_of_throughput hmem hnet hpos hXT habove hzero }⟩
    · rw [hp] at hf
      exact absurd hf (by decide)
    · rw [hp] at hd
      exact absurd hd (by decide)
  · have hq : q.type ≠ .loadDependent := fun hq => hp (h.type.symm.trans hq)
    have hmean := h.little
    rw [Params.visitsOnce, if_neg hp] at hmean
    have hlength : X * q.visits * q.responseTime =
        X * (Lib.ClosedNetwork.mean net p.station (n + 1) / throughput net n) := by
      rw [← hmean, mul_div_cancel_left₀ _ hT.ne', h.visits]
      ring
    refine ⟨_, q.updateQueueLength_of_ne hq X (n + 1), ?_, fun hXT => { h with
      queueLength := fun _ => ?_
      table := fun hl => absurd hl hp }⟩
    · unfold Queue.customers
      split
      · exact absurd ‹_› hq
      · exact congrArg some hlength
    · show X * q.visits * q.responseTime = _
      rw [hlength, hXT, mul_div_cancel₀ _ hT.ne']

/-! ### The customers add up -/

/-- What the visits of the load-dependent queues add to the customers. -/
noncomputable def excess (net : List (Station ℚ)) (params : List Params) (n : ℕ) : ℚ :=
  ((params.filter (·.type = .loadDependent)).map fun p =>
    (p.visits - 1) * Lib.ClosedNetwork.mean net p.station n).sum

/-- The responses, each as often as its queue is visited. -/
theorem sum_responses {queues : List Queue} (h : List.Forall₂ (Responded net n) params queues) :
    throughput net n * (queues.map fun q => q.responseTime * q.visits).sum =
      (params.map fun p => Lib.ClosedNetwork.mean net p.station (n + 1)).sum +
        excess net params (n + 1) := by
  unfold excess
  induction h with
  | nil => simp
  | @cons p q params queues hpq _ ih =>
    rw [List.map_cons, List.sum_cons, mul_add, ih, List.map_cons, List.sum_cons, ← hpq.little,
      hpq.visits]
    by_cases hp : p.type = .loadDependent
    · rw [List.filter_cons_of_pos (by simpa using hp), List.map_cons, List.sum_cons, ← hpq.little,
        Params.visitsOnce, if_pos hp]
      ring
    · rw [List.filter_cons_of_neg (by simpa using hp), Params.visitsOnce, if_neg hp]
      ring

theorem responses_nonneg {queues : List Queue}
    (h : List.Forall₂ (Responded net n) params queues) (hT : 0 < throughput net n)
    (hnet : ∀ p ∈ params, p.station ∈ net) :
    0 ≤ (queues.map fun q => q.responseTime * q.visits).sum := by
  induction h with
  | nil => simp
  | @cons p q params queues hpq _ ih =>
    rw [List.map_cons, List.sum_cons]
    refine add_nonneg ?_ (ih fun p hp => hnet p (List.mem_cons_of_mem _ hp))
    have hmean : 0 ≤ throughput net n * (q.responseTime * p.visitsOnce) := by
      rw [hpq.little]
      exact Finset.sum_nonneg fun j _ =>
        mul_nonneg (Nat.cast_nonneg j) (marginal_nonneg (hnet p List.mem_cons_self) _ _)
    have honce : 0 < p.visitsOnce := by
      unfold Params.visitsOnce
      split_ifs
      · exact one_pos
      · exact p.visits_pos
    have hresponse : 0 ≤ q.responseTime :=
      nonneg_of_mul_nonneg_left (nonneg_of_mul_nonneg_right hmean hT) honce
    rw [hpq.visits]
    exact mul_nonneg hresponse p.visits_pos.le

theorem sum_customers {queues : List Queue} {X : ℚ}
    (h : List.Forall₂ (Updated net n X) params queues) :
    ∃ customers, queues.mapM (Queue.customers (n + 1)) = some customers ∧ customers.sum =
      X / throughput net n *
        (params.map fun p => Lib.ClosedNetwork.mean net p.station (n + 1)).sum := by
  induction h with
  | nil => exact ⟨[], rfl, by simp⟩
  | @cons p q params queues hpq _ ih =>
    obtain ⟨customers, hcustomers, hsum⟩ := ih
    refine ⟨_ :: customers, by rw [List.mapM_cons, hpq.customers, hcustomers]; rfl, ?_⟩
    rw [List.sum_cons, hsum, List.map_cons, List.sum_cons]
    ring

/-- The customers who think, and those at the queues. -/
theorem sum_network (hpos : ∀ i, 0 < PowerSeries.coeff i (normalizing (network hZ params))) :
    thinkTime * throughput (network hZ params) n +
      (params.map fun p => Lib.ClosedNetwork.mean (network hZ params) p.station (n + 1)).sum =
        n + 1 := by
  have hsum := sum_mean (hpos (n + 1)).ne'
  rw [network, List.map_cons, List.sum_cons, List.map_map, ← network, mean_thinking] at hsum
  push_cast at hsum
  exact hsum

/-- The customers add up when the throughput is that of the network. -/
theorem adds_iff (hpos : ∀ i, 0 < PowerSeries.coeff i (normalizing (network hZ params))) {X : ℚ}
    {queues : List Queue} (h : List.Forall₂ (Updated (network hZ params) n X) params queues) :
    Adds thinkTime (n + 1) ⟨queues, X⟩ ↔ X = throughput (network hZ params) n := by
  have hT := throughput_pos (hpos n) (hpos (n + 1))
  have hn : (n : ℚ) + 1 ≠ 0 := Nat.cast_add_one_ne_zero n
  obtain ⟨customers, hcustomers, hcsum⟩ := sum_customers h
  have hshare : X * thinkTime + customers.sum =
      X / throughput (network hZ params) n * (n + 1) := by
    rw [hcsum, ← sum_network hpos]
    field_simp
  constructor
  · rintro ⟨_, hmap, hall⟩
    obtain rfl := Option.some.inj (hmap.symm.trans hcustomers)
    rw [hshare] at hall
    push_cast at hall
    field_simp at hall
    exact hall
  · rintro rfl
    refine ⟨customers, hcustomers, ?_⟩
    rw [hshare, div_self hT.ne', one_mul]
    push_cast
    rfl

/-- What an iteration from the right queues does: with `total` for the time of the responses it
divides by the time of a round, in which as many customers pass as there are, and the excess. -/
theorem iterate_eq (hroom : params ≠ [] ∨ 0 < thinkTime) {queues : List Queue}
    (hsize : ∀ p ∈ params, n + 1 < p.size)
    (h : List.Forall₂ (Solved (network hZ params) n) params queues) :
    ∃ total, 0 ≤ total ∧ throughput (network hZ params) n * (thinkTime + total) =
        n + 1 + excess (network hZ params) params (n + 1) ∧
      (thinkTime + total = 0 → iterate thinkTime (n + 1) queues = none) ∧
      (thinkTime + total ≠ 0 → ∃ queues', iterate thinkTime (n + 1) queues =
        some ⟨queues', (n + 1) / (thinkTime + total)⟩ ∧
        List.Forall₂ (Updated (network hZ params) n ((n + 1) / (thinkTime + total))) params
          queues') := by
  have hpos := network_normalizing_pos hZ hroom
  have hT := throughput_pos (hpos n) (hpos (n + 1))
  obtain ⟨queues₁, hresponse, hqueues₁⟩ := exists_mapM h fun p _ q hq =>
    hq.updateResponseTime (hpos n).ne'
  have hnonneg := responses_nonneg hqueues₁ hT fun p hp => station_mem hp
  refine ⟨_, hnonneg, by linear_combination sum_responses hqueues₁ + sum_network (n := n) hpos,
    fun hround => ?_, fun hround => ?_⟩
  · unfold iterate
    simp only [hresponse, hround, divide, if_true, Option.bind_eq_bind, Option.bind_some,
      Option.bind_none]
  · obtain ⟨queues₂, hupdate, hqueues₂⟩ := exists_mapM hqueues₁ fun p hp q hq =>
      hq.updateQueueLength (station_mem hp) network_pos_or hpos (hsize p hp)
        (div_nonneg (by positivity : (0 : ℚ) ≤ n + 1) (add_nonneg hZ hnonneg))
    refine ⟨queues₂, ?_, hqueues₂⟩
    unfold iterate
    simp only [hresponse, divide_of_ne_zero hround, Option.bind_eq_bind, Option.bind_some]
    push_cast
    rw [hupdate]
    rfl

/-- **An iteration from the right queues**: when the visits add nothing to the customers, they add
up and the queues are right again. -/
theorem iterate_solved (hroom : params ≠ [] ∨ 0 < thinkTime) {queues : List Queue}
    (hsize : ∀ p ∈ params, n + 1 < p.size)
    (h : List.Forall₂ (Solved (network hZ params) n) params queues)
    (hexcess : excess (network hZ params) params (n + 1) = 0) :
    ∃ it, iterate thinkTime (n + 1) queues = some it ∧ Adds thinkTime (n + 1) it ∧
      List.Forall₂ (Solved (network hZ params) (n + 1)) params it.queues := by
  have hpos := network_normalizing_pos hZ hroom
  obtain ⟨total, -, hround, -, hsome⟩ := iterate_eq hroom hsize h
  rw [hexcess, add_zero] at hround
  have hne : thinkTime + total ≠ 0 := by
    intro h0
    rw [h0, mul_zero] at hround
    exact Nat.cast_add_one_ne_zero n hround.symm
  have hX : (n + 1) / (thinkTime + total) = throughput (network hZ params) n := by
    rw [div_eq_iff hne, hround]
  obtain ⟨queues', hiterate, hqueues'⟩ := hsome hne
  exact ⟨_, hiterate, (adds_iff hpos hqueues').mpr hX, hqueues'.imp fun p q hq => hq.solved hX⟩

/-- When the customers add up after an iteration, the visits added nothing. -/
theorem excess_eq_zero (hroom : params ≠ [] ∨ 0 < thinkTime) {queues : List Queue}
    (hsize : ∀ p ∈ params, n + 1 < p.size)
    (h : List.Forall₂ (Solved (network hZ params) n) params queues) {it : Iteration}
    (hit : iterate thinkTime (n + 1) queues = some it) (hadds : Adds thinkTime (n + 1) it) :
    excess (network hZ params) params (n + 1) = 0 := by
  have hpos := network_normalizing_pos hZ hroom
  obtain ⟨total, -, hround, hnone, hsome⟩ := iterate_eq hroom hsize h
  have hne : thinkTime + total ≠ 0 := by
    intro h0
    rw [hnone h0] at hit
    exact Option.some_ne_none it hit.symm
  obtain ⟨queues', hiterate, hqueues'⟩ := hsome hne
  obtain rfl := Option.some.inj (hit.symm.trans hiterate)
  have hX := (adds_iff hpos hqueues').mp hadds
  rw [← hX, div_mul_cancel₀ _ hne] at hround
  linarith

/-! ### All iterations -/

theorem calculateNetwork_solved (hroom : params ≠ [] ∨ 0 < thinkTime)
    (hsize : ∀ p ∈ params, n < p.size)
    (hexcess : ∀ k ≤ n, excess (network hZ params) params k = 0) {i : ℕ} (hi : i ≤ n) :
    ∃ it, calculateNetwork thinkTime (params.map Params.queue) i = some it ∧
      (1 ≤ i → Adds thinkTime i it) ∧
      List.Forall₂ (Solved (network hZ params) i) params it.queues := by
  induction i with
  | zero =>
    refine ⟨_, rfl, fun h => absurd h (by omega), ?_⟩
    rw [List.forall₂_map_right_iff]
    exact List.forall₂_same.mpr fun p _ => solved_zero _ p
  | succ i ih =>
    obtain ⟨it, hit, -, hsolved⟩ := ih (by omega)
    obtain ⟨it', hit', hadds, hsolved'⟩ := iterate_solved hroom
      (fun p hp => hi.trans_lt (hsize p hp)) hsolved (hexcess _ hi)
    refine ⟨it', ?_, fun _ => hadds, hsolved'⟩
    rw [calculateNetwork, hit, Option.bind_eq_bind, Option.bind_some, hit']

/-- The tables hold probabilities. -/
theorem Solved.distribution (h : Solved net n p q) (hp : p.type = .loadDependent)
    (hmem : p.station ∈ net) (hn : PowerSeries.coeff n (normalizing net) ≠ 0) :
    q.Distribution n :=
  ⟨marginal net p.station n, h.table hp, fun j _ => marginal_nonneg hmem n j, sum_marginal hn _⟩

theorem excess_zero (net : List (Station ℚ)) (params : List Params) : excess net params 0 = 0 := by
  unfold excess
  simp [mean_zero]

variable (hZ) in
/-- The excess vanishes with the power sums. -/
theorem balanced_iff_excess (hroom : params ≠ [] ∨ 0 < thinkTime) :
    Balanced params n ↔ ∀ k ≤ n, excess (network hZ params) params k = 0 := by
  have hiff := forall_sum_mean_eq_zero_iff
    (fun k (_ : k ≤ n) => (network_normalizing_pos hZ hroom k).ne')
    ((params.filter (·.type = .loadDependent)).map fun p => (p.visits - 1, p.station))
  simp only [List.map_map] at hiff
  have hweights : ∀ p : Params, (fun j => PowerSeries.coeff j p.station.weights) =
      fun j => ∏ i ∈ Finset.range j, p.times i := fun p => funext fun j => coeff_ofTimes j
  simp only [Function.comp_def, hweights] at hiff
  exact hiff.symm

end Network

/-- It is enough that each load-dependent queue is visited once. -/
theorem balanced_of_visits {params : List Params}
    (h : ∀ p ∈ params, p.type = .loadDependent → p.visits = 1) (n : ℕ) : Balanced params n := by
  intro k _
  refine List.sum_eq_zero fun x hx => ?_
  obtain ⟨p, hp, rfl⟩ := List.mem_map.mp hx
  obtain ⟨hp, hload⟩ := List.mem_filter.mp hp
  rw [h p hp (by simpa using hload), sub_self, zero_mul]

/-- Where each of them has one server, the power sums are powers of the service times. -/
theorem balanced_iff_of_oneServer {params : List Params}
    (h : ∀ p ∈ params, p.type = .loadDependent → p.numberOfServices = 1) (n : ℕ) :
    Balanced params n ↔ ∀ k, 1 ≤ k → k ≤ n →
      ((params.filter (·.type = .loadDependent)).map fun p =>
        (p.visits - 1) * p.serviceTime ^ k).sum = 0 := by
  have hterm : ∀ k, 1 ≤ k → (params.filter (·.type = .loadDependent)).map (fun p =>
      (p.visits - 1) * powerSum (fun j => ∏ i ∈ Finset.range j, p.times i) k) =
      (params.filter (·.type = .loadDependent)).map fun p =>
        (p.visits - 1) * p.serviceTime ^ k := by
    intro k hk
    refine List.map_congr_left fun p hp => ?_
    obtain ⟨hp, hload⟩ := List.mem_filter.mp hp
    have hload : p.type = .loadDependent := by simpa using hload
    have htimes : ∀ i, p.times i = p.serviceTime := by
      intro i
      unfold Params.times
      rw [hload, h p hp hload, min_eq_right (by omega)]
      simp
    simp only [htimes, Finset.prod_const, Finset.card_range]
    rw [powerSum_geometric _ hk]
  constructor
  · intro hbalanced k hk hkn
    rw [← hterm k hk]
    exact hbalanced k hkn
  · intro hpowers k hkn
    by_cases hk : k = 0
    · subst hk
      refine List.sum_eq_zero fun x hx => ?_
      obtain ⟨p, -, rfl⟩ := List.mem_map.mp hx
      rw [powerSum]
      simp
    · rw [hterm k (Nat.pos_of_ne_zero hk)]
      exact hpowers k (Nat.pos_of_ne_zero hk) hkn

/-- **The customers add up** in every iteration, and the tables hold probabilities, if and only if
the power sums of the load-dependent queues, weighted by their visits less one, vanish. Without
queues and without time to think there is no iteration. -/
theorem conserves_iff {thinkTime : ℚ} (hZ : 0 ≤ thinkTime) {params : List Params} {n : ℕ}
    (hsize : ∀ p ∈ params, n < p.size) :
    Conserves thinkTime (params.map Params.queue) n ↔
      (n = 0 ∨ params ≠ [] ∨ 0 < thinkTime) ∧ Balanced params n := by
  by_cases hroom : params ≠ [] ∨ 0 < thinkTime
  · rw [balanced_iff_excess hZ hroom, and_iff_right (Or.inr hroom)]
    constructor
    · intro h k hk
      induction k using Nat.strong_induction_on with
      | _ k ih =>
        cases k with
        | zero => exact excess_zero _ _
        | succ k =>
          obtain ⟨it, hit, -, hsolved⟩ := calculateNetwork_solved (n := k) hroom
            (fun p hp => (by omega : k ≤ n).trans_lt (hsize p hp))
            (fun j hj => ih j (by omega) (by omega)) le_rfl
          obtain ⟨it', hit', hadds, -⟩ := h (k + 1) (by omega) hk
          rw [calculateNetwork, hit, Option.bind_eq_bind, Option.bind_some] at hit'
          exact excess_eq_zero hroom (fun p hp => hk.trans_lt (hsize p hp)) hsolved hit' hadds
    · intro hexcess i hi hin
      obtain ⟨it, hit, hadds, hsolved⟩ := calculateNetwork_solved hroom hsize hexcess hin
      refine ⟨it, hit, hadds hi, fun q hq hload => ?_⟩
      obtain ⟨p, hp, hpq⟩ := exists_of_forall₂ hsolved hq
      exact hpq.distribution (hpq.type.symm.trans hload) (station_mem hp)
        (network_normalizing_pos _ hroom i).ne'
  · rw [not_or, not_not] at hroom
    obtain ⟨rfl, hthink⟩ := hroom
    obtain rfl : thinkTime = 0 := le_antisymm (not_lt.mp hthink) hZ
    have hbalanced : Balanced [] n := fun k _ => by simp
    rw [and_iff_left hbalanced]
    simp only [ne_eq, not_true_eq_false, lt_irrefl, or_false]
    constructor
    · intro h
      by_contra hn
      obtain ⟨it, hit, -⟩ := h 1 le_rfl (Nat.pos_of_ne_zero hn)
      revert hit
      simp [calculateNetwork, iterate, divide]
    · rintro rfl i hi hi'
      omega

/-- The arguments of a load-dependent queue with one server and a service time of 1. -/
def oneServer (visits : ℚ) (hvisits : 0 < visits) : Params where
  serviceTime := 1
  visits := visits
  type := .loadDependent
  numberOfServices := 1
  size := 3
  serviceTime_pos := one_pos
  visits_pos := hvisits
  services_pos := one_pos
  size_pos := three_pos

/-- A network, a broker, and a database with two connections. -/
def threeQueues : List Params :=
  [{ oneServer 1 one_pos with type := .delayCenter },
    { oneServer 2 two_pos with type := .fixedCapacity },
    { oneServer 1 one_pos with numberOfServices := 2, services_pos := two_pos }]

theorem conserves_iff_threeQueues : Conserves 10 (threeQueues.map Params.queue) 2 :=
  (conserves_iff (by norm_num) (by decide)).mpr
    ⟨Or.inr (Or.inr (by norm_num)), balanced_of_visits (by decide +kernel) 2⟩

/-- Two queues of which each is visited in every other interaction, and nobody thinks. -/
def twoBrokers : List Params := [oneServer (1 / 2) (by norm_num), oneServer (1 / 2) (by norm_num)]

/-- With one customer there are two after the first iteration. -/
theorem twoBrokers_customers :
    ((calculateNetwork 0 (twoBrokers.map Params.queue) 1).bind fun it =>
      it.queues.mapM (Queue.customers 1)) = some [1, 1] ∧
    ¬ Conserves 0 (twoBrokers.map Params.queue) 1 := by
  have hcustomers : ((calculateNetwork 0 (twoBrokers.map Params.queue) 1).bind fun it =>
      it.queues.mapM (Queue.customers 1)) = some [1, 1] := by decide +kernel
  refine ⟨hcustomers, fun h => ?_⟩
  obtain ⟨it, hit, ⟨customers, hmap, hsum⟩, -⟩ := h 1 le_rfl le_rfl
  rw [hit, Option.bind_some, hmap] at hcustomers
  obtain rfl := Option.some.inj hcustomers
  norm_num at hsum

end Mlmq.Mva
