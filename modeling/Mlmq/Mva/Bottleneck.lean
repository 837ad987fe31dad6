import Mlmq.Mva.MeanValueAnalyzer

/-! # The bottleneck

The analysis comes to its end from all queues, whether the customers add up or not: it never reads a
place of a table that has not been written, never divides by 0, and each throughput is positive
(`calculateNetwork_sound`). It needs a queue or time to think, and tables with a place for each
number of customers.

`calcBottleneck` names the queue with the greatest utilization. The number of servers has no part in
it, nor has the throughput, so that it names the same queue for each number of customers
(`one_bottleneck`). -/

namespace Mlmq.Mva

open Model (divide_of_ne_zero)
open Lib.Tables

/-! ### Every iteration ends -/

/-- A queue of `p` after `i` iterations, with any throughputs: nothing is below 0, and there may be
`i` customers. -/
structure Sound (i : ℕ) (p : Params) (q : Queue) : Prop where
  tabled : ∃ f, Tabled f i p q ∧ (∀ j ≤ i, 0 ≤ f j) ∧ 0 < f i
  queueLength : 0 ≤ q.queueLength
  responseTime : 0 < q.responseTime

variable {thinkTime : ℚ} {params : List Params} {p : Params} {q : Queue} {n : ℕ}

theorem sound_zero (p : Params) : Sound 0 p p.queue where
  tabled := by
    have hone : Lib.ClosedNetwork.marginal [] p.station 0 0 = 1 :=
      Lib.ClosedNetwork.marginal_zero p.station
    refine ⟨_, (solved_zero [] p).tabled, fun j hj => ?_, ?_⟩
    · rw [Nat.le_zero.mp hj, hone]
      exact zero_le_one
    · rw [hone]
      exact one_pos
  queueLength := le_rfl
  responseTime := p.serviceTime_pos

theorem Sound.serviceTime (h : Sound n p q) : q.serviceTime = p.serviceTime := by
  obtain ⟨f, hf, -⟩ := h.tabled
  exact hf.serviceTime

theorem Sound.visits (h : Sound n p q) : q.visits = p.visits := by
  obtain ⟨f, hf, -⟩ := h.tabled
  exact hf.visits

/-- The places of a table that is not used do not count. -/
theorem Tabled.sound {f : ℕ → ℚ} {i : ℕ} (h : Tabled f n p q) (hp : p.type ≠ .loadDependent)
    (hlength : 0 ≤ q.queueLength) (hresponse : 0 < q.responseTime) : Sound i p q :=
  ⟨⟨fun _ => 1, { h with table := fun hload => absurd hload hp }, fun _ _ => zero_le_one, one_pos⟩,
    hlength, hresponse⟩

theorem Sound.updateResponseTime (h : Sound n p q) :
    ∃ q', q.updateResponseTime (n + 1) = some q' ∧ Sound n p q' := by
  obtain ⟨f, hf, hnonneg, hpos⟩ := h.tabled
  unfold Queue.updateResponseTime
  split
  case h_1 hq =>
    have hp : p.type ≠ .loadDependent := by
      rw [← hf.type, hq]
      decide
    have hs := p.serviceTime_pos
    have hlength := h.queueLength
    refine ⟨_, rfl, Tabled.sound { hf with } hp hlength ?_⟩
    show 0 < q.serviceTime * (1 + q.queueLength)
    rw [hf.serviceTime]
    positivity
  case h_2 hq =>
    have hp : p.type = .loadDependent := hf.type.symm.trans hq
    rw [foldlM_range'_add fun j hj => hf.share_eq hp (Nat.lt_succ_iff.mp hj)]
    refine ⟨_, rfl, ⟨f, { hf with }, hnonneg, hpos⟩, h.queueLength, ?_⟩
    refine Finset.sum_pos' (fun j hj => ?_) ⟨n, Finset.self_mem_range_succ n, ?_⟩
    · have hj := hnonneg j (Nat.lt_succ_iff.mp (Finset.mem_range.mp hj))
      have htime := p.times_pos j
      positivity
    · have htime := p.times_pos n
      positivity
  case h_3 => exact ⟨q, rfl, h⟩

theorem clamp_nonneg (x : ℚ) : 0 ≤ Queue.clamp x := by
  unfold Queue.clamp
  split_ifs with hneg
  · exact le_rfl
  · exact not_lt.mp hneg

theorem Sound.updateQueueLength (h : Sound n p q) (hsize : n + 1 < p.size) {X : ℚ} (hX : 0 < X) :
    ∃ q', q.updateQueueLength X (n + 1) = some q' ∧ Sound (n + 1) p q' := by
  obtain ⟨f, hf, hnonneg, hpos⟩ := h.tabled
  by_cases hp : p.type = .loadDependent
  · obtain ⟨P, hupdate, hlen, habove, hzero⟩ := hf.exists_update hp hnonneg hsize hX.le
    obtain ⟨c, hc, hzero⟩ : ∃ c, 0 ≤ c ∧ read P 0 = some c := by
      refine ⟨_, ?_, hzero⟩
      split_ifs
      · exact clamp_nonneg _
      · exact hnonneg 0 (Nat.zero_le n)
    -- the entry for `n + 1` customers comes from the one for `n`, so it is positive again
    refine ⟨_, hupdate, ⟨fun j => if j = 0 then c else X * p.times (j - 1) * f (j - 1),
      { hf with size := hlen, table := fun _ j hj => ?_ }, fun j hj => ?_, ?_⟩, h.queueLength,
      h.responseTime⟩
    · by_cases h0 : j = 0
      · rw [if_pos h0, h0]
        exact hzero
      · rw [if_neg h0]
        obtain ⟨j, rfl⟩ := Nat.exists_eq_succ_of_ne_zero h0
        exact habove j (by omega)
    · show 0 ≤ if j = 0 then c else X * p.times (j - 1) * f (j - 1)
      split_ifs with h0
      · exact hc
      · have hj := hnonneg (j - 1) (by omega)
        have htime := p.times_pos (j - 1)
        positivity
    · have htime := p.times_pos n
      show 0 < if n + 1 = 0 then c else X * p.times (n + 1 - 1) * f (n + 1 - 1)
      rw [if_neg (Nat.succ_ne_zero n), Nat.add_sub_cancel]
      positivity
  · have hq : q.type ≠ .loadDependent := fun hq => hp (hf.type.symm.trans hq)
    refine ⟨_, q.updateQueueLength_of_ne hq X (n + 1),
      Tabled.sound { hf with } hp ?_ h.responseTime⟩
    have hv := p.visits_pos
    have hresponse := h.responseTime
    show 0 ≤ X * q.visits * q.responseTime
    rw [hf.visits]
    positivity

/-- A round takes time. -/
theorem round_pos (hZ : 0 ≤ thinkTime) (hroom : params ≠ [] ∨ 0 < thinkTime) {queues : List Queue}
    (h : List.Forall₂ (Sound n) params queues) :
    0 < thinkTime + (queues.map fun q => q.responseTime * q.visits).sum := by
  have hpos : ∀ x ∈ queues.map fun q => q.responseTime * q.visits, 0 < x := by
    intro x hx
    obtain ⟨q, hq, rfl⟩ := List.mem_map.mp hx
    obtain ⟨p, -, hpq⟩ := exists_of_forall₂ h hq
    rw [hpq.visits]
    exact mul_pos hpq.responseTime p.visits_pos
  rcases hroom with hne | hthink
  · have hqueues : queues ≠ [] := by
      rintro rfl
      exact hne (List.forall₂_nil_right_iff.mp h)
    exact add_pos_of_nonneg_of_pos hZ (List.sum_pos _ hpos (List.map_eq_nil_iff.not.mpr hqueues))
  · exact add_pos_of_pos_of_nonneg hthink (List.sum_nonneg fun x hx => (hpos x hx).le)

/-- **An iteration ends**, with a positive throughput. -/
theorem iterate_sound (hZ : 0 ≤ thinkTime) (hroom : params ≠ [] ∨ 0 < thinkTime)
    {queues : List Queue} (hsize : ∀ p ∈ params, n + 1 < p.size)
    (h : List.Forall₂ (Sound n) params queues) :
    ∃ it, iterate thinkTime (n + 1) queues = some it ∧ 0 < it.throughput ∧
      List.Forall₂ (Sound (n + 1)) params it.queues := by
  obtain ⟨queues₁, hresponse, hqueues₁⟩ := exists_mapM h fun p _ q hq => hq.updateResponseTime
  have hround := round_pos hZ hroom hqueues₁
  have hX : 0 < ((n + 1 : ℕ) : ℚ) /
      (thinkTime + (queues₁.map fun q => q.responseTime * q.visits).sum) :=
    div_pos (by positivity) hround
  obtain ⟨queues₂, hupdate, hqueues₂⟩ := exists_mapM hqueues₁ fun p hp q hq =>
    hq.updateQueueLength (hsize p hp) hX
  refine ⟨⟨queues₂, _⟩, ?_, hX, hqueues₂⟩
  unfold iterate
  simp only [hresponse, divide_of_ne_zero hround.ne', Option.bind_eq_bind, Option.bind_some]
  rw [hupdate]
  rfl

/-- **The analysis ends**, and after each of its iterations nothing is below 0. -/
theorem calculateNetwork_sound (hZ : 0 ≤ thinkTime) (hroom : params ≠ [] ∨ 0 < thinkTime)
    (hsize : ∀ p ∈ params, n < p.size) {i : ℕ} (hi : i ≤ n) :
    ∃ it, calculateNetwork thinkTime (params.map Params.queue) i = some it ∧
      (1 ≤ i → 0 < it.throughput) ∧ List.Forall₂ (Sound i) params it.queues := by
  induction i with
  | zero =>
    refine ⟨_, rfl, fun h => absurd h (by omega), ?_⟩
    rw [List.forall₂_map_right_iff]
    exact List.forall₂_same.mpr fun p _ => sound_zero p
  | succ i ih =>
    obtain ⟨it, hit, -, hsound⟩ := ih (by omega)
    obtain ⟨it', hit', hX, hsound'⟩ := iterate_sound hZ hroom
      (fun p hp => hi.trans_lt (hsize p hp)) hsound
    refine ⟨it', ?_, fun _ => hX, hsound'⟩
    rw [calculateNetwork, hit, Option.bind_eq_bind, Option.bind_some, hit']

/-! ### The queue with the greatest utilization -/

def Queue.utilization (throughput : ℚ) (q : Queue) : ℚ := q.visits * throughput * q.serviceTime

/-- The first queue that is used more than all before it, or `none` where no queue is used: there
the printing of its name fails. -/
def calcBottleneck (throughput : ℚ) (queues : List Queue) : Option Queue :=
  (queues.foldl (fun (best : Option Queue × ℚ) q =>
    if best.2 < q.utilization throughput then (some q, q.utilization throughput) else best)
    (none, 0)).1

theorem calcBottleneck_eq {queues : List Queue} {X : ℚ} {k : ℕ}
    (hpos : ∀ q ∈ queues, 0 < q.utilization X) (h : Greatest (Queue.utilization X) queues k q) :
    calcBottleneck X queues = some q := by
  obtain ⟨k', q', hfirst, hfold⟩ := exists_greatest hpos
    (List.ne_nil_of_mem (List.mem_of_getElem? h.place))
  obtain rfl := h.unique hfirst
  obtain rfl := Option.some.inj (h.place.symm.trans hfirst.place)
  unfold calcBottleneck
  rw [hfold]

/-- **One bottleneck for each number of customers**: the first queue with the greatest time of
service for all its visits. -/
def OneBottleneck (thinkTime : ℚ) (params : List Params) (n : ℕ) : Prop :=
  ∃ k p, Greatest (fun p => p.visits * p.serviceTime) params k p ∧ ∀ i, 1 ≤ i → i ≤ n →
    ∃ it q, calculateNetwork thinkTime (params.map Params.queue) i = some it ∧
      0 < it.throughput ∧ List.Forall₂ (Sound i) params it.queues ∧
      it.queues[k]? = some q ∧ calcBottleneck it.throughput it.queues = some q

theorem Sound.utilization {X : ℚ} (h : Sound n p q) :
    q.utilization X = X * (p.visits * p.serviceTime) := by
  unfold Queue.utilization
  rw [h.visits, h.serviceTime]
  ring

/-- **The analysis ends, and names one bottleneck**, from any queues. -/
theorem one_bottleneck (hZ : 0 ≤ thinkTime) (hne : params ≠ [])
    (hsize : ∀ p ∈ params, n < p.size) : OneBottleneck thinkTime params n := by
  have hwork : ∀ p : Params, 0 < p.visits * p.serviceTime := fun p =>
    mul_pos p.visits_pos p.serviceTime_pos
  obtain ⟨k, p, hfirst, -⟩ := exists_greatest (fun p (_ : p ∈ params) => hwork p) hne
  refine ⟨k, p, hfirst, fun i hi hin => ?_⟩
  obtain ⟨it, hit, hX, hsound⟩ := calculateNetwork_sound hZ (Or.inl hne) hsize hin
  have hX : 0 < it.throughput := hX hi
  have hpos : ∀ q ∈ it.queues, 0 < q.utilization it.throughput := by
    intro q hq
    obtain ⟨p, -, hpq⟩ := exists_of_forall₂ hsound hq
    rw [hpq.utilization]
    exact mul_pos hX (hwork p)
  obtain ⟨q, -, hq⟩ := hfirst.map (strictMono_mul_left_of_pos hX) hsound fun p q hpq =>
    hpq.utilization
  exact ⟨it, q, hit, hX, hsound, hq.place, calcBottleneck_eq hpos hq⟩

theorem one_bottleneck_twoBrokers : OneBottleneck 0 twoBrokers 2 :=
  one_bottleneck le_rfl (by decide +kernel) (by decide +kernel)

end Mlmq.Mva
