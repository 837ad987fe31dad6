import Mlmq.Lib.Counts
import Mlmq.Lib.Tables
import Mlmq.Model.Queue

/-! # The buckets of the log analyzer

A `Bucket` collects durations. It keeps each duration once, with its multiplicity, and a sorted list
of the durations that is built by the first query that needs it and thrown away with the next value.
Multiplicities and counts are `int`s; what the program computes as a `double` is a rational number
here, and an exception is `none`.

Every query answers as on the plain list of the durations (`answers_iff`), with one exception: with
`2 ^ 31 - 1` values the `count + 1` of `percentile` is negative, and the answer is the minimum. -/

namespace Mlmq.Log

open Model (divide divide_of_ne_zero)
open Lib.Counts

structure Bucket where
  /-- the map, with some order of its keys -/
  values : AList fun _ : Int32 => Int32
  startTimestamp : Int64
  cachedDurations : Option (List Int32)

/-- `(int)` of a number without fraction: the closest `int`. -/
def narrow (x : ℤ) : Int32 := Int32.ofInt (max (-2 ^ 31) (min x (2 ^ 31 - 1)))

/-- `Collections.sort`. -/
def sort (l : List Int32) : List Int32 := l.mergeSort fun a b => decide (a ≤ b)

namespace Bucket

def new (startTimestamp : Int64) : Bucket :=
  { values := ∅, startTimestamp, cachedDurations := none }

/-! ### The functions of the source -/

def count (b : Bucket) : Option Int32 :=
  b.values.keys.foldlM (fun totalCount i => do return totalCount + (← b.values.lookup i)) 0

/-- The sorted list of the durations, and the bucket that remembers it. -/
def getDurations (b : Bucket) : List Int32 × Bucket :=
  match b.cachedDurations with
  | some cachedDurations => (cachedDurations, b)
  | none =>
    let cachedDurations := sort b.values.keys
    (cachedDurations, { b with cachedDurations := some cachedDurations })

/-- The caches are cleared, and there is an entry for the duration before it is counted. -/
def addValue (b : Bucket) (duration : Int32) : Bucket :=
  let values := if duration ∈ b.values then b.values else b.values.insert duration 0
  { b with
    values := values.insert duration ((values.lookup duration).getD 0 + 1)
    cachedDurations := none }

def addTimestamp (b : Bucket) (timestamp : Int64) : Bucket :=
  { b with startTimestamp := min b.startTimestamp timestamp }

def noValues (b : Bucket) : Bool := b.values.keys.isEmpty

def mean (b : Bucket) : Option ℚ :=
  if b.noValues then some 0
  else do
    let sum : ℤ ← b.values.keys.foldlM
      (fun sum i => do return sum + (← b.values.lookup i).toInt * i.toInt) 0
    divide sum (← b.count).toInt

def variance (b : Bucket) : Option ℚ := do
  if b.noValues then
    return 0
  else if (← b.count) = 1 then
    return 0
  else
    let mean ← b.mean
    let (accum, accum2, count) ← b.values.keys.foldlM
      (fun ((accum, accum2, count) : ℚ × ℚ × Int32) i => do
        let times ← b.values.lookup i
        let xiMinusMean := i.toInt - mean
        return (accum + xiMinusMean * xiMinusMean * times.toInt,
          accum2 + xiMinusMean * times.toInt, count + times)) (0, 0, 0)
    let len : ℚ := count.toInt
    return (accum - accum2 * accum2 / len) / (len - 1)

def min (b : Bucket) : Option (ℚ × Bucket) :=
  if b.noValues then some (0, b)
  else do
    let (durations, b) := b.getDurations
    let i ← durations.head?
    return (i.toInt, b)

def max (b : Bucket) : Option (ℚ × Bucket) :=
  if b.noValues then some (0, b)
  else do
    let (durations, b) := b.getDurations
    let i ← durations.getLast?
    return (i.toInt, b)

def percentile (percentile : ℚ) (b : Bucket) : Option (ℚ × Bucket) :=
  if b.noValues then some (0, b)
  else do
    let (durations, b) := b.getDurations
    let count ← b.count
    let pos := percentile * (count + 1).toInt / 100
    let intPos := narrow ⌊pos⌋
    match ← walkM b.values.lookup intPos durations 0 with
    | some i => return (i.toInt, b)
    | none => b.max

def getTime (b : Bucket) : Int64 := b.startTimestamp

def median (b : Bucket) : Option (ℚ × Bucket) := b.percentile 50

end Bucket

/-! ### Sequences of calls -/

inductive Query
  | count
  | mean
  | variance
  | min
  | max
  | percentile (p : ℚ)
deriving DecidableEq, Repr

/-- The answer of the bucket, and what the query leaves in it. -/
def Query.ask (b : Bucket) : Query → Option (ℚ × Bucket)
  | count => do return ((← b.count).toInt, b)
  | mean => do return (← b.mean, b)
  | variance => do return (← b.variance, b)
  | min => b.min
  | max => b.max
  | percentile p => b.percentile p

inductive Op
  | addValue (duration : Int32)
  | query (q : Query)
deriving DecidableEq, Repr

def Op.perform (b : Bucket) : Op → Option Bucket
  | addValue duration => some (b.addValue duration)
  | query q => (Query.ask b q).map Prod.snd

/-- The bucket after a sequence of calls. -/
def run (ops : List Op) : Option Bucket := ops.foldlM Op.perform (Bucket.new Int64.maxValue)

/-- The durations that the calls have added. -/
def added (ops : List Op) : List Int32 :=
  ops.filterMap fun
    | .addValue duration => some duration
    | .query _ => none

/-! ### The plain list -/

/-- The mean of the list, if there is one. -/
def listMean (xs : List Int32) : ℚ := (xs.map fun x => (x.toInt : ℚ)).sum / xs.length

/-- The `k`-th smallest element, with `k` moved to where there is one. -/
def kthSmallest (xs : List Int32) (k : ℤ) : Int32 :=
  ((sort xs)[(Max.max 1 (Min.min k xs.length) - 1).toNat]?).getD 0

/-- The answer on the plain list. -/
def Query.of (xs : List Int32) : Query → ℚ
  | count => xs.length
  | mean => if xs = [] then 0 else listMean xs
  | variance =>
    if xs.length < 2 then 0
    else (xs.map fun x => (x.toInt - listMean xs) ^ 2).sum / (xs.length - 1)
  | min => ((xs.map Int32.toInt).min?.getD 0 : ℤ)
  | max => ((xs.map Int32.toInt).max?.getD 0 : ℤ)
  | percentile p =>
    if xs = [] then 0 else (kthSmallest xs ⌊p * (xs.length + 1) / 100⌋).toInt

/-- **Every query answers as on the plain list** after the calls, and the percentiles grow. -/
def Answers (ops : List Op) : Prop :=
  ∃ b, run ops = some b ∧
    (∀ q : Query, ∃ b', Query.ask b q = some (q.of (added ops), b')) ∧
    ∀ p p' : ℚ, p ≤ p' → ∃ x x' b' b'', b.percentile p = some (x, b') ∧
      b.percentile p' = some (x', b'') ∧ x ≤ x'

/-! ### What the map holds -/

/-- **The map counts the values**, and the cache is right where there is one. -/
structure Represents (xs : List Int32) (b : Bucket) : Prop where
  lookup : ∀ d, b.values.lookup d = if d ∈ xs then some (Int32.ofNat (xs.count d)) else none
  cache : ∀ ds ∈ b.cachedDurations, ds = sort b.values.keys

theorem represents_new (startTimestamp : Int64) : Represents [] (Bucket.new startTimestamp) where
  lookup d := AList.lookup_empty d
  cache _ h := nomatch h

/-- A value is counted, and clears the cache. -/
theorem Represents.addValue {xs : List Int32} {b : Bucket} (h : Represents xs b)
    (duration : Int32) : Represents (xs ++ [duration]) (b.addValue duration) where
  cache _ hds := nomatch hds
  lookup d := by
    have hmem : duration ∈ b.values ↔ duration ∈ xs := by
      rw [← AList.lookup_isSome, h.lookup]
      split_ifs with hd
      · exact iff_of_true rfl hd
      · exact iff_of_false Bool.false_ne_true hd
    unfold Bucket.addValue
    by_cases hd : d = duration
    · subst hd
      have hself : d ∈ xs ++ [d] := by simp
      rw [AList.lookup_insert, if_pos hself, List.count_append, List.count_singleton_self,
        Int32.ofNat_add]
      congr 2
      by_cases hin : d ∈ xs
      · rw [if_pos (hmem.mpr hin), h.lookup, if_pos hin]
        rfl
      · rw [if_neg (hmem.not.mpr hin), AList.lookup_insert, List.count_eq_zero_of_not_mem hin]
        rfl
    · have hcount : (xs ++ [duration]).count d = xs.count d := by
        rw [List.count_append, List.count_singleton, beq_eq_false_iff_ne.mpr (Ne.symm hd)]
        rfl
      have hin : d ∈ xs ++ [duration] ↔ d ∈ xs := by simp [hd]
      rw [AList.lookup_insert_ne hd, hcount, if_congr hin rfl rfl, ← h.lookup]
      split_ifs
      · rfl
      · exact AList.lookup_insert_ne hd

theorem Represents.addTimestamp {xs : List Int32} {b : Bucket} (h : Represents xs b)
    (timestamp : Int64) : Represents xs (b.addTimestamp timestamp) := ⟨h.lookup, h.cache⟩

/-- The multiplicity that is kept: an `int`. -/
def multiplicity (xs : List Int32) (d : Int32) : ℤ := (Int32.ofNat (xs.count d)).toInt

/-- A sum over the durations, with their multiplicities, is that over the list. -/
theorem sum_dedup {M : Type} [AddCommMonoid M] (xs : List Int32) (f : Int32 → M) :
    (xs.dedup.map fun d => xs.count d • f d).sum = (xs.map f).sum := by
  rw [← sum_expand]
  exact ((expand_perm xs.nodup_dedup fun _ => List.mem_dedup).map f).sum_eq

theorem sum_multiplicity {xs : List Int32} (hlen : xs.length < 2 ^ 31) (f : Int32 → ℚ) :
    (xs.dedup.map fun d => (multiplicity xs d : ℚ) * f d).sum = (xs.map f).sum := by
  rw [← sum_dedup xs f]
  refine congrArg List.sum (List.map_congr_left fun d _ => ?_)
  unfold multiplicity
  rw [Int32.toInt_ofNat_of_lt (List.count_le_length.trans_lt hlen), nsmul_eq_mul]
  rfl

/-- The deviations from the mean add up to nothing. -/
theorem sum_deviation {xs : List Int32} (hxs : xs ≠ []) :
    (xs.map fun x => (x.toInt : ℚ) - listMean xs).sum = 0 := by
  have hsub : ∀ (c : ℚ) (l : List Int32), (l.map fun x => (x.toInt : ℚ) - c).sum =
      (l.map fun x => (x.toInt : ℚ)).sum - l.length * c := by
    intro c l
    induction l with
    | nil => simp
    | cons x l ih =>
      rw [List.map_cons, List.sum_cons, ih, List.map_cons, List.sum_cons, List.length_cons]
      push_cast
      ring
  have hpos : (xs.length : ℚ) ≠ 0 := by
    exact_mod_cast (List.length_pos_iff.mpr hxs).ne'
  rw [hsub]
  unfold listMean
  rw [mul_div_cancel₀ _ hpos, sub_self]

/-! ### Sorting -/

theorem sort_perm (l : List Int32) : (sort l).Perm l := List.mergeSort_perm l _

theorem mem_sort {l : List Int32} {x : Int32} : x ∈ sort l ↔ x ∈ l := (sort_perm l).mem_iff

theorem sort_ne_nil {l : List Int32} (hl : l ≠ []) : sort l ≠ [] := fun hs =>
  hl (List.Perm.eq_nil (hs ▸ (sort_perm l).symm))

theorem le_trans' (a b c : Int32) (hab : decide (a ≤ b) = true) (hbc : decide (b ≤ c) = true) :
    decide (a ≤ c) = true :=
  decide_eq_true (Int32.le_trans (of_decide_eq_true hab) (of_decide_eq_true hbc))

theorem le_total' (a b : Int32) : (decide (a ≤ b) || decide (b ≤ a)) = true := by
  rw [Bool.or_eq_true, decide_eq_true_iff, decide_eq_true_iff]
  exact Int32.le_total a b

theorem pairwise_sort (l : List Int32) : (sort l).Pairwise (· ≤ ·) :=
  (List.pairwise_mergeSort le_trans' le_total' l).imp of_decide_eq_true

theorem exists_head {l : List Int32} (hl : l ≠ []) :
    ∃ i, (sort l).head? = some i ∧ i ∈ l ∧ ∀ x ∈ l, i ≤ x := by
  have hsorted := pairwise_sort l
  obtain ⟨i, rest, hs⟩ := List.exists_cons_of_ne_nil (sort_ne_nil hl)
  rw [hs] at hsorted
  refine ⟨i, by rw [hs]; rfl, mem_sort.mp (hs ▸ List.mem_cons_self), fun x hx => ?_⟩
  have hx' := mem_sort.mpr hx
  rw [hs] at hx'
  rcases List.mem_cons.mp hx' with rfl | hx'
  · exact Int32.le_refl x
  · exact List.rel_of_pairwise_cons hsorted hx'

theorem exists_last {l : List Int32} (hl : l ≠ []) :
    ∃ i, (sort l).getLast? = some i ∧ i ∈ l ∧ ∀ x ∈ l, x ≤ i := by
  have hsorted := pairwise_sort l
  obtain ⟨rest, i, hs⟩ : ∃ rest i, sort l = rest ++ [i] :=
    ⟨_, _, (List.dropLast_append_getLast (sort_ne_nil hl)).symm⟩
  rw [hs] at hsorted
  refine ⟨i, by rw [hs, List.getLast?_concat], mem_sort.mp (hs ▸ by simp), fun x hx => ?_⟩
  have hx' := mem_sort.mpr hx
  rw [hs] at hx'
  rcases List.mem_append.mp hx' with hx' | hx'
  · exact (List.pairwise_append.mp hsorted).2.2 x hx' i List.mem_cons_self
  · rw [List.mem_singleton.mp hx']
    exact Int32.le_refl i

section Queries

variable {xs : List Int32} {b : Bucket} (h : Represents xs b)
include h

theorem Represents.mem_keys (d : Int32) : d ∈ b.values.keys ↔ d ∈ xs := by
  rw [← AList.mem_keys, ← AList.lookup_isSome, h.lookup]
  split_ifs with hd
  · exact iff_of_true rfl hd
  · exact iff_of_false Bool.false_ne_true hd

theorem Represents.noValues_iff : b.noValues = true ↔ xs = [] := by
  unfold Bucket.noValues
  rw [List.isEmpty_iff, List.eq_nil_iff_forall_not_mem, List.eq_nil_iff_forall_not_mem]
  exact forall_congr' fun d => not_congr (h.mem_keys d)

theorem Represents.lookup_keys {d : Int32} (hd : d ∈ b.values.keys) :
    b.values.lookup d = some (Int32.ofNat (xs.count d)) := by
  rw [h.lookup, if_pos ((h.mem_keys d).mp hd)]

theorem Represents.keys_perm : b.values.keys.Perm xs.dedup := by
  rw [List.perm_ext_iff_of_nodup b.values.keys_nodup xs.nodup_dedup]
  exact fun d => (h.mem_keys d).trans List.mem_dedup.symm

theorem Represents.sum_count : (b.values.keys.map fun d => xs.count d).sum = xs.length := by
  rw [(h.keys_perm.map _).sum_eq]
  exact List.sum_map_count_dedup_eq_length xs

theorem Represents.foldlM_count {ds : List Int32} (hds : ∀ d ∈ ds, d ∈ b.values.keys) (s : ℕ) :
    ds.foldlM (fun totalCount i => do return totalCount + (← b.values.lookup i)) (Int32.ofNat s) =
      some (Int32.ofNat (s + (ds.map fun d => xs.count d).sum)) := by
  induction ds generalizing s with
  | nil => simp
  | cons d ds ih =>
    rw [List.foldlM_cons, h.lookup_keys (hds d List.mem_cons_self), List.map_cons, List.sum_cons,
      ← add_assoc]
    show ds.foldlM _ (Int32.ofNat s + Int32.ofNat (xs.count d)) = _
    rw [← Int32.ofNat_add]
    exact ih (fun a ha => hds a (List.mem_cons_of_mem d ha)) _

/-- The count, as an `int`. -/
theorem Represents.count_eq : b.count = some (Int32.ofNat xs.length) := by
  unfold Bucket.count
  have hfold := h.foldlM_count (fun d hd => hd) 0
  rw [h.sum_count, zero_add] at hfold
  exact hfold

/-- The durations in order; the bucket that is left differs in its cache at most. -/
theorem Represents.getDurations : b.getDurations.1 = sort b.values.keys ∧
    Represents xs b.getDurations.2 ∧ b.getDurations.2.values = b.values := by
  unfold Bucket.getDurations
  split
  case h_1 ds hcache => exact ⟨h.cache ds hcache, h, rfl⟩
  case h_2 =>
    refine ⟨rfl, ⟨h.lookup, ?_⟩, rfl⟩
    rintro ds ⟨⟩
    rfl

/-! ### Mean and variance -/

/-- The mean, from what is kept. -/
theorem Represents.mean_kept (hxs : xs ≠ []) :
    b.mean = divide (xs.dedup.map fun d => (multiplicity xs d : ℚ) * d.toInt).sum
      (Int32.ofNat xs.length).toInt := by
  have hsum : b.values.keys.foldlM
      (fun (sum : ℤ) i => do return sum + (← b.values.lookup i).toInt * i.toInt) 0 =
      some (xs.dedup.map fun d => multiplicity xs d * d.toInt).sum := by
    rw [Lib.Tables.foldlM_eq_add (h := fun d => multiplicity xs d * d.toInt) fun sum d hd => ?_,
      (h.keys_perm.map _).sum_eq, zero_add]
    rw [h.lookup_keys hd]
    rfl
  unfold Bucket.mean
  rw [if_neg fun hno => hxs (h.noValues_iff.mp hno), hsum, h.count_eq]
  simp only [Option.bind_eq_bind, Option.bind_some]
  congr 1
  rw [Int.cast_list_sum, List.map_map]
  refine congrArg List.sum (List.map_congr_left fun d _ => ?_)
  exact Int.cast_mul _ _

theorem Represents.mean_eq (hlen : xs.length < 2 ^ 31) :
    b.mean = some (if xs = [] then 0 else listMean xs) := by
  by_cases hxs : xs = []
  · unfold Bucket.mean
    rw [if_pos (h.noValues_iff.mpr hxs), if_pos hxs]
  · have hpos := List.length_pos_iff.mpr hxs
    rw [h.mean_kept hxs, if_neg hxs, sum_multiplicity hlen, Int32.toInt_ofNat_of_lt hlen,
      divide_of_ne_zero (by exact_mod_cast hpos.ne')]
    rfl

/-- The three sums of the variance. -/
theorem Represents.foldlM_variance (mean : ℚ) {ds : List Int32}
    (hds : ∀ d ∈ ds, d ∈ b.values.keys) (accum accum2 : ℚ) (s : ℕ) :
    ds.foldlM (fun ((accum, accum2, count) : ℚ × ℚ × Int32) i => do
        let times ← b.values.lookup i
        let xiMinusMean := i.toInt - mean
        return (accum + xiMinusMean * xiMinusMean * times.toInt,
          accum2 + xiMinusMean * times.toInt, count + times)) (accum, accum2, Int32.ofNat s) =
      some (accum + (ds.map fun d => (multiplicity xs d : ℚ) * ((d.toInt : ℚ) - mean) ^ 2).sum,
        accum2 + (ds.map fun d => (multiplicity xs d : ℚ) * ((d.toInt : ℚ) - mean)).sum,
        Int32.ofNat (s + (ds.map fun d => xs.count d).sum)) := by
  induction ds generalizing accum accum2 s with
  | nil => simp
  | cons d ds ih =>
    rw [List.foldlM_cons, h.lookup_keys (hds d List.mem_cons_self)]
    simp only [Option.bind_eq_bind, Option.bind_some, Option.pure_def]
    rw [← Int32.ofNat_add]
    have htail := ih (fun a ha => hds a (List.mem_cons_of_mem d ha))
    simp only [Option.bind_eq_bind, Option.pure_def] at htail
    rw [htail]
    simp only [List.map_cons, List.sum_cons, add_assoc]
    refine congrArg some (Prod.ext ?_ (Prod.ext ?_ rfl))
    · show _ + (_ * ((multiplicity xs d : ℤ) : ℚ) + _) = _
      ring
    · show _ + (_ * ((multiplicity xs d : ℤ) : ℚ) + _) = _
      ring

theorem Represents.variance_one (hone : Int32.ofNat xs.length = 1) : b.variance = some 0 := by
  unfold Bucket.variance
  rw [h.count_eq, Option.bind_eq_bind, Option.bind_some, if_pos hone]
  split_ifs <;> rfl

/-- The variance, from what is kept. -/
theorem Represents.variance_kept (hxs : xs ≠ []) (hone : Int32.ofNat xs.length ≠ 1) :
    b.variance = b.mean.map fun mean =>
      ((xs.dedup.map fun d => (multiplicity xs d : ℚ) * ((d.toInt : ℚ) - mean) ^ 2).sum -
        (xs.dedup.map fun d => (multiplicity xs d : ℚ) * ((d.toInt : ℚ) - mean)).sum ^ 2 /
          (Int32.ofNat xs.length).toInt) / ((Int32.ofNat xs.length).toInt - 1) := by
  unfold Bucket.variance
  rw [if_neg fun hno => hxs (h.noValues_iff.mp hno), h.count_eq, Option.bind_eq_bind,
    Option.bind_some, if_neg hone]
  cases b.mean with
  | none => rfl
  | some mean =>
    have hfold := h.foldlM_variance mean (fun d hd => hd) 0 0 0
    rw [(h.keys_perm.map _).sum_eq, (h.keys_perm.map _).sum_eq, h.sum_count] at hfold
    simp only [zero_add, Option.bind_eq_bind, Option.pure_def] at hfold
    simp only [Option.bind_eq_bind, Option.bind_some, Option.pure_def]
    rw [show (0 : Int32) = Int32.ofNat 0 from rfl, hfold, Option.bind_some, Option.map_some,
      sq (List.sum _)]

theorem Represents.variance_eq (hlen : xs.length < 2 ^ 31) :
    b.variance = some (Query.of xs .variance) := by
  have hcount : (Int32.ofNat xs.length).toInt = xs.length := Int32.toInt_ofNat_of_lt hlen
  show _ = some (if xs.length < 2 then 0
    else (xs.map fun x => ((x.toInt : ℚ) - listMean xs) ^ 2).sum / ((xs.length : ℚ) - 1))
  by_cases hxs : xs = []
  · unfold Bucket.variance
    rw [if_pos (h.noValues_iff.mpr hxs), hxs]
    rfl
  · have hpos := List.length_pos_iff.mpr hxs
    by_cases hone : xs.length = 1
    · rw [h.variance_one (by rw [hone]; rfl), if_pos (by omega)]
    · have hne : Int32.ofNat xs.length ≠ 1 := by
        rw [Ne, ← Int32.toInt_inj, hcount]
        show ¬ (xs.length : ℤ) = 1
        exact_mod_cast hone
      rw [h.variance_kept hxs hne, h.mean_eq hlen, if_neg hxs, if_neg (by omega), Option.map_some,
        sum_multiplicity hlen, sum_multiplicity hlen, sum_deviation hxs, hcount]
      norm_num

/-! ### The order of the durations -/

theorem Represents.keys_ne_nil (hxs : xs ≠ []) : b.values.keys ≠ [] := by
  obtain ⟨x, hx⟩ := List.exists_mem_of_ne_nil xs hxs
  exact List.ne_nil_of_mem ((h.mem_keys x).mpr hx)

theorem Represents.min_eq : ∃ b', b.min = some (Query.of xs .min, b') ∧ Represents xs b' := by
  unfold Bucket.min
  by_cases hxs : xs = []
  · exact ⟨b, by rw [if_pos (h.noValues_iff.mpr hxs), hxs]; rfl, h⟩
  · obtain ⟨hdurations, hb', -⟩ := h.getDurations
    obtain ⟨i, hhead, hi, hle⟩ := exists_head (h.keys_ne_nil hxs)
    have hmin : (xs.map Int32.toInt).min? = some i.toInt := by
      rw [List.min?_eq_some_iff]
      refine ⟨List.mem_map_of_mem ((h.mem_keys i).mp hi), fun y hy => ?_⟩
      obtain ⟨x, hx, rfl⟩ := List.mem_map.mp hy
      exact Int32.le_iff_toInt_le.mp (hle x ((h.mem_keys x).mpr hx))
    refine ⟨b.getDurations.2, ?_, hb'⟩
    rw [if_neg fun hno => hxs (h.noValues_iff.mp hno)]
    show (b.getDurations.1.head?.bind fun i => some ((i.toInt : ℚ), b.getDurations.2)) = _
    rw [hdurations, hhead]
    show some _ = some (((((xs.map Int32.toInt).min?).getD 0 : ℤ) : ℚ), _)
    rw [hmin]
    rfl

theorem Represents.max_eq : ∃ b', b.max = some (Query.of xs .max, b') ∧ Represents xs b' := by
  unfold Bucket.max
  by_cases hxs : xs = []
  · exact ⟨b, by rw [if_pos (h.noValues_iff.mpr hxs), hxs]; rfl, h⟩
  · obtain ⟨hdurations, hb', -⟩ := h.getDurations
    obtain ⟨i, hlast, hi, hle⟩ := exists_last (h.keys_ne_nil hxs)
    have hmax : (xs.map Int32.toInt).max? = some i.toInt := by
      rw [List.max?_eq_some_iff]
      refine ⟨List.mem_map_of_mem ((h.mem_keys i).mp hi), fun y hy => ?_⟩
      obtain ⟨x, hx, rfl⟩ := List.mem_map.mp hy
      exact Int32.le_iff_toInt_le.mp (hle x ((h.mem_keys x).mpr hx))
    refine ⟨b.getDurations.2, ?_, hb'⟩
    rw [if_neg fun hno => hxs (h.noValues_iff.mp hno)]
    show (b.getDurations.1.getLast?.bind fun i => some ((i.toInt : ℚ), b.getDurations.2)) = _
    rw [hdurations, hlast]
    show some _ = some (((((xs.map Int32.toInt).max?).getD 0 : ℤ) : ℚ), _)
    rw [hmax]
    rfl

/-! ### The percentiles -/

/-- The durations in order, from the list. -/
theorem Represents.sort_keys : sort b.values.keys = sort xs.dedup :=
  List.Perm.eq_of_pairwise (fun _ _ _ _ => Int32.le_antisymm) (pairwise_sort _)
    (pairwise_sort _) ((sort_perm _).trans (h.keys_perm.trans (sort_perm _).symm))

theorem Represents.percentile_nil (hxs : xs = []) (p : ℚ) : b.percentile p = some (0, b) := by
  unfold Bucket.percentile
  rw [if_pos (h.noValues_iff.mpr hxs)]

end Queries

/-- The position that `percentile` computes, from an `int` that may have overflowed. -/
def position (xs : List Int32) (p : ℚ) : Int32 :=
  narrow ⌊p * (Int32.ofNat xs.length + 1).toInt / 100⌋

/-- The duration at which the multiplicities, as `int`s, reach `k`, or the last one. -/
def pick (xs : List Int32) (k : Int32) : Int32 :=
  (walk (fun d => Int32.ofNat (xs.count d)) k (sort xs.dedup) 0).getD
    ((sort xs.dedup).getLast?.getD 0)

/-- **What `percentile` returns**, for any number of values. -/
theorem Represents.percentile_eq {xs : List Int32} {b : Bucket} (h : Represents xs b)
    (hxs : xs ≠ []) (p : ℚ) :
    ∃ b', b.percentile p = some (((pick xs (position xs p)).toInt : ℚ), b') ∧
      Represents xs b' ∧ b'.values = b.values := by
  obtain ⟨hdurations, hb', hvalues⟩ := h.getDurations
  obtain ⟨last, hlast, -, -⟩ := exists_last (h.keys_ne_nil hxs)
  rw [h.sort_keys] at hlast
  have hwalk := walkM_eq (m := b.getDurations.2.values.lookup)
    (fun d (hd : d ∈ sort xs.dedup) =>
      hb'.lookup_keys ((hb'.mem_keys d).mpr (List.mem_dedup.mp (mem_sort.mp hd))))
    (position xs p) 0
  have hmax : ∃ b'', b.getDurations.2.max = some ((last.toInt : ℚ), b'') ∧ Represents xs b'' ∧
      b''.values = b.values := by
    obtain ⟨hdurations', hb'', hvalues'⟩ := hb'.getDurations
    refine ⟨b.getDurations.2.getDurations.2, ?_, hb'', hvalues'.trans hvalues⟩
    have hlast' : b.getDurations.2.getDurations.1.getLast? = some last := by
      rw [hdurations', hb'.sort_keys, hlast]
    unfold Bucket.max
    rw [if_neg fun hno => hxs (hb'.noValues_iff.mp hno)]
    show (b.getDurations.2.getDurations.1.getLast?.bind fun i => some ((i.toInt : ℚ), _)) = _
    rw [hlast']
    rfl
  have hpercentile : b.percentile p =
      (walkM b.getDurations.2.values.lookup (position xs p) b.getDurations.1 0).bind
        fun found => match found with
          | some i => some ((i.toInt : ℚ), b.getDurations.2)
          | none => b.getDurations.2.max := by
    unfold Bucket.percentile
    rw [if_neg fun hno => hxs (h.noValues_iff.mp hno)]
    show (b.getDurations.2.count.bind fun count => _) = _
    rw [hb'.count_eq]
    rfl
  unfold pick
  rw [hpercentile, hdurations, h.sort_keys, hwalk]
  cases walk (fun d => Int32.ofNat (xs.count d)) (position xs p) (sort xs.dedup) 0 with
  | some i => exact ⟨b.getDurations.2, rfl, hb', hvalues⟩
  | none =>
    obtain ⟨b'', hmax, hb''⟩ := hmax
    exact ⟨b'', by rw [hlast]; exact hmax, hb''⟩

section Pick

variable {xs : List Int32}

theorem mem_sort_dedup {d : Int32} : d ∈ sort xs.dedup ↔ d ∈ xs :=
  mem_sort.trans List.mem_dedup

theorem count_pos {d : Int32} (hd : d ∈ sort xs.dedup) : 0 < xs.count d :=
  List.count_pos_iff.mpr (mem_sort_dedup.mp hd)

theorem dedup_ne_nil (hxs : xs ≠ []) : xs.dedup ≠ [] := by
  obtain ⟨x, hx⟩ := List.exists_mem_of_ne_nil xs hxs
  exact List.ne_nil_of_mem (List.mem_dedup.mpr hx)

/-- Sorted durations with their multiplicities are the sorted list. -/
theorem expand_dedup (xs : List Int32) : expand (xs.count ·) (sort xs.dedup) = sort xs :=
  expand_eq_mergeSort le_trans' le_total'
    (fun _ _ hab hba =>
      Int32.le_antisymm (of_decide_eq_true hab) (of_decide_eq_true hba))
    ((pairwise_sort _).imp decide_eq_true) ((sort_perm _).nodup_iff.mpr xs.nodup_dedup)
    fun _ => mem_sort_dedup

theorem pick_mem (hxs : xs ≠ []) (k : Int32) : pick xs k ∈ xs := by
  obtain ⟨last, hlast, hmem, -⟩ := exists_last (dedup_ne_nil hxs)
  unfold pick
  cases hwalk : walk (fun d => Int32.ofNat (xs.count d)) k (sort xs.dedup) 0 with
  | some d => exact mem_sort_dedup.mp (walk_mem hwalk)
  | none =>
    rw [hlast]
    exact List.mem_dedup.mp hmem

/-- A later position has no smaller duration, whether the multiplicities overflow or not. -/
theorem pick_mono (hxs : xs ≠ []) {k k' : Int32} (hk : k ≤ k') : pick xs k ≤ pick xs k' := by
  obtain ⟨last, hlast, -, hle⟩ := exists_last (dedup_ne_nil hxs)
  have htrans : ∀ x : Int32, k' ≤ x → k ≤ x := fun x hx => Int32.le_trans hk hx
  unfold pick
  cases hwalk : walk (fun d => Int32.ofNat (xs.count d)) k (sort xs.dedup) 0 with
  | none =>
    rw [walk_none_mono htrans hwalk]
    exact Int32.le_refl _
  | some d =>
    cases hwalk' : walk (fun d => Int32.ofNat (xs.count d)) k' (sort xs.dedup) 0 with
    | none =>
      rw [hlast]
      exact hle d (mem_sort.mp (walk_mem hwalk))
    | some d' => exact walk_mono Int32.le_refl (pairwise_sort _) htrans hwalk hwalk'

/-- How many values are at most `d`, as an `int`. -/
def upTo (xs : List Int32) (d : Int32) : Int32 := Int32.ofNat (xs.countP (· ≤ d))

/-- One of the values up to `d` is one up to which there are `k`. -/
def Reached (xs : List Int32) (k d : Int32) : Prop := ∃ e ∈ xs, e ≤ d ∧ k ≤ upTo xs e

theorem upTo_eq {pre post : List Int32} {d : Int32} (hsort : sort xs.dedup = pre ++ d :: post) :
    upTo xs d = pre.foldl (fun s a => s + Int32.ofNat (xs.count a)) 0 + Int32.ofNat (xs.count d) := by
  have hfold : ∀ (l : List Int32) (s : ℕ),
      l.foldl (fun s a => s + Int32.ofNat (xs.count a)) (Int32.ofNat s) =
        Int32.ofNat (s + (expand (xs.count ·) l).length) := by
    intro l
    induction l with
    | nil => exact fun s => rfl
    | cons a l ih =>
      intro s
      rw [List.foldl_cons, ← Int32.ofNat_add, ih, expand_cons, List.length_append,
        List.length_replicate, add_assoc]
  -- the sorted list is in three parts: below, equal to and above `d`
  have hsorted := pairwise_sort xs.dedup
  have hnodup := (sort_perm xs.dedup).nodup_iff.mpr xs.nodup_dedup
  rw [hsort, List.pairwise_append] at hsorted
  rw [hsort, List.nodup_append] at hnodup
  have hpre : (expand (xs.count ·) pre).countP (· ≤ d) = (expand (xs.count ·) pre).length := by
    refine List.countP_eq_length.mpr fun a ha => decide_eq_true ?_
    exact hsorted.2.2 a (mem_expand ha) d List.mem_cons_self
  have hpost : (expand (xs.count ·) post).countP (· ≤ d) = 0 := by
    refine List.countP_eq_zero.mpr fun a ha hle => ?_
    have hda := List.rel_of_pairwise_cons hsorted.2.1 (mem_expand ha)
    have hsame := Int32.le_antisymm hda (of_decide_eq_true hle)
    exact (List.nodup_cons.mp hnodup.2.1).1 (hsame ▸ mem_expand ha)
  have hself : (List.replicate (xs.count d) d).countP (· ≤ d) = xs.count d := by
    rw [List.countP_replicate, if_pos (decide_eq_true (Int32.le_refl d))]
  have hcount : xs.countP (· ≤ d) = (expand (xs.count ·) pre).length + xs.count d := by
    rw [← (sort_perm xs).countP_eq, ← expand_dedup, hsort, expand, List.flatMap_append,
      ← expand, ← expand, expand_cons, List.countP_append, List.countP_append, hpre, hself, hpost,
      add_zero]
  unfold upTo
  rw [hcount, Int32.ofNat_add]
  have hzero := hfold pre 0
  rw [zero_add] at hzero
  rw [← hzero]
  rfl

/-- **Which duration is picked**: the smallest at which the position is reached, or the maximum. -/
theorem pick_le_iff (hxs : xs ≠ []) {k d : Int32} :
    pick xs k ≤ d ↔ Reached xs k d ∨ ∀ x ∈ xs, x ≤ d := by
  obtain ⟨last, hlast, hmem, hle⟩ := exists_last (dedup_ne_nil hxs)
  have hwalk : walk (fun d => Int32.ofNat (xs.count d)) k (sort xs.dedup) 0 =
      (sort xs.dedup).find? fun d => decide (k ≤ upTo xs d) :=
    walk_eq_find? (fun _ _ _ hsort => upTo_eq hsort) k
  have hall : (∀ x ∈ xs, x ≤ d) ↔ last ≤ d := by
    refine ⟨fun h => h last (List.mem_dedup.mp hmem), fun h x hx => ?_⟩
    exact Int32.le_trans (hle x (List.mem_dedup.mpr hx)) h
  unfold pick
  rw [hwalk, hlast, hall]
  cases hfind : (sort xs.dedup).find? fun d => decide (k ≤ upTo xs d) with
  | none =>
    refine ⟨Or.inr, ?_⟩
    rintro (⟨e, he, -, hk⟩ | h)
    · exact absurd (decide_eq_true hk) (List.find?_eq_none.mp hfind e (mem_sort_dedup.mpr he))
    · exact h
  | some e =>
    obtain ⟨hk, pre, post, hsort, hpre⟩ := List.find?_eq_some_iff_append.mp hfind
    have hin : e ∈ sort xs.dedup := by rw [hsort]; simp
    have hsorted := pairwise_sort xs.dedup
    rw [hsort, List.pairwise_append] at hsorted
    show e ≤ d ↔ _
    refine ⟨fun h => Or.inl ⟨e, mem_sort_dedup.mp hin, h, of_decide_eq_true hk⟩, ?_⟩
    rintro (⟨e', he', hle', hk'⟩ | h)
    · have hin' : e' ∈ sort xs.dedup := mem_sort_dedup.mpr he'
      rw [hsort] at hin'
      rcases List.mem_append.mp hin' with hin' | hin'
      · have hnot := hpre e' hin'
        rw [decide_eq_true hk'] at hnot
        exact absurd hnot (by decide)
      · rcases List.mem_cons.mp hin' with rfl | hin'
        · exact hle'
        · exact Int32.le_trans (List.rel_of_pairwise_cons hsorted.2.1 hin') hle'
    · exact Int32.le_trans (hle e (mem_sort.mp hin)) h

/-- While nothing overflows, the walk over `int`s is that over numbers. -/
theorem walk_toInt (m : Int32 → ℕ) (k : Int32) {ds : List Int32} {s : ℕ}
    (hlen : s + (ds.map m).sum < 2 ^ 31) : walk (fun d => Int32.ofNat (m d)) k ds (Int32.ofNat s) =
      walk (fun d => (m d : ℤ)) k.toInt ds s := by
  induction ds generalizing s with
  | nil => rfl
  | cons d ds ih =>
    rw [List.map_cons, List.sum_cons, ← add_assoc] at hlen
    have hle : k ≤ Int32.ofNat (s + m d) ↔ k.toInt ≤ (s : ℤ) + m d := by
      rw [Int32.le_iff_toInt_le, Int32.toInt_ofNat_of_lt (by omega)]
      push_cast
      rfl
    have hcast : ((s : ℤ) + m d) = ((s + m d : ℕ) : ℤ) := by push_cast; rfl
    rw [walk, walk, ← Int32.ofNat_add, if_congr hle rfl rfl, ih hlen, hcast]

/-- With a count that is an `int`, the duration is the one in that position of the sorted list. -/
theorem getElem?_pick (hxs : xs ≠ []) (hlen : xs.length < 2 ^ 31) (k : Int32) :
    (sort xs)[(min (k.toInt - 1) (xs.length - 1)).toNat]? = some (pick xs k) := by
  have hlength : (sort xs).length = xs.length := (sort_perm xs).length_eq
  have hpos := List.length_pos_iff.mpr hxs
  obtain ⟨last, hlast, -, -⟩ := exists_last (dedup_ne_nil hxs)
  have hsum : ((sort xs.dedup).map (xs.count ·)).sum = xs.length := by
    rw [((sort_perm _).map _).sum_eq]
    exact List.sum_map_count_dedup_eq_length xs
  have hsmall : 0 + ((sort xs.dedup).map (xs.count ·)).sum < 2 ^ 31 := by omega
  have hwalk := walk_toInt (xs.count ·) k hsmall
  rw [show Int32.ofNat 0 = 0 from rfl, Nat.cast_zero, walk_eq_getElem? fun d hd => count_pos hd,
    expand_dedup, sub_zero] at hwalk
  have hlast' : (sort xs)[xs.length - 1]? = some last := by
    rw [← hlength, ← List.getLast?_eq_getElem?, ← expand_dedup,
      getLast?_expand fun d hd => count_pos hd]
    exact hlast
  unfold pick
  rw [hwalk, hlast]
  by_cases hin : (k.toInt - 1).toNat < xs.length
  · rw [show (min (k.toInt - 1) (xs.length - 1)).toNat = (k.toInt - 1).toNat by omega,
      List.getElem?_eq_getElem (by omega)]
    rfl
  · rw [show (min (k.toInt - 1) (xs.length - 1)).toNat = xs.length - 1 by omega, hlast',
      List.getElem?_eq_none (by omega)]
    rfl

theorem toInt_narrow (x : ℤ) : (narrow x).toInt = max (-2 ^ 31) (min x (2 ^ 31 - 1)) :=
  Int32.toInt_ofInt_of_le (by omega) (by omega)

end Pick

/-! ### The `k`-th smallest value -/

theorem getElem?_kthSmallest {xs : List Int32} (hxs : xs ≠ []) (k : ℤ) :
    (sort xs)[(max 1 (min k xs.length) - 1).toNat]? = some (kthSmallest xs k) := by
  have hpos := List.length_pos_iff.mpr hxs
  have hlength : (sort xs).length = xs.length := (sort_perm xs).length_eq
  unfold kthSmallest
  rw [List.getElem?_eq_getElem (by omega)]
  rfl

theorem kthSmallest_mem {xs : List Int32} (hxs : xs ≠ []) (k : ℤ) : kthSmallest xs k ∈ xs :=
  mem_sort.mp (List.mem_of_getElem? (getElem?_kthSmallest hxs k))

/-- The sorted list grows. -/
theorem le_of_getElem? {xs : List Int32} {i j : ℕ} {x y : Int32} (hij : i ≤ j)
    (hx : (sort xs)[i]? = some x) (hy : (sort xs)[j]? = some y) : x ≤ y := by
  obtain ⟨hi, rfl⟩ := List.getElem?_eq_some_iff.mp hx
  obtain ⟨hj, rfl⟩ := List.getElem?_eq_some_iff.mp hy
  rcases hij.eq_or_lt with rfl | hlt
  · exact Int32.le_refl _
  · exact List.pairwise_iff_getElem.mp (pairwise_sort xs) i j hi hj hlt

theorem kthSmallest_mono {xs : List Int32} (hxs : xs ≠ []) {k k' : ℤ} (hk : k ≤ k') :
    kthSmallest xs k ≤ kthSmallest xs k' :=
  le_of_getElem? (by omega) (getElem?_kthSmallest hxs k) (getElem?_kthSmallest hxs k')

/-- While the count is not the largest `int`, the percentile is the `k`-th smallest value. -/
theorem pick_position {xs : List Int32} (hxs : xs ≠ []) (hlen : xs.length + 1 < 2 ^ 31) (p : ℚ) :
    pick xs (position xs p) = kthSmallest xs ⌊p * (xs.length + 1) / 100⌋ := by
  have hpos := List.length_pos_iff.mpr hxs
  have hcount : ((Int32.ofNat xs.length + 1).toInt : ℚ) = xs.length + 1 := by
    rw [show (1 : Int32) = Int32.ofNat 1 from rfl, ← Int32.ofNat_add,
      Int32.toInt_ofNat_of_lt hlen]
    push_cast
    rfl
  have hpick := getElem?_pick hxs (by omega) (position xs p)
  unfold position at hpick ⊢
  rw [hcount] at hpick ⊢
  obtain ⟨k, hk⟩ : ∃ k, k = ⌊p * ((xs.length : ℚ) + 1) / 100⌋ := ⟨_, rfl⟩
  rw [← hk] at hpick ⊢
  rw [toInt_narrow] at hpick
  have hkth := getElem?_kthSmallest hxs k
  rw [show (max 1 (min k xs.length) - 1).toNat =
    (min (max (-2 ^ 31) (min k (2 ^ 31 - 1)) - 1) (xs.length - 1)).toNat by omega] at hkth
  exact Option.some.inj (hpick.symm.trans hkth)

/-! ### The calls -/

/-- Every query is answered, and leaves the bucket what it is. -/
theorem Represents.ask {xs : List Int32} {b : Bucket} (h : Represents xs b)
    (hlen : xs.length < 2 ^ 31) (q : Query) :
    ∃ x b', Query.ask b q = some (x, b') ∧ Represents xs b' := by
  cases q with
  | count => exact ⟨_, b, by rw [Query.ask, h.count_eq]; rfl, h⟩
  | mean => exact ⟨_, b, by rw [Query.ask, h.mean_eq hlen]; rfl, h⟩
  | variance => exact ⟨_, b, by rw [Query.ask, h.variance_eq hlen]; rfl, h⟩
  | min =>
    obtain ⟨b', hmin, hb'⟩ := h.min_eq
    exact ⟨_, b', hmin, hb'⟩
  | max =>
    obtain ⟨b', hmax, hb'⟩ := h.max_eq
    exact ⟨_, b', hmax, hb'⟩
  | percentile p =>
    by_cases hxs : xs = []
    · exact ⟨0, b, h.percentile_nil hxs p, h⟩
    · obtain ⟨b', hpercentile, hb', -⟩ := h.percentile_eq hxs p
      exact ⟨_, b', hpercentile, hb'⟩

/-- A call keeps the invariant. -/
theorem Represents.perform {xs : List Int32} {b : Bucket} (h : Represents xs b) (op : Op)
    (hlen : xs.length < 2 ^ 31) :
    ∃ b', op.perform b = some b' ∧ Represents (xs ++ added [op]) b' := by
  cases op with
  | addValue duration => exact ⟨b.addValue duration, rfl, h.addValue duration⟩
  | query q =>
    obtain ⟨x, b', hask, hb'⟩ := h.ask hlen q
    exact ⟨b', by rw [Op.perform, hask]; rfl, by rwa [show added [.query q] = [] from rfl,
      List.append_nil]⟩

theorem added_cons (op : Op) (ops : List Op) : added (op :: ops) = added [op] ++ added ops :=
  List.filterMap_append (l := [op])

/-- **After any calls the bucket represents the values added**, while there are fewer than
`2 ^ 31`. -/
theorem exists_run {ops : List Op} (hlen : (added ops).length < 2 ^ 31) :
    ∃ b, run ops = some b ∧ Represents (added ops) b := by
  have hrun : ∀ (ops : List Op) (xs : List Int32) (b : Bucket), Represents xs b →
      (xs ++ added ops).length < 2 ^ 31 →
      ∃ b', ops.foldlM Op.perform b = some b' ∧ Represents (xs ++ added ops) b' := by
    intro ops
    induction ops with
    | nil => exact fun xs b h _ => ⟨b, rfl, by rwa [show added [] = [] from rfl, List.append_nil]⟩
    | cons op ops ih =>
      intro xs b h hlen
      rw [added_cons, ← List.append_assoc] at hlen ⊢
      obtain ⟨b', hperform, hb'⟩ := h.perform op (by
        rw [List.append_assoc, List.length_append] at hlen
        omega)
      obtain ⟨b'', hfold, hb''⟩ := ih _ b' hb' hlen
      exact ⟨b'', by rw [List.foldlM_cons, hperform]; exact hfold, hb''⟩
  exact hrun ops [] _ (represents_new _) hlen

/-! ### The answers -/

theorem answers_of_percentile {ops : List Op} (hlen : (added ops).length < 2 ^ 31)
    (hpercentile : ∀ b, Represents (added ops) b → ∀ p, ∃ b',
      b.percentile p = some (Query.of (added ops) (.percentile p), b')) : Answers ops := by
  obtain ⟨b, hrun, hb⟩ := exists_run hlen
  refine ⟨b, hrun, fun q => ?_, fun p p' hp => ?_⟩
  · cases q with
    | count =>
      have hcount : (Int32.ofNat (added ops).length).toInt = (added ops).length :=
        Int32.toInt_ofNat_of_lt hlen
      refine ⟨b, ?_⟩
      show (b.count.bind fun count => some ((count.toInt : ℚ), b)) =
        some (((added ops).length : ℚ), b)
      rw [hb.count_eq, Option.bind_some, hcount]
      push_cast
      rfl
    | mean => exact ⟨b, by rw [Query.ask, hb.mean_eq hlen]; rfl⟩
    | variance => exact ⟨b, by rw [Query.ask, hb.variance_eq hlen]; rfl⟩
    | min =>
      obtain ⟨b', hmin, -⟩ := hb.min_eq
      exact ⟨b', hmin⟩
    | max =>
      obtain ⟨b', hmax, -⟩ := hb.max_eq
      exact ⟨b', hmax⟩
    | percentile p => exact hpercentile b hb p
  · obtain ⟨b', hx⟩ := hpercentile b hb p
    obtain ⟨b'', hx'⟩ := hpercentile b hb p'
    refine ⟨_, _, b', b'', hx, hx', ?_⟩
    show (if added ops = [] then 0 else (((kthSmallest (added ops) _).toInt : ℤ) : ℚ)) ≤
      if added ops = [] then 0 else (((kthSmallest (added ops) _).toInt : ℤ) : ℚ)
    split_ifs with hxs
    · exact le_rfl
    · have hfloor : ⌊p * (((added ops).length : ℚ) + 1) / 100⌋ ≤
          ⌊p' * (((added ops).length : ℚ) + 1) / 100⌋ := by
        apply Int.floor_mono
        gcongr
      exact_mod_cast Int32.le_iff_toInt_le.mp (kthSmallest_mono hxs hfloor)

/-- The percentiles of the bucket and of the list. -/
theorem Represents.percentile_of {xs : List Int32} {b : Bucket} (h : Represents xs b) {p : ℚ}
    (hpick : xs ≠ [] → pick xs (position xs p) = kthSmallest xs ⌊p * (xs.length + 1) / 100⌋) :
    ∃ b', b.percentile p = some (Query.of xs (.percentile p), b') := by
  show ∃ b', _ = some (if xs = [] then 0
    else ((kthSmallest xs ⌊p * (xs.length + 1) / 100⌋).toInt : ℚ), b')
  by_cases hxs : xs = []
  · exact ⟨b, by rw [if_pos hxs, h.percentile_nil hxs]⟩
  · obtain ⟨b', hpercentile, -⟩ := h.percentile_eq hxs p
    exact ⟨b', by rw [hpercentile, if_neg hxs, hpick hxs]⟩

/-- With `2 ^ 31 - 1` values the position is never above 0, for a percentile from 0 on. -/
theorem toInt_position {xs : List Int32} (hlen : xs.length + 1 = 2 ^ 31) {p : ℚ} (hp : 0 ≤ p) :
    (position xs p).toInt ≤ 0 := by
  have hcount : ((Int32.ofNat xs.length + 1).toInt : ℚ) = -2 ^ 31 := by
    rw [show (1 : Int32) = Int32.ofNat 1 from rfl, ← Int32.ofNat_add, hlen]
    norm_num [show (Int32.ofNat 2147483648).toInt = -2147483648 by decide]
  have hfloor : ⌊p * (Int32.ofNat xs.length + 1).toInt / 100⌋ ≤ 0 := by
    rw [hcount]
    refine Int.floor_nonpos ?_
    linarith
  unfold position
  rw [toInt_narrow]
  omega

/-- So the minimum is picked. -/
theorem pick_of_nonpos {xs : List Int32} (hxs : xs ≠ []) (hlen : xs.length < 2 ^ 31) {k : Int32}
    (hk : k.toInt ≤ 0) : ∀ x ∈ xs, pick xs k ≤ x := by
  intro x hx
  have hpos := List.length_pos_iff.mpr hxs
  have hpick := getElem?_pick hxs hlen k
  rw [show (min (k.toInt - 1) (xs.length - 1)).toNat = 0 by omega] at hpick
  obtain ⟨j, hj, rfl⟩ := List.getElem_of_mem (mem_sort.mpr hx)
  exact le_of_getElem? (Nat.zero_le j) hpick (List.getElem?_eq_getElem hj)

/-- With `2 ^ 31 - 1` values the largest is not found. -/
theorem Represents.percentile_overflow {xs : List Int32} {b : Bucket} (h : Represents xs b)
    (hlen : xs.length + 1 = 2 ^ 31) (hne : ¬ ∀ x ∈ xs, ∀ y ∈ xs, x = y) (b' : Bucket) :
    b.percentile 100 ≠ some (Query.of xs (.percentile 100), b') := by
  have hxs : xs ≠ [] := by
    rintro rfl
    exact hne fun x hx => absurd hx List.not_mem_nil
  have hlength : (sort xs).length = xs.length := (sort_perm xs).length_eq
  obtain ⟨b₂, hpercentile, -⟩ := h.percentile_eq hxs 100
  have hmin := pick_of_nonpos hxs (by omega) (toInt_position hlen (by norm_num : (0 : ℚ) ≤ 100))
  -- the list's answer is the maximum
  have hmax : ∀ x ∈ xs, x ≤ kthSmallest xs (xs.length + 1) := by
    intro x hx
    obtain ⟨j, hj, rfl⟩ := List.getElem_of_mem (mem_sort.mpr hx)
    exact le_of_getElem? (by omega) (List.getElem?_eq_getElem hj)
      (getElem?_kthSmallest hxs ((xs.length : ℤ) + 1))
  intro heq
  have hvalue : ((pick xs (position xs 100)).toInt : ℚ) = if xs = [] then 0
      else ((kthSmallest xs ⌊100 * ((xs.length : ℚ) + 1) / 100⌋).toInt : ℚ) :=
    (Prod.ext_iff.mp (Option.some.inj (hpercentile.symm.trans heq))).1
  have hfloor : ⌊100 * ((xs.length : ℚ) + 1) / 100⌋ = (xs.length : ℤ) + 1 := by
    rw [mul_div_cancel_left₀ _ (by norm_num : (100 : ℚ) ≠ 0)]
    exact_mod_cast Int.floor_natCast (R := ℚ) (xs.length + 1)
  rw [if_neg hxs, hfloor] at hvalue
  have hsame : pick xs (position xs 100) = kthSmallest xs (xs.length + 1) :=
    Int32.toInt_inj.mp (by exact_mod_cast hvalue)
  have hall : ∀ z ∈ xs, z = pick xs (position xs 100) := fun z hz =>
    Int32.le_antisymm (hsame ▸ hmax z hz) (hmin z hz)
  exact hne fun x hx y hy => (hall x hx).trans (hall y hy).symm

/-- **Every query answers as on the plain list** unless there are `2 ^ 31 - 1` values and not all of
them are equal. -/
theorem answers_iff {ops : List Op} (hlen : (added ops).length < 2 ^ 31) :
    Answers ops ↔ (added ops).length + 1 < 2 ^ 31 ∨ ∀ x ∈ added ops, ∀ y ∈ added ops, x = y := by
  constructor
  · rintro ⟨b, hrun, hask, -⟩
    by_contra hnot
    rw [not_or] at hnot
    obtain ⟨b', hrun', hb⟩ := exists_run hlen
    obtain rfl := Option.some.inj (hrun.symm.trans hrun')
    obtain ⟨b'', hpercentile⟩ := hask (.percentile 100)
    exact hb.percentile_overflow (by omega) hnot.2 b'' hpercentile
  · rintro (hlt | hequal)
    · exact answers_of_percentile hlen fun b hb p =>
        hb.percentile_of fun hxs => pick_position hxs hlt p
    · exact answers_of_percentile hlen fun b hb p => hb.percentile_of fun hxs =>
        hequal _ (pick_mem hxs _) _ (kthSmallest_mem hxs _)

theorem answers_iff_two : Answers [.addValue 10, .query .max, .addValue 25] ↔
    (added [.addValue 10, .query .max, .addValue 25]).length + 1 < 2 ^ 31 ∨
      ∀ x ∈ added [.addValue 10, .query .max, .addValue 25],
        ∀ y ∈ added [.addValue 10, .query .max, .addValue 25], x = y :=
  answers_iff (by decide)

/-- As many values as an `int` can count: all but the last are 0. -/
def manyValues : List Op := List.replicate (2 ^ 31 - 2) (.addValue 0) ++ [.addValue 1]

theorem added_replicate (n : ℕ) (duration : Int32) :
    added (List.replicate n (.addValue duration)) = List.replicate n duration := by
  induction n with
  | zero => rfl
  | succ n ih => rw [List.replicate_succ, added_cons, ih, List.replicate_succ]; rfl

theorem added_manyValues : added manyValues = List.replicate (2 ^ 31 - 2) 0 ++ [1] := by
  unfold manyValues
  rw [← added_replicate]
  exact List.filterMap_append

/-- There the percentile 100 is not the maximum. -/
theorem manyValues_not_answers :
    (added manyValues).length < 2 ^ 31 ∧ ¬ Answers manyValues := by
  have hlength : (added manyValues).length + 1 = 2 ^ 31 := by
    rw [added_manyValues, List.length_append, List.length_replicate, List.length_singleton]
    norm_num
  refine ⟨by omega, ?_⟩
  rintro ⟨b, hrun, hask, -⟩
  have hlen : (added manyValues).length < 2 ^ 31 := by omega
  obtain ⟨b', hrun', hb⟩ := exists_run hlen
  obtain rfl := Option.some.inj (hrun.symm.trans hrun')
  obtain ⟨b'', hpercentile⟩ := hask (.percentile 100)
  refine hb.percentile_overflow hlength (fun hequal => ?_) b'' hpercentile
  have hzero : (0 : Int32) ∈ added manyValues := by
    rw [added_manyValues]
    exact List.mem_append_left _ (List.mem_replicate.mpr ⟨by norm_num, rfl⟩)
  have hone : (1 : Int32) ∈ added manyValues := by
    rw [added_manyValues]
    exact List.mem_append_right _ (List.mem_singleton_self 1)
  exact absurd (hequal 0 hzero 1 hone) (by decide)

end Mlmq.Log
