import Mlmq.Log.Bucket

/-! # The plots

`GnuPlotPrinter` writes a line for each bucket. A plot of response times has a centre and two error
columns, of which the third column of the line is the lower end of the error bar and the fourth the
upper one.

In the modes with the standard deviation the two ends are swapped: the line for the lower end asks
`percentileOrStddev` for the one that is added. So the ends are in order iff the deviation is 0
(`ordered_iff`). -/

namespace Mlmq.Log

open Model (divide divide_of_ne_zero)

/-- The square root of the variance: `none` where that is no number. -/
noncomputable def Bucket.stddev (b : Bucket) : Option ℝ := do
  let variance ← b.variance
  if variance < 0 then none else return √(variance : ℝ)

inductive DiagramType
  | ResponseTime
  | Throughput
deriving DecidableEq, Repr

structure GnuPlotPrinter where
  diagramType : DiagramType
  plotMedian : Bool
  plotPercentile : Bool
  percentile : ℚ
deriving DecidableEq, Repr

/-- A line of a plot. -/
inductive Record
  | responseTime (time : Int64) (centre low high : ℝ)
  | throughput (time : Int64) (count : ℝ)

namespace GnuPlotPrinter

def medianOrMean (printer : GnuPlotPrinter) (b : Bucket) : Option (ℚ × Bucket) :=
  if printer.plotMedian then b.median else do return (← b.mean, b)

noncomputable def percentileOrStddev (printer : GnuPlotPrinter) (b : Bucket) (upperError : Bool) :
    Option (ℝ × Bucket) := do
  let (x, b) ← printer.medianOrMean b
  if printer.plotPercentile then
    let (x, b) ← if upperError then b.percentile (100 - printer.percentile)
      else b.percentile printer.percentile
    return ((x : ℝ), b)
  else
    let stddev ← b.stddev
    return (if upperError then x - stddev else x + stddev, b)

def formatTime (time t0 : Int64) : Int64 := (time - t0) / 60000

/-- The line of a bucket. -/
noncomputable def writeBucket (printer : GnuPlotPrinter) (t0 : Int64) (b : Bucket) :
    Option Record := do
  let time := formatTime b.getTime t0
  match printer.diagramType with
  | .ResponseTime =>
    let (centre, b) ← printer.medianOrMean b
    let (low, b) ← printer.percentileOrStddev b false
    let (high, _) ← printer.percentileOrStddev b true
    return .responseTime time centre low high
  | .Throughput => return .throughput time (((← b.count).toInt : ℝ) / 1000)

noncomputable def writeBuckets (printer : GnuPlotPrinter) (t0 : Int64) (buckets : List Bucket) :
    Option (List Record) := buckets.mapM (printer.writeBucket t0)

end GnuPlotPrinter

/-! ### What is to hold -/

/-- The error bar of a line is in order, and in the modes of one kind the centre lies within. -/
def Record.Ordered (printer : GnuPlotPrinter) : Record → Prop
  | responseTime _ centre low high => low ≤ high ∧
    (printer.plotMedian = printer.plotPercentile → low ≤ centre ∧ centre ≤ high)
  | throughput _ _ => True

/-- **The error bars of a plot are in order.** -/
def Ordered (printer : GnuPlotPrinter) (t0 : Int64) (buckets : List Bucket) : Prop :=
  ∃ records, printer.writeBuckets t0 buckets = some records ∧ ∀ r ∈ records, r.Ordered printer

/-- A bucket with any values. -/
def fill (startTimestamp : Int64) (values : List Int32) : Bucket :=
  values.foldl Bucket.addValue (Bucket.new startTimestamp)

theorem represents_fill (startTimestamp : Int64) (values : List Int32) :
    Represents values (fill startTimestamp values) := by
  have hfold : ∀ (xs ys : List Int32) (b : Bucket), Represents xs b →
      Represents (xs ++ ys) (ys.foldl Bucket.addValue b) := by
    intro xs ys
    induction ys generalizing xs with
    | nil => exact fun b h => by rwa [List.append_nil]
    | cons y ys ih =>
      intro b h
      have hy := ih (xs ++ [y]) (b.addValue y) (h.addValue y)
      rwa [List.append_assoc, List.singleton_append] at hy
  exact hfold [] values _ (represents_new startTimestamp)

/-! ### When the deviation is 0 -/

/-- The power sums of the durations, with the kept multiplicities. -/
def moment (xs : List Int32) (k : ℕ) : ℤ :=
  (xs.dedup.map fun d => multiplicity xs d * d.toInt ^ k).sum

/-- An equation between the power sums and the count, an `int` that may have overflowed: without
overflow the sum of the multiplicities is the count, and it says that the square of the first power
sum is the count times the second one. -/
def Level (xs : List Int32) : Prop :=
  let count := (Int32.ofNat xs.length).toInt
  count = 1 ∨ count ≠ 0 ∧ count ^ 3 * moment xs 2 =
    (3 * count ^ 2 - 3 * count * moment xs 0 + moment xs 0 ^ 2) * moment xs 1 ^ 2

/-- The mean of the kept multiplicities. -/
def keptMean (xs : List Int32) : ℚ :=
  (xs.dedup.map fun d => (multiplicity xs d : ℚ) * d.toInt).sum / (Int32.ofNat xs.length).toInt

theorem sum_moment (xs : List Int32) (k : ℕ) :
    (xs.dedup.map fun d => (multiplicity xs d : ℚ) * (d.toInt : ℚ) ^ k).sum = moment xs k := by
  unfold moment
  rw [Int.cast_list_sum, List.map_map]
  refine congrArg List.sum (List.map_congr_left fun d _ => ?_)
  push_cast [Function.comp_apply]
  rfl

theorem sum_mul_sub (f g : Int32 → ℚ) (c : ℚ) (l : List Int32) :
    (l.map fun d => f d * (g d - c)).sum =
      (l.map fun d => f d * g d ^ 1).sum - c * (l.map fun d => f d * g d ^ 0).sum := by
  induction l with
  | nil => simp
  | cons d l ih =>
    simp only [List.map_cons, List.sum_cons, ih]
    ring

theorem sum_mul_sub_sq (f g : Int32 → ℚ) (c : ℚ) (l : List Int32) :
    (l.map fun d => f d * (g d - c) ^ 2).sum = (l.map fun d => f d * g d ^ 2).sum -
      2 * c * (l.map fun d => f d * g d ^ 1).sum + c ^ 2 * (l.map fun d => f d * g d ^ 0).sum := by
  induction l with
  | nil => simp
  | cons d l ih =>
    simp only [List.map_cons, List.sum_cons, ih]
    ring

/-- The equation says that there is no deviation from the mean. -/
theorem level_iff_deviation (xs : List Int32) : Level xs ↔
    Int32.ofNat xs.length = 1 ∨ Int32.ofNat xs.length ≠ 0 ∧
      (xs.dedup.map fun d => (multiplicity xs d : ℚ) * ((d.toInt : ℚ) - keptMean xs) ^ 2).sum =
        (xs.dedup.map fun d => (multiplicity xs d : ℚ) * ((d.toInt : ℚ) - keptMean xs)).sum ^ 2 /
          (Int32.ofNat xs.length).toInt := by
  have hmean : keptMean xs = moment xs 1 / (Int32.ofNat xs.length).toInt := by
    unfold keptMean
    rw [← sum_moment]
    simp only [pow_one]
  rw [sum_mul_sub_sq, sum_mul_sub, sum_moment, sum_moment, sum_moment, hmean]
  unfold Level
  dsimp only
  have hone : (Int32.ofNat xs.length).toInt = 1 ↔ Int32.ofNat xs.length = 1 := by
    rw [← Int32.toInt_inj]
    rfl
  have hzero : (Int32.ofNat xs.length).toInt ≠ 0 ↔ Int32.ofNat xs.length ≠ 0 := by
    rw [Ne, Ne, ← Int32.toInt_inj]
    rfl
  rw [hone, hzero]
  refine or_congr_right (and_congr_right fun hne => ?_)
  have hcount : ((Int32.ofNat xs.length).toInt : ℚ) ≠ 0 := by exact_mod_cast hzero.mpr hne
  generalize (Int32.ofNat xs.length).toInt = count at hcount ⊢
  have hdiff : (moment xs 2 - 2 * (moment xs 1 / count) * moment xs 1 +
      (moment xs 1 / count) ^ 2 * moment xs 0 : ℚ) -
        (moment xs 1 - moment xs 1 / count * moment xs 0) ^ 2 / count =
      (count ^ 3 * moment xs 2 - (3 * count ^ 2 - 3 * count * moment xs 0 + moment xs 0 ^ 2) *
        moment xs 1 ^ 2) / count ^ 3 := by
    field_simp
    ring
  rw [← sub_eq_zero (b := _ / _), hdiff, div_eq_zero_iff, or_iff_left (pow_ne_zero 3 hcount),
    sub_eq_zero]
  exact_mod_cast Iff.rfl

theorem sum_sq_eq_zero_iff (f : Int32 → ℚ) (xs : List Int32) :
    (xs.map fun x => f x ^ 2).sum = 0 ↔ ∀ x ∈ xs, f x = 0 := by
  induction xs with
  | nil => simp
  | cons a xs ih =>
    have hnonneg : 0 ≤ (xs.map fun x => f x ^ 2).sum := by
      refine List.sum_nonneg fun y hy => ?_
      obtain ⟨x, -, rfl⟩ := List.mem_map.mp hy
      exact sq_nonneg (f x)
    rw [List.map_cons, List.sum_cons, add_eq_zero_iff_of_nonneg (sq_nonneg _) hnonneg, ih,
      List.forall_mem_cons, sq_eq_zero_iff]

/-- While nothing overflows, the values are all the same. -/
theorem level_iff {xs : List Int32} (hxs : xs ≠ []) (hlen : xs.length < 2 ^ 31) :
    Level xs ↔ ∀ x ∈ xs, ∀ y ∈ xs, x = y := by
  have hpos := List.length_pos_iff.mpr hxs
  have hcount : (Int32.ofNat xs.length).toInt = xs.length := Int32.toInt_ofNat_of_lt hlen
  have hne : Int32.ofNat xs.length ≠ 0 := by
    rw [Ne, ← Int32.toInt_inj, hcount]
    show ¬ (xs.length : ℤ) = 0
    omega
  have hone : Int32.ofNat xs.length = 1 ↔ xs.length = 1 := by
    rw [← Int32.toInt_inj, hcount]
    show (xs.length : ℤ) = 1 ↔ _
    omega
  have hmean : keptMean xs = listMean xs := by
    unfold keptMean listMean
    rw [sum_multiplicity hlen, hcount]
    rfl
  rw [level_iff_deviation, hone, hmean, sum_multiplicity hlen, sum_multiplicity hlen,
    sum_deviation hxs, sq (0 : ℚ), zero_mul, zero_div, sum_sq_eq_zero_iff]
  constructor
  · rintro (h | ⟨-, h⟩) x hx y hy
    · obtain ⟨a, rfl⟩ := List.length_eq_one_iff.mp h
      rw [List.mem_singleton.mp hx, List.mem_singleton.mp hy]
    · have hsame : (x.toInt : ℚ) = y.toInt := by linarith [h x hx, h y hy]
      exact Int32.toInt_inj.mp (by exact_mod_cast hsame)
  · intro hall
    refine Or.inr ⟨hne, fun x hx => ?_⟩
    -- the deviations are all the same, and add up to 0
    have hconst : ∀ y ∈ xs, ((y.toInt : ℚ) - listMean xs) = x.toInt - listMean xs := by
      intro y hy
      rw [hall y hy x hx]
    have hsum := sum_deviation hxs
    rw [List.map_congr_left hconst, List.map_const', List.sum_replicate, nsmul_eq_mul] at hsum
    have hlength : (xs.length : ℚ) ≠ 0 := by exact_mod_cast hpos.ne'
    exact (mul_eq_zero.mp hsum).resolve_left hlength

theorem Represents.mean_keptMean {xs : List Int32} {b : Bucket} (h : Represents xs b)
    (hxs : xs ≠ []) (hcount : Int32.ofNat xs.length ≠ 0) : b.mean = some (keptMean xs) := by
  rw [h.mean_kept hxs]
  refine divide_of_ne_zero ?_
  rw [Ne, Int.cast_eq_zero]
  exact fun heq => hcount (Int32.toInt_inj.mp heq)

/-- The variance is 0 iff there is no deviation. -/
theorem Represents.variance_eq_zero_iff {xs : List Int32} {b : Bucket} (h : Represents xs b)
    (hxs : xs ≠ []) : b.variance = some 0 ↔ Level xs := by
  rw [level_iff_deviation]
  by_cases hone : Int32.ofNat xs.length = 1
  · exact iff_of_true (h.variance_one hone) (Or.inl hone)
  · rw [h.variance_kept hxs hone, or_iff_right hone]
    by_cases hcount : Int32.ofNat xs.length = 0
    · rw [h.mean_kept hxs, hcount]
      refine iff_of_false (fun hsome => ?_) fun hne => hne.1 rfl
      exact absurd hsome (Option.some_ne_none _).symm
    · have hpred : ((Int32.ofNat xs.length).toInt : ℚ) - 1 ≠ 0 := by
        rw [sub_ne_zero]
        intro heq
        exact hone (Int32.toInt_inj.mp (by exact_mod_cast heq))
      rw [h.mean_keptMean hxs hcount, Option.map_some, Option.some_inj, div_eq_zero_iff,
        or_iff_left hpred, sub_eq_zero]
      exact ⟨fun heq => ⟨hcount, heq⟩, And.right⟩

/-! ### What a line says -/

theorem Represents.stddev_congr {xs : List Int32} {b b' : Bucket} (h : Represents xs b)
    (h' : Represents xs b') : b'.stddev = b.stddev := by
  have hvariance : b'.variance = b.variance := by
    by_cases hxs : xs = []
    · unfold Bucket.variance
      rw [if_pos (h.noValues_iff.mpr hxs), if_pos (h'.noValues_iff.mpr hxs)]
    · by_cases hone : Int32.ofNat xs.length = 1
      · rw [h.variance_one hone, h'.variance_one hone]
      · rw [h.variance_kept hxs hone, h'.variance_kept hxs hone, h.mean_kept hxs,
          h'.mean_kept hxs]
  unfold Bucket.stddev
  rw [hvariance]

theorem stddev_nonneg {b : Bucket} {σ : ℝ} (hσ : b.stddev = some σ) : 0 ≤ σ := by
  unfold Bucket.stddev at hσ
  obtain ⟨v, -, hv⟩ := Option.bind_eq_some_iff.mp hσ
  split_ifs at hv
  obtain rfl := Option.some.inj hv
  exact Real.sqrt_nonneg _

theorem stddev_eq_zero_iff {b : Bucket} : b.stddev = some 0 ↔ b.variance = some 0 := by
  unfold Bucket.stddev
  cases b.variance with
  | none => exact iff_of_false (nofun) (nofun)
  | some v =>
    show (if v < 0 then none else some √(v : ℝ)) = _ ↔ _
    by_cases hv : v < 0
    · rw [if_pos hv, Option.some_inj]
      exact iff_of_false (nofun) hv.ne
    · rw [if_neg hv, Option.some_inj, Option.some_inj,
        Real.sqrt_eq_zero (by exact_mod_cast not_lt.mp hv)]
      exact Rat.cast_eq_zero

/-- The percentile, from the values. -/
def percentileOf (xs : List Int32) (p : ℚ) : ℚ :=
  if xs = [] then 0 else (pick xs (position xs p)).toInt

theorem Represents.percentile_pick {xs : List Int32} {b : Bucket} (h : Represents xs b) (p : ℚ) :
    ∃ b', b.percentile p = some (percentileOf xs p, b') ∧ Represents xs b' := by
  unfold percentileOf
  by_cases hxs : xs = []
  · exact ⟨b, by rw [if_pos hxs, h.percentile_nil hxs], h⟩
  · obtain ⟨b', hpercentile, hb', -⟩ := h.percentile_eq hxs p
    exact ⟨b', by rw [if_neg hxs, hpercentile], hb'⟩

/-- The median or the mean, from the values. -/
def centreOf (printer : GnuPlotPrinter) (xs : List Int32) : Option ℚ :=
  if printer.plotMedian then some (percentileOf xs 50)
  else if xs = [] then some 0
  else divide (xs.dedup.map fun d => (multiplicity xs d : ℚ) * d.toInt).sum
    (Int32.ofNat xs.length).toInt

section Lines

variable {printer : GnuPlotPrinter} {xs : List Int32} {b : Bucket} (h : Represents xs b)
include h

variable (printer) in
theorem Represents.medianOrMean : ∃ b', Represents xs b' ∧
    printer.medianOrMean b = (centreOf printer xs).map fun x => (x, b') := by
  unfold GnuPlotPrinter.medianOrMean centreOf
  by_cases hmedian : printer.plotMedian = true
  · obtain ⟨b', hpercentile, hb'⟩ := h.percentile_pick 50
    exact ⟨b', hb', by rw [if_pos hmedian, if_pos hmedian]; exact hpercentile⟩
  · refine ⟨b, h, ?_⟩
    rw [if_neg hmedian, if_neg hmedian]
    by_cases hxs : xs = []
    · unfold Bucket.mean
      rw [if_pos (h.noValues_iff.mpr hxs), if_pos hxs]
      rfl
    · rw [h.mean_kept hxs, if_neg hxs, Option.map_eq_bind]
      rfl

/-- In the modes with percentiles. -/
theorem Represents.percentileOrStddev_percentile (hmedian : printer.plotMedian = true)
    (hpercentile : printer.plotPercentile = true) (upperError : Bool) :
    ∃ b', Represents xs b' ∧ printer.percentileOrStddev b upperError = some
      ((percentileOf xs (if upperError then 100 - printer.percentile else printer.percentile) : ℝ),
        b') := by
  obtain ⟨b₁, hb₁, hcentre⟩ := h.medianOrMean printer
  obtain ⟨b₂, heq, hb₂⟩ := hb₁.percentile_pick
    (if upperError then 100 - printer.percentile else printer.percentile)
  refine ⟨b₂, hb₂, ?_⟩
  unfold GnuPlotPrinter.percentileOrStddev
  rw [hcentre]
  unfold centreOf
  rw [if_pos hmedian, hpercentile]
  cases upperError with
  | false =>
    show ((b₁.percentile printer.percentile).bind fun r => some ((r.1 : ℝ), r.2)) = _
    rw [show b₁.percentile printer.percentile = _ from heq]
    rfl
  | true =>
    show ((b₁.percentile (100 - printer.percentile)).bind fun r => some ((r.1 : ℝ), r.2)) = _
    rw [show b₁.percentile (100 - printer.percentile) = _ from heq]
    rfl

/-- In the modes with the standard deviation. -/
theorem Represents.percentileOrStddev_stddev (hpercentile : printer.plotPercentile = false)
    {b₀ : Bucket} (h₀ : Represents xs b₀) (upperError : Bool) :
    ∃ b', Represents xs b' ∧ printer.percentileOrStddev b upperError =
      (centreOf printer xs).bind fun x => b₀.stddev.map fun stddev : ℝ =>
        (if upperError then x - stddev else x + stddev, b') := by
  obtain ⟨b', hb', hcentre⟩ := h.medianOrMean printer
  refine ⟨b', hb', ?_⟩
  unfold GnuPlotPrinter.percentileOrStddev
  rw [hcentre, hpercentile, ← h₀.stddev_congr hb']
  cases centreOf printer xs with
  | none => rfl
  | some x =>
    show (b'.stddev.bind fun stddev => some _) = _
    rw [Option.bind_some, Option.map_eq_bind]
    rfl

theorem Represents.writeBucket_percentile (hplot : printer.diagramType = .ResponseTime)
    (hmedian : printer.plotMedian = true) (hpercentile : printer.plotPercentile = true)
    (t0 : Int64) : printer.writeBucket t0 b =
      some (.responseTime (GnuPlotPrinter.formatTime b.getTime t0) (percentileOf xs 50)
        (percentileOf xs printer.percentile) (percentileOf xs (100 - printer.percentile))) := by
  obtain ⟨b₁, hb₁, hcentre⟩ := h.medianOrMean printer
  obtain ⟨b₂, hb₂, hlow⟩ := hb₁.percentileOrStddev_percentile hmedian hpercentile false
  obtain ⟨b₃, -, hhigh⟩ := hb₂.percentileOrStddev_percentile hmedian hpercentile true
  unfold centreOf at hcentre
  rw [if_pos hmedian] at hcentre
  unfold GnuPlotPrinter.writeBucket
  rw [hplot]
  simp only [hcentre, Option.map_some, Option.bind_eq_bind, Option.bind_some, hlow, hhigh]
  rfl

theorem Represents.writeBucket_stddev (hplot : printer.diagramType = .ResponseTime)
    (hpercentile : printer.plotPercentile = false) (t0 : Int64) :
    printer.writeBucket t0 b = (centreOf printer xs).bind fun x => b.stddev.map fun stddev =>
      .responseTime (GnuPlotPrinter.formatTime b.getTime t0) x (x + stddev) (x - stddev) := by
  obtain ⟨b₁, hb₁, hcentre⟩ := h.medianOrMean printer
  obtain ⟨b₂, hb₂, hlow⟩ := hb₁.percentileOrStddev_stddev hpercentile h false
  obtain ⟨b₃, -, hhigh⟩ := hb₂.percentileOrStddev_stddev hpercentile h true
  unfold GnuPlotPrinter.writeBucket
  rw [hplot]
  simp only [hcentre]
  cases hc : centreOf printer xs with
  | none => rfl
  | some x =>
    simp only [hc, Option.bind_some] at hlow hhigh
    simp only [Option.map_some, Option.bind_eq_bind, Option.bind_some, hlow]
    cases hσ : b.stddev with
    | none => rfl
    | some stddev =>
      rw [hσ, Option.map_some] at hhigh
      simp only [Option.map_some, Option.bind_some, hhigh]
      rfl

end Lines

/-! ### The order of the percentiles -/

theorem narrow_mono {x y : ℤ} (hxy : x ≤ y) : narrow x ≤ narrow y := by
  rw [Int32.le_iff_toInt_le, toInt_narrow, toInt_narrow]
  omega

theorem percentileOf_le_iff {xs : List Int32} (hxs : xs ≠ []) {p p' : ℚ} :
    percentileOf xs p ≤ percentileOf xs p' ↔
      pick xs (position xs p) ≤ pick xs (position xs p') := by
  unfold percentileOf
  rw [if_neg hxs, if_neg hxs, Int32.le_iff_toInt_le]
  exact Int.cast_le

/-- Percentiles grow while `count + 1` is a number. -/
theorem percentileOf_mono {xs : List Int32} (hxs : xs ≠ [])
    (hcount : 0 ≤ (Int32.ofNat xs.length + 1).toInt) {p p' : ℚ} (hp : p ≤ p') :
    percentileOf xs p ≤ percentileOf xs p' := by
  refine (percentileOf_le_iff hxs).mpr (pick_mono hxs (narrow_mono (Int.floor_mono ?_)))
  have hcount' : (0 : ℚ) ≤ (Int32.ofNat xs.length + 1).toInt := by exact_mod_cast hcount
  exact div_le_div_of_nonneg_right (mul_le_mul_of_nonneg_right hp hcount') (by norm_num)

/-- With a negative `count + 1` they fall. -/
theorem percentileOf_anti {xs : List Int32} (hxs : xs ≠ [])
    (hcount : (Int32.ofNat xs.length + 1).toInt < 0) {p p' : ℚ} (hp : p ≤ p') :
    percentileOf xs p' ≤ percentileOf xs p := by
  refine (percentileOf_le_iff hxs).mpr (pick_mono hxs (narrow_mono (Int.floor_mono ?_)))
  have hcount' : ((Int32.ofNat xs.length + 1).toInt : ℚ) ≤ 0 := by exact_mod_cast hcount.le
  exact div_le_div_of_nonneg_right (mul_le_mul_of_nonpos_right hp hcount') (by norm_num)

/-- While the count is an `int`, its successor is a number or all percentiles are the minimum. -/
theorem percentileOf_mono_of_lt {xs : List Int32} (hxs : xs ≠ []) (hlen : xs.length < 2 ^ 31)
    {p p' : ℚ} (hzero : 0 ≤ p) (hp : p ≤ p') : percentileOf xs p ≤ percentileOf xs p' := by
  by_cases hlt : xs.length + 1 < 2 ^ 31
  · refine percentileOf_mono hxs ?_ hp
    rw [show (1 : Int32) = Int32.ofNat 1 from rfl, ← Int32.ofNat_add,
      Int32.toInt_ofNat_of_lt hlt]
    omega
  · have hlength : xs.length + 1 = 2 ^ 31 := by omega
    have hmin := pick_of_nonpos hxs hlen (toInt_position hlength hzero)
    exact (percentileOf_le_iff hxs).mpr (hmin _ (pick_mem hxs _))

/-- A value that is not the greatest one, and up to which there are `k'` but not `k`, comes behind
one up to which there are `k`. -/
def InOrder (xs : List Int32) (k k' : Int32) : Prop :=
  ∀ d ∈ xs, (∃ x ∈ xs, d < x) → k' ≤ upTo xs d → upTo xs d < k →
    ∃ e ∈ xs, e < d ∧ k ≤ upTo xs e

theorem inOrder_iff {xs : List Int32} {k k' : Int32} : InOrder xs k k' ↔
    ∀ d ∈ xs, Reached xs k' d → Reached xs k d ∨ ∀ x ∈ xs, x ≤ d := by
  constructor
  · rintro h d _ ⟨e, he, hed, hk'⟩
    refine or_iff_not_imp_right.mpr fun hmax => ?_
    simp only [not_forall, Int32.not_le] at hmax
    obtain ⟨x, hx, hdx⟩ := hmax
    by_cases hk : k ≤ upTo xs e
    · exact ⟨e, he, hed, hk⟩
    · obtain ⟨e', he', hlt, hk⟩ := h e he ⟨x, hx, Int32.lt_of_le_of_lt hed hdx⟩ hk'
        (Int32.not_le.mp hk)
      exact ⟨e', he', Int32.le_trans (Int32.le_of_lt hlt) hed, hk⟩
  · rintro h d hd ⟨x, hx, hdx⟩ hk' hk
    rcases h d hd ⟨d, hd, Int32.le_refl d, hk'⟩ with ⟨e, he, hed, hke⟩ | hmax
    · refine ⟨e, he, Int32.lt_of_le_of_ne hed ?_, hke⟩
      rintro rfl
      exact absurd hke (Int32.not_le.mpr hk)
    · exact absurd (hmax x hx) (Int32.not_le.mpr hdx)

/-- When the percentiles of an error bar are in order though they fall. -/
theorem percentileOf_le_of_anti_iff {xs : List Int32} (hxs : xs ≠ []) {p p' : ℚ} :
    percentileOf xs p ≤ percentileOf xs p' ↔ InOrder xs (position xs p) (position xs p') := by
  rw [inOrder_iff, percentileOf_le_iff hxs]
  constructor
  · intro hle d _ hd
    exact (pick_le_iff hxs).mp (Int32.le_trans hle ((pick_le_iff hxs).mpr (Or.inl hd)))
  · intro hreached
    refine (pick_le_iff hxs).mpr ?_
    rcases (pick_le_iff hxs).mp (Int32.le_refl (pick xs (position xs p'))) with hd | hmax
    · exact hreached _ (pick_mem hxs _) hd
    · exact Or.inr hmax

/-! ### When the error bars are in order -/

/-- The values of a bucket with an error bar in order. From `2 ^ 31` values on, counts overflow. -/
def Fine (printer : GnuPlotPrinter) (xs : List Int32) : Prop :=
  if xs.length < 2 ^ 31 then printer.plotPercentile = true ∨ ∀ x ∈ xs, ∀ y ∈ xs, x = y
  else if printer.plotPercentile then
    0 ≤ (Int32.ofNat xs.length + 1).toInt ∨
      InOrder xs (position xs printer.percentile) (position xs (100 - printer.percentile))
  else Level xs

section Ordered

variable {printer : GnuPlotPrinter} {xs : List Int32} {b : Bucket} {t0 : Int64}
  (h : Represents xs b) (hplot : printer.diagramType = .ResponseTime)
include h hplot

theorem Represents.ordered_percentile (hmedian : printer.plotMedian = true)
    (hpercentile : printer.plotPercentile = true) (hzero : 0 ≤ printer.percentile)
    (hhalf : printer.percentile ≤ 50) :
    (∃ r, printer.writeBucket t0 b = some r ∧ r.Ordered printer) ↔ Fine printer xs := by
  have hrecord : (∃ r, printer.writeBucket t0 b = some r ∧ r.Ordered printer) ↔
      percentileOf xs printer.percentile ≤ percentileOf xs (100 - printer.percentile) ∧
      percentileOf xs printer.percentile ≤ percentileOf xs 50 ∧
      percentileOf xs 50 ≤ percentileOf xs (100 - printer.percentile) := by
    rw [h.writeBucket_percentile hplot hmedian hpercentile]
    simp only [Option.some_inj, exists_eq_left', Record.Ordered, hmedian, hpercentile,
      true_implies, Rat.cast_le]
  rw [hrecord]
  unfold Fine
  by_cases hxs : xs = []
  · subst hxs
    rw [if_pos (by decide)]
    exact iff_of_true ⟨le_rfl, le_rfl, le_rfl⟩ (Or.inl hpercentile)
  by_cases hlen : xs.length < 2 ^ 31
  · rw [if_pos hlen]
    refine iff_of_true ⟨?_, ?_, ?_⟩ (Or.inl hpercentile)
    · exact percentileOf_mono_of_lt hxs hlen hzero (by linarith)
    · exact percentileOf_mono_of_lt hxs hlen hzero hhalf
    · exact percentileOf_mono_of_lt hxs hlen (by norm_num) (by linarith)
  · rw [if_neg hlen, if_pos hpercentile, ← percentileOf_le_of_anti_iff hxs]
    by_cases hcount : 0 ≤ (Int32.ofNat xs.length + 1).toInt
    · refine iff_of_true ⟨?_, ?_, ?_⟩ (Or.inl hcount)
      · exact percentileOf_mono hxs hcount (by linarith)
      · exact percentileOf_mono hxs hcount hhalf
      · exact percentileOf_mono hxs hcount (by linarith)
    · have hneg := not_le.mp hcount
      have hlow := percentileOf_anti hxs hneg hhalf
      have hhigh := percentileOf_anti hxs hneg
        (by linarith : (50 : ℚ) ≤ 100 - printer.percentile)
      rw [or_iff_right hcount]
      exact ⟨And.left, fun hle => ⟨hle, hle.trans hhigh, hlow.trans hle⟩⟩

theorem Represents.ordered_stddev (hpercentile : printer.plotPercentile = false) :
    (∃ r, printer.writeBucket t0 b = some r ∧ r.Ordered printer) ↔ Fine printer xs := by
  -- the lower end is above the upper one by twice the deviation
  have hrecord : (∃ r, printer.writeBucket t0 b = some r ∧ r.Ordered printer) ↔
      (∃ x, centreOf printer xs = some x) ∧ b.variance = some 0 := by
    rw [h.writeBucket_stddev hplot hpercentile, ← stddev_eq_zero_iff]
    constructor
    · rintro ⟨r, hr, hordered⟩
      obtain ⟨x, hx, hr⟩ := Option.bind_eq_some_iff.mp hr
      obtain ⟨σ, hσ, rfl⟩ := Option.map_eq_some_iff.mp hr
      have hnonneg := stddev_nonneg hσ
      have hle : (x : ℝ) + σ ≤ x - σ := hordered.1
      refine ⟨⟨x, hx⟩, ?_⟩
      rw [hσ, show σ = 0 by linarith]
    · rintro ⟨⟨x, hx⟩, hσ⟩
      refine ⟨.responseTime (GnuPlotPrinter.formatTime b.getTime t0) x (x + 0) (x - 0),
        by rw [hx, hσ]; rfl, ?_⟩
      rw [add_zero, sub_zero]
      exact ⟨le_rfl, fun _ => ⟨le_rfl, le_rfl⟩⟩
  rw [hrecord]
  unfold Fine
  rw [if_neg (by rw [hpercentile]; decide : ¬ printer.plotPercentile = true), hpercentile,
    or_iff_right Bool.false_ne_true]
  by_cases hxs : xs = []
  · subst hxs
    rw [if_pos (by decide)]
    refine iff_of_true ⟨?_, ?_⟩ fun x hx => absurd hx List.not_mem_nil
    · unfold centreOf
      split_ifs
      · exact ⟨_, rfl⟩
      · exact ⟨_, rfl⟩
      · exact absurd rfl ‹_›
    · unfold Bucket.variance
      rw [if_pos (h.noValues_iff.mpr rfl)]
      rfl
  · have hcentre : Level xs → ∃ x, centreOf printer xs = some x := by
      intro hlevel
      unfold centreOf
      by_cases hmedian : printer.plotMedian = true
      · exact ⟨_, if_pos hmedian⟩
      · have hne : ((Int32.ofNat xs.length).toInt : ℚ) ≠ 0 := by
          rw [Ne, Int.cast_eq_zero]
          intro hzero
          rcases hlevel with hone | ⟨hne, -⟩
          · exact absurd (hzero.symm.trans hone) zero_ne_one
          · exact hne hzero
        exact ⟨_, by rw [if_neg hmedian, if_neg hxs, divide_of_ne_zero hne]⟩
    rw [h.variance_eq_zero_iff hxs]
    have hboth : (∃ x, centreOf printer xs = some x) ∧ Level xs ↔ Level xs :=
      and_iff_right_of_imp hcentre
    rw [hboth]
    by_cases hlen : xs.length < 2 ^ 31
    · rw [if_pos hlen, level_iff hxs hlen]
    · rw [if_neg hlen]

end Ordered

/-- **The error bars are in order** iff, in the modes with the standard deviation, the values of
each bucket are all the same; while there are fewer than `2 ^ 31` values in each. -/
theorem ordered_iff {printer : GnuPlotPrinter} {t0 : Int64}
    {contents : List (Int64 × List Int32)} (hplot : printer.diagramType = .ResponseTime)
    (hmode : printer.plotPercentile = true → printer.plotMedian = true)
    (hzero : 0 ≤ printer.percentile) (hhalf : printer.percentile ≤ 50) :
    Ordered printer t0 (contents.map fun c => fill c.1 c.2) ↔
      ∀ c ∈ contents, Fine printer c.2 := by
  unfold Ordered GnuPlotPrinter.writeBuckets
  rw [Lib.Tables.exists_mapM_iff, List.forall_mem_map]
  refine forall₂_congr fun c _ => ?_
  by_cases hpercentile : printer.plotPercentile = true
  · exact (represents_fill c.1 c.2).ordered_percentile hplot (hmode hpercentile) hpercentile hzero
      hhalf
  · exact (represents_fill c.1 c.2).ordered_stddev hplot (Bool.eq_false_iff.mpr hpercentile)

/-- The median with percentiles. -/
def percentilePlot : GnuPlotPrinter :=
  { diagramType := .ResponseTime, plotMedian := true, plotPercentile := true, percentile := 5 }

theorem ordered_iff_percentiles :
    Ordered percentilePlot 0 ([((0 : Int64), [(10 : Int32), 25, 10])].map fun c => fill c.1 c.2) ↔
      ∀ c ∈ [((0 : Int64), [(10 : Int32), 25, 10])], Fine percentilePlot c.2 :=
  ordered_iff rfl (fun _ => rfl) (by norm_num [percentilePlot]) (by norm_num [percentilePlot])

/-- The mean with the standard deviation. -/
def stddevPlot : GnuPlotPrinter :=
  { diagramType := .ResponseTime, plotMedian := false, plotPercentile := false, percentile := 5 }

/-- The values 0 and 2 have the mean 1 and the deviation `√2`, and the line is `1 1+√2 1-√2`. -/
theorem swappedEnds_not_ordered : ¬ Ordered stddevPlot 0 [fill 0 [0, 2]] := by
  intro hordered
  unfold Ordered GnuPlotPrinter.writeBuckets at hordered
  rw [Lib.Tables.exists_mapM_iff] at hordered
  have hfine := ((represents_fill 0 [0, 2]).ordered_stddev rfl rfl).mp
    (hordered _ List.mem_cons_self)
  unfold Fine at hfine
  rw [if_pos (by simp)] at hfine
  rcases hfine with hpercentile | hequal
  · exact Bool.false_ne_true hpercentile
  · exact absurd (hequal 0 (by simp) 2 (by simp)) (by decide)

end Mlmq.Log
