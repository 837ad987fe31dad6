import Mlmq.Log.Bucket
import Mlmq.Log.HeaderInfo

/-! # The log analyzer

`getBuckets` reads the logs line by line and puts the duration of each line of a type, between a
start and an end time, into the bucket of its time. Buckets are created when a line needs them.

The buckets partition these lines, in whatever order they are read, iff no `int` of a multiplicity
overflows (`getBuckets_partition_iff`). -/

namespace Mlmq.Log

open Mlmq.Lib.Text Mlmq.Lib.Nio PerformanceLog

/-! ### The buckets -/

/-- The division by 0 is an `ArithmeticException`. -/
def getBucketPosition (line : LogLine) (startBucketPosition windowSize : Int64) :
    Except Throwable Int32 :=
  if windowSize = 0 then throw (.runtimeMessage "/ by zero")
  else
    let l := (line.timestamp - startBucketPosition) / windowSize
    let i := l.toInt32
    if i.toInt64 ≠ l then
      throw (.runtimeMessage ("Overflow: " ++ toString l.toInt ++ " cannot be converted to int"))
    else return i


namespace LogAnalizer

def getStartBucketTime (files : List File) : Except Throwable Int64 :=
  files.foldlM (fun minStartBucketTime file => do
    let x ← HeaderInfo.getStartBucketTime file
    return if minStartBucketTime > x then x else minStartBucketTime) Int64.maxValue

def getEndBucketTime (files : List File) : Int64 :=
  files.foldl (fun maxEndBucketTime file =>
    let x := HeaderInfo.getEndBucketTime file
    if maxEndBucketTime < x then x else maxEndBucketTime) Int64.minValue

/-- The loop that appends buckets up to `pos`. -/
def addBuckets (startBucketPosition windowSize : Int64) (pos : Int32) (b : List Bucket) :
    List Bucket :=
  if (b.length : ℤ) ≤ pos.toInt then
    addBuckets startBucketPosition windowSize pos
      (b ++ [Bucket.new (startBucketPosition + Int64.ofNat b.length * windowSize)])
  else b
termination_by (pos.toInt + 1 - b.length).toNat
decreasing_by
  rw [List.length_append, List.length_singleton]
  omega

def processLine (messageType : List Char) (b : List Bucket) (line : List Char)
    (startBucketPosition endBucketPosition windowSize : Int64) : Except Throwable (List Bucket) := do
  match ← parseLogLine (some line) with
  | none => return b
  | some l =>
    let t := l.timestamp
    if t < startBucketPosition ∨ t > endBucketPosition then return b
    else if messageType.isPrefixOf l.name = false then return b
    else
      let pos ← getBucketPosition l startBucketPosition windowSize
      let b := addBuckets startBucketPosition windowSize pos b
      -- there is no bucket at a negative position
      match if pos < 0 then none else b[pos.toInt.toNat]? with
      | none => throw (.runtimeMessage (toString pos.toInt))
      | some bucket =>
        return b.set pos.toInt.toNat ((bucket.addValue l.duration).addTimestamp l.timestamp)

def processLines (messageType : List Char) (windowSize : Int64) (b : List Bucket)
    (startBucketPosition endBucketPosition : Int64) (din : List (List Char)) :
    Except Throwable (List Bucket) :=
  din.foldlM (fun b line =>
    processLine messageType b line startBucketPosition endBucketPosition windowSize) b

def getBuckets (files : List File) (messageType : List Char)
    (windowSize startupCooldownTime : Int64) : Except Throwable (List Bucket) := do
  let startBucketPosition := (← getStartBucketTime files) + startupCooldownTime
  let endBucketPosition := getEndBucketTime files - startupCooldownTime
  files.foldlM (fun b file =>
    processLines messageType windowSize b startBucketPosition endBucketPosition
      (file.readLines.drop 1)) []

end LogAnalizer

/-! ### The lines of a type in the window -/

/-- What the parser makes of a line: nothing where it throws. -/
def parsed (line : List Char) : Option LogLine :=
  match parseLogLine (some line) with
  | .ok l => l
  | .error _ => none

/-- The lines behind the headers. -/
def linesOf (files : List File) : List (List Char) := files.flatMap fun file => file.readLines.drop 1

/-- The fields for duration and timestamp are numbers, where there are enough fields. -/
def Numeric (files : List File) : Prop :=
  ∀ line ∈ linesOf files, ∃ l, parseLogLine (some line) = .ok l

/-- A line of the type between start and end. -/
def Counts (messageType : List Char) (startBucketPosition endBucketPosition : Int64)
    (l : LogLine) : Prop :=
  (startBucketPosition ≤ l.timestamp ∧ l.timestamp ≤ endBucketPosition) ∧ messageType <+: l.name

instance (messageType : List Char) (startBucketPosition endBucketPosition : Int64) (l : LogLine) :
    Decidable (Counts messageType startBucketPosition endBucketPosition l) :=
  inferInstanceAs (Decidable (_ ∧ _))

/-- All of them. -/
def counted (messageType : List Char) (startBucketPosition endBucketPosition : Int64)
    (lines : List (List Char)) : List LogLine :=
  (lines.filterMap parsed).filter
    fun l => decide (Counts messageType startBucketPosition endBucketPosition l)

/-- The number of whole windows between the start and the timestamp. -/
def index (startBucketPosition windowSize : Int64) (l : LogLine) : ℕ :=
  ((l.timestamp.toInt - startBucketPosition.toInt) / windowSize.toInt).toNat

/-- The index is computed without an overflow, of the difference or of the quotient. -/
def Fits (startBucketPosition windowSize : Int64) (l : LogLine) : Prop :=
  l.timestamp.toInt - startBucketPosition.toInt < 2 ^ 63 ∧
    index startBucketPosition windowSize l < 2 ^ 31

/-- The durations for bucket `k`. -/
def durations (startBucketPosition windowSize : Int64) (ls : List LogLine) (k : ℕ) : List Int32 :=
  (ls.filter fun l => index startBucketPosition windowSize l = k).map LogLine.duration

/-! ### Times -/

section Times

variable {start windowSize : Int64} {l : LogLine}

/-- What stays in the range of `long`. -/
theorem toInt_add_mul {k : ℕ} (hle : start.toInt + k * windowSize.toInt < 2 ^ 63)
    (hpos : 0 < windowSize.toInt) :
    (start + Int64.ofNat k * windowSize).toInt = start.toInt + k * windowSize.toInt := by
  have hmin := start.le_toInt
  have hnonneg : 0 ≤ (k : ℤ) * windowSize.toInt := by positivity
  have heq : start + Int64.ofNat k * windowSize =
      Int64.ofInt (start.toInt + k * windowSize.toInt) := by
    rw [Int64.ofInt_add, Int64.ofInt_mul, Int64.ofInt_toInt, Int64.ofInt_toInt,
      Int64.ofInt_eq_ofNat]
  rw [heq, Int64.toInt_ofInt_of_le (by omega) hle]

/-- The bucket with the index starts no later than the line. -/
theorem index_mul_le (hpos : 0 < windowSize.toInt) (hstart : start.toInt ≤ l.timestamp.toInt) :
    start.toInt + index start windowSize l * windowSize.toInt ≤ l.timestamp.toInt := by
  have hnonneg : 0 ≤ (l.timestamp.toInt - start.toInt) / windowSize.toInt :=
    Int.ediv_nonneg (by omega) hpos.le
  have hmul := Int.ediv_mul_le (l.timestamp.toInt - start.toInt) hpos.ne'
  unfold index
  rw [Int.toNat_of_nonneg hnonneg]
  omega

/-- Without an overflow the position is the index. -/
theorem getBucketPosition_eq (hpos : 0 < windowSize.toInt)
    (hstart : start.toInt ≤ l.timestamp.toInt) (hfits : Fits start windowSize l) :
    getBucketPosition l start windowSize = .ok (Int32.ofNat (index start windowSize l)) := by
  obtain ⟨hsub, hindex⟩ := hfits
  have hdiff : (l.timestamp - start).toInt = l.timestamp.toInt - start.toInt := by
    rw [Int64.toInt_sub, Int.bmod_eq_of_le (by omega) (by omega)]
  have hdiv : ((l.timestamp - start) / windowSize).toInt = index start windowSize l := by
    have hnonneg : 0 ≤ (l.timestamp.toInt - start.toInt) / windowSize.toInt :=
      Int.ediv_nonneg (by omega) hpos.le
    have htoNat : (index start windowSize l : ℤ) =
        (l.timestamp.toInt - start.toInt) / windowSize.toInt := Int.toNat_of_nonneg hnonneg
    rw [Int64.toInt_div, hdiff, Int.tdiv_eq_ediv_of_nonneg (by omega), ← htoNat,
      Int.bmod_eq_of_le (by omega) (by omega)]
  have hquotient : (l.timestamp - start) / windowSize =
      Int64.ofNat (index start windowSize l) := by
    rw [← Int64.toInt_inj, hdiv, Int64.toInt_ofNat_of_lt (by omega)]
  have hne : windowSize ≠ 0 := by
    rintro rfl
    exact absurd hpos (by decide)
  unfold getBucketPosition
  rw [if_neg hne, hquotient]
  have hback : (Int64.ofNat (index start windowSize l)).toInt32.toInt64 =
      Int64.ofNat (index start windowSize l) := by
    rw [Int64.toInt32_ofNat', ← Int64.toInt_inj, Int32.toInt_toInt64,
      Int32.toInt_ofNat_of_lt hindex, Int64.toInt_ofNat_of_lt (by omega)]
  dsimp only
  rw [if_neg (not_not_intro hback), Int64.toInt32_ofNat']
  rfl

end Times

/-! ### The loop -/

/-- **The buckets hold the lines**: each line is in the bucket of its index, and there are no more
buckets than the last line needs. -/
structure Holds (start windowSize : Int64) (ls : List LogLine) (b : List Bucket) : Prop where
  lt : ∀ l ∈ ls, index start windowSize l < b.length
  last : b ≠ [] → ∃ l ∈ ls, index start windowSize l + 1 = b.length
  represents : ∀ (k : ℕ) bucket, b[k]? = some bucket →
    Represents (durations start windowSize ls k) bucket
  time : ∀ (k : ℕ) bucket, b[k]? = some bucket →
    bucket.startTimestamp.toInt = start.toInt + k * windowSize.toInt
  cache : ∀ bucket ∈ b, bucket.cachedDurations = none

variable {start endTime windowSize : Int64} {messageType : List Char}

theorem holds_nil : Holds start windowSize [] [] where
  lt _ h := absurd h List.not_mem_nil
  last h := absurd rfl h
  represents _ _ h := nomatch h
  time _ _ h := nomatch h
  cache _ h := absurd h List.not_mem_nil

theorem addBuckets_eq (pos : Int32) (b : List Bucket) :
    LogAnalizer.addBuckets start windowSize pos b =
      b ++ (List.range' b.length (pos.toInt + 1 - b.length).toNat).map
        fun i => Bucket.new (start + Int64.ofNat i * windowSize) := by
  fun_induction LogAnalizer.addBuckets start windowSize pos b with
  | case1 b hle ih =>
    obtain ⟨n, hn⟩ : ∃ n, (pos.toInt + 1 - b.length).toNat = n + 1 :=
      ⟨(pos.toInt - b.length).toNat, by omega⟩
    have hpred : (pos.toInt + 1 - (b.length + 1 : ℕ)).toNat = n := by omega
    rw [ih, List.length_append, List.length_singleton, hpred, hn, List.range'_succ, List.map_cons,
      List.append_assoc, List.singleton_append]
  | case2 b hlt =>
    rw [show (pos.toInt + 1 - b.length).toNat = 0 by omega]
    exact (List.append_nil b).symm

/-- Which lines are in a bucket, with one more line. -/
theorem durations_concat (ls : List LogLine) (l : LogLine) (k : ℕ) :
    durations start windowSize (ls ++ [l]) k = durations start windowSize ls k ++
      if index start windowSize l = k then [l.duration] else [] := by
  unfold durations
  rw [List.filter_append, List.map_append, List.filter_singleton]
  by_cases hk : index start windowSize l = k
  · rw [if_pos hk, decide_eq_true hk]
    rfl
  · rw [if_neg hk, decide_eq_false hk]
    rfl

/-- What a bucket is, once there are enough. -/
theorem Holds.addBuckets {ls : List LogLine} {b : List Bucket} (h : Holds start windowSize ls b)
    (hpos : 0 < windowSize.toInt) {k : ℕ} (hk : k < 2 ^ 31)
    (htime : start.toInt + k * windowSize.toInt < 2 ^ 63) :
    ∃ b', LogAnalizer.addBuckets start windowSize (Int32.ofNat k) b = b' ∧
      b'.length = max b.length (k + 1) ∧
      (∀ (j : ℕ) bucket, b'[j]? = some bucket → Represents (durations start windowSize ls j) bucket) ∧
      (∀ (j : ℕ) bucket, b'[j]? = some bucket →
        bucket.startTimestamp.toInt = start.toInt + j * windowSize.toInt) ∧
      ∀ bucket ∈ b', bucket.cachedDurations = none := by
  refine ⟨_, addBuckets_eq _ b, ?_, ?_, ?_, ?_⟩
  · rw [Int32.toInt_ofNat_of_lt hk, List.length_append, List.length_map, List.length_range']
    omega
  · intro j bucket hj
    rw [List.getElem?_append] at hj
    split_ifs at hj with hlt
    · exact h.represents j bucket hj
    · rw [List.getElem?_map] at hj
      obtain ⟨i, -, rfl⟩ := Option.map_eq_some_iff.mp hj
      -- no line has been in a new bucket
      have hnone : durations start windowSize ls j = [] := by
        unfold durations
        rw [List.map_eq_nil_iff, List.filter_eq_nil_iff]
        intro l hl
        have hlt' := h.lt l hl
        simp only [decide_eq_true_eq]
        omega
      rw [hnone]
      exact represents_new _
  · intro j bucket hj
    rw [List.getElem?_append] at hj
    split_ifs at hj with hlt
    · exact h.time j bucket hj
    · rw [List.getElem?_map] at hj
      obtain ⟨i, hi, rfl⟩ := Option.map_eq_some_iff.mp hj
      rw [Int32.toInt_ofNat_of_lt hk] at hi
      obtain ⟨hin, hi⟩ := List.getElem?_eq_some_iff.mp hi
      rw [List.length_range'] at hin
      rw [List.getElem_range', one_mul] at hi
      have hij : i = j := by omega
      have hjk : (j : ℤ) ≤ k := by omega
      subst hij
      refine toInt_add_mul ?_ hpos
      have hmul := Int.mul_le_mul_of_nonneg_right hjk hpos.le
      omega
  · intro bucket hbucket
    rcases List.mem_append.mp hbucket with hb | hnew
    · exact h.cache bucket hb
    · obtain ⟨i, -, rfl⟩ := List.mem_map.mp hnew
      rfl

/-- A line that does not count leaves the buckets as they are. -/
theorem processLine_skip {b : List Bucket} {line : List Char} {l : Option LogLine}
    (hparse : parseLogLine (some line) = .ok l)
    (hskip : ∀ l' ∈ l, ¬ Counts messageType start endTime l') :
    LogAnalizer.processLine messageType b line start endTime windowSize = .ok b := by
  unfold LogAnalizer.processLine
  rw [hparse]
  cases l with
  | none => rfl
  | some l =>
    have hnot := hskip l rfl
    show (if l.timestamp < start ∨ l.timestamp > endTime then Except.ok b else _) = _
    by_cases hwindow : l.timestamp < start ∨ l.timestamp > endTime
    · rw [if_pos hwindow]
    · rw [not_or, Int64.not_lt] at hwindow
      have hprefix : messageType.isPrefixOf l.name = false := by
        rw [← Bool.not_eq_true, List.isPrefixOf_iff_prefix]
        exact fun hname => hnot ⟨⟨hwindow.1, Int64.not_lt.mp hwindow.2⟩, hname⟩
      rw [if_neg (not_or.mpr ⟨Int64.not_lt.mpr hwindow.1, hwindow.2⟩), if_pos hprefix]
      rfl

/-- What the code does with a line that counts, once there are enough buckets. -/
theorem processLine_counts {b b' : List Bucket} {bucket : Bucket} {line : List Char} {l : LogLine}
    (hpos : 0 < windowSize.toInt) (hparse : parseLogLine (some line) = .ok (some l))
    (hcounts : Counts messageType start endTime l) (hfits : Fits start windowSize l) {k : ℕ}
    (hk : index start windowSize l = k)
    (hadd : LogAnalizer.addBuckets start windowSize (Int32.ofNat k) b = b')
    (hbucket : b'[k]? = some bucket) :
    LogAnalizer.processLine messageType b line start endTime windowSize =
      .ok (b'.set k ((bucket.addValue l.duration).addTimestamp l.timestamp)) := by
  obtain ⟨⟨hstart, hend⟩, hname⟩ := hcounts
  have hk31 : k < 2 ^ 31 := hk ▸ hfits.2
  have hnonneg : ¬ Int32.ofNat k < 0 := by
    rw [Int32.lt_iff_toInt_lt, Int32.toInt_ofNat_of_lt hk31]
    show ¬ (k : ℤ) < 0
    omega
  have hnat : (Int32.ofNat k).toInt.toNat = k := by
    rw [Int32.toInt_ofNat_of_lt hk31, Int.toNat_natCast]
  have hprefix : ¬ messageType.isPrefixOf l.name = false := by
    rw [Bool.not_eq_false, List.isPrefixOf_iff_prefix]
    exact hname
  unfold LogAnalizer.processLine
  rw [hparse]
  show (if l.timestamp < start ∨ l.timestamp > endTime then Except.ok b else _) = _
  rw [if_neg (not_or.mpr ⟨Int64.not_lt.mpr hstart, Int64.not_lt.mpr hend⟩), if_neg hprefix,
    getBucketPosition_eq hpos (Int64.le_iff_toInt_le.mp hstart) hfits, hk]
  show (match if Int32.ofNat k < 0 then none
    else (LogAnalizer.addBuckets start windowSize (Int32.ofNat k) b)[(Int32.ofNat k).toInt.toNat]?
    with | none => _ | some bucket => _) = _
  rw [if_neg hnonneg, hadd, hnat, hbucket]
  rfl

/-- **A line that counts goes into its bucket.** -/
theorem Holds.processLine {ls : List LogLine} {b : List Bucket} (h : Holds start windowSize ls b)
    (hpos : 0 < windowSize.toInt) {line : List Char} {l : LogLine}
    (hparse : parseLogLine (some line) = .ok (some l)) (hcounts : Counts messageType start endTime l)
    (hfits : Fits start windowSize l) :
    ∃ b', LogAnalizer.processLine messageType b line start endTime windowSize = .ok b' ∧
      Holds start windowSize (ls ++ [l]) b' := by
  have hindex := index_mul_le hpos (Int64.le_iff_toInt_le.mp hcounts.1.1)
  have hmax := l.timestamp.toInt_lt
  obtain ⟨k, hk⟩ : ∃ k, k = index start windowSize l := ⟨_, rfl⟩
  rw [← hk] at hindex
  obtain ⟨b', hadd, hlength, hrepresents, htime, hcache⟩ :=
    h.addBuckets hpos (hk ▸ hfits.2) (by omega)
  obtain ⟨bucket, hbucket⟩ : ∃ bucket, b'[k]? = some bucket :=
    ⟨b'[k], List.getElem?_eq_getElem (by omega)⟩
  refine ⟨_, processLine_counts hpos hparse hcounts hfits hk.symm hadd hbucket, ?_⟩
  -- the bucket does not start later than the line, and keeps its time
  have hmin : min bucket.startTimestamp l.timestamp = bucket.startTimestamp := by
    refine if_pos (Int64.le_iff_toInt_le.mpr ?_)
    rw [htime k bucket hbucket]
    exact hindex
  refine ⟨fun l' hl' => ?_, fun _ => ?_, fun j bucket' hj => ?_, fun j bucket' hj => ?_,
    fun bucket' hbucket' => ?_⟩
  · rw [List.length_set, hlength]
    rcases List.mem_append.mp hl' with hl' | hl'
    · have := h.lt l' hl'
      omega
    · rw [List.mem_singleton.mp hl', ← hk]
      omega
  · rw [List.length_set, hlength]
    by_cases hle : k + 1 ≤ b.length
    · have hne : b ≠ [] := by
        rintro rfl
        exact absurd hle (Nat.not_succ_le_zero k)
      obtain ⟨l', hl', heq⟩ := h.last hne
      exact ⟨l', List.mem_append_left _ hl', by omega⟩
    · exact ⟨l, by simp, by omega⟩
  · rw [durations_concat, ← hk]
    rw [List.getElem?_set] at hj
    split_ifs at hj with hkj
    · subst hkj
      obtain rfl := Option.some.inj hj
      rw [if_pos rfl]
      exact ((hrepresents k bucket hbucket).addValue l.duration).addTimestamp l.timestamp
    · rw [if_neg hkj, List.append_nil]
      exact hrepresents j bucket' hj
  · rw [List.getElem?_set] at hj
    split_ifs at hj with hkj
    · subst hkj
      obtain rfl := Option.some.inj hj
      show (min bucket.startTimestamp l.timestamp).toInt = _
      rw [hmin]
      exact htime k bucket hbucket
    · exact htime j bucket' hj
  · rcases List.mem_or_eq_of_mem_set hbucket' with hmem | rfl
    · exact hcache bucket' hmem
    · rfl

/-- The lines that count, with one more line. -/
theorem counted_cons {line : List Char} {l : Option LogLine}
    (hparse : parseLogLine (some line) = .ok l) (lines : List (List Char)) :
    counted messageType start endTime (line :: lines) =
      (l.toList.filter fun l => decide (Counts messageType start endTime l)) ++
        counted messageType start endTime lines := by
  have hparsed : parsed line = l := by
    unfold parsed
    rw [hparse]
  unfold counted
  cases l with
  | none => rw [List.filterMap_cons_none hparsed]; rfl
  | some l => rw [List.filterMap_cons_some hparsed, ← List.singleton_append, List.filter_append]; rfl

/-- **The loop over the lines.** -/
theorem Holds.processLines {ls : List LogLine} {b : List Bucket} (h : Holds start windowSize ls b)
    (hpos : 0 < windowSize.toInt) {lines : List (List Char)}
    (hnumeric : ∀ line ∈ lines, ∃ l, parseLogLine (some line) = .ok l)
    (hfits : ∀ l ∈ counted messageType start endTime lines, Fits start windowSize l) :
    ∃ b', LogAnalizer.processLines messageType windowSize b start endTime lines = .ok b' ∧
      Holds start windowSize (ls ++ counted messageType start endTime lines) b' := by
  induction lines generalizing ls b with
  | nil => exact ⟨b, rfl, by rwa [show counted messageType start endTime [] = [] from rfl,
      List.append_nil]⟩
  | cons line lines ih =>
    obtain ⟨⟨l, hparse⟩, hnumeric⟩ := List.forall_mem_cons.mp hnumeric
    rw [counted_cons hparse] at hfits ⊢
    obtain ⟨b', hline, hb'⟩ : ∃ b', LogAnalizer.processLine messageType b line start endTime
        windowSize = .ok b' ∧ Holds start windowSize
          (ls ++ l.toList.filter fun l => decide (Counts messageType start endTime l)) b' := by
      by_cases hskip : ∀ l' ∈ l, ¬ Counts messageType start endTime l'
      · refine ⟨b, processLine_skip hparse hskip, ?_⟩
        have hnone : (l.toList.filter fun l => decide (Counts messageType start endTime l)) = [] :=
          List.filter_eq_nil_iff.mpr fun l' hl' => by
            simpa using hskip l' (Option.mem_toList.mp hl')
        rwa [hnone, List.append_nil]
      · push Not at hskip
        obtain ⟨l', hl', hcounts⟩ := hskip
        obtain rfl := Option.mem_def.mp hl'
        have hself : ((some l').toList.filter
            fun l => decide (Counts messageType start endTime l)) = [l'] := by
          rw [Option.toList_some, List.filter_singleton, decide_eq_true hcounts]
          rfl
        rw [hself] at hfits ⊢
        exact h.processLine hpos hparse hcounts (hfits l' (by simp))
    obtain ⟨b'', hlines, hb''⟩ :=
      ih hb' hnumeric fun l' hl' => hfits l' (List.mem_append_right _ hl')
    refine ⟨b'', ?_, by rwa [List.append_assoc] at hb''⟩
    unfold LogAnalizer.processLines at hlines ⊢
    rw [List.foldlM_cons, hline]
    exact hlines

/-- All files are read as one. -/
theorem getBuckets_eq {files : List File} {start startupCooldownTime : Int64}
    (hstart : LogAnalizer.getStartBucketTime files = .ok start) :
    LogAnalizer.getBuckets files messageType windowSize startupCooldownTime =
      LogAnalizer.processLines messageType windowSize [] (start + startupCooldownTime)
        (LogAnalizer.getEndBucketTime files - startupCooldownTime) (linesOf files) := by
  have hfold : ∀ (s e : Int64) (b : List Bucket), files.foldlM (fun b file =>
      LogAnalizer.processLines messageType windowSize b s e (file.readLines.drop 1)) b =
        LogAnalizer.processLines messageType windowSize b s e (linesOf files) := by
    intro s e
    clear hstart
    induction files with
    | nil => exact fun b => rfl
    | cons file files ih =>
      intro b
      unfold LogAnalizer.processLines linesOf at ih ⊢
      rw [List.foldlM_cons, List.flatMap_cons, List.foldlM_append]
      exact bind_congr ih
  unfold LogAnalizer.getBuckets
  rw [hstart]
  exact hfold _ _ []

/-! ### The order of the files -/

/-- The start of each file can be read. -/
theorem exists_headerStart {files : List File} (hnumeric : Numeric files) {file : File}
    (hfile : file ∈ files) : ∃ x, HeaderInfo.getStartBucketTime file = .ok x := by
  unfold HeaderInfo.getStartBucketTime
  cases hline : file.readLines[1]? with
  | none => exact ⟨_, rfl⟩
  | some line =>
    have hmem : line ∈ linesOf files := by
      refine List.mem_flatMap.mpr ⟨file, hfile, ?_⟩
      refine List.mem_of_getElem? (i := 0) ?_
      rw [List.getElem?_drop]
      exact hline
    obtain ⟨l, hl⟩ := hnumeric line hmem
    dsimp only
    rw [hl]
    exact ⟨_, rfl⟩

/-- The smaller one of two starts. -/
def earlier (minStartBucketTime x : Int64) : Int64 :=
  if minStartBucketTime > x then x else minStartBucketTime

/-- The start of a file, where it can be read. -/
def headerStart (file : File) : Int64 :=
  (HeaderInfo.getStartBucketTime file).toOption.getD Int64.maxValue

theorem getStartBucketTime_eq {files : List File} (hnumeric : Numeric files) :
    LogAnalizer.getStartBucketTime files =
      .ok (files.foldl (fun m file => earlier m (headerStart file)) Int64.maxValue) := by
  have hfold : ∀ (fs : List File) (m : Int64),
      (∀ file ∈ fs, ∃ x, HeaderInfo.getStartBucketTime file = .ok x) →
      fs.foldlM (fun minStartBucketTime file => do
        let x ← HeaderInfo.getStartBucketTime file
        return if minStartBucketTime > x then x else minStartBucketTime) m =
        Except.ok (ε := Throwable) (fs.foldl (fun m file => earlier m (headerStart file)) m) := by
    intro fs
    induction fs with
    | nil => exact fun m _ => rfl
    | cons file fs ih =>
      intro m hread
      obtain ⟨⟨x, hx⟩, hrest⟩ := List.forall_mem_cons.mp hread
      have hstart : headerStart file = x := by
        unfold headerStart
        rw [hx]
        rfl
      rw [List.foldlM_cons, List.foldl_cons, hx, hstart]
      exact ih _ hrest
  exact hfold files _ fun file hfile => exists_headerStart hnumeric hfile

theorem foldl_earlier_perm {files files' : List File} (hperm : files'.Perm files) (m : Int64) :
    files'.foldl (fun m file => earlier m (headerStart file)) m =
      files.foldl (fun m file => earlier m (headerStart file)) m := by
  refine hperm.foldl_eq' (fun x _ y _ z => ?_) m
  unfold earlier
  simp only [gt_iff_lt, ← Int64.toInt_inj, Int64.lt_iff_toInt_lt]
  split_ifs <;> omega

theorem getEndBucketTime_perm {files files' : List File} (hperm : files'.Perm files) :
    LogAnalizer.getEndBucketTime files' = LogAnalizer.getEndBucketTime files := by
  refine hperm.foldl_eq' (fun x _ y _ z => ?_) _
  simp only [← Int64.toInt_inj, Int64.lt_iff_toInt_lt]
  split_ifs <;> omega

theorem Numeric.perm {files files' : List File} (hnumeric : Numeric files)
    (hperm : files'.Perm files) : Numeric files' := fun line hline =>
  hnumeric line ((hperm.flatMap_right _).subset hline)

/-! ### What is to hold -/

/-- How often a bucket has a duration. -/
def Bucket.multiplicity (b : Bucket) (d : Int32) : ℤ := ((b.values.lookup d).map Int32.toInt).getD 0

/-- **The buckets partition the lines**: there are as many as the largest index needs, each has the
durations of the lines with its index and the time at which its window starts. -/
structure Partition (start windowSize : Int64) (ls : List LogLine) (b : List Bucket) : Prop where
  length : b.length = ((ls.map fun l => index start windowSize l + 1).max?).getD 0
  multiplicity : ∀ (k : ℕ) bucket, b[k]? = some bucket →
    ∀ d, bucket.multiplicity d = (durations start windowSize ls k).count d
  time : ∀ (k : ℕ) bucket, b[k]? = some bucket →
    bucket.getTime.toInt = start.toInt + k * windowSize.toInt

/-- Two buckets are the same but for the order of the keys in the map. -/
def Bucket.Same (b b' : Bucket) : Prop :=
  (∀ d, b.values.lookup d = b'.values.lookup d) ∧ b.startTimestamp = b'.startTimestamp ∧
    b.cachedDurations = b'.cachedDurations

/-- `getBuckets` partitions the lines that count, and in whatever order the files have been added or
the lines are read, the result is the same. -/
def Partitions (files : List File) (messageType : List Char)
    (start windowSize startupCooldownTime : Int64) : Prop :=
  let endTime := LogAnalizer.getEndBucketTime files - startupCooldownTime
  ∃ b, LogAnalizer.getBuckets files messageType windowSize startupCooldownTime = .ok b ∧
    Partition (start + startupCooldownTime) windowSize
      (counted messageType (start + startupCooldownTime) endTime (linesOf files)) b ∧
    (∀ files' : List File, files'.Perm files → ∃ b',
      LogAnalizer.getBuckets files' messageType windowSize startupCooldownTime = .ok b' ∧
        List.Forall₂ Bucket.Same b b') ∧
    ∀ lines, lines.Perm (linesOf files) → ∃ b',
      LogAnalizer.processLines messageType windowSize [] (start + startupCooldownTime) endTime
        lines = .ok b' ∧ List.Forall₂ Bucket.Same b b'

/-- No duration is so often in a bucket that its `int` overflows. -/
def Countable (start windowSize : Int64) (ls : List LogLine) : Prop :=
  ∀ k d, (durations start windowSize ls k).count d < 2 ^ 31

/-! ### The partition -/

theorem Holds.length_eq {ls : List LogLine} {b : List Bucket} (h : Holds start windowSize ls b) :
    b.length = ((ls.map fun l => index start windowSize l + 1).max?).getD 0 := by
  by_cases hb : b = []
  · subst hb
    have hls : ls = [] := List.eq_nil_iff_forall_not_mem.mpr fun l hl =>
      absurd (h.lt l hl) (Nat.not_lt_zero _)
    rw [hls]
    rfl
  · obtain ⟨l, hl, hlast⟩ := h.last hb
    have hmax : (ls.map fun l => index start windowSize l + 1).max? = some b.length := by
      rw [List.max?_eq_some_iff]
      refine ⟨List.mem_map.mpr ⟨l, hl, hlast⟩, fun n hn => ?_⟩
      obtain ⟨l', hl', rfl⟩ := List.mem_map.mp hn
      exact h.lt l' hl'
    rw [hmax]
    rfl

theorem durations_perm {ls ls' : List LogLine} (hperm : ls'.Perm ls) (k : ℕ) :
    (durations start windowSize ls' k).Perm (durations start windowSize ls k) :=
  (hperm.filter _).map _

/-- What the buckets hold does not depend on the order. -/
theorem Holds.same {ls ls' : List LogLine} {b b' : List Bucket} (h : Holds start windowSize ls b)
    (h' : Holds start windowSize ls' b') (hperm : ls'.Perm ls) : List.Forall₂ Bucket.Same b b' := by
  have hlength : b.length = b'.length := by
    apply le_antisymm
    · by_contra hlt
      obtain ⟨l, hl, hlast⟩ := h.last (List.ne_nil_of_length_pos (by omega))
      have := h'.lt l (hperm.mem_iff.mpr hl)
      omega
    · by_contra hlt
      obtain ⟨l, hl, hlast⟩ := h'.last (List.ne_nil_of_length_pos (by omega))
      have := h.lt l (hperm.mem_iff.mp hl)
      omega
  rw [List.forall₂_iff_get]
  refine ⟨hlength, fun k hk hk' => ?_⟩
  have hget := List.getElem?_eq_getElem hk
  have hget' := List.getElem?_eq_getElem hk'
  rw [List.get_eq_getElem, List.get_eq_getElem]
  refine ⟨fun d => ?_, ?_, ?_⟩
  · have hdurations : (durations start windowSize ls' k).Perm (durations start windowSize ls k) :=
      durations_perm hperm k
    rw [(h.represents k _ hget).lookup, (h'.represents k _ hget').lookup, hdurations.count_eq d,
      if_congr hdurations.mem_iff rfl rfl]
  · rw [← Int64.toInt_inj]
    exact (h.time k _ hget).trans (h'.time k _ hget').symm
  · exact (h.cache _ (List.getElem_mem hk)).trans (h'.cache _ (List.getElem_mem hk')).symm

theorem Represents.multiplicity_eq {xs : List Int32} {b : Bucket} (h : Represents xs b)
    {d : Int32} (hcount : xs.count d < 2 ^ 31) : b.multiplicity d = xs.count d := by
  unfold Bucket.multiplicity
  rw [h.lookup]
  by_cases hd : d ∈ xs
  · rw [if_pos hd]
    exact Int32.toInt_ofNat_of_lt hcount
  · rw [if_neg hd, List.count_eq_zero_of_not_mem hd]
    rfl

/-- An `int` counts less than `2 ^ 31`. -/
theorem Partition.countable {ls : List LogLine} {b : List Bucket}
    (h : Partition start windowSize ls b) : Countable start windowSize ls := by
  intro k d
  by_contra hnot
  have hmem : d ∈ durations start windowSize ls k := List.count_pos_iff.mp (by omega)
  obtain ⟨l, hl, -⟩ := List.mem_map.mp hmem
  obtain ⟨hl, hk⟩ := List.mem_filter.mp hl
  have hindex : index start windowSize l + 1 ∈ ls.map fun l => index start windowSize l + 1 :=
    List.mem_map_of_mem hl
  obtain ⟨n, hn⟩ := Option.isSome_iff_exists.mp
    (List.isSome_max?_of_ne_nil (List.ne_nil_of_mem hindex))
  have hlength := h.length
  rw [hn] at hlength
  have hlt : k < b.length := by
    have hle := (List.max?_eq_some_iff.mp hn).2 _ hindex
    have hk := of_decide_eq_true hk
    rw [hlength]
    exact hk ▸ hle
  have hmultiplicity := h.multiplicity k _ (List.getElem?_eq_getElem hlt) d
  have hmax : (b[k].multiplicity d) < 2 ^ 31 := by
    unfold Bucket.multiplicity
    cases b[k].values.lookup d with
    | none => norm_num
    | some n => exact n.toInt_lt
  omega

theorem Holds.partition_iff {ls : List LogLine} {b : List Bucket}
    (h : Holds start windowSize ls b) :
    Partition start windowSize ls b ↔ Countable start windowSize ls := by
  refine ⟨Partition.countable, fun hcount => ⟨h.length_eq, fun k bucket hget d => ?_, h.time⟩⟩
  exact (h.represents k bucket hget).multiplicity_eq (hcount k d)

/-- **The buckets partition the lines that count**, in any order, iff no multiplicity overflows. -/
theorem getBuckets_partition_iff {files : List File} {messageType : List Char}
    {start windowSize startupCooldownTime : Int64} (hnumeric : Numeric files)
    (hwindow : 0 < windowSize) (hstart : LogAnalizer.getStartBucketTime files = .ok start)
    (hfits : ∀ l ∈ counted messageType (start + startupCooldownTime)
      (LogAnalizer.getEndBucketTime files - startupCooldownTime) (linesOf files),
      Fits (start + startupCooldownTime) windowSize l) :
    Partitions files messageType start windowSize startupCooldownTime ↔
      Countable (start + startupCooldownTime) windowSize
        (counted messageType (start + startupCooldownTime)
          (LogAnalizer.getEndBucketTime files - startupCooldownTime) (linesOf files)) := by
  have hpos : 0 < windowSize.toInt := Int64.lt_iff_toInt_lt.mp hwindow
  -- any order of the lines
  have hlines : ∀ lines : List (List Char), lines.Perm (linesOf files) →
      ∃ b, LogAnalizer.processLines messageType windowSize [] (start + startupCooldownTime)
        (LogAnalizer.getEndBucketTime files - startupCooldownTime) lines = .ok b ∧
        Holds (start + startupCooldownTime) windowSize (counted messageType
          (start + startupCooldownTime) (LogAnalizer.getEndBucketTime files - startupCooldownTime)
          lines) b := by
    intro lines hperm
    have hcounted := (hperm.filterMap parsed).filter fun l => decide (Counts messageType
      (start + startupCooldownTime) (LogAnalizer.getEndBucketTime files - startupCooldownTime) l)
    exact holds_nil.processLines hpos (fun line hline => hnumeric line (hperm.subset hline))
      fun l hl => hfits l (hcounted.subset hl)
  obtain ⟨b, hb, hholds⟩ := hlines (linesOf files) (List.Perm.refl _)
  have hbuckets := (getBuckets_eq hstart).trans hb
  rw [← hholds.partition_iff]
  constructor
  · rintro ⟨b', hb', hpartition, -⟩
    obtain rfl := Except.ok.inj (hbuckets.symm.trans hb')
    exact hpartition
  · intro hpartition
    refine ⟨b, hbuckets, hpartition, fun files' hperm => ?_, fun lines hperm => ?_⟩
    · have hstart' : LogAnalizer.getStartBucketTime files' = .ok start := by
        rw [getStartBucketTime_eq (hnumeric.perm hperm), foldl_earlier_perm hperm,
          ← getStartBucketTime_eq hnumeric]
        exact hstart
      have hlinesPerm : (linesOf files').Perm (linesOf files) := hperm.flatMap_right _
      obtain ⟨b', hb', hholds'⟩ := hlines (linesOf files') hlinesPerm
      refine ⟨b', ?_, hholds.same hholds' ((hlinesPerm.filterMap _).filter _)⟩
      rw [getBuckets_eq hstart', getEndBucketTime_perm hperm]
      exact hb'
    · obtain ⟨b', hb', hholds'⟩ := hlines lines hperm
      exact ⟨b', hb', hholds.same hholds' ((hperm.filterMap _).filter _)⟩

/-! ### Equal lines -/

/-- A log with `n` equal lines. -/
def sameLines (n : ℕ) : File := File.ofLines (['B'] :: List.replicate n (lineOf 7 5 ['A']))

theorem parse_sameLine : parseLogLine (some (lineOf 7 5 ['A'])) = .ok (some ⟨7, 5, ['A'], []⟩) :=
  parseLogLine_lineOf (by decide) (by decide) 7 5

theorem readLines_sameLines (n : ℕ) :
    (sameLines n).readLines = ['B'] :: List.replicate n (lineOf 7 5 ['A']) := by
  refine readLines_ofLines (List.forall_mem_cons.mpr ⟨by decide, fun line hline => ?_⟩)
  rw [List.eq_of_mem_replicate hline]
  exact noLineEnd_lineOf (by decide) 7 5

theorem linesOf_sameLines (n : ℕ) :
    linesOf [sameLines n] = List.replicate n (lineOf 7 5 ['A']) := by
  unfold linesOf
  rw [List.flatMap_singleton, readLines_sameLines]
  rfl

theorem numeric_sameLines (n : ℕ) : Numeric [sameLines n] := by
  intro line hline
  rw [linesOf_sameLines] at hline
  rw [List.eq_of_mem_replicate hline]
  exact ⟨_, parse_sameLine⟩

theorem getStartBucketTime_sameLines (n : ℕ) :
    LogAnalizer.getStartBucketTime [sameLines (n + 1)] = .ok 5 := by
  have hline : (sameLines (n + 1)).readLines[1]? = some (lineOf 7 5 ['A']) := by
    rw [readLines_sameLines]
    rfl
  have hstart : HeaderInfo.getStartBucketTime (sameLines (n + 1)) = .ok 5 := by
    unfold HeaderInfo.getStartBucketTime
    rw [hline]
    dsimp only
    rw [parse_sameLine]
    rfl
  unfold LogAnalizer.getStartBucketTime
  rw [List.foldlM_cons, hstart]
  rfl

theorem getEndBucketTime_sameLines (n : ℕ) :
    LogAnalizer.getEndBucketTime [sameLines (n + 1)] = 5 := by
  have hlines : sameLines (n + 1) = File.ofLines (['B'] :: List.replicate n (lineOf 7 5 ['A'])) ++
      ((lineOf 7 5 ['A']).flatMap String.utf8EncodeChar ++ [10]) := by
    unfold sameLines
    rw [List.replicate_succ', ← List.cons_append, ofLines_concat]
  have hend : HeaderInfo.getEndBucketTime (sameLines (n + 1)) = 5 := by
    rw [hlines, HeaderInfo.getEndBucketTime_append_newline (lineStart_ofLines _)
      (oneLine_encode (noLineEnd_lineOf (by decide) 7 5)) (by decide),
      Lib.Utf8.decode_flatMap]
    unfold HeaderInfo.endTimeOf
    rw [parse_sameLine]
  unfold LogAnalizer.getEndBucketTime
  rw [List.foldl_cons, hend]
  rfl

theorem counted_sameLines (n : ℕ) :
    counted ['A'] (5 + 0) (5 - 0) (List.replicate n (lineOf 7 5 ['A'])) =
      List.replicate n ⟨7, 5, ['A'], []⟩ := by
  induction n with
  | zero => rfl
  | succ n ih =>
    rw [List.replicate_succ, counted_cons parse_sameLine, ih]
    rfl

theorem durations_sameLines (n : ℕ) :
    durations (5 + 0) 60000 (List.replicate n ⟨7, 5, ['A'], []⟩) 0 = List.replicate n 7 := by
  unfold durations
  rw [List.filter_eq_self.mpr, List.map_replicate]
  intro l hl
  rw [List.eq_of_mem_replicate hl]
  rfl

theorem getBuckets_partition_two : Partitions [sameLines 2] ['A'] 5 60000 0 := by
  refine (getBuckets_partition_iff (numeric_sameLines 2) (by decide)
    (getStartBucketTime_sameLines 1) fun l hl => ?_).mpr fun k d => ?_
  · rw [getEndBucketTime_sameLines, linesOf_sameLines, counted_sameLines] at hl
    rw [List.eq_of_mem_replicate hl]
    exact ⟨by decide, by decide⟩
  · refine List.count_le_length.trans_lt ?_
    rw [getEndBucketTime_sameLines, linesOf_sameLines, counted_sameLines]
    unfold durations
    rw [List.length_map]
    exact (List.length_filter_le _ _).trans_lt (by norm_num)

/-- With `2 ^ 31` equal lines the multiplicity is negative. -/
theorem sameLines_not_partitions : ¬ Partitions [sameLines (2 ^ 31)] ['A'] 5 60000 0 := by
  rintro ⟨b, -, hpartition, -⟩
  have hcount := hpartition.countable 0 7
  rw [show 2 ^ 31 = 2147483647 + 1 from rfl, getEndBucketTime_sameLines, linesOf_sameLines,
    counted_sameLines, durations_sameLines, List.count_replicate_self] at hcount
  omega

end Mlmq.Log
