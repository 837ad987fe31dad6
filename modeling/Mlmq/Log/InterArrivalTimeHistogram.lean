import Mlmq.Log.HeaderInfo

/-! # The histogram of inter-arrival times

`InterArrivalTimeHistogram` counts, in an array with a place for each number of milliseconds below
10000, the time between each line of a type and the one before it. The time is narrowed to an `int`
and is the index, whatever it is; a line before the first one is assumed at `Long.MAX_VALUE`.

So the program reads a log to its end and counts each pair of lines iff the times between them fit,
modulo `2 ^ 32` (`sumsUp_iff`). -/

namespace Mlmq.Log

open Mlmq.Lib.Text Mlmq.Lib.Nio PerformanceLog

namespace InterArrivalTimeHistogram

def messageType : List Char := "BTotReqResp".toList

/-- `histogramData[i]++`. -/
def increment (histogramData : List Int32) (i : Int32) : Except Throwable (List Int32) :=
  match if i < 0 then none else histogramData[i.toInt.toNat]? with
  | none => throw (.runtimeMessage (toString i.toInt))
  | some n => return histogramData.set i.toInt.toNat (n + 1)

/-- The body of the loop over the lines. A line without enough fields is no object. -/
def readLine (state : List Int32 × Int64) (line : List Char) :
    Except Throwable (List Int32 × Int64) := do
  let (histogramData, lastTimestamp) := state
  match ← parseLogLine (some line) with
  | none => throw .nullPointer
  | some l =>
    let timestamp := l.timestamp
    let name := l.name
    if messageType = name then
      let interArrival := timestamp - lastTimestamp
      let lastTimestamp := timestamp
      if interArrival ≥ 0 then
        let interrArrivalInt := interArrival.toInt32
        return (← increment histogramData interrArrivalInt, lastTimestamp)
      else return (histogramData, lastTimestamp)
    else return (histogramData, lastTimestamp)

/-- The body of the loop over the files. An empty file has no header, and `null` no methods. -/
def readFile (histogramData : List Int32) (file : File) : Except Throwable (List Int32) :=
  match file.readLines with
  | [] => throw .nullPointer
  | header :: lines =>
    if "BrokerConfiguration".toList.isPrefixOf header = false then return histogramData
    else do
      let (histogramData, _) ← lines.foldlM readLine (histogramData, Int64.maxValue)
      return histogramData

/-- The histogram that is written. -/
def main (files : List File) : Except Throwable (List Int32) :=
  files.foldlM readFile (List.replicate 10000 0)

end InterArrivalTimeHistogram

/-! ### The logs of a broker -/

/-- What a broker logs: after 1970, and without the message of an exception, or with one that is
plain. -/
structure Entry where
  executionTime : Int64
  time : Int64
  event : EventType
  time_nonneg : 0 ≤ time
  plain : ∀ message ∈ event.message, Plain message.toList

/-- The duration fits in an `int`. -/
def Entry.Short (e : Entry) : Prop :=
  -2 ^ 31 ≤ e.executionTime.toInt ∧ e.executionTime.toInt < 2 ^ 31

/-- A log: the header, and the lines that the logger writes. -/
def brokerLog (header : List Char) (entries : List Entry) : File :=
  (header ++ '\n' :: entries.flatMap fun e =>
    logMessage e.executionTime e.time e.event.text.toList []).flatMap String.utf8EncodeChar

/-- The times of the lines of the type. -/
def times (entries : List Entry) : List Int64 :=
  (entries.filter fun e => e.event.text.toList = InterArrivalTimeHistogram.messageType).map
    Entry.time

/-- The pairs of consecutive times that do not decrease. -/
def arrivals (ts : List Int64) : List (Int64 × Int64) := (ts.zip ts.tail).filter fun p => p.1 ≤ p.2

/-- **The histogram sums up**: the log is read to its end, and there are as many entries as pairs of
consecutive lines of the type whose timestamps do not decrease. -/
def SumsUp (file : File) (entries : List Entry) : Prop :=
  ∃ histogramData, InterArrivalTimeHistogram.main [file] = .ok histogramData ∧
    (histogramData.map Int32.toInt).sum = (arrivals (times entries)).length

/-- The time between two lines, as far as it is left in an `int`. -/
def between (p : Int64 × Int64) : ℕ := ((p.2.toInt - p.1.toInt) % 2 ^ 32).toNat

/-- The durations are `int`s, the first line of the type is not at `Long.MAX_VALUE`, the times
between the lines have a place each, and none has `2 ^ 31` of them. -/
structure Fitting (entries : List Entry) : Prop where
  duration : ∀ e ∈ entries, e.Short
  first : (times entries).head? ≠ some Int64.maxValue
  place : ∀ p ∈ arrivals (times entries), between p < 10000
  count : ∀ k, ((arrivals (times entries)).map between).count k < 2 ^ 31

/-! ### The lines -/

/-- The line of an entry. -/
def Entry.line (e : Entry) : List Char :=
  lineOf e.executionTime.toInt e.time.toInt e.event.text.toList

theorem Entry.plain_type (e : Entry) : Plain e.event.text.toList :=
  e.event.plain_text_iff.mpr e.plain

theorem Entry.type_ne_nil (e : Entry) : e.event.text.toList ≠ [] := fun h =>
  e.event.text_ne_empty (String.toList_eq_nil_iff.mp h)

theorem readLines_brokerLog {header : List Char} (hheader : NoLineEnd header)
    (entries : List Entry) :
    (brokerLog header entries).readLines = header :: entries.map Entry.line := by
  have hlines : ∀ line ∈ entries.map Entry.line, NoLineEnd line := by
    intro line hline
    obtain ⟨e, -, rfl⟩ := List.mem_map.mp hline
    exact noLineEnd_lineOf e.plain_type _ _
  have hmessages : (entries.flatMap fun e =>
      logMessage e.executionTime e.time e.event.text.toList []) =
      (entries.map Entry.line).flatMap (fun line => line ++ ['\n']) ++ [] := by
    rw [List.append_nil, List.flatMap_map]
    simp only [logMessage_eq]
    rfl
  unfold File.readLines brokerLog
  rw [Lib.Utf8.decode_flatMap, readLines_append hheader, hmessages,
    readLines_flatMap_append hlines]
  exact congrArg (header :: ·) (List.append_nil _)

theorem Entry.parse_short {e : Entry} (h : e.Short) : parseLogLine (some e.line) =
    .ok (some ⟨Int32.ofInt e.executionTime.toInt, e.time, e.event.text.toList, []⟩) := by
  have hparse := parseLogLine_lineOf e.plain_type e.type_ne_nil
    (Int32.ofInt e.executionTime.toInt) e.time
  rwa [Int32.toInt_ofInt_of_le h.1 h.2] at hparse

/-- `Integer.parseInt` throws. -/
theorem Entry.parse_long {e : Entry} (h : ¬ e.Short) :
    parseLogLine (some e.line) = .error .illegalArgument := by
  have hparse : parseInt (showInt e.executionTime.toInt) = .error .illegalArgument := by
    unfold parseInt parseBetween
    rw [parseInteger_showInt]
    dsimp only
    rw [if_neg fun hrange => h ⟨hrange.1, by omega⟩]
    rfl
  unfold parseLogLine
  simp only [Entry.line, split_lineOf e.plain_type e.type_ne_nil, hparse]
  rfl

/-! ### The loop -/

/-- The indices that are counted. -/
def bins : Int64 → List Int64 → List Int32
  | _, [] => []
  | lastTimestamp, t :: ts =>
    if t - lastTimestamp ≥ 0 then (t - lastTimestamp).toInt32 :: bins t ts else bins t ts

open InterArrivalTimeHistogram

/-- One line, if its duration is short. -/
theorem Entry.readLine_short {e : Entry} (h : e.Short) (histogramData : List Int32)
    (lastTimestamp : Int64) : readLine (histogramData, lastTimestamp) e.line =
      if e.event.text.toList = messageType then
        if e.time - lastTimestamp ≥ 0 then
          (increment histogramData (e.time - lastTimestamp).toInt32).map fun h => (h, e.time)
        else .ok (histogramData, e.time)
      else .ok (histogramData, lastTimestamp) := by
  unfold readLine
  rw [e.parse_short h]
  show (if messageType = e.event.text.toList then _ else _) = _
  rw [if_congr eq_comm rfl rfl]
  split_ifs
  · show (increment histogramData (e.time - lastTimestamp).toInt32 >>= fun h => pure (h, e.time)) = _
    cases increment histogramData (e.time - lastTimestamp).toInt32 <;> rfl
  · rfl
  · rfl

/-- **The loop counts the indices**, while the durations are short. -/
theorem foldlM_readLine {entries : List Entry} (h : ∀ e ∈ entries, e.Short)
    (histogramData : List Int32) (lastTimestamp : Int64) :
    ∃ t, (entries.map Entry.line).foldlM readLine (histogramData, lastTimestamp) =
      ((bins lastTimestamp (times entries)).foldlM increment histogramData).map
        fun h => (h, t) := by
  induction entries generalizing histogramData lastTimestamp with
  | nil => exact ⟨lastTimestamp, rfl⟩
  | cons e entries ih =>
    obtain ⟨he, hentries⟩ := List.forall_mem_cons.mp h
    rw [List.map_cons, List.foldlM_cons, e.readLine_short he]
    unfold times at ih ⊢
    by_cases htype : e.event.text.toList = messageType
    · rw [if_pos htype, List.filter_cons_of_pos (by simpa using htype), List.map_cons, bins]
      by_cases hgap : e.time - lastTimestamp ≥ 0
      · rw [if_pos hgap, if_pos hgap, List.foldlM_cons]
        cases increment histogramData (e.time - lastTimestamp).toInt32 with
        | error x => exact ⟨0, rfl⟩
        | ok h => exact ih hentries h e.time
      · rw [if_neg hgap, if_neg hgap]
        exact ih hentries histogramData e.time
    · rw [if_neg htype, List.filter_cons_of_neg (by simpa using htype)]
      exact ih hentries histogramData lastTimestamp

/-- A long duration ends it. -/
theorem foldlM_readLine_long {entries : List Entry} (h : ∃ e ∈ entries, ¬ e.Short)
    (state : List Int32 × Int64) :
    ∃ x, (entries.map Entry.line).foldlM readLine state = .error x := by
  induction entries generalizing state with
  | nil =>
    obtain ⟨e, he, -⟩ := h
    exact absurd he List.not_mem_nil
  | cons e entries ih =>
    rw [List.map_cons, List.foldlM_cons]
    by_cases he : e.Short
    · obtain ⟨e', he', hlong⟩ := h
      have hrest : ∃ e ∈ entries, ¬ e.Short := by
        rcases List.mem_cons.mp he' with rfl | he'
        · exact absurd he hlong
        · exact ⟨e', he', hlong⟩
      cases readLine state e.line with
      | error x => exact ⟨x, rfl⟩
      | ok state => exact ih hrest state
    · refine ⟨.illegalArgument, ?_⟩
      unfold readLine
      rw [e.parse_long he]
      rfl

/-! ### The counters -/

/-- The index is a place of the array. -/
def Inside (histogramData : List Int32) (i : Int32) : Prop :=
  0 ≤ i.toInt ∧ i.toInt < histogramData.length

theorem increment_inside {histogramData : List Int32} {i : Int32} (h : Inside histogramData i) :
    ∃ n, histogramData[i.toInt.toNat]? = some n ∧
      increment histogramData i = .ok (histogramData.set i.toInt.toNat (n + 1)) := by
  have hlt : i.toInt.toNat < histogramData.length := by
    have := h.1
    have := h.2
    omega
  have hneg : ¬ i < 0 := by
    rw [Int32.lt_iff_toInt_lt, Int32.toInt_zero]
    exact not_lt.mpr h.1
  have hget := List.getElem?_eq_getElem hlt
  refine ⟨_, hget, ?_⟩
  unfold increment
  rw [if_neg hneg, hget]
  rfl

theorem increment_outside {histogramData : List Int32} {i : Int32} (h : ¬ Inside histogramData i) :
    ∃ x, increment histogramData i = .error x := by
  unfold increment
  by_cases hneg : i < 0
  · rw [if_pos hneg]
    exact ⟨_, rfl⟩
  · have hnonneg : 0 ≤ i.toInt := by
      rw [Int32.lt_iff_toInt_lt, Int32.toInt_zero] at hneg
      exact not_lt.mp hneg
    have hnone : histogramData[i.toInt.toNat]? = none := by
      refine List.getElem?_eq_none ?_
      by_contra hlt
      exact h ⟨hnonneg, by omega⟩
    rw [if_neg hneg, hnone]
    exact ⟨_, rfl⟩

/-- **Each place counts its index**, as an `int`. -/
theorem foldlM_increment {histogramData : List Int32} {is : List Int32}
    (h : ∀ i ∈ is, Inside histogramData i) :
    ∃ h', is.foldlM increment histogramData = .ok h' ∧ h'.length = histogramData.length ∧
      ∀ k : ℕ, h'[k]? = histogramData[k]?.map fun n =>
        n + Int32.ofNat ((is.map fun i => i.toInt.toNat).count k) := by
  induction is generalizing histogramData with
  | nil =>
    refine ⟨histogramData, rfl, rfl, fun k => ?_⟩
    rw [List.map_nil, List.count_nil]
    cases histogramData[k]? with
    | none => rfl
    | some n => rw [Option.map_some, show Int32.ofNat 0 = 0 from rfl, Int32.add_zero]
  | cons i is ih =>
    obtain ⟨hi, his⟩ := List.forall_mem_cons.mp h
    obtain ⟨n, hn, hincrement⟩ := increment_inside hi
    have hinside : ∀ j ∈ is, Inside (histogramData.set i.toInt.toNat (n + 1)) j := by
      intro j hj
      unfold Inside
      rw [List.length_set]
      exact his j hj
    obtain ⟨h', hfold, hlength, hget⟩ := ih hinside
    refine ⟨h', ?_, hlength.trans List.length_set, fun k => ?_⟩
    · rw [List.foldlM_cons, hincrement]
      exact hfold
    · rw [hget, List.map_cons, List.getElem?_set]
      by_cases hk : i.toInt.toNat = k
      · subst hk
        have hlt : i.toInt.toNat < histogramData.length := (List.getElem?_eq_some_iff.mp hn).1
        rw [if_pos rfl, if_pos hlt, hn, List.count_cons_self, Option.map_some, Option.map_some,
          Int32.ofNat_add, Int32.add_assoc, Int32.add_comm (Int32.ofNat _) (Int32.ofNat 1)]
        rfl
      · rw [if_neg hk, List.count_cons_of_ne hk]

/-- An index that is none ends the loop. -/
theorem foldlM_increment_error {histogramData : List Int32} {is : List Int32}
    (h : ¬ ∀ i ∈ is, Inside histogramData i) :
    ∃ x, is.foldlM increment histogramData = .error x := by
  induction is generalizing histogramData with
  | nil => exact absurd (fun i hi => absurd hi List.not_mem_nil) h
  | cons i is ih =>
    rw [List.foldlM_cons]
    by_cases hi : Inside histogramData i
    · obtain ⟨n, -, hincrement⟩ := increment_inside hi
      have hrest : ¬ ∀ j ∈ is, Inside (histogramData.set i.toInt.toNat (n + 1)) j := by
        unfold Inside at h hi ⊢
        rw [List.length_set]
        exact fun his => h (List.forall_mem_cons.mpr ⟨hi, his⟩)
      obtain ⟨x, hx⟩ := ih hrest
      exact ⟨x, by rw [hincrement]; exact hx⟩
    · obtain ⟨x, hx⟩ := increment_outside hi
      exact ⟨x, by rw [hx]; rfl⟩

/-- What is lost of a count when it is kept as an `int`. -/
theorem toInt_ofNat_eq (c : ℕ) :
    (Int32.ofNat c).toInt = c - 2 ^ 32 * ((c + 2 ^ 31) / 2 ^ 32 : ℕ) := by
  rw [Int32.toInt_ofNat', Int.bmod_def, show Int32.size = 2 ^ 32 from rfl]
  split_ifs <;> omega

/-- **The sum of the counters**, of which some may have overflowed. -/
theorem sum_counters {n : ℕ} {ks : List ℕ} (h : ∀ k ∈ ks, k < n) :
    (((List.range n).map fun k => Int32.ofNat (ks.count k)).map Int32.toInt).sum =
      ks.length -
        2 ^ 32 * (((List.range n).map fun k => (ks.count k + 2 ^ 31) / 2 ^ 32).sum : ℕ) := by
  have hcount : ((List.range n).map fun k => ks.count k).sum = ks.length := by
    have hcard : ∑ k ∈ Finset.range n, (ks : Multiset ℕ).count k = Multiset.card (ks : Multiset ℕ) :=
      Multiset.sum_count_eq_card fun k hk => Finset.mem_range.mpr (h k (Multiset.mem_coe.mp hk))
    rw [Finset.sum_eq_multiset_sum, Finset.range_val, ← Multiset.coe_range, Multiset.map_coe,
      Multiset.sum_coe, Multiset.coe_card] at hcard
    simp only [Multiset.coe_count] at hcard
    exact hcard
  have hsum : ∀ l : List ℕ, ((l.map fun k => Int32.ofNat (ks.count k)).map Int32.toInt).sum =
      ((l.map fun k => ks.count k).sum : ℕ) -
        2 ^ 32 * ((l.map fun k => (ks.count k + 2 ^ 31) / 2 ^ 32).sum : ℕ) := by
    intro l
    induction l with
    | nil => rfl
    | cons k l ih =>
      rw [List.map_cons, List.map_cons, List.sum_cons, ih, toInt_ofNat_eq, List.map_cons,
        List.sum_cons, List.map_cons, List.sum_cons]
      push_cast
      ring
  rw [hsum, hcount]

/-! ### The indices of a log -/

/-- The index of a pair of lines. -/
def narrowed (p : Int64 × Int64) : Int32 := (p.2 - p.1).toInt32

theorem toInt_sub_of_nonneg {s t : Int64} (hs : 0 ≤ s) (ht : 0 ≤ t) :
    (t - s).toInt = t.toInt - s.toInt := by
  rw [Int64.le_iff_toInt_le, Int64.toInt_zero] at hs ht
  have := s.toInt_lt
  have := t.toInt_lt
  rw [Int64.toInt_sub, Int.bmod_eq_of_le (by omega) (by omega)]

theorem sub_nonneg_iff {s t : Int64} (hs : 0 ≤ s) (ht : 0 ≤ t) : t - s ≥ 0 ↔ s ≤ t := by
  rw [ge_iff_le, Int64.le_iff_toInt_le, Int64.le_iff_toInt_le, toInt_sub_of_nonneg hs ht,
    Int64.toInt_zero]
  omega

/-- The narrowed time is a place iff what is left of it in an `int` is one. -/
theorem inside_narrowed_iff {histogramData : List Int32} (hlength : histogramData.length = 10000)
    {p : Int64 × Int64} (h₁ : 0 ≤ p.1) (h₂ : 0 ≤ p.2) :
    Inside histogramData (narrowed p) ↔ between p < 10000 := by
  unfold Inside narrowed between
  rw [Int64.toInt_toInt32, toInt_sub_of_nonneg h₁ h₂, hlength, Int.bmod_def]
  split_ifs <;> omega

theorem toNat_narrowed {p : Int64 × Int64} (h₁ : 0 ≤ p.1) (h₂ : 0 ≤ p.2)
    (h : between p < 10000) : (narrowed p).toInt.toNat = between p := by
  unfold between at h
  unfold narrowed between
  rw [Int64.toInt_toInt32, toInt_sub_of_nonneg h₁ h₂, Int.bmod_def]
  split_ifs <;> omega

theorem arrivals_cons_cons (s t : Int64) (ts : List Int64) :
    arrivals (s :: t :: ts) = if s ≤ t then (s, t) :: arrivals (t :: ts) else arrivals (t :: ts) := by
  unfold arrivals
  rw [List.tail_cons, List.zip_cons_cons, List.filter_cons]
  simp only [decide_eq_true_eq, List.tail_cons]

/-- **The loop counts the arrivals** after the assumed one. -/
theorem bins_eq {lastTimestamp : Int64} {ts : List Int64} (hlast : 0 ≤ lastTimestamp)
    (h : ∀ t ∈ ts, 0 ≤ t) : bins lastTimestamp ts = (arrivals (lastTimestamp :: ts)).map narrowed := by
  induction ts generalizing lastTimestamp with
  | nil => rfl
  | cons t ts ih =>
    obtain ⟨ht, hts⟩ := List.forall_mem_cons.mp h
    rw [bins, arrivals_cons_cons, ih ht hts, if_congr (sub_nonneg_iff hlast ht) rfl rfl]
    split_ifs <;> rfl

theorem nonneg_of_mem_arrivals {ts : List Int64} (h : ∀ t ∈ ts, 0 ≤ t) {p : Int64 × Int64}
    (hp : p ∈ arrivals ts) : 0 ≤ p.1 ∧ 0 ≤ p.2 := by
  have hmem := List.of_mem_zip (List.mem_of_mem_filter hp)
  exact ⟨h _ hmem.1, h _ (List.mem_of_mem_tail hmem.2)⟩

theorem nonneg_of_mem_times {entries : List Entry} : ∀ t ∈ times entries, 0 ≤ t := by
  intro t ht
  obtain ⟨e, -, rfl⟩ := List.mem_map.mp ht
  exact e.time_nonneg

/-! ### The histogram of a log -/

/-- The pairs that are counted: the line before the first one is assumed. -/
def countedPairs (entries : List Entry) : List (Int64 × Int64) :=
  arrivals (Int64.maxValue :: times entries)

/-- How often a place overflows. -/
def overflows (ks : List ℕ) : ℕ :=
  ((List.range 10000).map fun k => (ks.count k + 2 ^ 31) / 2 ^ 32).sum

theorem overflows_eq_zero_iff {ks : List ℕ} (h : ∀ k ∈ ks, k < 10000) :
    overflows ks = 0 ↔ ∀ k, ks.count k < 2 ^ 31 := by
  unfold overflows
  rw [List.sum_eq_zero_iff]
  constructor
  · intro hzero k
    by_cases hk : k < 10000
    · have := hzero _ (List.mem_map_of_mem (List.mem_range.mpr hk))
      omega
    · rw [List.count_eq_zero_of_not_mem fun hmem => hk (h k hmem)]
      norm_num
  · intro hcount x hx
    obtain ⟨k, -, rfl⟩ := List.mem_map.mp hx
    have := hcount k
    omega

theorem nonneg_of_mem_countedPairs {entries : List Entry} {p : Int64 × Int64}
    (hp : p ∈ countedPairs entries) : 0 ≤ p.1 ∧ 0 ≤ p.2 :=
  nonneg_of_mem_arrivals
    (List.forall_mem_cons.mpr ⟨Int64.le_maxValue 0, nonneg_of_mem_times⟩) hp

/-- The assumed line is the one before a first line at the same time. -/
theorem countedPairs_eq (entries : List Entry) : countedPairs entries =
    if (times entries).head? = some Int64.maxValue then
      (Int64.maxValue, Int64.maxValue) :: arrivals (times entries)
    else arrivals (times entries) := by
  unfold countedPairs
  cases times entries with
  | nil => rfl
  | cons t ts =>
    have hle : Int64.maxValue ≤ t ↔ some t = some Int64.maxValue := by
      rw [Option.some_inj]
      exact ⟨fun h => Int64.le_antisymm (Int64.le_maxValue t) h, fun h => h ▸ Int64.le_refl _⟩
    rw [arrivals_cons_cons, List.head?_cons, if_congr hle rfl rfl]
    split_ifs with ht
    · rw [Option.some_inj.mp ht]
    · rfl

theorem inside_countedPairs_iff {histogramData : List Int32} (hlength : histogramData.length = 10000)
    (entries : List Entry) : (∀ i ∈ (countedPairs entries).map narrowed, Inside histogramData i) ↔
      ∀ p ∈ countedPairs entries, between p < 10000 := by
  rw [List.forall_mem_map]
  refine forall₂_congr fun p hp => ?_
  obtain ⟨h₁, h₂⟩ := nonneg_of_mem_countedPairs hp
  exact inside_narrowed_iff hlength h₁ h₂

/-- **The histogram of a log** whose durations are short and whose pairs have a place: it lacks
`2 ^ 32` for each overflow. -/
theorem foldlM_increment_countedPairs {entries : List Entry}
    (h : ∀ p ∈ countedPairs entries, between p < 10000) :
    ∃ h', ((countedPairs entries).map narrowed).foldlM increment (List.replicate 10000 0) = .ok h' ∧
      (h'.map Int32.toInt).sum =
        (countedPairs entries).length - 2 ^ 32 * (overflows ((countedPairs entries).map between) : ℕ) := by
  have hlength : (List.replicate 10000 (0 : Int32)).length = 10000 := List.length_replicate
  obtain ⟨h', hfold, hlength', hget⟩ :=
    foldlM_increment ((inside_countedPairs_iff hlength entries).mpr h)
  have hkeys : (((countedPairs entries).map narrowed).map fun i => i.toInt.toNat) =
      (countedPairs entries).map between := by
    rw [List.map_map]
    refine List.map_congr_left fun p hp => ?_
    obtain ⟨h₁, h₂⟩ := nonneg_of_mem_countedPairs hp
    exact toNat_narrowed h₁ h₂ (h p hp)
  have heq : h' = (List.range 10000).map fun k =>
      Int32.ofNat (((countedPairs entries).map between).count k) := by
    refine List.ext_getElem? fun k => ?_
    rw [hget, hkeys, List.getElem?_map, List.getElem?_replicate]
    by_cases hk : k < 10000
    · rw [if_pos hk, List.getElem?_range hk, Option.map_some, Option.map_some, Int32.zero_add]
    · rw [if_neg hk, List.getElem?_eq_none (by rw [List.length_range]; exact not_lt.mp hk)]
      rfl
  refine ⟨h', hfold, ?_⟩
  rw [heq, sum_counters (List.forall_mem_map.mpr h), List.length_map]
  rfl

theorem main_brokerLog {header : List Char} (hheader : "BrokerConfiguration".toList <+: header)
    (hline : NoLineEnd header) (entries : List Entry) :
    main [brokerLog header entries] =
      ((entries.map Entry.line).foldlM readLine (List.replicate 10000 0, Int64.maxValue)).map
        Prod.fst := by
  have hstarts : "BrokerConfiguration".toList.isPrefixOf header = true :=
    List.isPrefixOf_iff_prefix.mpr hheader
  unfold main
  rw [List.foldlM_cons]
  unfold readFile
  rw [readLines_brokerLog hline]
  simp only [hstarts, Bool.true_eq_false, if_false]
  cases (entries.map Entry.line).foldlM readLine (List.replicate 10000 0, Int64.maxValue) <;> rfl

/-- A log with short durations sums up iff its counted pairs have a place and the overflows make up
for what is counted besides the arrivals. -/
theorem sumsUp_short_iff {header : List Char} (hheader : "BrokerConfiguration".toList <+: header)
    (hline : NoLineEnd header) {entries : List Entry} (hshort : ∀ e ∈ entries, e.Short) :
    SumsUp (brokerLog header entries) entries ↔
      (∀ p ∈ countedPairs entries, between p < 10000) ∧
        (countedPairs entries).length - 2 ^ 32 * (overflows ((countedPairs entries).map between) : ℤ) =
          (arrivals (times entries)).length := by
  obtain ⟨t, hfold⟩ := foldlM_readLine hshort (List.replicate 10000 0) Int64.maxValue
  have hbins : bins Int64.maxValue (times entries) = (countedPairs entries).map narrowed :=
    bins_eq (Int64.le_maxValue 0) nonneg_of_mem_times
  have hmain : main [brokerLog header entries] =
      ((countedPairs entries).map narrowed).foldlM increment (List.replicate 10000 0) := by
    rw [main_brokerLog hheader hline, hfold, hbins]
    cases ((countedPairs entries).map narrowed).foldlM increment (List.replicate 10000 0) <;> rfl
  unfold SumsUp
  rw [hmain]
  by_cases hplace : ∀ p ∈ countedPairs entries, between p < 10000
  · obtain ⟨h', hrun, hsum⟩ := foldlM_increment_countedPairs hplace
    constructor
    · rintro ⟨histogramData, hok, heq⟩
      rw [hrun] at hok
      obtain rfl := Except.ok.inj hok
      exact ⟨hplace, hsum.symm.trans heq⟩
    · exact fun h => ⟨h', hrun, hsum.trans h.2⟩
  · have hlength : (List.replicate 10000 (0 : Int32)).length = 10000 := List.length_replicate
    have houtside := mt (inside_countedPairs_iff hlength entries).mp hplace
    obtain ⟨x, hx⟩ := foldlM_increment_error houtside
    rw [hx]
    exact iff_of_false (fun ⟨_, hok, _⟩ => nomatch hok) fun h => hplace h.1

theorem not_sumsUp_of_long {header : List Char} (hheader : "BrokerConfiguration".toList <+: header)
    (hline : NoLineEnd header) {entries : List Entry} (hlong : ∃ e ∈ entries, ¬ e.Short) :
    ¬ SumsUp (brokerLog header entries) entries := by
  rintro ⟨histogramData, hok, -⟩
  obtain ⟨x, hx⟩ := foldlM_readLine_long hlong (List.replicate 10000 0, Int64.maxValue)
  rw [main_brokerLog hheader hline, hx] at hok
  exact nomatch hok

/-- **A log sums up iff it fits**: after a first line at `Long.MAX_VALUE` a pair too much is
counted, and no number of overflows makes up for it. -/
theorem sumsUp_iff {header : List Char} (hheader : "BrokerConfiguration".toList <+: header)
    (hline : NoLineEnd header) (entries : List Entry) :
    SumsUp (brokerLog header entries) entries ↔ Fitting entries := by
  by_cases hshort : ∀ e ∈ entries, e.Short
  · rw [sumsUp_short_iff hheader hline hshort, countedPairs_eq]
    by_cases hfirst : (times entries).head? = some Int64.maxValue
    · refine iff_of_false (fun ⟨_, hsum⟩ => ?_) fun h => h.first hfirst
      rw [if_pos hfirst, List.length_cons] at hsum
      omega
    · rw [if_neg hfirst]
      constructor
      · rintro ⟨hplace, hsum⟩
        have hzero : overflows ((arrivals (times entries)).map between) = 0 := by omega
        exact ⟨hshort, hfirst, hplace,
          (overflows_eq_zero_iff (List.forall_mem_map.mpr hplace)).mp hzero⟩
      · rintro ⟨-, -, hplace, hcount⟩
        refine ⟨hplace, ?_⟩
        rw [(overflows_eq_zero_iff (List.forall_mem_map.mpr hplace)).mpr hcount]
        omega
  · refine iff_of_false (not_sumsUp_of_long hheader hline ?_) fun h => hshort h.duration
    push Not at hshort
    exact hshort

/-- A response that took 5 ms. -/
def response (time : Int64) (time_nonneg : 0 ≤ time) : Entry where
  executionTime := 5
  time := time
  event := .totalRequestResponse
  time_nonneg := time_nonneg
  plain := nofun

/-- Two of the responses are written in one millisecond. -/
def busyLog : List Entry := [response 1000 (by decide), response 1005 (by decide),
  response 1005 (by decide)]

theorem sumsUp_iff_busyLog :
    SumsUp (brokerLog "BrokerConfiguration".toList busyLog) busyLog := by
  have harrivals : arrivals (times busyLog) = [(1000, 1005), (1005, 1005)] := by decide
  refine (sumsUp_iff (List.prefix_refl _) (by decide) busyLog).mpr ⟨?_, ?_, ?_, fun k => ?_⟩
  · unfold Entry.Short
    decide
  · decide
  · have hbetween : [((1000 : Int64), (1005 : Int64)), (1005, 1005)].map between = [5, 0] := by
      decide
    rw [harrivals, ← List.forall_mem_map (P := (· < 10000)), hbetween]
    decide
  · rw [harrivals]
    calc List.count k ([(1000, 1005), (1005, 1005)].map between)
        ≤ ([(1000, 1005), (1005, 1005)].map between).length := List.count_le_length
      _ < 2 ^ 31 := by decide

/-- Nothing is written for ten seconds. -/
def quietLog : List Entry := [response 1000 (by decide), response 11000 (by decide)]

theorem quietLog_not_sumsUp : ¬ ∀ header, "BrokerConfiguration".toList <+: header →
    NoLineEnd header → ∀ entries, SumsUp (brokerLog header entries) entries := by
  intro h
  have hquiet := h "BrokerConfiguration".toList (List.prefix_refl _) (by decide) quietLog
  have hshort : ∀ e ∈ quietLog, e.Short := by
    unfold Entry.Short
    decide
  have hplace := ((sumsUp_short_iff (List.prefix_refl _) (by decide) hshort).mp hquiet).1
  exact absurd (hplace (1000, 11000) (by decide)) (by decide)

end Mlmq.Log
