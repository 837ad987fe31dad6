import Mlmq.Log.LogAnalizer

/-! # Truncated logs

A broker that is killed leaves a log that ends anywhere in its last line. What there is of the line
may still be a log line, with the same timestamp (`CutOf`).

The start of the first line is found in every log. The timestamp of the last line is not, when the
log does not end with a line feed and the last line is no log line without its last character: then
`HeaderInfo` finds none, and not that of the line before. So the window for the counted lines is
right iff some other log that ends well has as late a line (`cutRight_iff`). -/

namespace Mlmq.Log

open Mlmq.Lib.Text Mlmq.Lib.Nio PerformanceLog

/-! ### Beginnings of a line -/

/-- The fields of a log line up to its timestamp. -/
structure Stamp (d t : List Char) (duration : Int32) (timestamp : Int64) : Prop where
  duration_plain : ';' ∉ d
  timestamp_plain : ';' ∉ t
  parse_duration : parseInt d = .ok duration
  parse_timestamp : parseLong t = .ok timestamp

/-- A line that ends before the end of its timestamp, or begins with these fields. -/
inductive CutOf (d t : List Char) : List Char → Prop
  | before (s : List Char) : s.count ';' ≤ 1 → CutOf d t s
  | behind (s : List Char) : CutOf d t (d ++ ';' :: (t ++ ';' :: s))

theorem parse_before {s : List Char} (h : s.count ';' ≤ 1) :
    parseLogLine (some s) = .ok none :=
  parseLogLine_of_length ((length_split_le ';' s).trans (Nat.succ_le_succ h))

theorem parseLong_nil : parseLong [] = .error .illegalArgument := rfl

section Stamp

variable {d t : List Char} {duration : Int32} {timestamp : Int64}
  (h : Stamp d t duration timestamp)
include h

theorem Stamp.timestamp_ne_nil : t ≠ [] := by
  rintro rfl
  have hparse := h.parse_timestamp
  rw [parseLong_nil] at hparse
  cases hparse

/-- What is behind the timestamp decides whether the line has enough fields. -/
theorem Stamp.parse_behind (s : List Char) :
    (∀ c ∈ s, c = ';') ∧ parseLogLine (some (d ++ ';' :: (t ++ ';' :: s))) = .ok none ∨
      (∃ c ∈ s, c ≠ ';') ∧ ∃ l, parseLogLine (some (d ++ ';' :: (t ++ ';' :: s))) = .ok (some l) ∧
        l.timestamp = timestamp := by
  have hsplit := split_append h.duration_plain h.timestamp_plain h.timestamp_ne_nil s
  cases hrest : (s.splitOn ';').rdropWhile (fun field => field.isEmpty) with
  | nil =>
    refine Or.inl ⟨rdropWhile_splitOn_eq_nil_iff.mp hrest, parseLogLine_of_length ?_⟩
    rw [hsplit, hrest]
    exact le_rfl
  | cons name rest =>
    refine Or.inr ⟨?_, ⟨duration, timestamp, name, rest.headD []⟩, ?_, rfl⟩
    · by_contra hall
      push Not at hall
      rw [rdropWhile_splitOn_eq_nil_iff.mpr hall] at hrest
      cases hrest
    · rw [hrest] at hsplit
      exact parseLogLine_eq_some_iff.mpr
        ⟨d, t, rest, hsplit, rfl, h.parse_duration, h.parse_timestamp⟩

/-- **The beginning of a line is no log line, or one with the same timestamp.** -/
theorem Stamp.parse_cutOf {s : List Char} (hcut : CutOf d t s) :
    parseLogLine (some s) = .ok none ∨
      ∃ l, parseLogLine (some s) = .ok (some l) ∧ l.timestamp = timestamp := by
  cases hcut with
  | before _ hs => exact Or.inl (parse_before hs)
  | behind s => exact (h.parse_behind s).imp And.right And.right

end Stamp

/-! ### One character less -/

theorem count_dropLastUnit_le (s : List Char) :
    (HeaderInfo.dropLastUnit s).count ';' ≤ s.count ';' := by
  unfold HeaderInfo.dropLastUnit
  split
  · exact Nat.zero_le _
  · split_ifs
    · exact (List.dropLast_sublist s).count_le _
    · rw [List.count_append]
      exact (List.dropLast_sublist s).count_le _

theorem dropLastUnit_separator (s : List Char) : HeaderInfo.dropLastUnit (s ++ [';']) = s := by
  unfold HeaderInfo.dropLastUnit
  rw [List.getLast?_concat, List.dropLast_concat]
  rfl

theorem dropLastUnit_behind {d t s : List Char} (hs : s ≠ []) :
    HeaderInfo.dropLastUnit (d ++ ';' :: (t ++ ';' :: s)) =
      d ++ ';' :: (t ++ ';' :: HeaderInfo.dropLastUnit s) := by
  have hsplit : d ++ ';' :: (t ++ ';' :: s) = (d ++ ';' :: (t ++ [';'])) ++ s := by simp
  rw [hsplit, HeaderInfo.dropLastUnit_append hs]
  simp

theorem dropLastUnit_behind_nil (d t : List Char) :
    HeaderInfo.dropLastUnit (d ++ ';' :: (t ++ [';'])) = d ++ ';' :: t := by
  rw [← List.cons_append, ← List.append_assoc, dropLastUnit_separator]

theorem Stamp.count_le {d t : List Char} {duration : Int32} {timestamp : Int64}
    (h : Stamp d t duration timestamp) : (d ++ ';' :: t).count ';' ≤ 1 := by
  rw [List.count_append, List.count_cons_self, List.count_eq_zero_of_not_mem h.duration_plain,
    List.count_eq_zero_of_not_mem h.timestamp_plain]

theorem Stamp.cutOf_dropLastUnit {d t s : List Char} {duration : Int32} {timestamp : Int64}
    (h : Stamp d t duration timestamp) (hcut : CutOf d t s) :
    CutOf d t (HeaderInfo.dropLastUnit s) := by
  cases hcut with
  | before _ hs => exact .before _ ((count_dropLastUnit_le s).trans hs)
  | behind s =>
    by_cases hs : s = []
    · rw [hs, dropLastUnit_behind_nil]
      exact .before _ h.count_le
    · rw [dropLastUnit_behind hs]
      exact .behind _

/-- **What is a log line without its last character is one with it.** -/
theorem Stamp.parse_of_dropLastUnit {d t s : List Char} {duration : Int32} {timestamp : Int64}
    (h : Stamp d t duration timestamp) (hcut : CutOf d t s) {l : LogLine}
    (hparse : parseLogLine (some (HeaderInfo.dropLastUnit s)) = .ok (some l)) :
    ∃ l', parseLogLine (some s) = .ok (some l') ∧ l'.timestamp = timestamp := by
  cases hcut with
  | before _ hs =>
    rw [parse_before ((count_dropLastUnit_le s).trans hs)] at hparse
    cases hparse
  | behind s =>
    rcases h.parse_behind s with ⟨hall, -⟩ | ⟨-, hsome⟩
    · -- there are separators only, and one less of them
      rcases List.eq_nil_or_concat s with rfl | ⟨s', c, rfl⟩
      · rw [dropLastUnit_behind_nil, parse_before h.count_le] at hparse
        cases hparse
      · rw [List.concat_eq_append] at hall hparse
        obtain rfl := hall c (by simp)
        have hdrop : HeaderInfo.dropLastUnit (d ++ ';' :: (t ++ ';' :: (s' ++ [';']))) =
            d ++ ';' :: (t ++ ';' :: s') := by
          rw [dropLastUnit_behind (by simp), dropLastUnit_separator]
        rw [hdrop] at hparse
        rcases h.parse_behind s' with ⟨-, hnone⟩ | ⟨⟨c, hc, hne⟩, -⟩
        · rw [hnone] at hparse
          cases hparse
        · exact absurd (hall c (List.mem_append_left _ hc)) hne
    · exact hsome

/-! ### Bytes -/

theorem decode_append_separator (bs rest : List UInt8) :
    Lib.Utf8.decode (bs ++ 59 :: rest) = Lib.Utf8.decode bs ++ ';' :: Lib.Utf8.decode rest :=
  Lib.Utf8.decode_append_ascii_cons (a := 59) (by decide) bs rest

theorem not_mem_decode {bs : List UInt8} (h : 59 ∉ bs) : ';' ∉ Lib.Utf8.decode bs := fun hmem =>
  h (Lib.Utf8.mem_of_mem_decode (a := 59) (by decide) hmem)

theorem prefix_append_cons {p a b : List UInt8} {x : UInt8} (h : p <+: a ++ x :: b) :
    p <+: a ∨ ∃ p', p = a ++ x :: p' ∧ p' <+: b := by
  obtain ⟨q, hq⟩ := h
  rcases List.append_eq_append_iff.mp hq with ⟨r, ha, -⟩ | ⟨r, hp, hr⟩
  · exact Or.inl ⟨r, ha.symm⟩
  · cases r with
    | nil => exact Or.inl ⟨[], by rw [hp, List.append_nil, List.append_nil]⟩
    | cons y r =>
      obtain ⟨rfl, hb⟩ := List.cons.inj hr
      exact Or.inr ⟨r, hp, ⟨q, hb.symm⟩⟩

/-- **The beginnings of a log line**, in bytes: a character may be cut too. -/
theorem exists_stamp {line : List UInt8} {l : LogLine}
    (h : parseLogLine (some (Lib.Utf8.decode line)) = .ok (some l)) :
    ∃ d t, Stamp d t l.duration l.timestamp ∧
      ∀ p, p <+: line → CutOf d t (Lib.Utf8.decode p) := by
  have htwo : ¬ (Lib.Utf8.decode line).count ';' ≤ 1 := by
    intro hle
    rw [parse_before hle] at h
    cases h
  -- the line has two separators
  obtain ⟨d, x, hline, hd⟩ : ∃ d x, line = d ++ 59 :: x ∧ 59 ∉ d := by
    refine List.eq_append_cons_of_mem (by_contra fun hnot => htwo ?_)
    rw [List.count_eq_zero_of_not_mem (not_mem_decode hnot)]
    exact Nat.zero_le 1
  have hcount : (Lib.Utf8.decode line).count ';' = 1 + (Lib.Utf8.decode x).count ';' := by
    rw [hline, decode_append_separator, List.count_append, List.count_cons_self,
      List.count_eq_zero_of_not_mem (not_mem_decode hd)]
    omega
  obtain ⟨t, r, hx, ht⟩ : ∃ t r, x = t ++ 59 :: r ∧ 59 ∉ t := by
    refine List.eq_append_cons_of_mem (by_contra fun hnot => htwo ?_)
    rw [hcount, List.count_eq_zero_of_not_mem (not_mem_decode hnot)]
  have hdecode : Lib.Utf8.decode line = Lib.Utf8.decode d ++
      ';' :: (Lib.Utf8.decode t ++ ';' :: Lib.Utf8.decode r) := by
    rw [hline, hx, decode_append_separator, decode_append_separator]
  obtain ⟨d', t', rest, hsplit, -, hduration, htimestamp⟩ := parseLogLine_eq_some_iff.mp h
  have hfields : d' = Lib.Utf8.decode d ∧ t' = Lib.Utf8.decode t := by
    unfold split at hsplit
    rw [hdecode, if_pos (by simp), List.splitOn_append_cons_self_of_not_mem (not_mem_decode hd),
      List.splitOn_append_cons_self_of_not_mem (not_mem_decode ht)] at hsplit
    obtain ⟨tail, htail⟩ := List.rdropWhile_prefix (fun field : List Char => field.isEmpty)
      (Lib.Utf8.decode d :: Lib.Utf8.decode t :: (Lib.Utf8.decode r).splitOn ';')
    rw [hsplit] at htail
    exact ⟨(List.cons.inj htail).1, (List.cons.inj (List.cons.inj htail).2).1⟩
  refine ⟨d', t', ⟨?_, ?_, hduration, htimestamp⟩, fun p hp => ?_⟩
  · rw [hfields.1]
    exact not_mem_decode hd
  · rw [hfields.2]
    exact not_mem_decode ht
  · rw [hline, hx] at hp
    have hnone : ∀ {q a : List UInt8}, q <+: a → 59 ∉ a → (Lib.Utf8.decode q).count ';' = 0 :=
      fun hq ha => List.count_eq_zero_of_not_mem (not_mem_decode fun hmem => ha (hq.subset hmem))
    rcases prefix_append_cons hp with hp | ⟨p', rfl, hp'⟩
    · exact .before _ ((hnone hp hd).le.trans (Nat.zero_le 1))
    · rcases prefix_append_cons hp' with hp' | ⟨p'', rfl, -⟩
      · refine .before _ ?_
        rw [decode_append_separator, List.count_append, List.count_cons_self, hnone hp' ht,
          List.count_eq_zero_of_not_mem (not_mem_decode hd)]
      · rw [decode_append_separator, decode_append_separator, hfields.1, hfields.2]
        exact .behind _

/-! ### Logs -/

/-- A line of less than 256 bytes with a log line. -/
structure IsLogLine (line : List UInt8) (l : LogLine) : Prop where
  oneLine : OneLine line
  length_lt : line.length < 256
  parse : parseLogLine (some (Lib.Utf8.decode line)) = .ok (some l)

/-- A log: a header, lines with timestamps that do not decrease, and what there is of the last one.
-/
structure TruncatedLog where
  header : List UInt8
  lines : List (List UInt8)
  last : List UInt8
  /-- with the line feed, if nothing is cut off -/
  kept : List UInt8
  header_oneLine : OneLine header
  header_length : header.length < 256
  header_noLogLine : ∀ l, parseLogLine (some (Lib.Utf8.decode header)) ≠ .ok (some l)
  logLines : List LogLine
  lastLogLine : LogLine
  isLogLine_lines : List.Forall₂ IsLogLine lines logLines
  isLogLine_last : IsLogLine last lastLogLine
  sorted : (logLines ++ [lastLogLine]).Pairwise fun l l' => l.timestamp ≤ l'.timestamp
  kept_prefix : kept <+: last ++ [10]

/-- Lines of bytes, with their line feeds. -/
def joinLines (lines : List (List UInt8)) : List UInt8 := lines.flatMap fun line => line ++ [10]

def TruncatedLog.file (log : TruncatedLog) : File :=
  joinLines (log.header :: log.lines) ++ log.kept

/-- The log lines of a file. -/
def logLinesOf (files : List File) : List LogLine := (linesOf files).filterMap parsed

/-- The file ends with a line feed, or its last line is a log line without its last character. -/
def EndsWell (file : File) : Prop :=
  file.getLast? = some 10 ∨
    ∃ l, parseLogLine (some (HeaderInfo.dropLastUnit (file.readLines.getLastD []))) = .ok (some l)

theorem readLines_joinLines_append {lines : List (List UInt8)} (h : ∀ line ∈ lines, OneLine line)
    (bs : List UInt8) : Lib.Text.readLines (Lib.Utf8.decode (joinLines lines ++ bs)) =
      lines.map Lib.Utf8.decode ++ Lib.Text.readLines (Lib.Utf8.decode bs) := by
  induction lines with
  | nil => rfl
  | cons line lines ih =>
    obtain ⟨hline, hlines⟩ := List.forall_mem_cons.mp h
    unfold joinLines at ih ⊢
    rw [List.flatMap_cons, List.append_assoc, List.append_assoc, List.singleton_append,
      decode_append_newline, readLines_append hline.noLineEnd, ih hlines, List.map_cons,
      List.cons_append]

theorem lineStart_joinLines (lines : List (List UInt8)) : LineStart (joinLines lines) := by
  rcases List.eq_nil_or_concat lines with rfl | ⟨lines, line, rfl⟩
  · exact Or.inl rfl
  · refine Or.inr ⟨joinLines lines ++ line, ?_⟩
    unfold joinLines
    rw [List.concat_eq_append, List.flatMap_append, List.flatMap_singleton, List.append_assoc]

/-- What is said about one file below: its log lines, and the times that `HeaderInfo` finds. -/
structure Reads (file : File) (ls : List LogLine) : Prop where
  numeric : ∀ line ∈ file.readLines.drop 1, ∃ l, parseLogLine (some line) = .ok l
  logLines : (file.readLines.drop 1).filterMap parsed = ls
  start : ∃ x, HeaderInfo.getStartBucketTime file = .ok x ∧ (∀ l ∈ ls, x ≤ l.timestamp) ∧
    (x = Int64.maxValue ∨ ∃ l ∈ ls, x = l.timestamp)
  endTime : HeaderInfo.getEndBucketTime file = Int64.minValue ∨
    ∃ l ∈ ls, HeaderInfo.getEndBucketTime file = l.timestamp
  endsWell : EndsWell file → ∀ l ∈ ls, l.timestamp ≤ HeaderInfo.getEndBucketTime file
  not_endsWell : ¬ EndsWell file → HeaderInfo.getEndBucketTime file = Int64.minValue

section Form

variable {header tail last : List UInt8} {full : List (List UInt8)} {fullLogLines : List LogLine}
  {lastLogLine : LogLine}

theorem readLines_form (hheader : OneLine header)
    (hfull : List.Forall₂ IsLogLine full fullLogLines) (htail : OneLine tail) :
    File.readLines (joinLines (header :: full) ++ tail) =
      Lib.Utf8.decode header :: (full.map Lib.Utf8.decode ++
        if tail = [] then [] else [Lib.Utf8.decode tail]) := by
  have hlines : ∀ line ∈ header :: full, OneLine line := by
    refine List.forall_mem_cons.mpr ⟨hheader, fun line hline => ?_⟩
    obtain ⟨l, -, hl⟩ := Lib.Tables.exists_of_forall₂ hfull.flip hline
    exact hl.oneLine
  unfold File.readLines
  rw [readLines_joinLines_append hlines, List.map_cons, List.cons_append]
  congr 2
  split_ifs with hnil
  · rw [hnil, decode_nil]
    rfl
  · exact readLines_of_noLineEnd htail.noLineEnd (decode_ne_nil hnil)

/-- The lines behind the header, whatever there is of the last one. -/
theorem parse_full (hfull : List.Forall₂ IsLogLine full fullLogLines) :
    (full.map Lib.Utf8.decode).filterMap parsed = fullLogLines ∧
      ∀ line ∈ full.map Lib.Utf8.decode, ∃ l, parseLogLine (some line) = .ok l := by
  induction hfull with
  | nil => exact ⟨rfl, fun line hline => absurd hline List.not_mem_nil⟩
  | @cons line l full fullLogLines hline _ ih =>
    refine ⟨?_, List.forall_mem_cons.mpr ⟨⟨_, hline.parse⟩, ih.2⟩⟩
    have hparsed : parsed (Lib.Utf8.decode line) = some l := by
      unfold parsed
      rw [hline.parse]
    rw [List.map_cons, List.filterMap_cons_some hparsed, ih.1]

/-- What there is of the last line. -/
theorem parse_tail (hlast : IsLogLine last lastLogLine) (htail : tail <+: last) :
    parseLogLine (some (Lib.Utf8.decode tail)) = .ok (parsed (Lib.Utf8.decode tail)) ∧
      ∀ l ∈ parsed (Lib.Utf8.decode tail), l.timestamp = lastLogLine.timestamp := by
  obtain ⟨d, t, hstamp, hcut⟩ := exists_stamp hlast.parse
  unfold parsed
  rcases hstamp.parse_cutOf (hcut tail htail) with hnone | ⟨l, hl, htime⟩
  · rw [hnone]
    exact ⟨rfl, fun l hl => nomatch hl⟩
  · rw [hl]
    refine ⟨rfl, fun l' hl' => ?_⟩
    obtain rfl := Option.mem_some.mp hl'
    exact htime

/-- If there is a log line without the last character, there is one with it. -/
theorem parse_dropLastUnit (hlast : IsLogLine last lastLogLine) (htail : tail <+: last)
    {l : LogLine}
    (h : parseLogLine (some (HeaderInfo.dropLastUnit (Lib.Utf8.decode tail))) = .ok (some l)) :
    l.timestamp = lastLogLine.timestamp ∧
      ∃ l' ∈ parsed (Lib.Utf8.decode tail), l'.timestamp = lastLogLine.timestamp := by
  obtain ⟨d, t, hstamp, hcut⟩ := exists_stamp hlast.parse
  obtain ⟨l', hl', htime⟩ := hstamp.parse_of_dropLastUnit (hcut tail htail) h
  refine ⟨?_, l', ?_, htime⟩
  · rcases hstamp.parse_cutOf (hstamp.cutOf_dropLastUnit (hcut tail htail)) with hnone | ⟨k, hk, hk'⟩
    · rw [hnone] at h
      cases h
    · rw [hk] at h
      obtain rfl := Option.some.inj (Except.ok.inj h)
      exact hk'
  · unfold parsed
    rw [hl']
    rfl

theorem endTimeOf_some {s : List Char} {l : LogLine} (h : parseLogLine (some s) = .ok (some l)) :
    HeaderInfo.endTimeOf s = l.timestamp := by
  unfold HeaderInfo.endTimeOf
  rw [h]

theorem endTimeOf_none {s : List Char} (h : ∀ l, parseLogLine (some s) ≠ .ok (some l)) :
    HeaderInfo.endTimeOf s = Int64.minValue := by
  unfold HeaderInfo.endTimeOf
  split
  · next l hl => exact absurd hl (h l)
  · rfl
  · rfl

/-- The start of the first line is found. -/
theorem start_form {file : File} {lines : List (List UInt8)}
    (hdrop : file.readLines.drop 1 = lines.map Lib.Utf8.decode)
    {ls : List LogLine} (hls : (lines.map Lib.Utf8.decode).filterMap parsed = ls)
    (hnumeric : ∀ line ∈ lines.map Lib.Utf8.decode, ∃ l, parseLogLine (some line) = .ok l)
    (hfirst : ∀ line ∈ lines.head?, parsed (Lib.Utf8.decode line) = none → ls = [])
    (hsorted : ls.Pairwise fun l l' => l.timestamp ≤ l'.timestamp) :
    ∃ x, HeaderInfo.getStartBucketTime file = .ok x ∧ (∀ l ∈ ls, x ≤ l.timestamp) ∧
      (x = Int64.maxValue ∨ ∃ l ∈ ls, x = l.timestamp) := by
  have hline : file.readLines[1]? = (lines.map Lib.Utf8.decode).head? := by
    rw [← hdrop, List.head?_drop]
  unfold HeaderInfo.getStartBucketTime
  rw [hline]
  cases lines with
  | nil =>
    subst hls
    exact ⟨Int64.maxValue, rfl, fun l hl => absurd hl List.not_mem_nil, Or.inl rfl⟩
  | cons line lines =>
    obtain ⟨⟨l, hl⟩, -⟩ := List.forall_mem_cons.mp hnumeric
    have hparsed : parsed (Lib.Utf8.decode line) = l := by
      unfold parsed
      rw [hl]
    rw [List.map_cons, List.head?_cons]
    dsimp only
    rw [hl]
    cases l with
    | none =>
      obtain rfl := hfirst line rfl hparsed
      exact ⟨Int64.maxValue, rfl, fun l hl => absurd hl List.not_mem_nil, Or.inl rfl⟩
    | some l =>
      rw [List.map_cons, List.filterMap_cons_some hparsed] at hls
      subst hls
      refine ⟨l.timestamp, rfl, List.forall_mem_cons.mpr ⟨Int64.le_refl _, ?_⟩,
        Or.inr ⟨l, List.mem_cons_self, rfl⟩⟩
      exact (List.pairwise_cons.mp hsorted).1

/-- **A log that ends with a line feed**: the last complete line is found. -/
theorem endTime_full (hheader : OneLine header) (hlength : header.length < 256)
    (hno : ∀ l, parseLogLine (some (Lib.Utf8.decode header)) ≠ .ok (some l))
    (hfull : List.Forall₂ IsLogLine full fullLogLines) :
    HeaderInfo.getEndBucketTime (joinLines (header :: full)) =
      (fullLogLines.getLast?.map LogLine.timestamp).getD Int64.minValue := by
  rcases List.eq_nil_or_concat fullLogLines with rfl | ⟨ls, l, rfl⟩
  · obtain rfl := List.forall₂_nil_right_iff.mp hfull
    have hfile : joinLines [header] = [] ++ (header ++ [10]) := List.flatMap_singleton ..
    rw [hfile, HeaderInfo.getEndBucketTime_append_newline (Or.inl rfl) hheader hlength,
      endTimeOf_none hno]
    rfl
  · rw [List.concat_eq_append] at hfull ⊢
    obtain ⟨line, rest, hline, hrest, hdrop⟩ :=
      List.forall₂_cons_right_iff.mp (List.forall₂_drop_append _ _ _ hfull)
    obtain rfl := List.forall₂_nil_right_iff.mp hrest
    obtain ⟨lines, hlines⟩ : ∃ lines, full = lines ++ [line] :=
      ⟨_, by rw [← hdrop, List.take_append_drop]⟩
    subst hlines
    have hfile : joinLines (header :: (lines ++ [line])) =
        joinLines (header :: lines) ++ (line ++ [10]) := by
      unfold joinLines
      rw [← List.cons_append, List.flatMap_append, List.flatMap_singleton]
    rw [hfile, HeaderInfo.getEndBucketTime_append_newline (lineStart_joinLines _) hline.oneLine
      hline.length_lt, endTimeOf_some hline.parse, List.getLast?_concat]
    rfl

/-- **A log that does not**: the unfinished line counts without its last character. -/
theorem endTime_tail (hlast : IsLogLine last lastLogLine) (htail : tail <+: last)
    (hne : tail ≠ []) :
    HeaderInfo.getEndBucketTime (joinLines (header :: full) ++ tail) =
      HeaderInfo.endTimeOf (HeaderInfo.dropLastUnit (Lib.Utf8.decode tail)) :=
  HeaderInfo.getEndBucketTime_append (lineStart_joinLines _)
    ⟨fun h => hlast.oneLine.1 (htail.subset h), fun h => hlast.oneLine.2 (htail.subset h)⟩ hne
    (htail.length_le.trans_lt hlast.length_lt)

theorem endsWell_form (hheader : OneLine header)
    (hfull : List.Forall₂ IsLogLine full fullLogLines) (htail : OneLine tail) :
    EndsWell (joinLines (header :: full) ++ tail) ↔ tail = [] ∨
      ∃ l, parseLogLine (some (HeaderInfo.dropLastUnit (Lib.Utf8.decode tail))) = .ok (some l) := by
  unfold EndsWell
  by_cases hnil : tail = []
  · refine iff_of_true (Or.inl ?_) (Or.inl hnil)
    rw [hnil, List.append_nil]
    rcases lineStart_joinLines (header :: full) with h | ⟨p, h⟩
    · exact absurd h (by simp [joinLines])
    · rw [h, List.getLast?_concat]
  · have hlast : (joinLines (header :: full) ++ tail).getLast? ≠ some 10 := by
      rw [List.getLast?_append_of_ne_nil _ hnil]
      exact fun h => htail.1 (List.mem_of_getLast? h)
    have hline : (File.readLines (joinLines (header :: full) ++ tail)).getLastD [] =
        Lib.Utf8.decode tail := by
      rw [readLines_form hheader hfull htail, if_neg hnil, ← List.cons_append,
        List.getLastD_concat]
    rw [or_iff_right hlast, or_iff_right hnil, hline]

/-- What is read behind the complete lines. -/
def unfinished (tail : List UInt8) : List (List UInt8) := if tail = [] then [] else [tail]

theorem parsed_decode_nil : parsed (Lib.Utf8.decode []) = none := by
  rw [decode_nil]
  rfl

theorem oneLine_of_initial (hlast : IsLogLine last lastLogLine) (htail : tail <+: last) :
    OneLine tail :=
  ⟨fun h => hlast.oneLine.1 (htail.subset h), fun h => hlast.oneLine.2 (htail.subset h)⟩

/-- The lines behind the header. -/
theorem drop_readLines_form (hheader : OneLine header)
    (hfull : List.Forall₂ IsLogLine full fullLogLines) (htail : OneLine tail) :
    (File.readLines (joinLines (header :: full) ++ tail)).drop 1 =
      (full ++ unfinished tail).map Lib.Utf8.decode := by
  rw [readLines_form hheader hfull htail, List.map_append]
  unfold unfinished
  split_ifs <;> rfl

theorem parse_unfinished (hlast : IsLogLine last lastLogLine) (htail : tail <+: last) :
    ((unfinished tail).map Lib.Utf8.decode).filterMap parsed =
        (parsed (Lib.Utf8.decode tail)).toList ∧
      ∀ line ∈ (unfinished tail).map Lib.Utf8.decode, ∃ l, parseLogLine (some line) = .ok l := by
  unfold unfinished
  split_ifs with hnil
  · rw [hnil, parsed_decode_nil]
    exact ⟨rfl, fun line hline => absurd hline List.not_mem_nil⟩
  · refine ⟨?_, fun line hline => ?_⟩
    · cases h : parsed (Lib.Utf8.decode tail) with
      | none => rw [List.map_singleton, List.filterMap_cons_none h]; rfl
      | some l => rw [List.map_singleton, List.filterMap_cons_some h]; rfl
    · rw [List.mem_singleton.mp hline]
      exact ⟨_, (parse_tail hlast htail).1⟩

/-- The complete lines, and what there is of the last one. -/
theorem parse_form (hfull : List.Forall₂ IsLogLine full fullLogLines)
    (hlast : IsLogLine last lastLogLine) (htail : tail <+: last) :
    ((full ++ unfinished tail).map Lib.Utf8.decode).filterMap parsed =
        fullLogLines ++ (parsed (Lib.Utf8.decode tail)).toList ∧
      ∀ line ∈ (full ++ unfinished tail).map Lib.Utf8.decode,
        ∃ l, parseLogLine (some line) = .ok l := by
  obtain ⟨hfullParsed, hfullNumeric⟩ := parse_full hfull
  obtain ⟨htailParsed, htailNumeric⟩ := parse_unfinished hlast htail
  rw [List.map_append, List.filterMap_append, hfullParsed, htailParsed, List.forall_mem_append]
  exact ⟨rfl, hfullNumeric, htailNumeric⟩

/-- The log lines are in order. -/
theorem pairwise_form (hlast : IsLogLine last lastLogLine) (htail : tail <+: last)
    (hsorted : (fullLogLines ++ [lastLogLine]).Pairwise fun l l' => l.timestamp ≤ l'.timestamp) :
    (fullLogLines ++ (parsed (Lib.Utf8.decode tail)).toList).Pairwise
      fun l l' => l.timestamp ≤ l'.timestamp := by
  obtain ⟨hfullSorted, -, hbefore⟩ := List.pairwise_append.mp hsorted
  refine List.pairwise_append.mpr ⟨hfullSorted, ?_, fun l hl l' hl' => ?_⟩
  · cases parsed (Lib.Utf8.decode tail) with
    | none => exact .nil
    | some l => exact List.pairwise_singleton _ l
  · rw [(parse_tail hlast htail).2 l' (Option.mem_toList.mp hl')]
    exact hbefore l hl _ List.mem_cons_self

/-- If the first line is no log line, there is none. -/
theorem first_form (hfull : List.Forall₂ IsLogLine full fullLogLines) {line : List UInt8}
    (hline : line ∈ (full ++ unfinished tail).head?)
    (hnone : parsed (Lib.Utf8.decode line) = none) :
    fullLogLines ++ (parsed (Lib.Utf8.decode tail)).toList = [] := by
  cases hfull with
  | nil =>
    rw [List.nil_append] at hline
    unfold unfinished at hline
    split_ifs at hline with hnil
    · cases hline
    · obtain rfl := Option.some.inj hline
      rw [hnone]
      rfl
  | cons hlogLine _ =>
    obtain rfl := Option.some.inj hline
    unfold parsed at hnone
    rw [hlogLine.parse] at hnone
    cases hnone

/-- The end time is the one of a log line, if it is one. -/
theorem endTime_form (hheader : OneLine header) (hlength : header.length < 256)
    (hno : ∀ l, parseLogLine (some (Lib.Utf8.decode header)) ≠ .ok (some l))
    (hfull : List.Forall₂ IsLogLine full fullLogLines) (hlast : IsLogLine last lastLogLine)
    (htail : tail <+: last) :
    HeaderInfo.getEndBucketTime (joinLines (header :: full) ++ tail) = Int64.minValue ∨
      ∃ l ∈ fullLogLines ++ (parsed (Lib.Utf8.decode tail)).toList,
        HeaderInfo.getEndBucketTime (joinLines (header :: full) ++ tail) = l.timestamp := by
  by_cases hnil : tail = []
  · rw [hnil, List.append_nil, endTime_full hheader hlength hno hfull]
    cases hget : fullLogLines.getLast? with
    | none => exact Or.inl rfl
    | some l => exact Or.inr ⟨l, List.mem_append_left _ (List.mem_of_getLast? hget), rfl⟩
  · rw [endTime_tail hlast htail hnil]
    by_cases hsome : ∃ l, parseLogLine
        (some (HeaderInfo.dropLastUnit (Lib.Utf8.decode tail))) = .ok (some l)
    · obtain ⟨l, hl⟩ := hsome
      obtain ⟨htime, l', hl', htime'⟩ := parse_dropLastUnit hlast htail hl
      rw [endTimeOf_some hl, htime, ← htime']
      exact Or.inr ⟨l', List.mem_append_right _ (Option.mem_toList.mpr hl'), rfl⟩
    · exact Or.inl (endTimeOf_none (not_exists.mp hsome))

/-- In a log that ends well the end time is the largest one. -/
theorem le_endTime_form (hheader : OneLine header) (hlength : header.length < 256)
    (hno : ∀ l, parseLogLine (some (Lib.Utf8.decode header)) ≠ .ok (some l))
    (hfull : List.Forall₂ IsLogLine full fullLogLines) (hlast : IsLogLine last lastLogLine)
    (htail : tail <+: last)
    (hsorted : (fullLogLines ++ [lastLogLine]).Pairwise fun l l' => l.timestamp ≤ l'.timestamp)
    (hwell : EndsWell (joinLines (header :: full) ++ tail)) {l : LogLine}
    (hl : l ∈ fullLogLines ++ (parsed (Lib.Utf8.decode tail)).toList) :
    l.timestamp ≤ HeaderInfo.getEndBucketTime (joinLines (header :: full) ++ tail) := by
  obtain ⟨hfullSorted, -, hbefore⟩ := List.pairwise_append.mp hsorted
  by_cases hnil : tail = []
  · rw [hnil, List.append_nil, endTime_full hheader hlength hno hfull]
    rw [hnil, parsed_decode_nil, show (none : Option LogLine).toList = [] from rfl,
      List.append_nil] at hl
    rcases List.eq_nil_or_concat fullLogLines with rfl | ⟨ls, l', rfl⟩
    · exact absurd hl List.not_mem_nil
    · rw [List.concat_eq_append] at hl hfullSorted ⊢
      rw [List.getLast?_concat]
      rcases List.mem_append.mp hl with hl | hl
      · exact (List.pairwise_append.mp hfullSorted).2.2 l hl l' List.mem_cons_self
      · rw [List.mem_singleton.mp hl]
        exact Int64.le_refl _
  · have hends := endsWell_form hheader hfull (oneLine_of_initial hlast htail)
    obtain ⟨l', hl'⟩ := (hends.mp hwell).resolve_left hnil
    rw [endTime_tail hlast htail hnil, endTimeOf_some hl', (parse_dropLastUnit hlast htail hl').1]
    rcases List.mem_append.mp hl with hl | hl
    · exact hbefore l hl _ List.mem_cons_self
    · rw [(parse_tail hlast htail).2 l (Option.mem_toList.mp hl)]
      exact Int64.le_refl _

theorem reads_form (hheader : OneLine header) (hlength : header.length < 256)
    (hno : ∀ l, parseLogLine (some (Lib.Utf8.decode header)) ≠ .ok (some l))
    (hfull : List.Forall₂ IsLogLine full fullLogLines) (hlast : IsLogLine last lastLogLine)
    (htail : tail <+: last)
    (hsorted : (fullLogLines ++ [lastLogLine]).Pairwise fun l l' => l.timestamp ≤ l'.timestamp) :
    Reads (joinLines (header :: full) ++ tail)
      (fullLogLines ++ (parsed (Lib.Utf8.decode tail)).toList) := by
  have hone := oneLine_of_initial hlast htail
  have hdrop := drop_readLines_form hheader hfull hone
  obtain ⟨hparsed, hnumeric⟩ := parse_form hfull hlast htail
  refine ⟨by rwa [hdrop], by rw [hdrop, hparsed],
    start_form hdrop hparsed hnumeric (fun _ => first_form hfull) (pairwise_form hlast htail hsorted),
    endTime_form hheader hlength hno hfull hlast htail,
    fun hwell _ => le_endTime_form hheader hlength hno hfull hlast htail hsorted hwell, ?_⟩
  intro hnot
  rw [endsWell_form hheader hfull hone, not_or] at hnot
  rw [endTime_tail hlast htail hnot.1]
  exact endTimeOf_none (not_exists.mp hnot.2)

end Form

/-- Whether something is cut off or not. -/
theorem TruncatedLog.exists_reads (log : TruncatedLog) : ∃ ls, Reads log.file ls := by
  rcases List.prefix_concat_iff.mp log.kept_prefix with hkept | hkept
  · have hfull : List.Forall₂ IsLogLine (log.lines ++ [log.last])
        (log.logLines ++ [log.lastLogLine]) :=
      List.rel_append log.isLogLine_lines (.cons log.isLogLine_last .nil)
    have hsorted : ((log.logLines ++ [log.lastLogLine]) ++ [log.lastLogLine]).Pairwise
        fun l l' => l.timestamp ≤ l'.timestamp := by
      refine List.pairwise_append.mpr ⟨log.sorted, List.pairwise_singleton _ _, ?_⟩
      intro l hl l' hl'
      rw [List.mem_singleton.mp hl']
      rcases List.mem_append.mp hl with hl | hl
      · exact (List.pairwise_append.mp log.sorted).2.2 l hl _ List.mem_cons_self
      · rw [List.mem_singleton.mp hl]
        exact Int64.le_refl _
    have hfile : log.file = joinLines (log.header :: (log.lines ++ [log.last])) ++ [] := by
      unfold TruncatedLog.file joinLines
      rw [hkept, List.append_nil, ← List.cons_append, List.flatMap_append,
        List.flatMap_singleton]
    rw [hfile]
    exact ⟨_, reads_form log.header_oneLine log.header_length log.header_noLogLine hfull
      log.isLogLine_last List.nil_prefix hsorted⟩
  · exact ⟨_, reads_form log.header_oneLine log.header_length log.header_noLogLine
      log.isLogLine_lines log.isLogLine_last hkept log.sorted⟩

/-! ### The window -/

/-- The smallest timestamp of all log lines. -/
def firstTimestamp (files : List File) : ℤ :=
  (((logLinesOf files).map fun l => l.timestamp.toInt).min?).getD 0

/-- The largest one. -/
def lastTimestamp (files : List File) : ℤ :=
  (((logLinesOf files).map fun l => l.timestamp.toInt).max?).getD 0

/-- **The cut is right**: for every type and every time to cut, the lines that `processLine` counts
between the times that `getBuckets` computes are those from the first timestamp and this time to the
last one without it. -/
def CutRight (files : List File) : Prop :=
  ∃ start, LogAnalizer.getStartBucketTime files = .ok start ∧
    ∀ (messageType : List Char) (startupCooldownTime : Int64), 0 ≤ startupCooldownTime →
      ∀ l ∈ logLinesOf files, messageType <+: l.name →
        (Counts messageType (start + startupCooldownTime)
            (LogAnalizer.getEndBucketTime files - startupCooldownTime) l ↔
          firstTimestamp files + startupCooldownTime.toInt ≤ l.timestamp.toInt ∧
            l.timestamp.toInt ≤ lastTimestamp files - startupCooldownTime.toInt)

/-- The largest timestamp is one of a file that ends well, or `Long.MIN_VALUE`. -/
def LastEndsWell (files : List File) : Prop :=
  ∀ l ∈ logLinesOf files, l.timestamp = Int64.minValue ∨
    ∃ file ∈ files, EndsWell file ∧ ∃ l' ∈ logLinesOf [file], l.timestamp ≤ l'.timestamp

theorem mem_logLinesOf {files : List File} {l : LogLine} :
    l ∈ logLinesOf files ↔ ∃ file ∈ files, l ∈ logLinesOf [file] := by
  unfold logLinesOf linesOf
  simp only [List.mem_filterMap, List.mem_flatMap, List.flatMap_singleton]
  constructor
  · rintro ⟨line, ⟨file, hfile, hline⟩, hl⟩
    exact ⟨file, hfile, line, hline, hl⟩
  · rintro ⟨file, hfile, line, hline, hl⟩
    exact ⟨line, ⟨file, hfile, hline⟩, hl⟩

theorem foldl_earlier_spec (files : List File) (m : Int64) :
    (∀ file ∈ files,
      files.foldl (fun m file => earlier m (headerStart file)) m ≤ headerStart file) ∧
      (files.foldl (fun m file => earlier m (headerStart file)) m = m ∨
        ∃ file ∈ files,
          files.foldl (fun m file => earlier m (headerStart file)) m = headerStart file) := by
  refine (Lib.Tables.foldl_first (r := (· ≤ ·)) Int64.le_refl Int64.le_trans (fun m x => ?_)
    headerStart files m).2
  unfold earlier
  simp only [gt_iff_lt, Int64.le_iff_toInt_le, Int64.lt_iff_toInt_lt]
  split_ifs with hlt
  · exact ⟨by omega, le_rfl, Or.inr rfl⟩
  · exact ⟨le_rfl, by omega, Or.inl rfl⟩

theorem getEndBucketTime_spec (files : List File) :
    (∀ file ∈ files, HeaderInfo.getEndBucketTime file ≤ LogAnalizer.getEndBucketTime files) ∧
      (LogAnalizer.getEndBucketTime files = Int64.minValue ∨ ∃ file ∈ files,
        LogAnalizer.getEndBucketTime files = HeaderInfo.getEndBucketTime file) := by
  refine (Lib.Tables.foldl_first (r := (· ≥ ·)) (f := fun m x => if m < x then x else m)
    Int64.le_refl (fun h h' => Int64.le_trans h' h) (fun m x => ?_)
    HeaderInfo.getEndBucketTime files Int64.minValue).2
  simp only [ge_iff_le, Int64.le_iff_toInt_le, Int64.lt_iff_toInt_lt]
  split_ifs with hlt
  · exact ⟨by omega, le_rfl, Or.inr rfl⟩
  · exact ⟨le_rfl, by omega, Or.inl rfl⟩

/-- Sums that leave the range of `long` do no harm between the first and the last timestamp. -/
theorem window_iff {first last t c : Int64} (hfirst : first ≤ t) (hlast : t ≤ last) (hc : 0 ≤ c) :
    first + c ≤ t ∧ t ≤ last - c ↔
      first.toInt + c.toInt ≤ t.toInt ∧ t.toInt ≤ last.toInt - c.toInt := by
  have hfirst' := Int64.le_iff_toInt_le.mp hfirst
  have hlast' := Int64.le_iff_toInt_le.mp hlast
  have hc' : (0 : Int64).toInt ≤ c.toInt := Int64.le_iff_toInt_le.mp hc
  rw [Int64.toInt_zero] at hc'
  have hmin := first.le_toInt
  have hmax := last.toInt_lt
  have hcmax := c.toInt_lt
  rw [Int64.le_iff_toInt_le, Int64.le_iff_toInt_le, Int64.toInt_add, Int64.toInt_sub,
    Int.bmod_def, Int.bmod_def]
  split_ifs <;> omega

theorem logLinesOf_reads {file : File} {ls : List LogLine} (hreads : Reads file ls) :
    logLinesOf [file] = ls := by
  unfold logLinesOf linesOf
  rw [List.flatMap_singleton]
  exact hreads.logLines

section Files

variable {files : List File} (h : ∀ file ∈ files, ∃ ls, Reads file ls)
include h

theorem numeric_reads : Numeric files := by
  intro line hline
  obtain ⟨file, hfile, hline⟩ := List.mem_flatMap.mp hline
  obtain ⟨ls, hls⟩ := h file hfile
  exact hls.numeric line hline

/-- **The start is the first timestamp**, where there is one. -/
theorem exists_start : ∃ start, LogAnalizer.getStartBucketTime files = .ok start ∧
    (∀ l ∈ logLinesOf files, start ≤ l.timestamp) ∧
    (logLinesOf files ≠ [] → ∃ l ∈ logLinesOf files, start = l.timestamp) := by
  obtain ⟨hle, hattained⟩ := foldl_earlier_spec files Int64.maxValue
  have hheader : ∀ file ∈ files, (∀ l ∈ logLinesOf [file], headerStart file ≤ l.timestamp) ∧
      (headerStart file = Int64.maxValue ∨
        ∃ l ∈ logLinesOf [file], headerStart file = l.timestamp) := by
    intro file hfile
    obtain ⟨ls, hls⟩ := h file hfile
    obtain ⟨x, hx, hmin, hmem⟩ := hls.start
    have hstart : headerStart file = x := by
      unfold headerStart
      rw [hx]
      rfl
    rw [hstart, logLinesOf_reads hls]
    exact ⟨hmin, hmem⟩
  have hmin : ∀ l ∈ logLinesOf files,
      files.foldl (fun m file => earlier m (headerStart file)) Int64.maxValue ≤ l.timestamp := by
    intro l hl
    obtain ⟨file, hfile, hl⟩ := mem_logLinesOf.mp hl
    exact Int64.le_trans (hle file hfile) ((hheader file hfile).1 l hl)
  refine ⟨_, getStartBucketTime_eq (numeric_reads h), hmin, fun hne => ?_⟩
  -- a start that is no timestamp is the largest `long`, and then every timestamp is
  have hmax : files.foldl (fun m file => earlier m (headerStart file)) Int64.maxValue =
      Int64.maxValue → ∃ l ∈ logLinesOf files,
        files.foldl (fun m file => earlier m (headerStart file)) Int64.maxValue =
          l.timestamp := by
    intro heq
    obtain ⟨l, hl⟩ := List.exists_mem_of_ne_nil _ hne
    have hle := hmin l hl
    rw [heq] at hle ⊢
    exact ⟨l, hl, Int64.le_antisymm hle (Int64.le_maxValue _)⟩
  rcases hattained with heq | ⟨file, hfile, heq⟩
  · exact hmax heq
  · rcases (hheader file hfile).2 with heq' | ⟨l, hl, heq'⟩
    · exact hmax (heq.trans heq')
    · exact ⟨l, mem_logLinesOf.mpr ⟨file, hfile, hl⟩, heq.trans heq'⟩

/-- **The end is the timestamp of a line**, or of none. -/
theorem endTime_le {l : LogLine}
    (hmax : ∀ l' ∈ logLinesOf files, l'.timestamp ≤ l.timestamp) :
    LogAnalizer.getEndBucketTime files ≤ l.timestamp := by
  rcases (getEndBucketTime_spec files).2 with heq | ⟨file, hfile, heq⟩
  · rw [heq]
    exact Int64.minValue_le _
  · obtain ⟨ls, hls⟩ := h file hfile
    rw [heq]
    rcases hls.endTime with heq' | ⟨l', hl', heq'⟩
    · rw [heq']
      exact Int64.minValue_le _
    · rw [heq']
      rw [← logLinesOf_reads hls] at hl'
      exact hmax l' (mem_logLinesOf.mpr ⟨file, hfile, hl'⟩)

/-- The end is not before the last line of a file that ends well, and of no other file. -/
theorem le_endTime_iff (l : LogLine) :
    l.timestamp ≤ LogAnalizer.getEndBucketTime files ↔ l.timestamp = Int64.minValue ∨
      ∃ file ∈ files, EndsWell file ∧ ∃ l' ∈ logLinesOf [file], l.timestamp ≤ l'.timestamp := by
  obtain ⟨hle, hattained⟩ := getEndBucketTime_spec files
  constructor
  · intro hend
    have hnone : LogAnalizer.getEndBucketTime files = Int64.minValue →
        l.timestamp = Int64.minValue := by
      intro heq
      rw [heq] at hend
      exact Int64.le_antisymm hend (Int64.minValue_le _)
    rcases hattained with heq | ⟨file, hfile, heq⟩
    · exact Or.inl (hnone heq)
    · obtain ⟨ls, hls⟩ := h file hfile
      by_cases hwell : EndsWell file
      · rcases hls.endTime with heq' | ⟨l', hl', heq'⟩
        · exact Or.inl (hnone (heq.trans heq'))
        · refine Or.inr ⟨file, hfile, hwell, l', (logLinesOf_reads hls).symm ▸ hl', ?_⟩
          rw [heq, heq'] at hend
          exact hend
      · exact Or.inl (hnone (heq.trans (hls.not_endsWell hwell)))
  · rintro (heq | ⟨file, hfile, hwell, l', hl', hle'⟩)
    · rw [heq]
      exact Int64.minValue_le _
    · obtain ⟨ls, hls⟩ := h file hfile
      rw [logLinesOf_reads hls] at hl'
      exact Int64.le_trans hle' (Int64.le_trans (hls.endsWell hwell l' hl') (hle file hfile))

end Files

/-- The window is right iff the last timestamp is found. -/
theorem cutRight_of_reads {files : List File} (h : ∀ file ∈ files, ∃ ls, Reads file ls) :
    CutRight files ↔ LastEndsWell files := by
  obtain ⟨start, hstart, hmin, hfirst⟩ := exists_start h
  by_cases hnil : logLinesOf files = []
  · refine iff_of_true ⟨start, hstart, fun _ _ _ l hl => ?_⟩ fun l hl => ?_
    · rw [hnil] at hl
      exact absurd hl List.not_mem_nil
    · rw [hnil] at hl
      exact absurd hl List.not_mem_nil
  · obtain ⟨first, hfirstMem, rfl⟩ := hfirst hnil
    have hfirstTime : firstTimestamp files = first.timestamp.toInt := by
      have hmin? : ((logLinesOf files).map fun l => l.timestamp.toInt).min? =
          some first.timestamp.toInt := by
        rw [List.min?_eq_some_iff]
        refine ⟨List.mem_map_of_mem hfirstMem, fun t ht => ?_⟩
        obtain ⟨l, hl, rfl⟩ := List.mem_map.mp ht
        exact Int64.le_iff_toInt_le.mp (hmin l hl)
      unfold firstTimestamp
      rw [hmin?]
      rfl
    obtain ⟨last, hlastMem, hmax, hlastTime⟩ : ∃ last ∈ logLinesOf files,
        (∀ l ∈ logLinesOf files, l.timestamp ≤ last.timestamp) ∧
          lastTimestamp files = last.timestamp.toInt := by
      have hne : ((logLinesOf files).map fun l => l.timestamp.toInt) ≠ [] := by
        rwa [Ne, List.map_eq_nil_iff]
      obtain ⟨t, ht⟩ := Option.isSome_iff_exists.mp (List.isSome_max?_of_ne_nil hne)
      obtain ⟨hmem, hle⟩ := List.max?_eq_some_iff.mp ht
      obtain ⟨last, hlast, rfl⟩ := List.mem_map.mp hmem
      refine ⟨last, hlast, fun l hl => ?_, by unfold lastTimestamp; rw [ht]; rfl⟩
      exact Int64.le_iff_toInt_le.mpr (hle _ (List.mem_map_of_mem hl))
    constructor
    · rintro ⟨start', hstart', hright⟩
      obtain rfl := Except.ok.inj (hstart.symm.trans hstart')
      -- the last line counts, with no time to cut
      have hcounts := (hright [] 0 (Int64.le_refl 0) last hlastMem List.nil_prefix).mpr (by
        rw [hfirstTime, hlastTime, Int64.toInt_zero, add_zero, sub_zero]
        exact ⟨Int64.le_iff_toInt_le.mp (hmin last hlastMem), le_rfl⟩)
      have hend : last.timestamp ≤ LogAnalizer.getEndBucketTime files := by
        have hle := hcounts.1.2
        rwa [Int64.sub_zero] at hle
      intro l hl
      exact (le_endTime_iff h l).mp (Int64.le_trans (hmax l hl) hend)
    · intro hends
      have hend : LogAnalizer.getEndBucketTime files = last.timestamp :=
        Int64.le_antisymm (endTime_le h hmax)
          ((le_endTime_iff h last).mpr (hends last hlastMem))
      refine ⟨_, hstart, fun messageType c hc l hl hname => ?_⟩
      rw [hend, hfirstTime, hlastTime, ← window_iff (hmin l hl) (hmax l hl) hc]
      exact and_iff_left hname

/-- **The cut is right** iff the largest timestamp is that of a log that ends well. -/
theorem cutRight_iff (logs : List TruncatedLog) :
    CutRight (logs.map TruncatedLog.file) ↔ LastEndsWell (logs.map TruncatedLog.file) := by
  refine cutRight_of_reads fun file hfile => ?_
  obtain ⟨log, -, rfl⟩ := List.mem_map.mp hfile
  exact log.exists_reads

/-- The bytes of a line. -/
def bytesOf (duration : Int32) (timestamp : Int64) : List UInt8 :=
  (lineOf duration.toInt timestamp.toInt ['A']).flatMap String.utf8EncodeChar

theorem isLogLine_bytesOf {duration : Int32} {timestamp : Int64}
    (hlength : (bytesOf duration timestamp).length < 256) :
    IsLogLine (bytesOf duration timestamp) ⟨duration, timestamp, ['A'], []⟩ where
  oneLine := oneLine_encode (noLineEnd_lineOf (by decide) _ _)
  length_lt := hlength
  parse := by
    unfold bytesOf
    rw [Lib.Utf8.decode_flatMap]
    exact parseLogLine_lineOf (by decide) (by decide) _ _

/-- A line at time 5, and one at time 8 of which only the bytes `9;8` have been written. -/
def cutLog : TruncatedLog where
  header := ['B'].flatMap String.utf8EncodeChar
  lines := [bytesOf 7 5]
  last := bytesOf 9 8
  kept := (bytesOf 9 8).take 3
  header_oneLine := by decide
  header_length := by decide
  header_noLogLine := by
    rw [Lib.Utf8.decode_flatMap]
    rintro l ⟨⟩
  logLines := [⟨7, 5, ['A'], []⟩]
  lastLogLine := ⟨9, 8, ['A'], []⟩
  isLogLine_lines := .cons (isLogLine_bytesOf (by decide)) .nil
  isLogLine_last := isLogLine_bytesOf (by decide)
  sorted := by decide
  kept_prefix := (List.take_prefix _ _).trans (List.prefix_append _ _)

/-- Neither line is found, so nothing counts. -/
theorem cutLog_not_cutRight : ¬ CutRight [cutLog.file] := by
  have htail : cutLog.kept <+: cutLog.last := List.take_prefix _ _
  have hdecode : Lib.Utf8.decode cutLog.kept = ['9', ';', '8'] :=
    Lib.Utf8.decode_flatMap ['9', ';', '8']
  have hreads : Reads cutLog.file
      ([⟨7, 5, ['A'], []⟩] ++ (parsed (Lib.Utf8.decode cutLog.kept)).toList) :=
    reads_form cutLog.header_oneLine cutLog.header_length cutLog.header_noLogLine
      cutLog.isLogLine_lines cutLog.isLogLine_last htail cutLog.sorted
  have hnot : ¬ EndsWell cutLog.file := by
    have hkept : OneLine cutLog.kept := by decide
    have hends := endsWell_form cutLog.header_oneLine cutLog.isLogLine_lines hkept
    unfold TruncatedLog.file
    rw [hends, hdecode]
    rintro (hnil | ⟨l, hl⟩)
    · exact absurd hnil (by decide)
    · cases hl
  rw [cutRight_of_reads (List.forall_mem_singleton.mpr ⟨_, hreads⟩)]
  intro hends
  have hline : (⟨7, 5, ['A'], []⟩ : LogLine) ∈ logLinesOf [cutLog.file] := by
    rw [logLinesOf_reads hreads]
    exact List.mem_append_left _ List.mem_cons_self
  rcases hends _ hline with hmin | ⟨file, hfile, hwell, -⟩
  · exact absurd hmin (by decide)
  · rw [List.mem_singleton.mp hfile] at hwell
    exact hnot hwell

end Mlmq.Log
