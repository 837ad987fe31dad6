import Mlmq.Lib.Utf8
import Mlmq.Log.PerformanceLog

/-! # The first and the last line of a log

`HeaderInfo` reads the first timestamp of a log from the line behind the header, and the last one
from the last 256 bytes. It takes the last character for the line feed at the end and drops it: the
line is found in a file that ends with a line feed (`getEndBucketTime_append_newline`), and is
shortened in one that does not (`getEndBucketTime_append`). -/

namespace Mlmq.Log

open Mlmq.Lib.Text Mlmq.Lib.Nio PerformanceLog

/-- The contents of a file. -/
abbrev File := List UInt8

/-- What a `BufferedReader` delivers, line by line, in UTF-8. -/
def File.readLines (file : File) : List (List Char) := Lib.Text.readLines (Lib.Utf8.decode file)

namespace HeaderInfo

def getStartBucketTime (file : File) : Except Throwable Int64 := do
  let firstLine := file.readLines[1]?
  return match ← parseLogLine firstLine with
    | none => Int64.maxValue
    | some l => l.timestamp

/-- The substring without the last UTF-16 unit. Half of a surrogate pair is no character, and
`U+FFFD` stands for it: neither is a digit, a separator or the end of a line. -/
def dropLastUnit (s : List Char) : List Char :=
  match s.getLast? with
  | none => []
  | some c => if c.toNat < 2 ^ 16 then s.dropLast else s.dropLast ++ ['\uFFFD']

/-- Any exception is caught. -/
def getEndBucketTime (file : File) : Int64 :=
  let buffer := file.drop (file.length - 256)
  -- nothing can be read from an empty file, and `numBytes` is no length
  if buffer = [] then Int64.minValue
  else
    let lastLine := Lib.Utf8.decode buffer
    -- what is before the last unit and behind the last line feed there
    let lastLine := (dropLastUnit lastLine).rtakeWhile (· ≠ '\n')
    match parseLogLine (some lastLine) with
    | .ok (some l) => l.timestamp
    | .ok none => Int64.minValue
    | .error _ => Int64.minValue

end HeaderInfo

/-! ### Lines of bytes -/

/-- No byte of it ends a line. -/
def OneLine (line : List UInt8) : Prop := 10 ∉ line ∧ 13 ∉ line

instance (line : List UInt8) : Decidable (OneLine line) := inferInstanceAs (Decidable (_ ∧ _))

theorem OneLine.noLineEnd {line : List UInt8} (h : OneLine line) :
    NoLineEnd (Lib.Utf8.decode line) :=
  ⟨fun hn => h.1 (Lib.Utf8.mem_of_mem_decode (a := 10) (by decide) hn),
    fun hr => h.2 (Lib.Utf8.mem_of_mem_decode (a := 13) (by decide) hr)⟩

theorem decode_append_newline (bs rest : List UInt8) :
    Lib.Utf8.decode (bs ++ 10 :: rest) =
      Lib.Utf8.decode bs ++ '\n' :: Lib.Utf8.decode rest :=
  Lib.Utf8.decode_append_ascii_cons (a := 10) (by decide) bs rest

theorem decode_nil : Lib.Utf8.decode [] = [] := by rw [Lib.Utf8.decode]

theorem decode_ne_nil {bs : List UInt8} (h : bs ≠ []) : Lib.Utf8.decode bs ≠ [] := by
  rw [Lib.Utf8.decode_of_ne_nil h]
  exact List.cons_ne_nil _ _

theorem oneLine_encode {line : List Char} (h : NoLineEnd line) :
    OneLine (line.flatMap String.utf8EncodeChar) := by
  have hmem : ∀ a : UInt8, a < 0x80 → a ∈ line.flatMap String.utf8EncodeChar →
      Char.ofNat a.toNat ∈ line := by
    intro a ha hin
    have hchar := Lib.Utf8.mem_decode ha hin
    rwa [Lib.Utf8.decode_flatMap] at hchar
  exact ⟨fun hn => h.1 (hmem 10 (by decide) hn), fun hr => h.2 (hmem 13 (by decide) hr)⟩

/-! ### Files -/

/-- A file with these lines. -/
def File.ofLines (lines : List (List Char)) : File :=
  (lines.flatMap fun line => line ++ ['\n']).flatMap String.utf8EncodeChar

theorem readLines_ofLines {lines : List (List Char)} (h : ∀ line ∈ lines, NoLineEnd line) :
    (File.ofLines lines).readLines = lines := by
  unfold File.readLines File.ofLines
  rw [Lib.Utf8.decode_flatMap]
  have hlines := readLines_flatMap_append h []
  rwa [List.append_nil, show Lib.Text.readLines [] = [] from rfl, List.append_nil] at hlines

theorem ofLines_concat (lines : List (List Char)) (line : List Char) :
    File.ofLines (lines ++ [line]) =
      File.ofLines lines ++ (line.flatMap String.utf8EncodeChar ++ [10]) := by
  unfold File.ofLines
  rw [List.flatMap_append, List.flatMap_append, List.flatMap_singleton, List.flatMap_append]
  rfl

/-- A line starts behind these bytes. -/
def LineStart (pre : List UInt8) : Prop := pre = [] ∨ ∃ p, pre = p ++ [10]

theorem lineStart_ofLines (lines : List (List Char)) : LineStart (File.ofLines lines) := by
  rcases List.eq_nil_or_concat lines with rfl | ⟨lines, line, rfl⟩
  · exact Or.inl rfl
  · rw [List.concat_eq_append, ofLines_concat, ← List.append_assoc]
    exact Or.inr ⟨_, rfl⟩

theorem LineStart.drop {pre : List UInt8} (h : LineStart pre) (n : ℕ) : LineStart (pre.drop n) := by
  rcases h with rfl | ⟨p, rfl⟩
  · exact Or.inl (List.drop_nil)
  · by_cases hn : n ≤ p.length
    · exact Or.inr ⟨p.drop n, List.drop_append_of_le_length hn⟩
    · refine Or.inl (List.drop_eq_nil_of_le ?_)
      rw [List.length_append, List.length_singleton]
      omega

/-- What is decoded behind the start of a line. -/
theorem LineStart.decode_append {pre : List UInt8} (h : LineStart pre) (bs : List UInt8) :
    ∃ cs, (cs = [] ∨ ∃ cs', cs = cs' ++ ['\n']) ∧
      Lib.Utf8.decode (pre ++ bs) = cs ++ Lib.Utf8.decode bs := by
  rcases h with rfl | ⟨p, rfl⟩
  · exact ⟨[], Or.inl rfl, rfl⟩
  · refine ⟨Lib.Utf8.decode p ++ ['\n'], Or.inr ⟨_, rfl⟩, ?_⟩
    rw [List.append_assoc, List.singleton_append, decode_append_newline, List.append_assoc,
      List.singleton_append]

/-! ### The last line -/

namespace HeaderInfo

/-- The timestamp of a line, or what stands for none. -/
def endTimeOf (lastLine : List Char) : Int64 :=
  match parseLogLine (some lastLine) with
  | .ok (some l) => l.timestamp
  | .ok none => Int64.minValue
  | .error _ => Int64.minValue

theorem dropLastUnit_append {s : List Char} (hs : s ≠ []) (cs : List Char) :
    dropLastUnit (cs ++ s) = cs ++ dropLastUnit s := by
  obtain ⟨s, c, rfl⟩ : ∃ s' c, s = s' ++ [c] := ⟨_, _, (List.dropLast_append_getLast hs).symm⟩
  unfold dropLastUnit
  rw [← List.append_assoc, List.getLast?_concat, List.getLast?_concat, List.dropLast_concat,
    List.dropLast_concat]
  dsimp only
  split_ifs
  · rfl
  · rw [List.append_assoc]

theorem dropLastUnit_newline (s : List Char) : dropLastUnit (s ++ ['\n']) = s := by
  unfold dropLastUnit
  rw [List.getLast?_concat, List.dropLast_concat]
  rfl

theorem mem_of_mem_dropLastUnit {s : List Char} {c : Char} (h : c ∈ dropLastUnit s)
    (hc : c ≠ '\uFFFD') : c ∈ s := by
  unfold dropLastUnit at h
  split at h
  · exact absurd h List.not_mem_nil
  · split_ifs at h
    · exact List.mem_of_mem_dropLast h
    · rcases List.mem_append.mp h with h | h
      · exact List.mem_of_mem_dropLast h
      · exact absurd (List.mem_singleton.mp h) hc

/-- What is behind the last line feed. -/
theorem rtakeWhile_append {cs s : List Char} (hcs : cs = [] ∨ ∃ cs', cs = cs' ++ ['\n'])
    (hs : '\n' ∉ s) : (cs ++ s).rtakeWhile (· ≠ '\n') = s := by
  have happend : ∀ s' : List Char, '\n' ∉ s' → (cs ++ s').rtakeWhile (· ≠ '\n') = s' := by
    intro s'
    induction s' using List.reverseRecOn with
    | nil =>
      intro _
      rcases hcs with rfl | ⟨cs', rfl⟩
      · rfl
      · rw [List.append_nil, List.rtakeWhile_concat_neg _ _ _ (by simp)]
    | append_singleton s' c ih =>
      intro hs'
      rw [List.mem_append, not_or, List.mem_singleton] at hs'
      rw [← List.append_assoc, List.rtakeWhile_concat_pos _ _ _ (by simpa using Ne.symm hs'.2),
        ih hs'.1]
  exact happend s hs

/-- The buffer holds the last line, and starts anywhere before it. -/
theorem getEndBucketTime_eq {pre bs : List UInt8} (hpre : LineStart pre) (hbs : bs ≠ [])
    (hlen : bs.length ≤ 256) (hn : '\n' ∉ dropLastUnit (Lib.Utf8.decode bs)) :
    getEndBucketTime (pre ++ bs) = endTimeOf (dropLastUnit (Lib.Utf8.decode bs)) := by
  have hbuffer : (pre ++ bs).drop ((pre ++ bs).length - 256) =
      pre.drop ((pre ++ bs).length - 256) ++ bs := by
    refine List.drop_append_of_le_length ?_
    rw [List.length_append]
    omega
  obtain ⟨cs, hcs, hdecode⟩ := (hpre.drop ((pre ++ bs).length - 256)).decode_append bs
  unfold getEndBucketTime
  rw [hbuffer]
  dsimp only
  rw [if_neg (List.append_ne_nil_of_right_ne_nil _ hbs), hdecode,
    dropLastUnit_append (decode_ne_nil hbs), rtakeWhile_append hcs hn]
  rfl

/-- **The last line is found** in a file that ends with a line feed. -/
theorem getEndBucketTime_append_newline {pre line : List UInt8} (hpre : LineStart pre)
    (hline : OneLine line) (hlen : line.length < 256) :
    getEndBucketTime (pre ++ (line ++ [10])) = endTimeOf (Lib.Utf8.decode line) := by
  have hdecode : Lib.Utf8.decode (line ++ [10]) = Lib.Utf8.decode line ++ ['\n'] := by
    rw [decode_append_newline, decode_nil]
  have hdrop : dropLastUnit (Lib.Utf8.decode (line ++ [10])) = Lib.Utf8.decode line := by
    rw [hdecode, dropLastUnit_newline]
  have hlen' : (line ++ [10]).length ≤ 256 := by
    rw [List.length_append, List.length_singleton]
    omega
  have heq := getEndBucketTime_eq hpre (List.append_ne_nil_of_right_ne_nil line (by decide)) hlen'
    (by rw [hdrop]; exact hline.noLineEnd.1)
  rwa [hdrop] at heq

/-- A line that is not finished loses its last character. -/
theorem getEndBucketTime_append {pre line : List UInt8} (hpre : LineStart pre)
    (hline : OneLine line) (hne : line ≠ []) (hlen : line.length < 256) :
    getEndBucketTime (pre ++ line) = endTimeOf (dropLastUnit (Lib.Utf8.decode line)) := by
  refine getEndBucketTime_eq hpre hne hlen.le fun hn => ?_
  exact hline.noLineEnd.1 (mem_of_mem_dropLastUnit hn (by decide))

end HeaderInfo

end Mlmq.Log
