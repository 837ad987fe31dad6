import Mathlib

/-! # Lines, fields and numbers of a text

What a program reads in a text: its lines, as a buffered reader delivers them, the fields of a line
between separators, and decimal numbers. A text is a list of characters.

* `readLines_append_newline`: text without line ends, and a line feed, is one line.
* `split_intercalate`: fields without the separator are read back, up to the empty ones at the end.
* `flatMap_split`: to split at one separator and then at another is to split at both.
* `parseInteger_showInt`: a number is read back. -/

namespace Mlmq.Lib.Text

/-! ### Lines -/

/-- The lines of a text. A line ends with a line feed, a carriage return, both in this order, or the
end of the text. -/
def readLines : List Char → List (List Char)
  | [] => []
  | '\r' :: '\n' :: s => [] :: readLines s
  | '\n' :: s => [] :: readLines s
  | '\r' :: s => [] :: readLines s
  | c :: s =>
    match readLines s with
    | [] => [[c]]
    | line :: lines => (c :: line) :: lines

/-- No character of it ends a line. -/
def NoLineEnd (s : List Char) : Prop := '\n' ∉ s ∧ '\r' ∉ s

instance (s : List Char) : Decidable (NoLineEnd s) := inferInstanceAs (Decidable (_ ∧ _))

theorem noLineEnd_cons {c : Char} {s : List Char} :
    NoLineEnd (c :: s) ↔ (c ≠ '\n' ∧ c ≠ '\r') ∧ NoLineEnd s := by
  unfold NoLineEnd
  rw [List.mem_cons, List.mem_cons, not_or, not_or, ne_comm, ne_comm (b := '\r')]
  exact and_and_and_comm

theorem readLines_cons {c : Char} (hn : c ≠ '\n') (hr : c ≠ '\r') (s : List Char) :
    readLines (c :: s) =
      match readLines s with
      | [] => [[c]]
      | line :: lines => (c :: line) :: lines := by
  rw [readLines]
  · exact fun _ heq => absurd heq hr
  · exact hn
  · exact hr

/-- A line does not contain its end. -/
theorem noLineEnd_of_mem_readLines {s line : List Char} (h : line ∈ readLines s) :
    NoLineEnd line := by
  have hnil : NoLineEnd [] := ⟨List.not_mem_nil, List.not_mem_nil⟩
  fun_induction readLines s generalizing line with
  | case1 => cases h
  | case2 s ih => exact (List.mem_cons.mp h).elim (fun heq => heq ▸ hnil) ih
  | case3 s ih => exact (List.mem_cons.mp h).elim (fun heq => heq ▸ hnil) ih
  | case4 s _ ih => exact (List.mem_cons.mp h).elim (fun heq => heq ▸ hnil) ih
  | case5 c s _ hn hr hlines ih =>
    obtain rfl := List.mem_singleton.mp h
    exact noLineEnd_cons.mpr ⟨⟨hn, hr⟩, hnil⟩
  | case6 c s _ hn hr first lines hlines ih =>
    rw [hlines] at ih
    rcases List.mem_cons.mp h with rfl | hmem
    · exact noLineEnd_cons.mpr ⟨⟨hn, hr⟩, ih List.mem_cons_self⟩
    · exact ih (List.mem_cons_of_mem _ hmem)

/-- **What is before the first line feed is a line.** -/
theorem readLines_append {s : List Char} (h : NoLineEnd s) (t : List Char) :
    readLines (s ++ '\n' :: t) = s :: readLines t := by
  induction s with
  | nil => rfl
  | cons c s ih =>
    obtain ⟨⟨hn, hr⟩, hs⟩ := noLineEnd_cons.mp h
    rw [List.cons_append, readLines_cons hn hr, ih hs]

/-- A text without line ends, and a line feed, is one line. -/
theorem readLines_append_newline {s : List Char} (h : NoLineEnd s) :
    readLines (s ++ ['\n']) = [s] := readLines_append h []

/-- The end of the text ends a line too. -/
theorem readLines_of_noLineEnd {s : List Char} (h : NoLineEnd s) (hne : s ≠ []) :
    readLines s = [s] := by
  induction s with
  | nil => exact absurd rfl hne
  | cons c s ih =>
    obtain ⟨⟨hn, hr⟩, hs⟩ := noLineEnd_cons.mp h
    rw [readLines_cons hn hr]
    by_cases hs' : s = []
    · rw [hs']
      rfl
    · rw [ih hs hs']

/-- Lines that are written are read back, and what follows them. -/
theorem readLines_flatMap_append {lines : List (List Char)} (h : ∀ line ∈ lines, NoLineEnd line)
    (t : List Char) :
    readLines (lines.flatMap (fun line => line ++ ['\n']) ++ t) = lines ++ readLines t := by
  induction lines with
  | nil => rfl
  | cons line lines ih =>
    obtain ⟨hline, hlines⟩ := List.forall_mem_cons.mp h
    rw [List.flatMap_cons, List.append_assoc, List.append_assoc, List.singleton_append,
      readLines_append hline, ih hlines, List.cons_append]

/-! ### Fields -/

/-- The fields between the separators, without the empty ones at the end. A text without the
separator is one field. -/
def split (sep : Char) (s : List Char) : List (List Char) :=
  if sep ∈ s then (s.splitOn sep).rdropWhile (fun field => field.isEmpty) else [s]

theorem of_mem_splitOn {sep : Char} {s field : List Char} (h : field ∈ s.splitOn sep) :
    sep ∉ field ∧ field ⊆ s := by
  induction s generalizing field with
  | nil =>
    rw [List.splitOn_nil, List.mem_singleton] at h
    rw [h]
    exact ⟨List.not_mem_nil, List.nil_subset _⟩
  | cons c s ih =>
    rw [List.splitOn_cons_eq_if_modifyHead] at h
    split_ifs at h with hc
    · rcases List.mem_cons.mp h with rfl | h
      · exact ⟨List.not_mem_nil, List.nil_subset _⟩
      · exact (ih h).imp_right fun hsub => List.subset_cons_of_subset c hsub
    · obtain ⟨first, rest, hs⟩ := List.exists_cons_of_ne_nil (List.splitOn_ne_nil sep s)
      rw [hs, List.modifyHead_cons] at h
      rw [hs] at ih
      rcases List.mem_cons.mp h with rfl | h
      · obtain ⟨hsep, hsub⟩ := ih List.mem_cons_self
        refine ⟨?_, List.cons_subset_cons c hsub⟩
        rw [List.mem_cons, not_or]
        exact ⟨fun heq => hc (beq_iff_eq.mpr heq.symm), hsep⟩
      · exact (ih (List.mem_cons_of_mem _ h)).imp_right fun hsub =>
          List.subset_cons_of_subset c hsub

/-- **A field has characters of the text, and not the separator.** -/
theorem of_mem_split {sep : Char} {s field : List Char} (h : field ∈ split sep s) :
    sep ∉ field ∧ field ⊆ s := by
  unfold split at h
  split_ifs at h with hsep
  · exact of_mem_splitOn ((List.rdropWhile_prefix _ _).subset h)
  · obtain rfl := List.mem_singleton.mp h
    exact ⟨hsep, List.Subset.refl _⟩

/-- **Fields without the separator are read back**, up to the empty ones at the end. -/
theorem split_intercalate {sep : Char} {fields : List (List Char)} (h : ∀ f ∈ fields, sep ∉ f)
    (htwo : 2 ≤ fields.length) :
    split sep ([sep].intercalate fields) = fields.rdropWhile (fun field => field.isEmpty) := by
  obtain ⟨first, second, rest, rfl⟩ : ∃ first second rest, fields = first :: second :: rest := by
    match fields, htwo with
    | first :: second :: rest, _ => exact ⟨first, second, rest, rfl⟩
  have hmem : sep ∈ [sep].intercalate (first :: second :: rest) := by
    rw [List.intercalate_cons_cons]
    simp
  unfold split
  rw [if_pos hmem, List.splitOn_intercalate sep h (List.cons_ne_nil _ _)]

/-- Only fields behind the last one that is kept are dropped. -/
theorem rdropWhile_append {α : Type} {p : α → Bool} {x : α} (hx : ¬ p x = true) (l r : List α) :
    (l ++ x :: r).rdropWhile p = l ++ x :: r.rdropWhile p := by
  induction r using List.reverseRecOn with
  | nil => rw [List.rdropWhile_concat_neg _ _ _ hx, List.rdropWhile_nil]
  | append_singleton r y ih =>
    rw [← List.cons_append, ← List.append_assoc]
    by_cases hy : p y = true
    · rw [List.rdropWhile_concat_pos _ _ _ hy, List.rdropWhile_concat_pos _ _ _ hy, ih]
    · rw [List.rdropWhile_concat_neg _ _ _ hy, List.rdropWhile_concat_neg _ _ _ hy,
        List.append_assoc, List.cons_append]

theorem length_splitOn (sep : Char) (s : List Char) :
    (s.splitOn sep).length = s.count sep + 1 := by
  induction s with
  | nil => rfl
  | cons c s ih =>
    rw [List.splitOn_cons_eq_if_modifyHead]
    by_cases hc : c = sep
    · rw [if_pos (beq_iff_eq.mpr hc), List.length_cons, ih, hc, List.count_cons_self]
    · rw [if_neg (by simpa using hc), List.length_modifyHead, ih, List.count_cons_of_ne hc]

/-- There is at most one field more than there are separators. -/
theorem length_split_le (sep : Char) (s : List Char) :
    (split sep s).length ≤ s.count sep + 1 := by
  unfold split
  split_ifs
  · exact (List.rdropWhile_prefix _ _).length_le.trans (length_splitOn sep s).le
  · exact Nat.le_add_left 1 _

/-- The first two fields of a text with two separators. -/
theorem split_append {sep : Char} {a b : List Char} (ha : sep ∉ a) (hb : sep ∉ b) (hne : b ≠ [])
    (s : List Char) : split sep (a ++ sep :: (b ++ sep :: s)) =
      a :: b :: (s.splitOn sep).rdropWhile (fun field => field.isEmpty) := by
  unfold split
  rw [if_pos (by simp), List.splitOn_append_cons_self_of_not_mem ha,
    List.splitOn_append_cons_self_of_not_mem hb]
  exact rdropWhile_append (by simpa using hne) [a] _

/-- No field is left iff there are separators only. -/
theorem rdropWhile_splitOn_eq_nil_iff {sep : Char} {s : List Char} :
    (s.splitOn sep).rdropWhile (fun field => field.isEmpty) = [] ↔ ∀ c ∈ s, c = sep := by
  rw [List.rdropWhile_eq_nil_iff]
  induction s with
  | nil => simp
  | cons c s ih =>
    rw [List.splitOn_cons_eq_if_modifyHead, List.forall_mem_cons]
    by_cases hc : c = sep
    · rw [if_pos (beq_iff_eq.mpr hc), List.forall_mem_cons, ih]
      simp [hc]
    · rw [if_neg (by simpa using hc)]
      obtain ⟨first, rest, hs⟩ := List.exists_cons_of_ne_nil (List.splitOn_ne_nil sep s)
      rw [hs, List.modifyHead_cons, List.forall_mem_cons]
      simp [hc]

/-! ### Two separators -/

/-- Without empty fields none is dropped. -/
theorem split_eq_splitOn {sep : Char} {s : List Char} (h : ∀ field ∈ s.splitOn sep, field ≠ []) :
    split sep s = s.splitOn sep := by
  unfold split
  split_ifs with hsep
  · rw [List.rdropWhile_eq_self_iff]
    intro hne hempty
    exact h _ (List.getLast_mem hne) (List.isEmpty_iff.mp hempty)
  · rw [List.splitOn_eq_splitOnP, List.splitOnP_eq_singleton]
    intro c hc
    exact beq_false_of_ne fun heq => hsep (heq ▸ hc)

/-- To split at one kind of separators and then at another is to split at both. -/
theorem flatMap_splitOnP {α : Type*} (p q : α → Bool) (l : List α) :
    (l.splitOnP p).flatMap (List.splitOnP q) = l.splitOnP fun a => p a || q a := by
  induction l with
  | nil => simp
  | cons a l ih =>
    rw [List.splitOnP_cons_eq_if_modifyHead, List.splitOnP_cons_eq_if_modifyHead]
    by_cases hp : p a = true
    · rw [if_pos hp, if_pos (by rw [hp, Bool.true_or]), List.flatMap_cons, ih,
        List.splitOnP_nil, List.singleton_append]
    · rw [if_neg hp]
      obtain ⟨first, rest, hl⟩ := List.exists_cons_of_ne_nil (List.splitOnP_ne_nil p l)
      rw [hl, List.flatMap_cons] at ih
      rw [hl, List.modifyHead_cons, List.flatMap_cons, ← ih,
        List.splitOnP_cons_eq_if_modifyHead]
      have hpq : (p a || q a) = q a := by rw [Bool.eq_false_of_not_eq_true hp, Bool.false_or]
      rw [hpq]
      split_ifs
      · rw [List.cons_append]
      · obtain ⟨f, r, hf⟩ := List.exists_cons_of_ne_nil (List.splitOnP_ne_nil q first)
        rw [hf, List.modifyHead_cons, List.cons_append, List.cons_append, List.modifyHead_cons]

/-- **Fields behind two kinds of separators**, if none is empty. -/
theorem flatMap_split {p q : Char} {s : List Char}
    (h : ∀ field ∈ s.splitOnP (fun c => c == p || c == q), field ≠ []) :
    (split p s).flatMap (split q) = s.splitOnP fun c => c == p || c == q := by
  rw [← flatMap_splitOnP] at h ⊢
  have hinner : ∀ group ∈ s.splitOn p, ∀ field ∈ group.splitOn q, field ≠ [] :=
    fun group hgroup field hfield => h field (List.mem_flatMap_of_mem hgroup hfield)
  have houter : ∀ group ∈ s.splitOn p, group ≠ [] := by
    rintro group hgroup rfl
    exact hinner [] hgroup [] (by simp) rfl
  rw [split_eq_splitOn houter]
  exact List.flatMap_congr fun group hgroup => split_eq_splitOn (hinner group hgroup)

/-- A text made of fields, each but the first one behind a separator. -/
theorem splitOnP_separated {α : Type*} {p : α → Bool} {first : List α}
    {rest : List (α × List α)} (hfirst : ∀ a ∈ first, p a = false)
    (hrest : ∀ x ∈ rest, p x.1 = true ∧ ∀ a ∈ x.2, p a = false) :
    (first ++ rest.flatMap fun x => x.1 :: x.2).splitOnP p = first :: rest.map Prod.snd := by
  induction rest generalizing first with
  | nil => rw [List.flatMap_nil, List.append_nil, List.splitOnP_eq_singleton hfirst, List.map_nil]
  | cons x rest ih =>
    obtain ⟨hx, hrest⟩ := List.forall_mem_cons.mp hrest
    rw [List.flatMap_cons, List.cons_append,
      List.splitOnP_append_cons_of_forall_mem hfirst _ hx.1, ih hx.2 hrest, List.map_cons]

/-! ### Numbers -/

/-- The code points of the digits zero of the basic plane. -/
def digitZeros : List ℕ :=
  [0x30, 0x660, 0x6F0, 0x7C0, 0x966, 0x9E6, 0xA66, 0xAE6, 0xB66, 0xBE6, 0xC66, 0xCE6, 0xD66, 0xE50,
    0xED0, 0xF20, 0x1040, 0x1090, 0x17E0, 0x1810, 0x1946, 0x19D0, 0x1A80, 0x1A90, 0x1B50, 0x1BB0,
    0x1C40, 0x1C50, 0xA620, 0xA8D0, 0xA900, 0xA9D0, 0xAA50, 0xABF0, 0xFF10]

/-- `Character.digit(c, 10)`. -/
def digit (c : Char) : Option ℕ :=
  (digitZeros.find? fun zeroCode => zeroCode ≤ c.toNat ∧ c.toNat < zeroCode + 10).map (c.toNat - ·)

def parseDigits (s : List Char) : Option ℕ :=
  if s = [] then none else s.foldlM (fun n c => do return 10 * n + (← digit c)) 0

/-- A decimal number, with or without a sign. -/
def parseInteger : List Char → Option ℤ
  | '-' :: s => (parseDigits s).map fun n : ℕ => -(n : ℤ)
  | '+' :: s => (parseDigits s).map fun n : ℕ => (n : ℤ)
  | s => (parseDigits s).map fun n : ℕ => (n : ℤ)

/-- The conversion `%d`. -/
def showInt (x : ℤ) : List Char :=
  if x < 0 then '-' :: Nat.toDigits 10 x.natAbs else Nat.toDigits 10 x.natAbs

theorem digit_of_isDigit {c : Char} (h : c.isDigit = true) :
    digit c = some (c.toNat - '0'.toNat) := by
  have hc := Char.isDigit_iff_toNat.mp h
  have hfirst : (decide (0x30 ≤ c.toNat ∧ c.toNat < 0x30 + 10)) = true :=
    decide_eq_true ⟨hc.1, Nat.lt_succ_of_le hc.2⟩
  have hfind : (digitZeros.find? fun zeroCode =>
      zeroCode ≤ c.toNat ∧ c.toNat < zeroCode + 10) = some 0x30 := by
    unfold digitZeros
    exact List.find?_cons_of_pos hfirst
  unfold digit
  rw [hfind]
  rfl

theorem foldlM_digit {s : List Char} (h : ∀ c ∈ s, c.isDigit = true) (r : ℕ) :
    s.foldlM (fun n c => do return 10 * n + (← digit c)) r = some (Nat.ofDigitChars 10 s r) := by
  induction s generalizing r with
  | nil => rfl
  | cons c s ih =>
    obtain ⟨hc, hs⟩ := List.forall_mem_cons.mp h
    rw [List.foldlM_cons, digit_of_isDigit hc, Nat.ofDigitChars_cons]
    exact ih hs _

theorem isDigit_of_mem_toDigits {n : ℕ} {c : Char} (h : c ∈ Nat.toDigits 10 n) :
    c.isDigit = true := Nat.isDigit_of_mem_toDigits (by decide) (by decide) h

theorem parseDigits_toDigits (n : ℕ) : parseDigits (Nat.toDigits 10 n) = some n := by
  unfold parseDigits
  rw [if_neg Nat.toDigits_ne_nil, foldlM_digit fun c hc => isDigit_of_mem_toDigits hc,
    Nat.ofDigitChars_ten_toDigits]

/-- **A number is read back.** -/
theorem parseInteger_showInt (x : ℤ) : parseInteger (showInt x) = some x := by
  unfold showInt
  split_ifs with hneg
  · rw [parseInteger, parseDigits_toDigits, Option.map_some]
    congr 1
    omega
  · have hdigits := parseDigits_toDigits x.natAbs
    have hisDigit := fun c => isDigit_of_mem_toDigits (n := x.natAbs) (c := c)
    generalize Nat.toDigits 10 x.natAbs = digits at hdigits hisDigit
    rw [parseInteger, hdigits, Option.map_some]
    · congr 1
      omega
    · rintro s rfl
      exact absurd (hisDigit _ List.mem_cons_self) (by decide)
    · rintro s rfl
      exact absurd (hisDigit _ List.mem_cons_self) (by decide)

@[simp] theorem isEmpty_showInt (x : ℤ) : (showInt x).isEmpty = false := by
  unfold showInt
  split_ifs
  · rfl
  · exact List.isEmpty_eq_false_iff.mpr Nat.toDigits_ne_nil

/-- A number has digits and a sign only. -/
theorem not_mem_showInt {c : Char} (hdigit : c.isDigit = false) (hsign : c ≠ '-') (x : ℤ) :
    c ∉ showInt x := by
  have hnot : c ∉ Nat.toDigits 10 x.natAbs := fun hmem => by
    rw [isDigit_of_mem_toDigits hmem] at hdigit
    cases hdigit
  unfold showInt
  split_ifs
  · rw [List.mem_cons, not_or]
    exact ⟨hsign, hnot⟩
  · exact hnot

end Mlmq.Lib.Text
