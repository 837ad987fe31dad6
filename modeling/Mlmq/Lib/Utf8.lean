import Mathlib

/-! # UTF-8 with replacement

`getBytes` encodes a string; `newString` decodes any byte string, replacing malformed input by
U+FFFD as the decoder of the Java platform does: a malformed piece is a first byte with as many of
its continuation bytes as make sense (`malformedLength`).

* `newString_getBytes`: decoding inverts encoding.
* `newString_eq_empty`: only the empty byte string decodes to the empty string.
* `decode_append_ascii_cons`: an ASCII byte is decoded by itself, whatever is around it, so two byte
  strings that differ only in their last, ASCII bytes decode differently
  (`newString_append_ascii`). -/

namespace Mlmq.Lib.Utf8

/-- The bytes of a string. -/
def getBytes (s : String) : List UInt8 := s.toList.flatMap String.utf8EncodeChar

/-- The well-formed character at the front, if there is one. -/
def decodeChar? (bs : List UInt8) : Option Char := bs.toByteArray.utf8DecodeChar? 0

/-- Continuation bytes are `10xxxxxx`. -/
def isContinuation (b : UInt8) : Bool := 0x80 ≤ b && b ≤ 0xbf

/-- Whether `b2` can follow the first byte `b1` of a sequence of three or four bytes. -/
def secondFits (b1 b2 : UInt8) : Bool :=
  isContinuation b2 &&
    (if b1 == 0xe0 then 0xa0 ≤ b2
     else if b1 == 0xf0 then 0x90 ≤ b2
     else if b1 == 0xf4 then b2 ≤ 0x8f
     else 0xe1 ≤ b1 && b1 ≤ 0xf3)

/-- The length of the malformed piece at the front. -/
def malformedLength : List UInt8 → ℕ
  | b1 :: b2 :: b3 :: _ =>
    if secondFits b1 b2 then (if isContinuation b3 then 3 else 2) else 1
  | [b1, b2] => if secondFits b1 b2 then 2 else 1
  | _ => 1

/-- The character at the front, U+FFFD for a malformed piece, and the number of bytes it takes. -/
def decodeStep (bs : List UInt8) : Char × ℕ :=
  match decodeChar? bs with
  | some c => (c, c.utf8Size)
  | none => ('\uFFFD', malformedLength bs)

theorem malformedLength_pos (bs : List UInt8) : 0 < malformedLength bs := by
  unfold malformedLength
  split
  · split_ifs <;> omega
  · split_ifs <;> omega
  · omega

theorem decodeStep_pos (bs : List UInt8) : 0 < (decodeStep bs).2 := by
  unfold decodeStep
  split
  · next c _ => exact c.utf8Size_pos
  · exact malformedLength_pos bs

/-- The characters of a byte string. -/
def decode : List UInt8 → List Char
  | [] => []
  | b :: bs => (decodeStep (b :: bs)).1 :: decode ((b :: bs).drop (decodeStep (b :: bs)).2)
termination_by bs => bs.length
decreasing_by
  have := decodeStep_pos (b :: bs)
  simp only [List.length_drop, List.length_cons]
  omega

/-- Java's `new String(bytes)` under UTF-8. -/
def newString (bs : List UInt8) : String := String.ofList (decode bs)

theorem decode_of_ne_nil {bs : List UInt8} (h : bs ≠ []) :
    decode bs = (decodeStep bs).1 :: decode (bs.drop (decodeStep bs).2) := by
  obtain ⟨b, bs, rfl⟩ := List.exists_cons_of_ne_nil h
  rw [decode]

/-! ### Decoding what was encoded -/

theorem decodeChar?_encode_append (c : Char) (bs : List UInt8) :
    decodeChar? (String.utf8EncodeChar c ++ bs) = some c := by
  rw [decodeChar?, List.toByteArray_append]
  exact ByteArray.utf8DecodeChar?_utf8EncodeChar_append

theorem decode_encode_append (c : Char) (bs : List UInt8) :
    decode (String.utf8EncodeChar c ++ bs) = c :: decode bs := by
  have hne : String.utf8EncodeChar c ++ bs ≠ [] := by
    have h := c.utf8Size_pos
    rw [← String.length_utf8EncodeChar] at h
    exact List.append_ne_nil_of_left_ne_nil (List.ne_nil_of_length_pos h) _
  have hstep : decodeStep (String.utf8EncodeChar c ++ bs) = (c, c.utf8Size) := by
    rw [decodeStep, decodeChar?_encode_append]
  rw [decode_of_ne_nil hne, hstep, ← String.length_utf8EncodeChar c, List.drop_left]

theorem decode_flatMap (cs : List Char) : decode (cs.flatMap String.utf8EncodeChar) = cs := by
  induction cs with
  | nil => rw [List.flatMap_nil, decode]
  | cons c cs ih => rw [List.flatMap_cons, decode_encode_append, ih]

/-- **Decoding inverts encoding.** -/
@[simp] theorem newString_getBytes (s : String) : newString (getBytes s) = s := by
  rw [newString, getBytes, decode_flatMap, String.ofList_toList]

theorem newString_eq_empty {bs : List UInt8} : newString bs = "" ↔ bs = [] := by
  constructor
  · intro h
    by_contra hne
    have hnil : decode bs = [] := by
      have := congrArg String.toList h
      simpa [newString] using this
    rw [decode_of_ne_nil hne] at hnil
    cases hnil
  · rintro rfl
    rw [newString, decode]

/-! ### ASCII bytes -/

theorem not_isContinuation_of_ascii {a : UInt8} (ha : a < 0x80) : isContinuation a = false := by
  simp [isContinuation, UInt8.not_le.mpr ha]

theorem toNat_ascii {a : UInt8} (ha : a < 0x80) : (Char.ofNat a.toNat).val.toNat = a.toNat := by
  have hlt : a.toNat < 128 := ha
  rw [Char.ofNat, dif_pos (Or.inl (by omega))]
  rfl

theorem encodeChar_ascii {a : UInt8} (ha : a < 0x80) :
    String.utf8EncodeChar (Char.ofNat a.toNat) = [a] := by
  have hlt : a.toNat < 128 := ha
  unfold String.utf8EncodeChar
  simp only [toNat_ascii ha]
  rw [if_pos (by omega), UInt8.ofNat_toNat]

/-- The other bytes of a character are not ASCII. -/
theorem not_ascii_of_mem_encodeChar {c : Char} {a : UInt8} (ha : a < 0x80)
    (h : a ∈ String.utf8EncodeChar c) : String.utf8EncodeChar c = [a] := by
  have hlt : a.toNat < 128 := ha
  unfold String.utf8EncodeChar at h ⊢
  simp only at h ⊢
  split_ifs at h ⊢
  · rw [List.mem_singleton.mp h]
  all_goals
    simp only [List.mem_cons, List.not_mem_nil, or_false] at h
    simp only [← UInt8.toNat_inj, UInt8.toNat_ofNat'] at h
    omega

theorem malformedLength_append_ascii_cons {bs : List UInt8} {a : UInt8} (ha : a < 0x80)
    (h : bs ≠ []) (rest : List UInt8) :
    malformedLength (bs ++ a :: rest) = malformedLength bs ∧ malformedLength bs ≤ bs.length := by
  have hc := not_isContinuation_of_ascii ha
  match bs, h with
  | [b1], _ =>
    have hnot : secondFits b1 a = false := by simp [secondFits, hc]
    cases rest with
    | nil => simp [malformedLength, hnot]
    | cons r rest => simp [malformedLength, hnot]
  | [b1, b2], _ =>
    simp only [malformedLength, List.cons_append, List.nil_append, hc, List.length_cons,
      List.length_nil]
    split_ifs <;> simp_all
  | b1 :: b2 :: b3 :: bs, _ =>
    simp only [malformedLength, List.cons_append, List.length_cons]
    refine ⟨trivial, ?_⟩
    split_ifs <;> omega

theorem exists_of_decodeChar? {bs : List UInt8} {c : Char} (h : decodeChar? bs = some c) :
    ∃ l, bs = String.utf8EncodeChar c ++ l := by
  obtain ⟨l, hl⟩ := ByteArray.exists_of_utf8DecodeChar?_eq_some h
  refine ⟨l.data.toList, ?_⟩
  have := congrArg (fun b : ByteArray => b.data.toList) hl
  simpa using this

/-- The first piece of what is before an ASCII byte does not depend on what follows. -/
theorem decodeStep_append_ascii_cons {bs : List UInt8} {a : UInt8} (ha : a < 0x80) (h : bs ≠ [])
    (rest : List UInt8) :
    decodeStep (bs ++ a :: rest) = decodeStep bs ∧ (decodeStep bs).2 ≤ bs.length := by
  obtain ⟨hlength, hle⟩ := malformedLength_append_ascii_cons ha h rest
  cases hbs : decodeChar? bs with
  | some c =>
    obtain ⟨l, hl⟩ := exists_of_decodeChar? hbs
    have hmore : decodeChar? (bs ++ a :: rest) = some c := by
      rw [hl, List.append_assoc]
      exact decodeChar?_encode_append c _
    have hsize : c.utf8Size ≤ bs.length := by
      rw [hl, List.length_append, String.length_utf8EncodeChar]
      exact Nat.le_add_right _ _
    unfold decodeStep
    rw [hbs, hmore]
    exact ⟨rfl, hsize⟩
  | none =>
    have hmore : decodeChar? (bs ++ a :: rest) = none := by
      by_contra hne
      obtain ⟨c, hc⟩ := Option.ne_none_iff_exists'.mp hne
      obtain ⟨l, hl⟩ := exists_of_decodeChar? hc
      rcases List.append_eq_append_iff.mp hl with ⟨l', hencode, hrest⟩ | ⟨l', hl', -⟩
      · -- the character reaches the ASCII byte
        cases l' with
        | nil =>
          rw [List.append_nil] at hencode
          have hsome := decodeChar?_encode_append c []
          rw [List.append_nil, hencode, hbs] at hsome
          cases hsome
        | cons b l' =>
          obtain rfl : a = b := (List.cons.inj hrest).1
          have hmem : a ∈ String.utf8EncodeChar c := by
            rw [hencode]
            simp
          have hone := not_ascii_of_mem_encodeChar ha hmem
          have hlen := congrArg List.length (hencode.symm.trans hone)
          have hpos := List.length_pos_of_ne_nil h
          rw [List.length_append, List.length_cons, List.length_singleton] at hlen
          omega
      · rw [hl', decodeChar?_encode_append] at hbs
        cases hbs
    unfold decodeStep
    rw [hbs, hmore]
    exact ⟨by rw [hlength], hle⟩

/-- **What is around an ASCII byte is decoded by itself.** -/
theorem decode_append_ascii_cons {a : UInt8} (ha : a < 0x80) (bs rest : List UInt8) :
    decode (bs ++ a :: rest) = decode bs ++ Char.ofNat a.toNat :: decode rest := by
  induction hn : bs.length using Nat.strong_induction_on generalizing bs with
  | _ n ih =>
    by_cases h : bs = []
    · subst h
      have hone := decode_encode_append (Char.ofNat a.toNat) rest
      rw [encodeChar_ascii ha] at hone
      rw [show decode [] = [] by rw [decode]]
      exact hone
    · obtain ⟨hstep, hle⟩ := decodeStep_append_ascii_cons ha h rest
      have hpos := decodeStep_pos bs
      have hdrop := ih _ (by
        rw [List.length_drop]
        have := List.length_pos_of_ne_nil h
        omega) (bs.drop (decodeStep bs).2) rfl
      rw [decode_of_ne_nil (by simp), hstep, List.drop_append_of_le_length hle, hdrop,
        decode_of_ne_nil h, List.cons_append]

/-- An ASCII character stands for its byte. -/
theorem mem_of_mem_decode {a : UInt8} (ha : a < 0x80) {bs : List UInt8}
    (h : Char.ofNat a.toNat ∈ decode bs) : a ∈ bs := by
  induction hn : bs.length using Nat.strong_induction_on generalizing bs with
  | _ n ih =>
    by_cases hbs : bs = []
    · rw [hbs, decode] at h
      exact absurd h List.not_mem_nil
    · rw [decode_of_ne_nil hbs] at h
      rcases List.mem_cons.mp h with hhead | htail
      · unfold decodeStep at hhead
        cases hc : decodeChar? bs with
        | some c =>
          rw [hc] at hhead
          obtain ⟨l, hl⟩ := exists_of_decodeChar? hc
          rw [hl, ← show Char.ofNat a.toNat = c from hhead, encodeChar_ascii ha]
          exact List.mem_cons_self
        | none =>
          rw [hc] at hhead
          have hval : (Char.ofNat a.toNat).val.toNat = 0xFFFD :=
            congrArg (fun c => c.val.toNat) hhead
          have hlt : a.toNat < 128 := ha
          rw [toNat_ascii ha] at hval
          omega
      · have hpos := decodeStep_pos bs
        refine List.mem_of_mem_drop (ih _ ?_ htail rfl)
        rw [List.length_drop]
        have := List.length_pos_of_ne_nil hbs
        omega

theorem mem_decode {a : UInt8} (ha : a < 0x80) {bs : List UInt8} (h : a ∈ bs) :
    Char.ofNat a.toNat ∈ decode bs := by
  obtain ⟨pre, post, rfl⟩ := List.append_of_mem h
  rw [decode_append_ascii_cons ha]
  exact List.mem_append_right _ List.mem_cons_self

/-- Two byte strings that end in different ASCII bytes decode differently. -/
theorem newString_append_ascii {a a' : UInt8} (ha : a < 0x80) (ha' : a' < 0x80) (hne : a ≠ a')
    (bs : List UInt8) : newString (bs ++ [a]) ≠ newString (bs ++ [a']) := by
  intro h
  have heq := congrArg String.toList h
  simp only [newString, String.toList_ofList, decode_append_ascii_cons ha,
    decode_append_ascii_cons ha'] at heq
  have hchar := (List.cons.inj (List.append_cancel_left heq)).1
  have hval := congrArg Char.val hchar
  have hnat := congrArg UInt32.toNat hval
  rw [toNat_ascii ha, toNat_ascii ha'] at hnat
  exact hne (UInt8.toNat_inj.mp hnat)

end Mlmq.Lib.Utf8
