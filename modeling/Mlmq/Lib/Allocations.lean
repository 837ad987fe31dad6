import Mlmq.Lib.Cursor

/-! # The arrays that a reader allocates

A `Decoder` is a reader of a buffer that also allocates byte arrays, and keeps account of them: the
length of each, and the bytes that remained in the buffer when it was allocated. `Allocates d m A`
says that `d` reads as `m` does and allocates an array wherever a word of `A` and a length field that
is not negative stand at the position, as long as the field says.

The rules follow the sequencing of the program, as those of `Reads` do. -/

namespace Mlmq.Lib.Allocations

open Mlmq.Lib.BigEndian Mlmq.Lib.Format Mlmq.Lib.Nio Mlmq.Lib.Cursor

variable {α β : Type}

/-! ### Decoders -/

/-- An array that has been allocated, with the bytes that remained in the buffer. -/
structure Allocation where
  length : ℕ
  remaining : ℕ
deriving DecidableEq, Repr

structure Traced where
  buffer : ByteBuffer
  allocations : List Allocation

abbrev Decoder (α : Type) := EStateM Throwable Traced α

/-- The same result, with an account of the allocations. -/
def traced (allocations : List Allocation) :
    EStateM.Result Throwable ByteBuffer α → EStateM.Result Throwable Traced α
  | .ok a b => .ok a ⟨b, allocations⟩
  | .error e b => .error e ⟨b, allocations⟩

/-- A reader that allocates nothing. -/
def read (m : Io α) : Decoder α := fun t => traced t.allocations (m t.buffer)

/-- `new byte[length]`. -/
def newByteArray (length : ℕ) : Decoder Unit := fun t =>
  .ok () { t with allocations := t.allocations ++ [⟨length, t.buffer.remaining⟩] }

/-- The arrays that the decoder allocates. -/
def allocations (d : Decoder α) (b : ByteBuffer) : List Allocation :=
  match d ⟨b, []⟩ with
  | .ok _ t => t.allocations
  | .error _ t => t.allocations

theorem read_bind_of_ok {m : Io α} {k : α → Decoder β} {b b₁ : ByteBuffer} {a : α}
    (h : m b = .ok a b₁) (log : List Allocation) : (read m >>= k) ⟨b, log⟩ = k a ⟨b₁, log⟩ := by
  change EStateM.bind _ _ _ = _
  unfold EStateM.bind read traced
  rw [h]

theorem read_bind_of_error {m : Io α} {k : α → Decoder β} {b b₁ : ByteBuffer} {e : Throwable}
    (h : m b = .error e b₁) (log : List Allocation) :
    (read m >>= k) ⟨b, log⟩ = .error e ⟨b₁, log⟩ := by
  change EStateM.bind _ _ _ = _
  unfold EStateM.bind read traced
  rw [h]

/-- A reader, and a value made of what it returns. -/
theorem read_map (m : Io α) (f : α → β) :
    (do let a ← read m; return f a) = read (do let a ← m; return f a) := by
  funext ⟨b, log⟩
  cases h : m b with
  | ok a b₁ =>
    rw [read_bind_of_ok h]
    unfold read
    rw [bind_of_ok h]
    rfl
  | error e b₁ =>
    rw [read_bind_of_error h]
    unfold read
    rw [bind_of_error h]
    rfl

/-! ### Where a decoder allocates -/

/-- A word of `A` and a length field stand at the position, and the array is as long as it says. -/
def At (A : Language UInt8) (b : ByteBuffer) (x : Allocation) : Prop :=
  ∃ u ∈ A, ∃ v : Int32, 0 ≤ v.toInt ∧ u ++ intBytes v <+: b.rest ∧
    x = ⟨v.toInt.toNat, b.remaining - (u.length + 4)⟩

/-- **What a decoder allocates**, and that it reads as `m` does. -/
def Allocates (d : Decoder α) (m : Io α) (A : Language UInt8) : Prop :=
  ∀ b log, ∃ new, d ⟨b, log⟩ = traced (log ++ new) (m b) ∧ ∀ x, x ∈ new ↔ At A b x

variable {d : Decoder α} {m : Io α} {A : Language UInt8} {b : ByteBuffer} {x : Allocation}

theorem Allocates.mem_allocations (h : Allocates d m A) :
    x ∈ allocations d b ↔ At A b x := by
  obtain ⟨new, heq, hnew⟩ := h b []
  have hall : allocations d b = new := by
    unfold allocations
    rw [heq, List.nil_append]
    cases m b with
    | ok a b' => rfl
    | error e b' => rfl
  rw [hall, hnew]

theorem not_at_zero : ¬ At 0 b x := fun ⟨u, hu, _⟩ => Language.notMem_zero u hu

theorem Allocates.congr {A' : Language UInt8} (h : Allocates d m A) (hA : A = A') :
    Allocates d m A' := hA ▸ h

theorem allocates_read (m : Io α) : Allocates (read m) m 0 := fun b log =>
  ⟨[], by rw [List.append_nil]; rfl, fun x => iff_of_false List.not_mem_nil not_at_zero⟩

theorem allocates_pure (a : α) : Allocates (pure a) (pure a) 0 := allocates_read (pure a)

/-- What stands behind a word that has been read. -/
theorem at_mul_iff {W : Language UInt8} {u : List UInt8} (hW : ∀ w ∈ W, w <+: b.rest → w = u)
    (hu : u ∈ W) (hpre : u <+: b.rest) : At (W * A) b x ↔ At A (b.skip u.length) x := by
  have hle := prefix_length_le hpre
  constructor
  · rintro ⟨_, hmem, v, hv, hrest, rfl⟩
    obtain ⟨w, hw, w', hw', rfl⟩ := Language.mem_mul.mp hmem
    rw [List.append_assoc, append_prefix_rest] at hrest
    obtain rfl := hW w hw hrest.1
    refine ⟨w', hw', v, hv, hrest.2, ?_⟩
    rw [ByteBuffer.remaining_skip hle, List.length_append, Nat.sub_sub, Nat.add_assoc]
  · rintro ⟨w', hw', v, hv, hrest, rfl⟩
    refine ⟨u ++ w', Language.append_mem_mul hu hw', v, hv, ?_, ?_⟩
    · rw [List.append_assoc, append_prefix_rest]
      exact ⟨hpre, hrest⟩
    · rw [ByteBuffer.remaining_skip hle, List.length_append, Nat.sub_sub, Nat.add_assoc]

theorem at_add_iff {A' : Language UInt8} : At (A + A') b x ↔ At A b x ∨ At A' b x := by
  unfold At
  simp only [Language.mem_add, or_and_right, exists_or]

/-- A word that is read, and one of the language for what has been read. -/
def behind (W B : α → Language UInt8) : Language UInt8 := {bs | ∃ a, bs ∈ W a * B a}

/-- **Two decoders in a row**: the second one allocates behind what the first one reads. -/
theorem Allocates.bind {W : α → Language UInt8} {k : α → Decoder β} {n : α → Io β}
    {B : α → Language UInt8} (hd : Allocates d m A) (hm : Reads m W)
    (hk : ∀ a, Allocates (k a) (n a) (B a)) :
    Allocates (d >>= k) (m >>= n) (A + behind W B) := by
  intro b log
  obtain ⟨new, hrun, hnew⟩ := hd b log
  cases hb : m b with
  | error e b₁ =>
    refine ⟨new, ?_, fun x => ?_⟩
    · rw [bind_of_error hb]
      change EStateM.bind d k _ = _
      unfold EStateM.bind
      rw [hrun, hb]
      rfl
    · rw [at_add_iff, hnew, iff_self_or]
      rintro ⟨_, ⟨a, hmem⟩, v, hv, hrest, rfl⟩
      -- then the first one would have read something
      obtain ⟨w, hw, w', -, rfl⟩ := Language.mem_mul.mp hmem
      rw [List.append_assoc, append_prefix_rest] at hrest
      have hok := (hm.ok_iff b a _).mpr ⟨w, hw, hrest.1, rfl⟩
      rw [hb] at hok
      cases hok
  | ok a b₁ =>
    obtain ⟨u, hu, hpre, rfl⟩ := (hm.ok_iff _ _ _).mp hb
    obtain ⟨new', hrun', hnew'⟩ := hk a (b.skip u.length) (log ++ new)
    refine ⟨new ++ new', ?_, fun x => ?_⟩
    · rw [bind_of_ok hb, ← List.append_assoc, ← hrun']
      change EStateM.bind d k _ = _
      unfold EStateM.bind
      rw [hrun, hb]
      rfl
    · have hunique : ∀ a', ∀ w ∈ W a', w <+: b.rest → a' = a ∧ w = u := by
        intro a' w hw hpre'
        have hok := (hm.ok_iff b a' _).mpr ⟨w, hw, hpre', rfl⟩
        rw [hb] at hok
        obtain ⟨rfl, hskip⟩ := EStateM.Result.ok.inj hok
        have hposition := congrArg ByteBuffer.position hskip
        rw [ByteBuffer.position_skip (prefix_length_le hpre),
          ByteBuffer.position_skip (prefix_length_le hpre')] at hposition
        refine ⟨rfl, List.IsPrefix.eq_of_length ?_ (by omega)⟩
        exact List.prefix_of_prefix_length_le hpre' hpre (by omega)
      rw [List.mem_append, at_add_iff, hnew, hnew',
        ← at_mul_iff (fun w hw hw' => (hunique a w hw hw').2) hu hpre]
      refine or_congr_right ⟨?_, ?_⟩
      · rintro ⟨w, hw, hx⟩
        exact ⟨w, ⟨a, hw⟩, hx⟩
      · rintro ⟨w, ⟨a', hw⟩, v, hv, hrest, hx⟩
        obtain ⟨w₁, hw₁, w₂, hw₂, rfl⟩ := Language.mem_mul.mp hw
        have hrest' := hrest
        rw [List.append_assoc, append_prefix_rest] at hrest'
        obtain ⟨rfl, rfl⟩ := hunique a' w₁ hw₁ hrest'.1
        exact ⟨_, Language.append_mem_mul hw₁ hw₂, v, hv, hrest, hx⟩

/-- Any word that is read. -/
def anyWord (W : α → Language UInt8) : Language UInt8 := {bs | ∃ a, bs ∈ W a}

/-- The second decoder allocates at the same words whatever the first one returns. -/
theorem Allocates.seq {W : α → Language UInt8} {k : α → Decoder β} {n : α → Io β}
    {B : Language UInt8} (hd : Allocates d m A) (hm : Reads m W)
    (hk : ∀ a, Allocates (k a) (n a) B) :
    Allocates (d >>= k) (m >>= n) (A + anyWord W * B) := by
  refine (hd.bind hm hk).congr (congrArg (A + ·) ?_)
  ext bs
  constructor
  · rintro ⟨a, h⟩
    obtain ⟨u, hu, v, hv, rfl⟩ := Language.mem_mul.mp h
    exact Language.append_mem_mul ⟨a, hu⟩ hv
  · intro h
    obtain ⟨u, ⟨a, hu⟩, v, hv, rfl⟩ := Language.mem_mul.mp h
    exact ⟨a, Language.append_mem_mul hu hv⟩

/-- What a decoder returns does not matter. -/
theorem Allocates.map (f : α → β) {W : α → Language UInt8} (hd : Allocates d m A)
    (hm : Reads m W) :
    Allocates (d >>= fun a => pure (f a)) (m >>= fun a => pure (f a)) A :=
  (hd.seq hm fun a => allocates_pure (f a)).congr (by rw [mul_zero, add_zero])

/-- A choice made before reading on. -/
theorem Allocates.ite {p : Prop} [Decidable p] {d' : Decoder α} {m' : Io α} {A' : Language UInt8}
    (h : Allocates d m A) (h' : Allocates d' m' A') :
    Allocates (if p then d else d') (if p then m else m') (if p then A else A') := by
  split_ifs
  · exact h
  · exact h'

end Mlmq.Lib.Allocations
