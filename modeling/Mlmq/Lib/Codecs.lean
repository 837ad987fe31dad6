import Mlmq.Lib.Cursor

/-! # Codecs

A codec for `α` is a format (`wire`: the byte strings that stand for a value) with a chosen word for
every value (`enc`), which belongs to the format as soon as it is short enough for an `int` length.
Codecs are built like records: `append` puts two fields in a row, `comap` selects the field.

`Implements put get c` says that a pair of a writer and a reader implements the codec: the writer
stores `c.enc a`, the reader reads exactly the words of `c.wire`. A value written and read again is
the same (`Implements.read_write`). -/

namespace Mlmq.Lib.Codecs

open Mlmq.Lib.BigEndian Mlmq.Lib.Format Mlmq.Lib.Nio Mlmq.Lib.Cursor

variable {α β γ : Type}

/-- A format with a chosen word for every value. -/
structure Codec (α : Type) where
  enc : α → List UInt8
  wire : α → Language UInt8
  prefixFree : ∀ a, PrefixFree (wire a)
  enc_mem : ∀ a, (enc a).length < 2 ^ 31 → enc a ∈ wire a

namespace Codec

/-- One word for each value. -/
@[simps]
def ofEnc (enc : α → List UInt8) : Codec α where
  enc := enc
  wire a := {enc a}
  prefixFree _ := prefixFree_singleton _
  enc_mem _ _ := rfl

/-- The field `f` of a record. -/
@[simps]
def comap (f : β → α) (c : Codec α) : Codec β where
  enc b := c.enc (f b)
  wire b := c.wire (f b)
  prefixFree b := c.prefixFree (f b)
  enc_mem b h := c.enc_mem (f b) h

/-- Two fields in a row. -/
@[simps]
def append (c d : Codec α) : Codec α where
  enc a := c.enc a ++ d.enc a
  wire a := c.wire a * d.wire a
  prefixFree a := (c.prefixFree a).mul (d.prefixFree a)
  enc_mem a h := by
    rw [List.length_append] at h
    exact Language.append_mem_mul (c.enc_mem a (by omega)) (d.enc_mem a (by omega))

/-- The elements of a list in a row. -/
@[simps]
def list (c : Codec α) : Codec (List α) where
  enc as := as.flatMap c.enc
  wire as := (as.map c.wire).prod
  prefixFree as := PrefixFree.prod fun L hL => by
    obtain ⟨a, -, rfl⟩ := List.mem_map.mp hL
    exact c.prefixFree a
  enc_mem as h := by
    induction as with
    | nil => exact rfl
    | cons a as ih =>
      rw [List.flatMap_cons, List.length_append] at h
      rw [List.flatMap_cons, List.map_cons, List.prod_cons]
      exact Language.append_mem_mul (c.enc_mem a (by omega)) (ih (by omega))

/-- No bytes. -/
def empty : Codec α := ofEnc fun _ => []

/-- Big-endian `int`. -/
def int : Codec Int32 := ofEnc intBytes

/-- Big-endian `long`. -/
def long : Codec Int64 := ofEnc longBytes

/-- Which letter decides the words of a value: all but the last `free a` are fixed by it. -/
def Ends (c : Codec α) (free : α → ℕ) : Prop := ∀ a, Tail (free a) (c.wire a)

theorem Ends.comap {c : Codec α} {free : α → ℕ} (h : c.Ends free) (f : β → α) :
    (c.comap f).Ends fun b => free (f b) := fun b => h (f b)

/-- The field at the end is the one that counts. -/
theorem Ends.append {d : Codec α} {free : α → ℕ} (h : d.Ends free) (c : Codec α) :
    (c.append d).Ends free := fun a => (h a).mul_left (c.prefixFree a)

theorem ends_ofEnc {enc : α → List UInt8} (h : ∀ a, enc a ≠ []) :
    (ofEnc enc).Ends fun _ => 0 := by
  intro a
  have : Nontrivial UInt8 := ⟨0, 1, by decide⟩
  exact tail_singleton (h a)

theorem ends_int : int.Ends fun _ => 0 :=
  ends_ofEnc fun v => List.ne_nil_of_length_pos (by rw [length_intBytes]; omega)

theorem ends_long : long.Ends fun _ => 0 :=
  ends_ofEnc fun v => List.ne_nil_of_length_pos (by rw [length_longBytes]; omega)

end Codec

/-- A writer and a reader for a codec. -/
structure Implements (put : α → Io Unit) (get : Io α) (c : Codec α) : Prop where
  writes : ∀ a, Writes (put a) (c.enc a)
  reads : Reads get c.wire

theorem implements_int : Implements putInt getInt Codec.int :=
  ⟨writes_putInt, reads_getInt⟩

theorem implements_long : Implements putLong getLong Codec.long :=
  ⟨writes_putLong, reads_getLong⟩

/-- A class without fields. -/
theorem implements_empty (a : α) (h : ∀ a', a' = a) :
    Implements (fun _ => Pure.pure ()) (Pure.pure a) (Codec.empty : Codec α) where
  writes _ := writes_pure
  reads := by
    refine (Reads.pure a).congr fun a' => ?_
    rw [h a', eq_self, guarded_true]
    rfl

/-- The bytes of a value, read where they stand, give the value back. -/
theorem Implements.read {put : α → Io Unit} {get : Io α} {c : Codec α} (h : Implements put get c)
    {a : α} {b : ByteBuffer} (hb : c.enc a <+: b.rest) :
    get b = .ok a (b.skip (c.enc a).length) := by
  refine (h.reads.ok_iff _ _ _).mpr ⟨c.enc a, c.enc_mem a ?_, hb, rfl⟩
  have h1 := prefix_length_le hb
  have h2 := b.capacity_lt
  have h3 := b.limit_le
  simp only [ByteBuffer.remaining] at h1
  omega

/-- A class with one field. -/
theorem Implements.wrap {put : α → Io Unit} {get : Io α} {c : Codec α} (h : Implements put get c)
    {mk : α → β} {π : β → α} (hmk : ∀ b a, π b = a ↔ b = mk a) :
    Implements (fun b => put (π b)) (get >>= fun a => Pure.pure (mk a)) (c.comap π) where
  writes b := h.writes (π b)
  reads := by
    refine (Reads.last (P := fun _ => True) π h.reads fun b a => ?_).congr fun _ => guarded_true
    rw [true_and]
    exact hmk b a

/-! ### Lists -/

/-- The loop `for (i = 0; i < n; i++) list.add(get())`. -/
def readList (get : Io α) : ℕ → Io (List α)
  | 0 => pure []
  | n + 1 => do
    let a ← get
    let as ← readList get n
    return a :: as

/-- The loop `for (a : list) put(a)`. -/
def writeList (put : α → Io Unit) : List α → Io Unit
  | [] => pure ()
  | a :: as => do
    put a
    writeList put as

theorem writes_writeList {put : α → Io Unit} {c : Codec α} (h : ∀ a, Writes (put a) (c.enc a)) :
    ∀ as, Writes (writeList put as) (c.list.enc as)
  | [] => writes_pure
  | a :: as => (h a).seq (writes_writeList h as)

/-- The words of a list of length `n`. -/
theorem reads_readList {get : Io α} {c : Codec α} (h : Reads get c.wire) :
    ∀ n, Reads (readList get n) fun as => guarded (as.length = n) (c.list.wire as)
  | 0 => (Reads.pure []).congr fun as => by
    ext bs
    cases as <;> simp [Codec.list]
  | n + 1 => by
    refine (h.bind fun a => (reads_readList h n).map (a :: ·)).congr fun as => ?_
    ext bs
    constructor
    · rintro ⟨a, hbs⟩
      obtain ⟨u, hu, v, ⟨as', rfl, rfl, hv⟩, rfl⟩ := Language.mem_mul.mp hbs
      exact ⟨rfl, Language.append_mem_mul hu hv⟩
    · rintro ⟨hlen, hbs⟩
      obtain ⟨a, as', rfl⟩ := List.exists_cons_of_length_eq_add_one hlen
      obtain ⟨u, hu, v, hv, rfl⟩ := Language.mem_mul.mp hbs
      exact ⟨a, Language.append_mem_mul hu ⟨as', rfl, Nat.succ.inj hlen, hv⟩⟩

/-- A list with its size in front. -/
def writeCounted (put : α → Io Unit) (as : List α) : Io Unit := do
  putInt (Int32.ofNat as.length)
  writeList put as

/-- A size and as many elements; none if the size is negative. -/
def readCounted (get : Io α) : Io (List α) := do
  let size ← getInt
  readList get size.toInt.toNat

/-- The sizes read as `n`. -/
def sizeWire (n : ℕ) : Language UInt8 :=
  {bs | ∃ size : Int32, size.toInt.toNat = n ∧ bs = intBytes size}

theorem sizeWire_length {n : ℕ} {bs : List UInt8} (h : bs ∈ sizeWire n) : bs.length = 4 := by
  obtain ⟨size, -, rfl⟩ := h
  exact length_intBytes size

theorem length_le_enc {c : Codec α} (hc : ∀ a, 0 < (c.enc a).length) :
    ∀ as : List α, as.length ≤ (c.list.enc as).length
  | [] => Nat.zero_le _
  | a :: as => by
    have h1 := hc a
    have h2 := length_le_enc hc as
    simp only [Codec.list_enc, List.flatMap_cons, List.length_append, List.length_cons] at h2 ⊢
    omega

/-- The codec of lists with their size in front. -/
@[simps]
def Codec.counted (c : Codec α) (hc : ∀ a, 0 < (c.enc a).length) : Codec (List α) where
  enc as := intBytes (Int32.ofNat as.length) ++ c.list.enc as
  wire as := sizeWire as.length * c.list.wire as
  prefixFree as := (PrefixFree.of_length fun _ => sizeWire_length).mul (c.list.prefixFree as)
  enc_mem as h := by
    rw [List.length_append] at h
    have hlen := length_le_enc hc as
    refine Language.append_mem_mul ⟨_, ?_, rfl⟩ (c.list.enc_mem as (by omega))
    rw [toInt_ofNat (by omega), Int.toNat_natCast]

theorem implements_counted {put : α → Io Unit} {get : Io α} {c : Codec α} (h : Implements put get c)
    (hc : ∀ a, 0 < (c.enc a).length) :
    Implements (writeCounted put) (readCounted get) (c.counted hc) where
  writes as := (writes_putInt _).seq (writes_writeList h.writes as)
  reads := by
    refine (reads_getInt.bind fun size => reads_readList h.reads _).congr fun as => ?_
    ext bs
    constructor
    · rintro ⟨size, hbs⟩
      obtain ⟨u, rfl, v, ⟨hlen, hv⟩, rfl⟩ := Language.mem_mul.mp hbs
      exact Language.append_mem_mul ⟨size, hlen.symm, rfl⟩ hv
    · intro hbs
      obtain ⟨u, ⟨size, hsize, rfl⟩, v, hv, rfl⟩ := Language.mem_mul.mp hbs
      exact ⟨size, Language.append_mem_mul rfl ⟨hsize.symm, hv⟩⟩

end Mlmq.Lib.Codecs
