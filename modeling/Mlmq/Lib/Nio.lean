import Mlmq.Lib.BigEndian

/-! # Byte buffers

Java's heap `ByteBuffer`: an array of bytes with a position and a limit. Relative operations act at
the position and move it; they throw if the bytes between position and limit do not suffice, and
leave the buffer as it was. Computations over one buffer are `EStateM Throwable ByteBuffer`; an
exception keeps the buffer as it is when it is thrown.

`rest` are the bytes between position and limit, `skip` moves the position, `write` stores bytes at
the position. Everything else is said in these terms. -/

namespace Mlmq.Lib.Nio

open Mlmq.Lib.BigEndian

/-- The exceptions the modelled code throws or passes on. -/
inductive Throwable
  | bufferOverflow
  | bufferUnderflow
  | illegalArgument
  | nullPointer
  | classCast
  | io
  | cancelledKey
  | notSerializable
  | streamCorrupted
  | runtimeMessage (message : String)
  | runtime (message : String) (cause : Throwable)
deriving DecidableEq, Repr

/-- A heap buffer. Its capacity is an `int`. -/
@[ext]
structure ByteBuffer where
  bytes : List UInt8
  position : ℕ
  limit : ℕ
  position_le : position ≤ limit
  limit_le : limit ≤ bytes.length
  capacity_lt : bytes.length < 2 ^ 31
deriving DecidableEq, Repr

namespace ByteBuffer

variable (b : ByteBuffer)

def capacity : ℕ := b.bytes.length

def remaining : ℕ := b.limit - b.position

def hasRemaining : Bool := b.position < b.limit

/-- The bytes between position and limit. -/
def rest : List UInt8 := (b.bytes.take b.limit).drop b.position

/-- The buffer with the position moved over `n` bytes, at most to the limit. -/
def skip (n : ℕ) : ByteBuffer where
  bytes := b.bytes
  position := min (b.position + n) b.limit
  limit := b.limit
  position_le := min_le_right _ _
  limit_le := b.limit_le
  capacity_lt := b.capacity_lt

/-- The buffer with `bs` stored at the position, as far as they fit, and the position behind them.
-/
def write (bs : List UInt8) : ByteBuffer where
  bytes := b.bytes.take b.position ++ bs.take b.remaining ++
    b.bytes.drop (b.position + (bs.take b.remaining).length)
  position := b.position + (bs.take b.remaining).length
  limit := b.limit
  position_le := by
    have := b.position_le
    simp only [List.length_take, remaining]
    omega
  limit_le := by
    have h1 := b.position_le
    have h2 := b.limit_le
    simp only [List.length_append, List.length_take, List.length_drop, remaining]
    omega
  capacity_lt := by
    have h1 := b.position_le
    have h2 := b.limit_le
    have h3 := b.capacity_lt
    simp only [List.length_append, List.length_take, List.length_drop, remaining]
    omega

/-- `allocate(capacity)`. -/
def allocate (capacity : ℕ) (h : capacity < 2 ^ 31) : ByteBuffer where
  bytes := List.replicate capacity 0
  position := 0
  limit := capacity
  position_le := Nat.zero_le _
  limit_le := by simp
  capacity_lt := by simpa using h

def clear : ByteBuffer where
  bytes := b.bytes
  position := 0
  limit := b.bytes.length
  position_le := Nat.zero_le _
  limit_le := le_rfl
  capacity_lt := b.capacity_lt

def flip : ByteBuffer where
  bytes := b.bytes
  position := 0
  limit := b.position
  position_le := Nat.zero_le _
  limit_le := b.position_le.trans b.limit_le
  capacity_lt := b.capacity_lt

/-- The bytes between position and limit go to the start, and the position behind them. -/
def compact : ByteBuffer where
  bytes := b.rest ++ b.bytes.drop b.rest.length
  position := b.rest.length
  limit := b.bytes.length
  position_le := by
    have := b.limit_le
    simp only [rest, List.length_drop, List.length_take]
    omega
  limit_le := by
    have := b.limit_le
    simp only [rest, List.length_append, List.length_drop, List.length_take]
    omega
  capacity_lt := by
    have h1 := b.limit_le
    have h2 := b.capacity_lt
    simp only [rest, List.length_append, List.length_drop, List.length_take]
    omega

/-- The buffer with another position, at most the limit. -/
def seek (p : ℕ) (h : p ≤ b.limit) : ByteBuffer where
  bytes := b.bytes
  position := p
  limit := b.limit
  position_le := h
  limit_le := b.limit_le
  capacity_lt := b.capacity_lt

/-! ### Fields -/

@[simp] theorem bytes_skip (n : ℕ) : (b.skip n).bytes = b.bytes := rfl
@[simp] theorem limit_skip (n : ℕ) : (b.skip n).limit = b.limit := rfl
@[simp] theorem limit_write (bs : List UInt8) : (b.write bs).limit = b.limit := rfl
@[simp] theorem bytes_clear : b.clear.bytes = b.bytes := rfl
@[simp] theorem position_clear : b.clear.position = 0 := rfl
@[simp] theorem limit_clear : b.clear.limit = b.bytes.length := rfl
@[simp] theorem bytes_flip : b.flip.bytes = b.bytes := rfl
@[simp] theorem position_flip : b.flip.position = 0 := rfl
@[simp] theorem limit_flip : b.flip.limit = b.position := rfl
@[simp] theorem position_compact : b.compact.position = b.rest.length := rfl
@[simp] theorem limit_compact : b.compact.limit = b.bytes.length := rfl
@[simp] theorem bytes_seek {p : ℕ} (h : p ≤ b.limit) : (b.seek p h).bytes = b.bytes := rfl
@[simp] theorem position_seek {p : ℕ} (h : p ≤ b.limit) : (b.seek p h).position = p := rfl
@[simp] theorem limit_seek {p : ℕ} (h : p ≤ b.limit) : (b.seek p h).limit = b.limit := rfl

@[simp] theorem remaining_clear : b.clear.remaining = b.capacity := Nat.sub_zero _

@[simp] theorem length_rest : b.rest.length = b.remaining := by
  have := b.limit_le
  simp only [rest, remaining, List.length_drop, List.length_take]
  omega

@[simp] theorem capacity_compact : b.compact.bytes.length = b.bytes.length := by
  have := b.limit_le
  simp only [compact, rest, List.length_append, List.length_drop, List.length_take]
  omega

variable {b}

theorem position_skip {n : ℕ} (h : n ≤ b.remaining) : (b.skip n).position = b.position + n := by
  have := b.position_le
  simp only [skip, remaining] at h ⊢
  omega

theorem position_write {bs : List UInt8} (h : bs.length ≤ b.remaining) :
    (b.write bs).position = b.position + bs.length := by
  simp only [write, List.take_of_length_le h]

theorem bytes_write {bs : List UInt8} (h : bs.length ≤ b.remaining) :
    (b.write bs).bytes =
      b.bytes.take b.position ++ bs ++ b.bytes.drop (b.position + bs.length) := by
  simp only [write, List.take_of_length_le h]

@[simp] theorem capacity_write (bs : List UInt8) : (b.write bs).bytes.length = b.bytes.length := by
  have h1 := b.position_le
  have h2 := b.limit_le
  simp only [write, List.length_append, List.length_take, List.length_drop, remaining]
  omega

theorem remaining_write {bs : List UInt8} (h : bs.length ≤ b.remaining) :
    (b.write bs).remaining = b.remaining - bs.length := by
  rw [remaining, limit_write, position_write h, remaining, Nat.sub_add_eq]

theorem remaining_skip {n : ℕ} (h : n ≤ b.remaining) :
    (b.skip n).remaining = b.remaining - n := by
  rw [remaining, limit_skip, position_skip h, remaining, Nat.sub_add_eq]

@[simp] theorem skip_zero : b.skip 0 = b := by
  ext1
  · rfl
  · exact min_eq_left b.position_le
  · rfl

theorem skip_skip (m n : ℕ) : (b.skip m).skip n = b.skip (m + n) := by
  ext1
  · rfl
  · simp only [skip]
    omega
  · rfl

theorem rest_skip (n : ℕ) : (b.skip n).rest = b.rest.drop n := by
  have h1 := b.position_le
  simp only [rest, skip, List.drop_drop]
  rcases Nat.le_total (b.position + n) b.limit with h | h
  · rw [min_eq_left h]
  · rw [min_eq_right h, List.drop_eq_nil_of_le (by simp), List.drop_eq_nil_of_le (by simp; omega)]

@[simp] theorem write_nil : b.write [] = b := by
  ext1
  · rw [bytes_write (Nat.zero_le _)]
    simp
  · rw [position_write (Nat.zero_le _)]
    simp
  · rfl

/-- Storing in two pieces is storing at once. -/
theorem write_write {xs ys : List UInt8} (h : (xs ++ ys).length ≤ b.remaining) :
    (b.write xs).write ys = b.write (xs ++ ys) := by
  have hl := h
  rw [List.length_append] at hl
  have hx : xs.length ≤ b.remaining := by omega
  have hy : ys.length ≤ (b.write xs).remaining := by rw [remaining_write hx]; omega
  have hp : b.position ≤ b.bytes.length := b.position_le.trans b.limit_le
  ext1
  · have h1 : (b.bytes.take b.position ++ xs).length = b.position + xs.length := by
      simp [hp]
    rw [bytes_write hy, bytes_write h, bytes_write hx, position_write hx, ← h1, List.take_left,
      List.append_assoc _ xs ys, List.drop_append, List.drop_eq_nil_of_le (by simp),
      List.nil_append, List.drop_drop]
    congr 2
    simp only [List.length_append, h1]
    omega
  · rw [position_write hy, position_write h, position_write hx, List.length_append, Nat.add_assoc]
  · rfl

/-- Bytes outside the stored piece stay. -/
theorem getElem?_write_of_lt {bs : List UInt8} (h : bs.length ≤ b.remaining) {i : ℕ}
    (hi : i < b.position) : (b.write bs).bytes[i]? = b.bytes[i]? := by
  have hp : b.position ≤ b.bytes.length := b.position_le.trans b.limit_le
  rw [bytes_write h, List.append_assoc, List.getElem?_append_left (by simp; omega),
    List.getElem?_take_of_lt hi]

theorem getElem?_write_of_le {bs : List UInt8} (h : bs.length ≤ b.remaining) {i : ℕ}
    (hi : b.position + bs.length ≤ i) : (b.write bs).bytes[i]? = b.bytes[i]? := by
  have hp : b.position ≤ b.bytes.length := b.position_le.trans b.limit_le
  have hlen : (b.bytes.take b.position ++ bs).length = b.position + bs.length := by simp [hp]
  rw [bytes_write h, List.getElem?_append_right (by rw [hlen]; exact hi), hlen, List.getElem?_drop]
  congr 1
  omega

/-- Storing over the first part of what was stored, and going back behind it. -/
theorem write_seek_write {xs xs' ys : List UInt8} (h : (xs ++ ys).length ≤ b.remaining)
    (hx : xs'.length = xs.length) {h1 : b.position ≤ (b.write (xs ++ ys)).limit}
    {h2 : (b.write (xs ++ ys)).position ≤
      (((b.write (xs ++ ys)).seek b.position h1).write xs').limit} :
    (((b.write (xs ++ ys)).seek b.position h1).write xs').seek (b.write (xs ++ ys)).position h2 =
      b.write (xs' ++ ys) := by
  have hp : b.position ≤ b.bytes.length := b.position_le.trans b.limit_le
  have hlen : (b.bytes.take b.position).length = b.position := by simp [hp]
  have hl := h
  have h' : (xs' ++ ys).length ≤ b.remaining := by
    rw [List.length_append] at h ⊢
    omega
  rw [List.length_append] at hl
  have hroom : xs'.length ≤ ((b.write (xs ++ ys)).seek b.position h1).remaining := by
    have : ((b.write (xs ++ ys)).seek b.position h1).remaining = b.remaining := rfl
    omega
  ext1
  · rw [bytes_seek, bytes_write hroom, bytes_seek, position_seek, bytes_write h, bytes_write h']
    have htake : (b.bytes.take b.position ++ (xs ++ ys) ++
        b.bytes.drop (b.position + (xs ++ ys).length)).take b.position =
        b.bytes.take b.position := by
      rw [List.append_assoc]
      exact List.take_left' hlen
    have hdrop : (b.bytes.take b.position ++ (xs ++ ys) ++
        b.bytes.drop (b.position + (xs ++ ys).length)).drop (b.position + xs'.length) =
        ys ++ b.bytes.drop (b.position + (xs ++ ys).length) := by
      have hxl : (b.bytes.take b.position ++ xs).length = b.position + xs'.length := by
        rw [List.length_append, hlen, hx]
      rw [← List.append_assoc, List.append_assoc _ ys]
      exact List.drop_left' hxl
    rw [htake, hdrop, List.length_append, List.length_append, hx]
    simp only [List.append_assoc]
  · rw [position_seek, position_write h, position_write h', List.length_append, List.length_append,
      hx]
  · rfl

/-- What stands where the piece was stored. -/
theorem take_drop_write {bs : List UInt8} (h : bs.length ≤ b.remaining) :
    ((b.write bs).bytes.drop b.position).take bs.length = bs := by
  have hp : b.position ≤ b.bytes.length := b.position_le.trans b.limit_le
  have hlen : (b.bytes.take b.position).length = b.position := by simp [hp]
  rw [bytes_write h, List.append_assoc]
  nth_rewrite 1 [← hlen]
  rw [List.drop_left, List.take_left]

end ByteBuffer

/-! ### Computations over one buffer -/

/-- What the relative operations of one buffer do. -/
abbrev Io (α : Type) := EStateM Throwable ByteBuffer α

/-- `position()`. -/
def position : Io ℕ := fun b => .ok b.position b

/-- `position(newPosition)`. -/
def setPosition (p : ℕ) : Io Unit := fun b =>
  if h : p ≤ b.limit then .ok () (b.seek p h) else .error .illegalArgument b

/-- `put(src)` for a whole array. -/
def putArray (bs : List UInt8) : Io Unit := fun b =>
  if bs.length ≤ b.remaining then .ok () (b.write bs) else .error .bufferOverflow b

/-- `get(dst)` for an array of length `n`. -/
def getArray (n : ℕ) : Io (List UInt8) := fun b =>
  if n ≤ b.remaining then .ok (b.rest.take n) (b.skip n) else .error .bufferUnderflow b

/-- `put(b)`. -/
def putByte (v : UInt8) : Io Unit := putArray [v]

/-- `get()`. -/
def getByte : Io UInt8 := do
  let bs ← getArray 1
  return bs.headD 0

/-- `putInt(value)`. -/
def putInt (v : Int32) : Io Unit := putArray (intBytes v)

/-- `getInt()`. -/
def getInt : Io Int32 := do
  let bs ← getArray 4
  return intOf bs

/-- `putLong(value)`. -/
def putLong (v : Int64) : Io Unit := putArray (longBytes v)

/-- `getLong()`. -/
def getLong : Io Int64 := do
  let bs ← getArray 8
  return longOf bs

end Mlmq.Lib.Nio
