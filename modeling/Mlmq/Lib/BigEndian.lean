import Mathlib

/-! # Big-endian numbers

`bytesOf k n` are the `k` low bytes of `n`, most significant first, and `natOf` reads a byte string
back. The two are inverse to each other on byte strings of length `k` and numbers below `256 ^ k`
(`natOf_bytesOf`, `bytesOf_natOf`). The fixed-width integers `Int32` and `Int64` are written in
two's complement: `intBytes`, `longBytes`, read by `intOf`, `longOf`. The sign is decided by the
first byte (`intOf_neg_iff`). -/

namespace Mlmq.Lib.BigEndian

/-! ### Natural numbers -/

/-- The `k` low bytes of `n`, most significant first. -/
def bytesOf : ℕ → ℕ → List UInt8
  | 0, _ => []
  | k + 1, n => bytesOf k (n / 256) ++ [UInt8.ofNat n]

/-- The number a byte string stands for. -/
def natOf (bs : List UInt8) : ℕ := bs.foldl (fun a b => a * 256 + b.toNat) 0

@[simp] theorem length_bytesOf : ∀ k n : ℕ, (bytesOf k n).length = k
  | 0, _ => rfl
  | k + 1, n => by simp [bytesOf, length_bytesOf k]

theorem natOf_append_singleton (bs : List UInt8) (b : UInt8) :
    natOf (bs ++ [b]) = natOf bs * 256 + b.toNat := by
  simp [natOf, List.foldl_append]

theorem natOf_lt (bs : List UInt8) : natOf bs < 256 ^ bs.length := by
  induction bs using List.reverseRecOn with
  | nil => simp [natOf]
  | append_singleton bs b ih =>
    rw [natOf_append_singleton, List.length_append, List.length_singleton, pow_succ]
    have hb := b.toNat_lt
    omega

theorem natOf_bytesOf : ∀ k n : ℕ, natOf (bytesOf k n) = n % 256 ^ k
  | 0, n => by simp [bytesOf, natOf, Nat.mod_one]
  | k + 1, n => by
    rw [bytesOf, natOf_append_singleton, natOf_bytesOf k, pow_succ, mul_comm (256 ^ k),
      Nat.mod_mul, UInt8.toNat_ofNat']
    ring

theorem bytesOf_natOf (bs : List UInt8) : bytesOf bs.length (natOf bs) = bs := by
  induction bs using List.reverseRecOn with
  | nil => rfl
  | append_singleton bs b ih =>
    have hb := b.toNat_lt
    rw [natOf_append_singleton, List.length_append, List.length_singleton, bytesOf]
    have hdiv : (natOf bs * 256 + b.toNat) / 256 = natOf bs := by omega
    have hlast : UInt8.ofNat (natOf bs * 256 + b.toNat) = b := by
      rw [← UInt8.toNat_inj, UInt8.toNat_ofNat']
      omega
    rw [hdiv, ih, hlast]

theorem natOf_cons (b : UInt8) (bs : List UInt8) :
    natOf (b :: bs) = b.toNat * 256 ^ bs.length + natOf bs := by
  induction bs using List.reverseRecOn with
  | nil => simp [natOf]
  | append_singleton bs c ih =>
    rw [← List.cons_append, natOf_append_singleton, ih, natOf_append_singleton, List.length_append,
      List.length_singleton, pow_succ]
    ring

/-! ### Java's `int` and `long` -/

/-- The four bytes of an `int`. -/
def intBytes (v : Int32) : List UInt8 := bytesOf 4 v.toUInt32.toNat

/-- The `int` four bytes stand for. -/
def intOf (bs : List UInt8) : Int32 := (UInt32.ofNat (natOf bs)).toInt32

/-- The eight bytes of a `long`. -/
def longBytes (v : Int64) : List UInt8 := bytesOf 8 v.toUInt64.toNat

/-- The `long` eight bytes stand for. -/
def longOf (bs : List UInt8) : Int64 := (UInt64.ofNat (natOf bs)).toInt64

@[simp] theorem length_intBytes (v : Int32) : (intBytes v).length = 4 := length_bytesOf 4 _

@[simp] theorem length_longBytes (v : Int64) : (longBytes v).length = 8 := length_bytesOf 8 _

@[simp] theorem intOf_intBytes (v : Int32) : intOf (intBytes v) = v := by
  have hv : v.toUInt32.toNat % 256 ^ 4 = v.toUInt32.toNat := Nat.mod_eq_of_lt v.toUInt32.toNat_lt
  rw [intOf, intBytes, natOf_bytesOf, hv, UInt32.ofNat_toNat]
  rfl

@[simp] theorem longOf_longBytes (v : Int64) : longOf (longBytes v) = v := by
  have hv : v.toUInt64.toNat % 256 ^ 8 = v.toUInt64.toNat := Nat.mod_eq_of_lt v.toUInt64.toNat_lt
  rw [longOf, longBytes, natOf_bytesOf, hv, UInt64.ofNat_toNat]
  rfl

theorem toNat_intOf {bs : List UInt8} (h : bs.length = 4) :
    (intOf bs).toBitVec.toNat = natOf bs := by
  have hlt : natOf bs < 2 ^ 32 := by simpa [h] using natOf_lt bs
  change (UInt32.ofNat (natOf bs)).toNat = natOf bs
  rw [UInt32.toNat_ofNat', Nat.mod_eq_of_lt hlt]

theorem intBytes_intOf {bs : List UInt8} (h : bs.length = 4) : intBytes (intOf bs) = bs := by
  have hn : (intOf bs).toUInt32.toNat = natOf bs := toNat_intOf h
  rw [intBytes, hn, ← h, bytesOf_natOf]

theorem longBytes_longOf {bs : List UInt8} (h : bs.length = 8) : longBytes (longOf bs) = bs := by
  have hlt : natOf bs < 2 ^ 64 := by simpa [h] using natOf_lt bs
  have hn : (longOf bs).toUInt64.toNat = natOf bs := by
    change (UInt64.ofNat (natOf bs)).toNat = natOf bs
    rw [UInt64.toNat_ofNat', Nat.mod_eq_of_lt hlt]
  rw [longBytes, hn, ← h, bytesOf_natOf]

theorem intBytes_injective : Function.Injective intBytes := fun v w h => by
  rw [← intOf_intBytes v, h, intOf_intBytes]

/-- **The sign is in the first byte.** -/
theorem intOf_neg_iff {b : UInt8} {bs : List UInt8} (h : bs.length = 3) :
    (intOf (b :: bs)).toInt < 0 ↔ 128 ≤ b.toNat := by
  have hb := b.toNat_lt
  have hlt : natOf bs < 256 ^ 3 := h ▸ natOf_lt bs
  have hn : natOf (b :: bs) = b.toNat * 256 ^ 3 + natOf bs := by rw [natOf_cons, h]
  rw [← Int32.toInt_toBitVec, BitVec.toInt_eq_toNat_bmod, toNat_intOf (by simp [h]), Int.bmod_def,
    hn]
  split_ifs <;> omega

/-- A length that fits an `int` reads back as itself. -/
theorem toInt_ofNat {n : ℕ} (h : n < 2 ^ 31) : (Int32.ofNat n).toInt = n :=
  Int32.toInt_ofNat_of_lt h

end Mlmq.Lib.BigEndian
