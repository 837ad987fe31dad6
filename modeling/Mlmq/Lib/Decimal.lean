import Mathlib

/-! # Decimal numbers with a scale

`java.math.BigDecimal`: a number, and how many digits it has behind the point. Sums, differences,
products and powers are exact; a quotient is rounded to a scale that is given. The scale is an `int`,
so that products and powers whose scale is out of its range are refused, and so are the exponents
that are negative or have more than nine digits.

`Clean` says of a computation that it does not divide by zero, and what holds of its result: there is
one rule for each operation. -/

namespace Mlmq.Lib.Decimal

/-- Why an operation is refused. -/
inductive ArithmeticException
  | divisionByZero
  | invalidOperation
  | underflow
deriving DecidableEq, Repr

/-- A number and the scale of its representation. -/
structure BigDecimal where
  value : ℚ
  scale : ℕ
deriving DecidableEq, Repr

/-! ### Rounding -/

/-- `ROUND_HALF_UP`: to the nearest neighbour, and away from zero between two of them. -/
def roundHalfUp (x : ℚ) : ℤ := if x < 0 then -round (-x) else round x

/-- A number with `digits` digits behind the point. -/
def rescale (x : ℚ) (digits : ℕ) : ℚ := roundHalfUp (x * 10 ^ digits) / 10 ^ digits

theorem rescale_of_nonneg {x : ℚ} (hx : 0 ≤ x) (digits : ℕ) :
    rescale x digits = round (x * 10 ^ digits) / 10 ^ digits := by
  have hscaled : 0 ≤ x * 10 ^ digits := by positivity
  unfold rescale roundHalfUp
  rw [if_neg (not_lt.mpr hscaled)]

theorem rescale_nonneg {x : ℚ} (hx : 0 ≤ x) (digits : ℕ) : 0 ≤ rescale x digits := by
  have hscaled : 0 ≤ x * 10 ^ digits := by positivity
  have hround : 0 ≤ round (x * 10 ^ digits) := by
    rw [round_eq]
    exact Int.floor_nonneg.mpr (by linarith)
  rw [rescale_of_nonneg hx]
  exact div_nonneg (by exact_mod_cast hround) (by positivity)

theorem rescale_nonpos {x : ℚ} (hx : x ≤ 0) (digits : ℕ) : rescale x digits ≤ 0 := by
  rcases hx.eq_or_lt with rfl | hlt
  · rw [rescale_of_nonneg le_rfl, zero_mul, round_zero, Int.cast_zero, zero_div]
  · have hneg := rescale_nonneg (neg_nonneg.mpr hx) digits
    have hscaled : x * 10 ^ digits < 0 := mul_neg_of_neg_of_pos hlt (by positivity)
    rw [rescale_of_nonneg (neg_nonneg.mpr hx)] at hneg
    unfold rescale roundHalfUp
    rw [if_pos hscaled, Int.cast_neg, neg_div, ← neg_mul]
    exact neg_nonpos.mpr hneg

/-- What is rounded to a number `k` of the last places. -/
theorem rescale_eq_iff {x : ℚ} (hx : 0 ≤ x) (digits : ℕ) (k : ℤ) :
    rescale x digits = k / 10 ^ digits ↔
      k - 1 / 2 ≤ x * 10 ^ digits ∧ x * 10 ^ digits < k + 1 / 2 := by
  have hten : (10 : ℚ) ^ digits ≠ 0 := by positivity
  rw [rescale_of_nonneg hx, div_left_inj' hten, Int.cast_inj, round_eq_iff, Set.mem_Ico]

/-- What is rounded to zero. -/
theorem rescale_eq_zero_iff {x : ℚ} (hx : 0 ≤ x) (digits : ℕ) :
    rescale x digits = 0 ↔ x * 10 ^ digits < 1 / 2 := by
  have hiff := rescale_eq_iff hx digits 0
  have hscaled : 0 ≤ x * 10 ^ digits := by positivity
  rw [Int.cast_zero, zero_div, zero_add] at hiff
  rw [hiff, and_iff_right]
  linarith

/-- What is rounded to one. -/
theorem rescale_eq_one_iff {x : ℚ} (hx : 0 ≤ x) (digits : ℕ) : rescale x digits = 1 ↔
    10 ^ digits - 1 / 2 ≤ x * 10 ^ digits ∧ x * 10 ^ digits < 10 ^ digits + 1 / 2 := by
  have hten : (10 : ℚ) ^ digits ≠ 0 := by positivity
  have hiff := rescale_eq_iff hx digits (10 ^ digits)
  push_cast at hiff
  rwa [div_self hten] at hiff

/-! ### Operations -/

namespace BigDecimal

def ONE : BigDecimal := { value := 1, scale := 0 }

def ZERO : BigDecimal := { value := 0, scale := 0 }

def ofInt (n : ℤ) : BigDecimal := { value := n, scale := 0 }

/-- The number that a `double` is, a fraction with a power of two below: it has as many digits behind
the point as the exponent. -/
def ofDouble (x : ℚ) : BigDecimal := { value := x, scale := Nat.log2 x.den }

/-- Numbers of two scales are not equal, whatever their values are. -/
def equals (a b : BigDecimal) : Bool := a.value = b.value ∧ a.scale = b.scale

def add (a b : BigDecimal) : BigDecimal := ⟨a.value + b.value, max a.scale b.scale⟩

def subtract (a b : BigDecimal) : BigDecimal := ⟨a.value - b.value, max a.scale b.scale⟩

/-- A scale for a result of `a`: zero takes the greatest scale there is. -/
def checkScale (a : BigDecimal) (scale : ℕ) : Except ArithmeticException ℕ :=
  if scale < 2 ^ 31 then .ok scale
  else if a.value = 0 then .ok (2 ^ 31 - 1)
  else .error .underflow

def multiply (a b : BigDecimal) : Except ArithmeticException BigDecimal := do
  return ⟨a.value * b.value, ← a.checkScale (a.scale + b.scale)⟩

def pow (a : BigDecimal) (n : ℤ) : Except ArithmeticException BigDecimal := do
  if n < 0 ∨ 999999999 < n then
    .error .invalidOperation
  else
    return ⟨a.value ^ n.toNat, ← a.checkScale (a.scale * n.toNat)⟩

/-- The quotient, with `scale` digits behind the point. -/
def divide (a b : BigDecimal) (scale : ℕ) : Except ArithmeticException BigDecimal :=
  if b.value = 0 then .error .divisionByZero
  else .ok ⟨rescale (a.value / b.value) scale, scale⟩

end BigDecimal

open BigDecimal

variable {a b : BigDecimal} {scale : ℕ} {n : ℤ}

theorem checkScale_of_lt (h : scale < 2 ^ 31) (a : BigDecimal) : a.checkScale scale = .ok scale :=
  if_pos h

theorem multiply_of_lt (h : a.scale + b.scale < 2 ^ 31) :
    a.multiply b = .ok ⟨a.value * b.value, a.scale + b.scale⟩ := by
  unfold multiply
  rw [checkScale_of_lt h]
  rfl

theorem pow_of_lt (hn : 0 ≤ n) (hn' : n ≤ 999999999) (h : a.scale * n.toNat < 2 ^ 31) :
    a.pow n = .ok ⟨a.value ^ n.toNat, a.scale * n.toNat⟩ := by
  unfold pow
  rw [if_neg (by omega), checkScale_of_lt h]
  rfl

theorem divide_eq_ok (hb : b.value ≠ 0) (a : BigDecimal) (scale : ℕ) :
    a.divide b scale = .ok ⟨rescale (a.value / b.value) scale, scale⟩ := if_neg hb

theorem divide_eq_error (hb : b.value = 0) (a : BigDecimal) (scale : ℕ) :
    a.divide b scale = .error .divisionByZero := if_pos hb

variable {α β : Type}

theorem ok_bind (a : α) (f : α → Except ArithmeticException β) : (.ok a >>= f) = f a := rfl

theorem error_bind (e : ArithmeticException) (f : α → Except ArithmeticException β) :
    (.error e >>= f) = .error e := rfl

/-! ### Computations without a division by zero -/

variable {x : Except ArithmeticException α} {P : α → Prop} {Q : β → Prop}

/-- The computation does not divide by zero, and its result, if it has one, is as `P` says. -/
def Clean (x : Except ArithmeticException α) (P : α → Prop) : Prop :=
  match x with
  | .ok a => P a
  | .error e => e ≠ .divisionByZero

theorem clean_iff : Clean x (fun _ => True) ↔ x ≠ .error .divisionByZero := by
  cases x with
  | ok a => simp [Clean]
  | error e => simp [Clean]

theorem Clean.bind {f : α → Except ArithmeticException β} (hx : Clean x P)
    (hf : ∀ a, P a → Clean (f a) Q) : Clean (x >>= f) Q := by
  cases x with
  | ok a => exact hf a hx
  | error e => exact hx

theorem Clean.mono {P' : α → Prop} (hx : Clean x P) (h : ∀ a, P a → P' a) : Clean x P' := by
  cases x with
  | ok a => exact h a hx
  | error e => exact hx

/-- A loop whose body keeps `P`. -/
theorem Clean.foldlM {f : α → β → Except ArithmeticException α} {l : List β} {r : α} (hr : P r)
    (hf : ∀ r, P r → ∀ j ∈ l, Clean (f r j) P) : Clean (l.foldlM f r) P := by
  induction l generalizing r with
  | nil => exact hr
  | cons j l ih =>
    rw [List.foldlM_cons]
    exact (hf r hr j List.mem_cons_self).bind fun r' hr' =>
      ih hr' fun r hr i hi => hf r hr i (List.mem_cons_of_mem j hi)

theorem clean_checkScale (a : BigDecimal) (scale : ℕ) :
    Clean (a.checkScale scale) fun s => a.value ≠ 0 → s = scale ∧ scale < 2 ^ 31 := by
  unfold checkScale
  split_ifs with hscale ha
  · exact fun _ => ⟨rfl, hscale⟩
  · exact fun hne => absurd ha hne
  · exact ArithmeticException.noConfusion

theorem clean_multiply (a b : BigDecimal) : Clean (a.multiply b) fun x =>
    x.value = a.value * b.value ∧
      (a.value ≠ 0 → x.scale = a.scale + b.scale ∧ a.scale + b.scale < 2 ^ 31) :=
  (clean_checkScale a _).bind fun _ hs => ⟨rfl, hs⟩

theorem clean_pow (a : BigDecimal) (n : ℤ) : Clean (a.pow n) fun x =>
    0 ≤ n ∧ x.value = a.value ^ n.toNat ∧
      (a.value ≠ 0 → x.scale = a.scale * n.toNat ∧ a.scale * n.toNat < 2 ^ 31) := by
  unfold pow
  split_ifs with hn
  · exact ArithmeticException.noConfusion
  · exact (clean_checkScale a _).bind fun _ hs => ⟨by omega, rfl, hs⟩

theorem clean_divide (hb : b.value ≠ 0) (a : BigDecimal) (scale : ℕ) :
    Clean (a.divide b scale) fun x => x.value = rescale (a.value / b.value) scale := by
  rw [divide_eq_ok hb]
  rfl

end Mlmq.Lib.Decimal
