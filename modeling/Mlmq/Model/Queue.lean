import Mathlib

/-! # The queues of the system model

The fields that every queue has, and the arithmetic they share. Numbers are exact: what the program
computes as a `BigDecimal` with 150 digits is a rational number here, and a division by zero raises
an `ArithmeticException`, which is `none`.

`factorial` multiplies with its argument in every round of its loop, so it computes a power
(`factorial_eq`). It grows from `n` to `n + 1` by the factor `n + 1` for `n ≤ 1` only
(`factorial_succ_iff`). -/

namespace Mlmq.Model

/-- `BigDecimal.divide`, without rounding. -/
def divide (a b : ℚ) : Option ℚ := if b = 0 then none else some (a / b)

theorem divide_of_ne_zero {a b : ℚ} (h : b ≠ 0) : divide a b = some (a / b) := if_neg h

/-- The arrival rate, the mean service time and the number of brokers. -/
structure Queue where
  lambda : ℚ
  s : ℚ
  queueMultiplicity : ℕ
deriving DecidableEq, Repr

namespace Queue

def getMeanServiceRate (q : Queue) : Option ℚ := divide 1 q.s

theorem getMeanServiceRate_of_pos {q : Queue} (h : 0 < q.s) :
    q.getMeanServiceRate = some (1 / q.s) := divide_of_ne_zero h.ne'

/-! ### The factorial -/

def factorial (m : ℕ) : ℚ := (List.range' 2 (m - 1)).foldl (fun result _ => result * m) 1

theorem foldl_mul_eq (l : List ℕ) (a r : ℚ) : l.foldl (fun result _ => result * a) r =
    r * a ^ l.length := by
  induction l generalizing r with
  | nil => simp
  | cons i l ih =>
    rw [List.foldl_cons, ih, List.length_cons, pow_succ']
    ring

/-- The loop computes a power. -/
theorem factorial_eq (m : ℕ) : factorial m = (m : ℚ) ^ (m - 1) := by
  unfold factorial
  rw [foldl_mul_eq, List.length_range', one_mul]

example : factorial 3 = 9 := by decide +kernel

theorem factorial_pos (m : ℕ) : 0 < factorial m := by
  rw [factorial_eq]
  cases m with
  | zero => simp
  | succ m => positivity

/-- **The recursion of the factorial** holds up to `2`. -/
theorem factorial_succ_iff (n : ℕ) : factorial (n + 1) = (n + 1) * factorial n ↔ n ≤ 1 := by
  rw [factorial_eq, factorial_eq, Nat.add_sub_cancel]
  push_cast
  constructor
  · intro h
    by_contra hn
    obtain ⟨k, rfl⟩ : ∃ k, n = k + 2 := ⟨n - 2, by omega⟩
    -- both sides divided by `n + 1`
    have hlt : ((k + 2 : ℕ) : ℚ) ^ (k + 1) < ((k + 2 : ℕ) + 1 : ℚ) ^ (k + 1) :=
      pow_lt_pow_left₀ (lt_add_one _) (Nat.cast_nonneg _) (Nat.succ_ne_zero k)
    rw [show k + 2 - 1 = k + 1 by omega, pow_succ' _ (k + 1)] at h
    have hpos : (0 : ℚ) < (k + 2 : ℕ) + 1 := by positivity
    exact hlt.ne' (mul_left_cancel₀ hpos.ne' h)
  · intro h
    interval_cases n <;> norm_num

end Queue

end Mlmq.Model
