import Mathlib

/-! # A store of rows with row locks

Transactions `τ` over rows `ρ` at the isolation level READ COMMITTED. The rows that are committed
are visible to all. A transaction locks a row before it deletes it, and holds its locks until it
ends; its deletions take effect when it commits. A transaction with a failed statement can only be
rolled back.

`Consistent` ties the locks to the transactions: a locked row is committed and its holder has not
ended, and what a transaction has deleted it has locked. Every operation preserves it. -/

namespace Mlmq.Lib.RowStore

variable {τ ρ : Type*}

/-- The state of a transaction. -/
inductive Tx (ρ : Type*)
  | closed
  | active (deleted : Finset ρ)
  | failed
deriving DecidableEq

/-- The committed rows, the lock of every row, the state of every transaction. -/
structure Store (τ ρ : Type*) where
  rows : Finset ρ
  lock : ρ → Option τ
  tx : τ → Tx ρ

namespace Store

section Operations

variable [DecidableEq τ] [DecidableEq ρ] (s : Store τ ρ) (t : τ) (r : ρ)

/-- The locks without those of `t`. -/
def unlocked : ρ → Option τ := fun r => if s.lock r = some t then none else s.lock r

/-- `BEGIN`. -/
def begin : Store τ ρ := { s with tx := Function.update s.tx t (.active ∅) }

/-- The lock of `SELECT … FOR UPDATE`. -/
def acquire : Store τ ρ := { s with lock := Function.update s.lock r (some t) }

/-- `DELETE` of a row that `t` has locked. -/
def delete : Store τ ρ :=
  match s.tx t with
  | .active d => { s with tx := Function.update s.tx t (.active (insert r d)) }
  | _ => s

/-- A statement of `t` fails. -/
def fail : Store τ ρ := { s with tx := Function.update s.tx t .failed }

/-- The end of a transaction without effect. -/
def rollback : Store τ ρ :=
  { s with lock := s.unlocked t, tx := Function.update s.tx t .closed }

/-- `COMMIT` of a transaction without failed statement. -/
def commit : Store τ ρ :=
  match s.tx t with
  | .active d => { s.rollback t with rows := s.rows \ d }
  | _ => s.rollback t

/-- `INSERT` of a row, committed at once. -/
def add : Store τ ρ := { s with rows := insert r s.rows }

end Operations

/-! ### Consistency -/

/-- **Locks belong to open transactions.** -/
structure Consistent (s : Store τ ρ) : Prop where
  mem_of_lock : ∀ r t, s.lock r = some t → r ∈ s.rows
  open_of_lock : ∀ r t, s.lock r = some t → s.tx t ≠ .closed
  lock_of_deleted : ∀ t d r, s.tx t = .active d → r ∈ d → s.lock r = some t

/-- Only `t` has done something: the other transactions keep their state and their locks. -/
def Frame (t : τ) (s s' : Store τ ρ) : Prop :=
  ∀ u, u ≠ t → s'.tx u = s.tx u ∧ ∀ r, s'.lock r = some u ↔ s.lock r = some u

variable {s : Store τ ρ} {t t' : τ} {r r' : ρ}

theorem Frame.refl (t : τ) (s : Store τ ρ) : Frame t s s := fun _ _ => ⟨rfl, fun _ => Iff.rfl⟩

/-! ### The state of a transaction -/

section Transactions

variable [DecidableEq τ]

@[simp] theorem rows_begin : (s.begin t).rows = s.rows := rfl
@[simp] theorem rows_fail : (s.fail t).rows = s.rows := rfl
@[simp] theorem rows_rollback : (s.rollback t).rows = s.rows := rfl
@[simp] theorem lock_begin : (s.begin t).lock = s.lock := rfl
@[simp] theorem lock_fail : (s.fail t).lock = s.lock := rfl
@[simp] theorem lock_rollback : (s.rollback t).lock = s.unlocked t := rfl
@[simp] theorem tx_begin : (s.begin t).tx = Function.update s.tx t (.active ∅) := rfl
@[simp] theorem tx_fail : (s.fail t).tx = Function.update s.tx t .failed := rfl
@[simp] theorem tx_rollback : (s.rollback t).tx = Function.update s.tx t .closed := rfl

theorem Consistent.begin (h : s.Consistent) (ht : s.tx t = .closed) : (s.begin t).Consistent where
  mem_of_lock := h.mem_of_lock
  open_of_lock r u hu := by
    rcases eq_or_ne u t with rfl | hne
    · simp [Store.begin]
    · simpa [Store.begin, Function.update_of_ne hne] using h.open_of_lock r u hu
  lock_of_deleted u d r hu hr := by
    rcases eq_or_ne u t with rfl | hne
    · simp only [Store.begin, Function.update_self, Tx.active.injEq] at hu
      simp [← hu] at hr
    · exact h.lock_of_deleted u d r (by simpa [Store.begin, Function.update_of_ne hne] using hu) hr

theorem Consistent.fail (h : s.Consistent) : (s.fail t).Consistent where
  mem_of_lock := h.mem_of_lock
  open_of_lock r u hu := by
    rcases eq_or_ne u t with rfl | hne
    · simp [Store.fail]
    · simpa [Store.fail, Function.update_of_ne hne] using h.open_of_lock r u hu
  lock_of_deleted u d r hu hr := by
    rcases eq_or_ne u t with rfl | hne
    · simp [Store.fail] at hu
    · exact h.lock_of_deleted u d r (by simpa [Store.fail, Function.update_of_ne hne] using hu) hr

theorem unlocked_eq_some : s.unlocked t r = some t' ↔ s.lock r = some t' ∧ t' ≠ t := by
  unfold unlocked
  split_ifs with hlock
  · rw [hlock]
    simp [eq_comm]
  · constructor
    · intro h
      refine ⟨h, ?_⟩
      rintro rfl
      exact hlock h
    · exact And.left

theorem Consistent.rollback (h : s.Consistent) : (s.rollback t).Consistent where
  mem_of_lock r u hu := h.mem_of_lock r u (unlocked_eq_some.mp hu).1
  open_of_lock r u hu := by
    obtain ⟨hlock, hne⟩ := unlocked_eq_some.mp hu
    simpa [Store.rollback, Function.update_of_ne hne] using h.open_of_lock r u hlock
  lock_of_deleted u d r hu hr := by
    rcases eq_or_ne u t with rfl | hne
    · simp [Store.rollback] at hu
    · refine unlocked_eq_some.mpr ⟨h.lock_of_deleted u d r ?_ hr, hne⟩
      simpa [Store.rollback, Function.update_of_ne hne] using hu

theorem frame_begin (t : τ) (s : Store τ ρ) : Frame t s (s.begin t) :=
  fun _ hu => ⟨Function.update_of_ne hu _ _, fun _ => Iff.rfl⟩

theorem frame_fail (t : τ) (s : Store τ ρ) : Frame t s (s.fail t) :=
  fun _ hu => ⟨Function.update_of_ne hu _ _, fun _ => Iff.rfl⟩

theorem frame_rollback (t : τ) (s : Store τ ρ) : Frame t s (s.rollback t) :=
  fun _ hu => ⟨Function.update_of_ne hu _ _, fun _ => unlocked_eq_some.trans (and_iff_left hu)⟩

end Transactions

/-! ### The rows -/

section Rows

variable [DecidableEq ρ]

@[simp] theorem rows_acquire : (s.acquire t r).rows = s.rows := rfl
@[simp] theorem rows_add : (s.add r).rows = insert r s.rows := rfl
@[simp] theorem lock_acquire : (s.acquire t r).lock = Function.update s.lock r (some t) := rfl
@[simp] theorem lock_add : (s.add r).lock = s.lock := rfl
@[simp] theorem tx_acquire : (s.acquire t r).tx = s.tx := rfl
@[simp] theorem tx_add : (s.add r).tx = s.tx := rfl

theorem Consistent.acquire (h : s.Consistent) (hr : r ∈ s.rows) (hfree : s.lock r = none)
    (ht : s.tx t ≠ .closed) : (s.acquire t r).Consistent where
  mem_of_lock r' u hu := by
    rcases eq_or_ne r' r with rfl | hne
    · exact hr
    · exact h.mem_of_lock r' u (by simpa [Store.acquire, Function.update_of_ne hne] using hu)
  open_of_lock r' u hu := by
    rcases eq_or_ne r' r with rfl | hne
    · simp only [Store.acquire, Function.update_self, Option.some.injEq] at hu
      exact hu ▸ ht
    · exact h.open_of_lock r' u (by simpa [Store.acquire, Function.update_of_ne hne] using hu)
  lock_of_deleted u d r' hu hr' := by
    have hlock := h.lock_of_deleted u d r' hu hr'
    rcases eq_or_ne r' r with rfl | hne
    · rw [hfree] at hlock
      cases hlock
    · simpa [Store.acquire, Function.update_of_ne hne] using hlock

theorem Consistent.add (h : s.Consistent) : (s.add r).Consistent where
  mem_of_lock r' u hu := Finset.mem_insert_of_mem (h.mem_of_lock r' u hu)
  open_of_lock := h.open_of_lock
  lock_of_deleted := h.lock_of_deleted

theorem frame_acquire (hfree : s.lock r = none) : Frame t s (s.acquire t r) := by
  refine fun u hu => ⟨rfl, fun r' => ?_⟩
  rw [lock_acquire]
  by_cases hr : r' = r
  · subst hr
    rw [Function.update_self, hfree]
    simp [hu.symm]
  · rw [Function.update_of_ne hr]

end Rows

/-! ### The rows of a transaction -/

variable [DecidableEq τ] [DecidableEq ρ]

@[simp] theorem rows_delete : (s.delete t r).rows = s.rows := by
  unfold delete
  split <;> rfl

@[simp] theorem lock_delete : (s.delete t r).lock = s.lock := by
  unfold delete
  split <;> rfl

theorem tx_delete {d : Finset ρ} (h : s.tx t = .active d) :
    (s.delete t r).tx = Function.update s.tx t (.active (insert r d)) := by
  unfold delete
  rw [h]

@[simp] theorem lock_commit : (s.commit t).lock = s.unlocked t := by
  unfold commit
  split <;> rfl

@[simp] theorem tx_commit : (s.commit t).tx = Function.update s.tx t .closed := by
  unfold commit
  split <;> rfl

theorem rows_commit {d : Finset ρ} (h : s.tx t = .active d) : (s.commit t).rows = s.rows \ d := by
  unfold commit
  rw [h]

theorem Consistent.delete (h : s.Consistent) (hr : s.lock r = some t) :
    (s.delete t r).Consistent := by
  unfold Store.delete
  split
  · rename_i d hd
    refine ⟨h.mem_of_lock, fun r' u hu => ?_, fun u d' r' hu hr' => ?_⟩
    · rcases eq_or_ne u t with rfl | hne
      · simp
      · simpa [Function.update_of_ne hne] using h.open_of_lock r' u hu
    · rcases eq_or_ne u t with rfl | hne
      · simp only [Function.update_self, Tx.active.injEq] at hu
        rw [← hu, Finset.mem_insert] at hr'
        rcases hr' with rfl | hr'
        · exact hr
        · exact h.lock_of_deleted u d r' hd hr'
      · exact h.lock_of_deleted u d' r' (by simpa [Function.update_of_ne hne] using hu) hr'
  · exact h

theorem Consistent.commit (h : s.Consistent) : (s.commit t).Consistent := by
  unfold Store.commit
  split
  · rename_i d hd
    have hroll := h.rollback (t := t)
    refine ⟨fun r u hu => ?_, hroll.open_of_lock, hroll.lock_of_deleted⟩
    obtain ⟨hlock, hne⟩ := unlocked_eq_some.mp hu
    rw [Finset.mem_sdiff]
    refine ⟨h.mem_of_lock r u hlock, fun hr => hne ?_⟩
    rw [h.lock_of_deleted t d r hd hr] at hlock
    exact (Option.some.inj hlock).symm
  · exact h.rollback

theorem frame_delete (t : τ) (s : Store τ ρ) : Frame t s (s.delete t r) := by
  intro u hu
  unfold delete
  split
  · exact ⟨Function.update_of_ne hu _ _, fun _ => Iff.rfl⟩
  · exact ⟨rfl, fun _ => Iff.rfl⟩

theorem frame_commit (t : τ) (s : Store τ ρ) : Frame t s (s.commit t) := by
  intro u hu
  rw [tx_commit, lock_commit]
  exact frame_rollback t s u hu

end Store

end Mlmq.Lib.RowStore
