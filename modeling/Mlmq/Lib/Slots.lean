import Mathlib

/-! # References held in slots

When every part of a state holds some references, what a state holds is the sum over its parts, a
multiset. `Exclusive held fresh` says that no reference is held twice and that all of them are older
than `fresh`. It survives that references are moved between parts or dropped, which only makes the
multiset smaller (`Exclusive.mono`), and that a new reference is handed out (`Exclusive.add`).

`exists_sum_set` is the rule for one part of a list that changes, `disjoint_of_nodup_sum` for two
parts. -/

namespace Mlmq.Lib.Slots

variable {α M : Type*} {held held' : Multiset ℕ} {fresh fresh' : ℕ}

/-- No reference is held twice, and none is as new as `fresh`. -/
structure Exclusive (held : Multiset ℕ) (fresh : ℕ) : Prop where
  nodup : held.Nodup
  lt : ∀ b ∈ held, b < fresh

theorem exclusive_zero (fresh : ℕ) : Exclusive 0 fresh :=
  ⟨Multiset.nodup_zero, fun _ h => absurd h (Multiset.notMem_zero _)⟩

/-- References may be moved and dropped. -/
theorem Exclusive.mono (h : Exclusive held fresh) (hle : held' ≤ held) (hf : fresh ≤ fresh') :
    Exclusive held' fresh' where
  nodup := Multiset.nodup_of_le hle h.nodup
  lt b hb := (h.lt b (Multiset.mem_of_le hle hb)).trans_le hf

/-- A new reference may be added. -/
theorem Exclusive.add (h : Exclusive held fresh) : Exclusive (held + {fresh}) (fresh + 1) where
  nodup := by
    rw [add_comm, Multiset.singleton_add, Multiset.nodup_cons]
    exact ⟨fun hmem => lt_irrefl _ (h.lt _ hmem), h.nodup⟩
  lt b hb := by
    rcases Multiset.mem_add.mp hb with hb | hb
    · have := h.lt b hb
      omega
    · rw [Multiset.mem_singleton.mp hb]
      omega

/-- All references older than `fresh` are held iff as many are held. -/
theorem Exclusive.forall_mem_iff (h : Exclusive held fresh) :
    (∀ b < fresh, b ∈ held) ↔ Multiset.card held = fresh := by
  have hsub : held.toFinset ⊆ Finset.range fresh := fun b hb =>
    Finset.mem_range.mpr (h.lt b (Multiset.mem_toFinset.mp hb))
  have hcard : held.toFinset.card = Multiset.card held :=
    Multiset.toFinset_card_of_nodup h.nodup
  constructor
  · intro hall
    have heq : held.toFinset = Finset.range fresh := hsub.antisymm fun b hb =>
      Multiset.mem_toFinset.mpr (hall b (Finset.mem_range.mp hb))
    rw [← hcard, heq, Finset.card_range]
  · intro hfresh b hb
    have heq : held.toFinset = Finset.range fresh := Finset.eq_of_subset_of_card_le hsub (by
      rw [Finset.card_range, hcard, hfresh])
    rw [← Multiset.mem_toFinset, heq]
    exact Finset.mem_range.mpr hb

/-- **One part of a list changes**: the others add up to the same as before. -/
theorem exists_sum_set [AddCommMonoid M] (f : α → M) {l : List α} {i : ℕ} {a : α}
    (h : l[i]? = some a) :
    ∃ rest, (l.map f).sum = f a + rest ∧ ∀ a', ((l.set i a').map f).sum = f a' + rest := by
  induction l generalizing i with
  | nil => simp at h
  | cons b l ih =>
    cases i with
    | zero =>
      obtain rfl : b = a := by simpa using h
      exact ⟨(l.map f).sum, by simp, fun a' => by simp⟩
    | succ i =>
      obtain ⟨rest, hsum, hset⟩ := ih (by simpa using h)
      refine ⟨f b + rest, ?_, fun a' => ?_⟩
      · rw [List.map_cons, List.sum_cons, hsum, add_left_comm]
      · rw [List.set_cons_succ, List.map_cons, List.sum_cons, hset, add_left_comm]

/-- A part holds what it holds. -/
theorem mem_sum {β : Type*} {f : α → Multiset β} {l : List α} {i : ℕ} {a : α} (h : l[i]? = some a)
    {b : β} (hb : b ∈ f a) : b ∈ (l.map f).sum := by
  obtain ⟨rest, hsum, -⟩ := exists_sum_set f h
  rw [hsum]
  exact Multiset.mem_add.mpr (Or.inl hb)

/-- What all hold together is held by one part. -/
theorem exists_of_mem_sum {β : Type*} {f : α → Multiset β} {l : List α} {b : β}
    (hb : b ∈ (l.map f).sum) : ∃ a ∈ l, b ∈ f a := by
  induction l with
  | nil => exact absurd hb (Multiset.notMem_zero b)
  | cons a l ih =>
    rw [List.map_cons, List.sum_cons] at hb
    rcases Multiset.mem_add.mp hb with hb | hb
    · exact ⟨a, List.mem_cons_self, hb⟩
    · obtain ⟨a', ha', hb⟩ := ih hb
      exact ⟨a', List.mem_cons_of_mem _ ha', hb⟩

/-- What is held is bounded part by part. -/
theorem map_sum_le {β : Type*} {f : α → Multiset β} {g : β → ℕ} {f' : α → Multiset ℕ}
    (h : ∀ a, (f a).map g ≤ f' a) (l : List α) : (l.map f).sum.map g ≤ (l.map f').sum := by
  induction l with
  | nil => simp
  | cons a l ih =>
    rw [List.map_cons, List.sum_cons, List.map_cons, List.sum_cons, Multiset.map_add]
    exact add_le_add (h a) ih

/-- **Two parts hold nothing in common** if nothing is held twice. -/
theorem disjoint_of_nodup_sum {f : α → Multiset ℕ} {l : List α} (hnd : (l.map f).sum.Nodup)
    {i j : ℕ} {a a' : α} (hi : l[i]? = some a) (hj : l[j]? = some a') (hij : i ≠ j) :
    Disjoint (f a) (f a') := by
  induction l generalizing i j with
  | nil => simp at hi
  | cons b l ih =>
    rw [List.map_cons, List.sum_cons, Multiset.nodup_add] at hnd
    obtain ⟨-, htail, hdisj⟩ := hnd
    rw [Multiset.disjoint_left] at hdisj
    rcases i with _ | i
    · rcases j with _ | j
      · exact absurd rfl hij
      · obtain rfl : b = a := by simpa using hi
        rw [Multiset.disjoint_left]
        intro x hx hx'
        exact hdisj hx (mem_sum (by simpa using hj) hx')
    · rcases j with _ | j
      · obtain rfl : b = a' := by simpa using hj
        rw [Multiset.disjoint_left]
        intro x hx hx'
        exact hdisj hx' (mem_sum (by simpa using hi) hx)
      · exact ih htail (by simpa using hi) (by simpa using hj) fun h => hij (congrArg _ h)

end Mlmq.Lib.Slots
