import Mathlib

/-! # Bounded queues

A queue of at most `capacity` elements with a lock of its own, so each operation is one step: `add`
puts an element at the end and refuses it when the queue is full, `poll` takes the first one. -/

namespace Mlmq.Lib.Queue

variable {α β : Type*}

/-- A queue with a capacity. -/
@[ext]
structure BoundedQueue (α : Type*) where
  capacity : ℕ
  items : List α
  length_le : items.length ≤ capacity
deriving DecidableEq

namespace BoundedQueue

variable {q q' : BoundedQueue α} {a : α}

/-- An empty queue. -/
def empty (capacity : ℕ) : BoundedQueue α := ⟨capacity, [], Nat.zero_le _⟩

/-- Whether one more element fits. -/
def HasRoom (q : BoundedQueue α) : Prop := q.items.length < q.capacity

instance : Decidable q.HasRoom := inferInstanceAs (Decidable (_ < _))

/-- The queue with `a` at its end, if it fits. -/
def add (q : BoundedQueue α) (a : α) : Option (BoundedQueue α) :=
  if h : q.HasRoom then
    some ⟨q.capacity, q.items ++ [a], by rw [List.length_append]; exact h⟩
  else none

/-- The first element and the queue without it. -/
def poll (q : BoundedQueue α) : Option (α × BoundedQueue α) :=
  match h : q.items with
  | [] => none
  | a :: as => some (a, ⟨q.capacity, as, by
      have := q.length_le
      rw [h, List.length_cons] at this
      omega⟩)

theorem add_eq_some_iff : q.add a = some q' ↔
    q.HasRoom ∧ q'.capacity = q.capacity ∧ q'.items = q.items ++ [a] := by
  unfold add
  split_ifs with h
  · simp only [Option.some.injEq, h, true_and]
    constructor
    · rintro rfl
      exact ⟨rfl, rfl⟩
    · rintro ⟨h1, h2⟩
      exact BoundedQueue.ext h1.symm h2.symm
  · simp [h]

theorem add_eq_none_iff : q.add a = none ↔ ¬ q.HasRoom := by
  unfold add
  split_ifs with h <;> simp [h]

theorem poll_eq_some_iff : q.poll = some (a, q') ↔
    q'.capacity = q.capacity ∧ q.items = a :: q'.items := by
  unfold poll
  split
  · rename_i h
    simp [h]
  · rename_i b as h
    have hitems : q.items = a :: q'.items ↔ b = a ∧ as = q'.items := by rw [h, List.cons.injEq]
    rw [hitems, Option.some.injEq, Prod.mk.injEq]
    constructor
    · rintro ⟨rfl, rfl⟩
      exact ⟨rfl, rfl, rfl⟩
    · rintro ⟨h1, rfl, rfl⟩
      exact ⟨rfl, BoundedQueue.ext h1.symm rfl⟩

theorem poll_eq_none_iff : q.poll = none ↔ q.items = [] := by
  unfold poll
  split
  · rename_i h
    simp [h]
  · rename_i a as h
    simp [h]

/-- The queue of the images. -/
def map (f : α → β) (q : BoundedQueue α) : BoundedQueue β where
  capacity := q.capacity
  items := q.items.map f
  length_le := by
    rw [List.length_map]
    exact q.length_le

theorem map_congr {f g : α → β} (h : ∀ a ∈ q.items, f a = g a) : q.map f = q.map g :=
  BoundedQueue.ext rfl (List.map_congr_left h)

/-- Adding an image is adding and taking images. -/
theorem add_map (f : α → β) (q : BoundedQueue α) (a : α) :
    (q.map f).add (f a) = (q.add a).map (map f) := by
  cases hadd : q.add a with
  | none =>
    rw [Option.map_none, add_eq_none_iff]
    have hfull := add_eq_none_iff.mp hadd
    unfold HasRoom map
    rwa [List.length_map]
  | some q' =>
    obtain ⟨hroom, hcap, hitems⟩ := add_eq_some_iff.mp hadd
    rw [Option.map_some, add_eq_some_iff]
    refine ⟨?_, hcap, ?_⟩
    · unfold HasRoom map
      rwa [List.length_map]
    · show q'.items.map f = q.items.map f ++ [f a]
      rw [hitems, List.map_append, List.map_singleton]

end BoundedQueue

end Mlmq.Lib.Queue
