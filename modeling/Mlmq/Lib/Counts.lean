import Mathlib

/-! # Lists given by multiplicities

A collection can be kept as its distinct elements and how often each occurs. `expand` is the list that
is meant; from sorted elements it is sorted (`pairwise_expand`), so it is the sorted list
(`expand_eq_mergeSort`).

`walk` looks for the element at a position without that list: it adds up multiplicities until they
reach the position (`walk_eq_getElem?`). A later position never has a smaller element
(`walk_mono`), whatever the addition is. -/

namespace Mlmq.Lib.Counts

variable {α A : Type}

/-- The list in which `d` occurs `m d` times. -/
def expand (m : α → ℕ) (ds : List α) : List α := ds.flatMap fun d => List.replicate (m d) d

/-- The first element at which the multiplicities, added to `s`, reach `k`. -/
def walk [Add A] [LE A] [DecidableLE A] (m : α → A) (k : A) : List α → A → Option α
  | [], _ => none
  | d :: ds, s => if k ≤ s + m d then some d else walk m k ds (s + m d)

/-- The walk, where a multiplicity may be missing. -/
def walkM [Add A] [LE A] [DecidableLE A] (m : α → Option A) (k : A) :
    List α → A → Option (Option α)
  | [], _ => some none
  | d :: ds, s => do
    let x ← m d
    if k ≤ s + x then return some d else walkM m k ds (s + x)

theorem walkM_eq [Add A] [LE A] [DecidableLE A] {m : α → Option A} {m' : α → A} {ds : List α}
    (h : ∀ d ∈ ds, m d = some (m' d)) (k s : A) :
    walkM m k ds s = some (walk m' k ds s) := by
  induction ds generalizing s with
  | nil => rfl
  | cons d ds ih =>
    rw [walkM, walk, h d List.mem_cons_self, Option.bind_eq_bind, Option.bind_some]
    split_ifs
    · rfl
    · exact ih (fun a ha => h a (List.mem_cons_of_mem d ha)) _

/-! ### The list that is meant -/

theorem expand_cons (m : α → ℕ) (d : α) (ds : List α) :
    expand m (d :: ds) = List.replicate (m d) d ++ expand m ds := List.flatMap_cons

theorem mem_expand {m : α → ℕ} {ds : List α} {a : α} (h : a ∈ expand m ds) : a ∈ ds := by
  obtain ⟨d, hd, ha⟩ := List.mem_flatMap.mp h
  rw [List.eq_of_mem_replicate ha]
  exact hd

theorem pairwise_expand {r : α → α → Prop} (hr : ∀ a, r a a) (m : α → ℕ) {ds : List α}
    (h : ds.Pairwise r) : (expand m ds).Pairwise r := by
  induction h with
  | nil => exact .nil
  | @cons d ds hd _ ih =>
    rw [expand_cons, List.pairwise_append]
    refine ⟨List.pairwise_replicate.mpr (Or.inr (hr d)), ih, fun a ha b hb => ?_⟩
    rw [List.eq_of_mem_replicate ha]
    exact hd b (mem_expand hb)

theorem count_expand [DecidableEq α] (m : α → ℕ) {ds : List α} (hds : ds.Nodup) (a : α) :
    (expand m ds).count a = if a ∈ ds then m a else 0 := by
  induction ds with
  | nil => rfl
  | cons d ds ih =>
    obtain ⟨hd, hds⟩ := List.nodup_cons.mp hds
    rw [expand_cons, List.count_append, ih hds, List.count_replicate]
    by_cases had : d = a
    · subst had
      simp [hd]
    · simp [had, Ne.symm had]

theorem expand_perm [DecidableEq α] {ds xs : List α} (hds : ds.Nodup)
    (hmem : ∀ a, a ∈ ds ↔ a ∈ xs) : (expand (xs.count ·) ds).Perm xs := by
  rw [List.perm_iff_count]
  intro a
  rw [count_expand _ hds]
  split_ifs with ha
  · rfl
  · rw [hmem] at ha
    exact (List.count_eq_zero_of_not_mem ha).symm

/-- A sum over the list. -/
theorem sum_expand [AddCommMonoid A] (m : α → ℕ) (f : α → A) (ds : List α) :
    ((expand m ds).map f).sum = (ds.map fun d => m d • f d).sum := by
  induction ds with
  | nil => rfl
  | cons d ds ih =>
    rw [expand_cons, List.map_append, List.sum_append, ih, List.map_replicate,
      List.sum_replicate, List.map_cons, List.sum_cons]

theorem getLast?_expand {m : α → ℕ} {ds : List α} (hm : ∀ d ∈ ds, 0 < m d) :
    (expand m ds).getLast? = ds.getLast? := by
  induction ds with
  | nil => rfl
  | cons d ds ih =>
    have hd := hm d List.mem_cons_self
    rw [expand_cons, List.getLast?_append, ih fun a ha => hm a (List.mem_cons_of_mem d ha),
      List.getLast?_replicate, if_neg hd.ne', List.getLast?_cons]
    cases ds.getLast? <;> rfl

/-- Sorted distinct elements, each as often as it occurs, are the sorted list. -/
theorem expand_eq_mergeSort [DecidableEq α] {le : α → α → Bool} {ds xs : List α}
    (htrans : ∀ a b c, le a b = true → le b c = true → le a c = true)
    (htotal : ∀ a b, (le a b || le b a) = true)
    (hantisymm : ∀ a b, le a b = true → le b a = true → a = b)
    (hsorted : ds.Pairwise fun a b => le a b = true) (hds : ds.Nodup)
    (hmem : ∀ a, a ∈ ds ↔ a ∈ xs) : expand (xs.count ·) ds = xs.mergeSort le := by
  have hrefl : ∀ a, le a a = true := fun a => by simpa using htotal a a
  refine List.Perm.eq_of_pairwise (fun a b _ _ => hantisymm a b)
    (pairwise_expand hrefl _ hsorted) (List.pairwise_mergeSort htrans htotal xs) ?_
  exact (expand_perm hds hmem).trans (List.mergeSort_perm xs le).symm

/-! ### The walk -/

/-- The walk stops at the element in that position. -/
theorem walk_eq_getElem? {m : α → ℕ} {ds : List α} (hm : ∀ d ∈ ds, 0 < m d) (k s : ℤ) :
    walk (fun d => (m d : ℤ)) k ds s = (expand m ds)[(k - s - 1).toNat]? := by
  induction ds generalizing s with
  | nil => rfl
  | cons d ds ih =>
    have hd := hm d List.mem_cons_self
    rw [walk, expand_cons]
    split_ifs with hk
    · rw [List.getElem?_append_left (by rw [List.length_replicate]; omega),
        List.getElem?_replicate, if_pos (by omega)]
    · rw [ih (fun a ha => hm a (List.mem_cons_of_mem d ha)),
        List.getElem?_append_right (by rw [List.length_replicate]; omega), List.length_replicate]
      congr 1
      omega

/-- The walk stops at the first element up to which the multiplicities reach `k`. -/
theorem walk_eq_find? [Add A] [LE A] [DecidableLE A] {m cum : α → A} {ds : List α} {s : A}
    (hcum : ∀ pre d post, ds = pre ++ d :: post →
      cum d = pre.foldl (fun s a => s + m a) s + m d) (k : A) :
    walk m k ds s = ds.find? fun d => decide (k ≤ cum d) := by
  induction ds generalizing s with
  | nil => rfl
  | cons a ds ih =>
    have ha : cum a = s + m a := hcum [] a ds rfl
    have htail : walk m k ds (s + m a) = ds.find? fun d => decide (k ≤ cum d) :=
      ih fun pre d post hds => hcum (a :: pre) d post (by rw [hds]; rfl)
    rw [walk, List.find?_cons, ha, htail]
    by_cases hk : k ≤ s + m a
    · rw [if_pos hk, decide_eq_true hk]
    · rw [if_neg hk, decide_eq_false hk]

section Order

variable [Add A] [LE A] [DecidableLE A] {m : α → A} {ds : List α} {k k' s : A}

theorem walk_mem {d : α} (h : walk m k ds s = some d) : d ∈ ds := by
  induction ds generalizing s with
  | nil => exact absurd h (Option.some_ne_none d).symm
  | cons a ds ih =>
    rw [walk] at h
    split_ifs at h
    · obtain rfl := Option.some.inj h
      exact List.mem_cons_self
    · exact List.mem_cons_of_mem a (ih h)

/-- A position that is never reached has none behind it that is. -/
theorem walk_none_mono (htrans : ∀ x : A, k' ≤ x → k ≤ x) (h : walk m k ds s = none) :
    walk m k' ds s = none := by
  induction ds generalizing s with
  | nil => rfl
  | cons d ds ih =>
    rw [walk] at h ⊢
    split_ifs at h with hk
    rw [if_neg fun hk' => hk (htrans _ hk')]
    exact ih h

theorem walk_mono {r : α → α → Prop} (hr : ∀ a, r a a) (hds : ds.Pairwise r)
    (htrans : ∀ x : A, k' ≤ x → k ≤ x) {d d' : α} (h : walk m k ds s = some d)
    (h' : walk m k' ds s = some d') : r d d' := by
  induction ds generalizing s with
  | nil => exact absurd h (Option.some_ne_none d).symm
  | cons a ds ih =>
    obtain ⟨ha, hds⟩ := List.pairwise_cons.mp hds
    rw [walk] at h h'
    split_ifs at h with hk
    · obtain rfl := Option.some.inj h
      split_ifs at h' with hk'
      · obtain rfl := Option.some.inj h'
        exact hr _
      · exact ha d' (walk_mem h')
    · rw [if_neg fun hk' => hk (htrans _ hk')] at h'
      exact ih hds h h'

end Order

end Mlmq.Lib.Counts
