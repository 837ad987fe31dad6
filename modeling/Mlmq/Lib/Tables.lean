import Mathlib

/-! # Tables that are filled in place

An array of references: reading a place out of range, or one where nothing is stored, is an
exception, which is `none`. `shiftDown` walks down a table and computes each entry from the one
below it, which is still the old one (`exists_shiftDown`).

The loops that add up what they read, or visit a list, are folds in the same monad. A loop that
keeps the greatest element it has seen ends with the first of them (`exists_greatest`). -/

namespace Mlmq.Lib.Tables

/-- An array of references. -/
abbrev Table (α : Type) := List (Option α)

variable {α β γ : Type}

def read (P : Table α) (j : ℕ) : Option α := P[j]?.join

def write (P : Table α) (j : ℕ) (x : α) : Option (Table α) :=
  if j < P.length then some (P.set j (some x)) else none

theorem exists_write {P : Table α} {j : ℕ} (hj : j < P.length) (x : α) :
    ∃ P', write P j x = some P' ∧ P'.length = P.length ∧
      ∀ i, read P' i = if i = j then some x else read P i := by
  refine ⟨P.set j (some x), if_pos hj, List.length_set, fun i => ?_⟩
  unfold read
  rw [List.getElem?_set]
  by_cases hij : i = j
  · rw [if_pos hij.symm, if_pos hij, if_pos hj]
    rfl
  · rw [if_neg (Ne.symm hij), if_neg hij]

/-! ### Walking down -/

/-- From `k` down to 1, an entry is computed from the one below it. -/
def shiftDown (f : ℕ → α → Option α) : ℕ → Table α → Option (Table α)
  | 0, P => some P
  | j + 1, P => do
    let x ← f (j + 1) (← read P j)
    shiftDown f j (← write P (j + 1) x)

/-- The new entries come from the old ones. -/
theorem exists_shiftDown {f : ℕ → α → Option α} {p q : ℕ → α} {k : ℕ} {P : Table α}
    (hlen : k < P.length) (hread : ∀ j < k, read P j = some (p j))
    (hf : ∀ j < k, f (j + 1) (p j) = some (q (j + 1))) :
    ∃ P', shiftDown f k P = some P' ∧ P'.length = P.length ∧
      ∀ j, read P' j = if 1 ≤ j ∧ j ≤ k then some (q j) else read P j := by
  induction k generalizing P with
  | zero => exact ⟨P, rfl, rfl, fun j => (if_neg (by omega)).symm⟩
  | succ k ih =>
    obtain ⟨P₁, hwrite, hlen₁, hread₁⟩ := exists_write hlen (q (k + 1))
    have hbelow : ∀ j < k, read P₁ j = some (p j) := by
      intro j hj
      rw [hread₁, if_neg (by omega)]
      exact hread j (by omega)
    obtain ⟨P₂, hshift, hlen₂, hread₂⟩ :=
      ih (by omega) hbelow fun j hj => hf j (by omega)
    refine ⟨P₂, ?_, hlen₂.trans hlen₁, fun j => ?_⟩
    · rw [shiftDown, hread k (Nat.lt_succ_self k)]
      simp only [hf k (Nat.lt_succ_self k), hwrite, Option.bind_eq_bind, Option.bind_some]
      exact hshift
    · rw [hread₂, hread₁]
      by_cases hj : 1 ≤ j ∧ j ≤ k
      · rw [if_pos hj, if_pos (by omega)]
      · rw [if_neg hj]
        by_cases hjk : j = k + 1
        · rw [if_pos hjk, if_pos (by omega), hjk]
        · rw [if_neg hjk, if_neg (by omega)]

/-! ### Loops -/

/-- A loop that adds up. -/
theorem foldlM_eq_add [AddMonoid α] {l : List β} {f : α → β → Option α} {h : β → α}
    (hf : ∀ r, ∀ j ∈ l, f r j = some (r + h j)) (r : α) :
    l.foldlM f r = some (r + (l.map h).sum) := by
  induction l generalizing r with
  | nil => simp
  | cons j l ih =>
    rw [List.foldlM_cons, hf r j List.mem_cons_self, List.map_cons, List.sum_cons, ← add_assoc]
    exact ih (fun r i hi => hf r i (List.mem_cons_of_mem j hi)) _

theorem foldlM_add [AddMonoid α] {l : List β} {g : β → Option α} {h : β → α}
    (hg : ∀ j ∈ l, g j = some (h j)) (r : α) :
    l.foldlM (fun sum j => do return sum + (← g j)) r = some (r + (l.map h).sum) :=
  foldlM_eq_add (fun r j hj => by rw [hg j hj]; rfl) r

/-- The sum over `1` to `k`. -/
theorem sum_range'_one [AddCommMonoid α] (f : ℕ → α) (k : ℕ) :
    ((List.range' 1 k).map f).sum = ∑ i ∈ Finset.Ico 1 (k + 1), f i := by
  induction k with
  | zero => simp
  | succ k ih =>
    rw [List.range'_1_concat, List.map_append, List.sum_append, ih,
      Finset.sum_Ico_succ_top (Nat.le_add_left 1 k)]
    simp [add_comm]

/-- The loop from 1 to `n` that adds up. -/
theorem foldlM_range'_add [AddCommMonoid α] {n : ℕ} {g : ℕ → Option α} {h : ℕ → α}
    (hg : ∀ j < n, g (j + 1) = some (h j)) :
    (List.range' 1 n).foldlM (fun sum j => do return sum + (← g j)) 0 =
      some (∑ j ∈ Finset.range n, h j) := by
  have hpred : ∀ j ∈ List.range' 1 n, g j = some (h (j - 1)) := by
    intro j hj
    obtain ⟨hle, hlt⟩ := List.mem_range'_1.mp hj
    obtain ⟨i, rfl⟩ : ∃ i, j = i + 1 := ⟨j - 1, by omega⟩
    exact hg i (by omega)
  rw [foldlM_add hpred, zero_add, sum_range'_one, Finset.sum_Ico_eq_sum_range, Nat.add_sub_cancel]
  simp only [Nat.add_sub_cancel_left]

/-- The loop from 1 to `n` that subtracts. -/
theorem foldlM_range'_sub [AddCommGroup α] {n : ℕ} {g : ℕ → Option α} {h : ℕ → α}
    (hg : ∀ j < n, g (j + 1) = some (h j)) (r : α) :
    (List.range' 1 n).foldlM (fun rest j => do return rest - (← g j)) r =
      some (r - ∑ j ∈ Finset.range n, h j) := by
  induction n generalizing r with
  | zero => simp
  | succ n ih =>
    rw [List.range'_1_concat, List.foldlM_append, ih fun j hj => hg j (by omega),
      Option.bind_eq_bind, Option.bind_some, List.foldlM_cons, add_comm 1 n,
      hg n (Nat.lt_succ_self n), Finset.sum_range_succ, ← sub_sub]
    rfl

/-- A loop that keeps the first one, in some order, of what it has seen. -/
theorem foldl_first {r : β → β → Prop} {f : β → β → β} (hrefl : ∀ x, r x x)
    (htrans : ∀ {x y z}, r x y → r y z → r x z)
    (hf : ∀ m x, r (f m x) m ∧ r (f m x) x ∧ (f m x = m ∨ f m x = x))
    (g : α → β) (l : List α) (m : β) :
    r (l.foldl (fun m a => f m (g a)) m) m ∧
      (∀ a ∈ l, r (l.foldl (fun m a => f m (g a)) m) (g a)) ∧
      (l.foldl (fun m a => f m (g a)) m = m ∨
        ∃ a ∈ l, l.foldl (fun m a => f m (g a)) m = g a) := by
  induction l generalizing m with
  | nil => exact ⟨hrefl m, fun a ha => absurd ha List.not_mem_nil, Or.inl rfl⟩
  | cons a l ih =>
    obtain ⟨hm, hl, hattained⟩ := ih (f m (g a))
    obtain ⟨hfm, hfa, hcases⟩ := hf m (g a)
    rw [List.foldl_cons]
    refine ⟨htrans hm hfm, List.forall_mem_cons.mpr ⟨htrans hm hfa, hl⟩, ?_⟩
    rcases hattained with heq | ⟨b, hb, heq⟩
    · rw [heq]
      exact hcases.imp_right fun h => ⟨a, List.mem_cons_self, h⟩
    · exact Or.inr ⟨b, List.mem_cons_of_mem a hb, heq⟩

/-- A loop over a list, element by element. -/
theorem exists_mapM {R : α → β → Prop} {S : α → γ → Prop} {f : β → Option γ} {l : List α}
    {l' : List β} (hl : List.Forall₂ R l l')
    (hf : ∀ a ∈ l, ∀ b, R a b → ∃ c, f b = some c ∧ S a c) :
    ∃ r, l'.mapM f = some r ∧ List.Forall₂ S l r := by
  induction hl with
  | nil => exact ⟨[], rfl, .nil⟩
  | @cons a b l l' hab _ ih =>
    obtain ⟨c, hc, hac⟩ := hf a List.mem_cons_self b hab
    obtain ⟨r, hr, hlr⟩ := ih fun x hx => hf x (List.mem_cons_of_mem a hx)
    refine ⟨c :: r, ?_, .cons hac hlr⟩
    rw [List.mapM_cons, hc, hr]
    rfl

/-- What holds of each result of a loop over a list. -/
theorem exists_mapM_iff {f : β → Option γ} {P : γ → Prop} {l : List β} :
    (∃ r, l.mapM f = some r ∧ ∀ c ∈ r, P c) ↔ ∀ b ∈ l, ∃ c, f b = some c ∧ P c := by
  induction l with
  | nil =>
    have hnil : ∃ r, [].mapM f = some r ∧ ∀ c ∈ r, P c :=
      ⟨[], rfl, fun c hc => absurd hc List.not_mem_nil⟩
    exact iff_of_true hnil fun b hb => absurd hb List.not_mem_nil
  | cons b l ih =>
    rw [List.forall_mem_cons, ← ih, List.mapM_cons]
    constructor
    · rintro ⟨r, hr, hP⟩
      obtain ⟨c, hc, hr⟩ := Option.bind_eq_some_iff.mp hr
      obtain ⟨cs, hcs, hr⟩ := Option.bind_eq_some_iff.mp hr
      obtain rfl := Option.some.inj hr
      rw [List.forall_mem_cons] at hP
      exact ⟨⟨c, hc, hP.1⟩, cs, hcs, hP.2⟩
    · rintro ⟨⟨c, hc, hPc⟩, cs, hcs, hPcs⟩
      refine ⟨c :: cs, ?_, List.forall_mem_cons.mpr ⟨hPc, hPcs⟩⟩
      rw [hc, hcs]
      rfl

theorem exists_of_forall₂ {R : α → β → Prop} {l : List α} {l' : List β}
    (hl : List.Forall₂ R l l') {b : β} (hb : b ∈ l') : ∃ a ∈ l, R a b := by
  induction hl with
  | nil => exact absurd hb List.not_mem_nil
  | @cons a b' l l' hab _ ih =>
    rcases List.mem_cons.mp hb with rfl | hb
    · exact ⟨a, List.mem_cons_self, hab⟩
    · obtain ⟨a', ha', hab'⟩ := ih hb
      exact ⟨a', List.mem_cons_of_mem a ha', hab'⟩

/-! ### The first of the greatest -/

/-- The first element with the greatest value, and its place. -/
structure Greatest {K : Type} [LinearOrder K] (f : α → K) (l : List α) (k : ℕ) (a : α) : Prop where
  place : l[k]? = some a
  le : ∀ b ∈ l, f b ≤ f a
  before : ∀ j b, l[j]? = some b → j < k → f b < f a

section Greatest

variable {K : Type} [LinearOrder K] {f : α → K} {g : β → K} {l : List α} {l' : List β} {k k' : ℕ}
  {a a' : α}

theorem Greatest.unique (h : Greatest f l k a) (h' : Greatest f l k' a') : k = k' := by
  rcases lt_trichotomy k k' with hlt | heq | hgt
  · have hle := h.le a' (List.mem_of_getElem? h'.place)
    exact absurd (h'.before k a h.place hlt) (not_lt.mpr hle)
  · exact heq
  · have hle := h'.le a (List.mem_of_getElem? h.place)
    exact absurd (h.before k' a' h'.place hgt) (not_lt.mpr hle)

/-- A loop that keeps the greatest one it has seen, from a value below all, ends with the first. -/
theorem exists_greatest {z : K} (hz : ∀ a ∈ l, z < f a) (hne : l ≠ []) :
    ∃ k a, Greatest f l k a ∧
      l.foldl (fun (best : Option α × K) a => if best.2 < f a then (some a, f a) else best)
        (none, z) = (some a, f a) := by
  induction l using List.reverseRecOn with
  | nil => exact absurd rfl hne
  | append_singleton l b ih =>
    rw [List.foldl_append, List.foldl_cons, List.foldl_nil]
    have hb : z < f b := hz b (by simp)
    by_cases hl : l = []
    · subst hl
      exact ⟨0, b, ⟨rfl, by simp, fun j _ _ hj => absurd hj (Nat.not_lt_zero j)⟩, if_pos hb⟩
    · obtain ⟨k, a, hfirst, hfold⟩ := ih (fun a ha => hz a (List.mem_append_left _ ha)) hl
      have hk : k < l.length := (List.getElem?_eq_some_iff.mp hfirst.place).1
      rw [hfold]
      by_cases hab : f a < f b
      · refine ⟨l.length, b, ⟨by simp, fun c hc => ?_, fun j c hc hj => ?_⟩, if_pos hab⟩
        · rcases List.mem_append.mp hc with hc | hc
          · exact (hfirst.le c hc).trans hab.le
          · exact (congrArg f (List.mem_singleton.mp hc)).le
        · rw [List.getElem?_append_left hj] at hc
          exact (hfirst.le c (List.mem_of_getElem? hc)).trans_lt hab
      · refine ⟨k, a, ⟨?_, fun c hc => ?_, fun j c hc hj => ?_⟩, if_neg hab⟩
        · rw [List.getElem?_append_left hk]
          exact hfirst.place
        · rcases List.mem_append.mp hc with hc | hc
          · exact hfirst.le c hc
          · rw [List.mem_singleton.mp hc]
            exact not_lt.mp hab
        · rw [List.getElem?_append_left (hj.trans hk)] at hc
          exact hfirst.before j c hc hj

/-- The place does not change when the values do, as long as their order stays. -/
theorem Greatest.map {R : α → β → Prop} {φ : K → K} (h : Greatest f l k a) (hφ : StrictMono φ)
    (hl : List.Forall₂ R l l') (hR : ∀ a b, R a b → g b = φ (f a)) :
    ∃ b, R a b ∧ Greatest g l' k b := by
  have hget : ∀ (j : ℕ) b, l'[j]? = some b → ∃ a, l[j]? = some a ∧ R a b := by
    intro j b hb
    obtain ⟨hj, rfl⟩ := List.getElem?_eq_some_iff.mp hb
    have hj' : j < l.length := hl.length_eq ▸ hj
    exact ⟨l[j], List.getElem?_eq_getElem hj', hl.get hj' hj⟩
  obtain ⟨hk, ha⟩ := List.getElem?_eq_some_iff.mp h.place
  have hk' : k < l'.length := hl.length_eq ▸ hk
  have hab : R a l'[k] := ha ▸ hl.get hk hk'
  refine ⟨l'[k], hab, List.getElem?_eq_getElem hk', fun b hb => ?_, fun j b hb hj => ?_⟩
  · obtain ⟨c, hc, hcb⟩ := exists_of_forall₂ hl hb
    rw [hR _ _ hcb, hR _ _ hab]
    exact hφ.monotone (h.le c hc)
  · obtain ⟨c, hc, hcb⟩ := hget j b hb
    rw [hR _ _ hcb, hR _ _ hab]
    exact hφ (h.before j c hc hj)

end Greatest

end Mlmq.Lib.Tables
