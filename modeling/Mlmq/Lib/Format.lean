import Mathlib

/-! # Formats: languages of self-delimiting words

A format gives every value the language of the words that stand for it. What a reader needs of such
a language is that no word is a proper prefix of another (`PrefixFree`); this is kept by
concatenation and holds of words of one length.

`Tail k L` says which letter decides a word of `L`: the last `k` letters are free (any others give a
word of `L` as well), and the letter in front of them can be changed so that no word of `L` is left
at the front of the text. A field in front of another does not matter for the tail
(`Tail.mul_left`).

`guarded p L` is `L` if `p` holds and empty otherwise. -/

namespace Mlmq.Lib.Format

variable {α : Type*} {A B L : Language α}

/-! ### Prefix-free languages -/

/-- No word is a proper prefix of another. -/
def PrefixFree (L : Language α) : Prop := ∀ u ∈ L, ∀ v ∈ L, u <+: v → u = v

/-- Two words of a prefix-free language at the front of one text are the same. -/
theorem PrefixFree.eq_of_prefix (h : PrefixFree L) {u v w : List α} (hu : u ∈ L) (hv : v ∈ L)
    (huw : u <+: w) (hvw : v <+: w) : u = v := by
  rcases List.prefix_or_prefix_of_prefix huw hvw with h' | h'
  · exact h u hu v hv h'
  · exact (h v hv u hu h').symm

theorem PrefixFree.of_length {n : ℕ} (h : ∀ u ∈ L, u.length = n) : PrefixFree L :=
  fun u hu v hv huv => huv.eq_of_length (by rw [h u hu, h v hv])

theorem prefixFree_singleton (w : List α) : PrefixFree ({w} : Language α) :=
  PrefixFree.of_length (n := w.length) fun u hu => by rw [Set.mem_singleton_iff.mp hu]

theorem prefixFree_one : PrefixFree (1 : Language α) := prefixFree_singleton []

theorem PrefixFree.mul (hA : PrefixFree A) (hB : PrefixFree B) : PrefixFree (A * B) := by
  intro u hu v hv huv
  obtain ⟨a, ha, b, hb, rfl⟩ := Language.mem_mul.mp hu
  obtain ⟨a', ha', b', hb', rfl⟩ := Language.mem_mul.mp hv
  obtain rfl : a = a' :=
    hA.eq_of_prefix ha ha' ((List.prefix_append a b).trans huv) (List.prefix_append a' b')
  rw [hB b hb b' hb' ((List.prefix_append_right_inj a).mp huv)]

theorem PrefixFree.prod {Ls : List (Language α)} (h : ∀ L ∈ Ls, PrefixFree L) :
    PrefixFree Ls.prod := by
  induction Ls with
  | nil => exact prefixFree_one
  | cons L Ls ih =>
    rw [List.prod_cons]
    exact (h L (by simp)).mul (ih fun M hM => h M (by simp [hM]))

/-! ### The letter that decides -/

/-- Every word has more than `k` letters, the last `k` are free, and the one in front of them can be
changed so that no word is left. -/
structure Tail (k : ℕ) (L : Language α) : Prop where
  longer : ∀ u ∈ L, k < u.length
  free : ∀ u v v', u ++ v ∈ L → v.length = k → v'.length = k → u ++ v' ∈ L
  decided : ∀ u x v, u ++ x :: v ∈ L → v.length = k →
    ∃ y, ∀ w, ∀ z ∈ L, ¬ z <+: u ++ y :: v ++ w

/-- A word of `A * B` whose last letters are `v`, when `v` is not longer than the words of `B`. -/
theorem mem_mul_tail {u v : List α} (h : u ++ v ∈ A * B) (hB : ∀ b ∈ B, v.length ≤ b.length) :
    ∃ a ∈ A, ∃ u', u = a ++ u' ∧ u' ++ v ∈ B := by
  obtain ⟨a, ha, b, hb, hab⟩ := Language.mem_mul.mp h
  have hle := hB b hb
  have hlen := congrArg List.length hab
  simp only [List.length_append] at hlen
  obtain ⟨u', rfl⟩ : a <+: u :=
    List.prefix_of_prefix_length_le ⟨b, hab⟩ (List.prefix_append u v) (by omega)
  rw [List.append_assoc, List.append_cancel_left_eq] at hab
  exact ⟨a, ha, u', rfl, hab ▸ hb⟩

/-- **The tail of a concatenation is the tail of its second part.** -/
theorem Tail.mul_left {k : ℕ} (hA : PrefixFree A) (hB : Tail k B) : Tail k (A * B) where
  longer u hu := by
    obtain ⟨a, -, b, hb, rfl⟩ := Language.mem_mul.mp hu
    have := hB.longer b hb
    rw [List.length_append]
    omega
  free u v v' h hv hv' := by
    obtain ⟨a, ha, u', rfl, hb⟩ := mem_mul_tail h fun b hb => hv ▸ (hB.longer b hb).le
    rw [List.append_assoc]
    exact Language.append_mem_mul ha (hB.free u' v v' hb hv hv')
  decided u x v h hv := by
    obtain ⟨a, ha, u', rfl, hb⟩ := mem_mul_tail h fun b hb => by
      have := hB.longer b hb
      simp only [List.length_cons]
      omega
    obtain ⟨y, hy⟩ := hB.decided u' x v hb hv
    refine ⟨y, fun w z hz hpre => ?_⟩
    obtain ⟨a', ha', b', hb', rfl⟩ := Language.mem_mul.mp hz
    have hassoc : a ++ u' ++ y :: v ++ w = a ++ (u' ++ y :: v ++ w) := by simp
    rw [hassoc] at hpre
    obtain rfl : a' = a :=
      hA.eq_of_prefix ha' ha ((List.prefix_append a' b').trans hpre) (List.prefix_append a _)
    exact hy w b' hb' ((List.prefix_append_right_inj a').mp hpre)

/-- A single word is decided by its last letter. -/
theorem tail_singleton [Nontrivial α] {w : List α} (hw : w ≠ []) :
    Tail 0 ({w} : Language α) where
  longer u hu := by
    rw [Set.mem_singleton_iff.mp hu]
    exact List.length_pos_of_ne_nil hw
  free u v v' h hv hv' := by
    rwa [List.length_eq_zero_iff.mp hv', ← List.length_eq_zero_iff.mp hv]
  decided u x v h hv := by
    obtain rfl := List.length_eq_zero_iff.mp hv
    obtain ⟨y, hy⟩ := exists_ne x
    refine ⟨y, fun t z hz hpre => hy ?_⟩
    rw [Set.mem_singleton_iff.mp hz, ← Set.mem_singleton_iff.mp h] at hpre
    rw [List.append_assoc, List.prefix_append_right_inj] at hpre
    exact ((List.cons_prefix_cons.mp hpre).1).symm

/-! ### Guarded languages -/

/-- `L` if `p` holds, nothing otherwise. -/
def guarded (p : Prop) (L : Language α) : Language α := {x | p ∧ x ∈ L}

@[simp] theorem mem_guarded {p : Prop} {x : List α} : x ∈ guarded p L ↔ p ∧ x ∈ L := Iff.rfl

@[simp] theorem guarded_true : guarded True L = L := by
  ext x
  simp

end Mlmq.Lib.Format
