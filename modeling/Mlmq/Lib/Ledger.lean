import Mlmq.Lib.Transition

/-! # Ledgers of a store

A store holds items under keys, which a counter hands out. A step enters new items and lets others
go (`Store.Moves`), and so do several steps together (`Store.Moves.trans`). The ledger of a run has
an `Entry` for every step, and it balances: what the store held at the start, and what has been
entered since, is what it holds in the end and what has left it (`exists_ledger`). If the keys were
different at the start, no key occurs twice in all of that (`Store.Moves.keys_nodup`). -/

namespace Mlmq.Lib.Ledger

open Mlmq.Lib.Transition
open scoped List

variable {σ τ ι α : Type*}

/-- What a state stores, under which keys, and the next key. -/
structure Store (σ α : Type*) where
  items : σ → List α
  key : α → ℤ
  next : σ → ℤ

/-- What has been entered, and what has left. -/
structure Entry (α : Type*) where
  entered : List α
  left : List α

/-- The entries of a ledger as one. -/
def total (ledger : List (Entry α)) : Entry α where
  entered := ledger.flatMap Entry.entered
  left := ledger.flatMap Entry.left

namespace Store

variable (S : Store σ α)

/-- The items have different keys, which have been handed out. -/
structure Keyed (s : σ) : Prop where
  nodup : ((S.items s).map S.key).Nodup
  lt : ∀ a ∈ S.items s, S.key a < S.next s

/-- **From `s` to `s'` with this entry.** The keys of what is entered are new and different. -/
structure Moves (s : σ) (e : Entry α) (s' : σ) : Prop where
  perm : S.items s ++ e.entered ~ S.items s' ++ e.left
  fresh : ∀ a ∈ e.entered, S.next s ≤ S.key a
  below : ∀ a ∈ e.entered, S.key a < S.next s'
  nodup : (e.entered.map S.key).Nodup
  le : S.next s ≤ S.next s'

/-- The store that is a part of a larger state. -/
def comap (f : τ → σ) : Store τ α where
  items t := S.items (f t)
  key := S.key
  next t := S.next (f t)

theorem moves_comap_iff {f : τ → σ} {t t' : τ} {e : Entry α} :
    (S.comap f).Moves t e t' ↔ S.Moves (f t) e (f t') :=
  ⟨fun h => ⟨h.perm, h.fresh, h.below, h.nodup, h.le⟩,
    fun h => ⟨h.perm, h.fresh, h.below, h.nodup, h.le⟩⟩

end Store

namespace Store.Moves

variable {S : Store σ α} {s s' s'' : σ} {e e' : Entry α}

/-- Nothing moves. -/
theorem of_perm (hperm : S.items s ~ S.items s') (hle : S.next s ≤ S.next s') :
    S.Moves s ⟨[], []⟩ s' where
  perm := by simpa only [List.append_nil] using hperm
  fresh _ ha := absurd ha List.not_mem_nil
  below _ ha := absurd ha List.not_mem_nil
  nodup := List.nodup_nil
  le := hle

/-- One item is entered. -/
theorem enter {a : α} (hperm : S.items s ++ [a] ~ S.items s') (hfresh : S.next s ≤ S.key a)
    (hbelow : S.key a < S.next s') : S.Moves s ⟨[a], []⟩ s' where
  perm := by rwa [List.append_nil]
  fresh b hb := by rwa [List.mem_singleton.mp hb]
  below b hb := by rwa [List.mem_singleton.mp hb]
  nodup := List.nodup_singleton _
  le := hfresh.trans hbelow.le

/-- Some items leave. -/
theorem leave {p : α → Bool} (hitems : S.items s' = (S.items s).filter p)
    (hle : S.next s ≤ S.next s') : S.Moves s ⟨[], (S.items s).filter fun a => !p a⟩ s' where
  perm := by
    rw [List.append_nil, hitems]
    exact (List.filter_append_perm p _).symm
  fresh _ ha := absurd ha List.not_mem_nil
  below _ ha := absurd ha List.not_mem_nil
  nodup := List.nodup_nil
  le := hle

/-- **One step behind the other.** -/
theorem trans (h : S.Moves s e s') (h' : S.Moves s' e' s'') :
    S.Moves s ⟨e.entered ++ e'.entered, e.left ++ e'.left⟩ s'' := by
  refine ⟨?_, fun a ha => ?_, fun a ha => ?_, ?_, h.le.trans h'.le⟩
  · calc S.items s ++ (e.entered ++ e'.entered)
        = (S.items s ++ e.entered) ++ e'.entered := (List.append_assoc ..).symm
      _ ~ (S.items s' ++ e.left) ++ e'.entered := h.perm.append_right _
      _ ~ (S.items s' ++ e'.entered) ++ e.left := by
          rw [List.append_assoc, List.append_assoc]
          exact List.perm_append_comm.append_left _
      _ ~ (S.items s'' ++ e'.left) ++ e.left := h'.perm.append_right _
      _ ~ S.items s'' ++ (e.left ++ e'.left) := by
          rw [List.append_assoc]
          exact List.perm_append_comm.append_left _
  · rcases List.mem_append.mp ha with ha | ha
    · exact h.fresh a ha
    · exact h.le.trans (h'.fresh a ha)
  · rcases List.mem_append.mp ha with ha | ha
    · exact (h.below a ha).trans_le h'.le
    · exact h'.below a ha
  · -- the keys of the second step are handed out behind those of the first one
    rw [List.map_append]
    refine List.Nodup.append h.nodup h'.nodup ?_
    intro k hold hnew
    obtain ⟨a, ha, rfl⟩ := List.mem_map.mp hold
    obtain ⟨b, hb, hab⟩ := List.mem_map.mp hnew
    have h1 := h.below a ha
    have h2 := h'.fresh b hb
    omega

/-- **No key occurs twice** among what was there at the start and what has been entered. -/
theorem keys_nodup (h : S.Moves s e s') (hs : S.Keyed s) :
    ((S.items s ++ e.entered).map S.key).Nodup := by
  rw [List.map_append]
  refine List.Nodup.append hs.nodup h.nodup ?_
  intro k hold hnew
  obtain ⟨a, ha, rfl⟩ := List.mem_map.mp hold
  obtain ⟨b, hb, hab⟩ := List.mem_map.mp hnew
  have h1 := hs.lt a ha
  have h2 := h.fresh b hb
  omega

end Store.Moves

/-- **Every run has a ledger, and it balances**, if every step has an entry. -/
theorem exists_ledger {S : Store σ α} {step : σ → ι → σ → Prop} {I : σ → Prop}
    {Books : ι → Entry α → Prop} (hI : ∀ s i s', I s → step s i s' → I s')
    (hstep : ∀ s i s', I s → step s i s' → ∃ e, Books i e ∧ S.Moves s e s') {s s' : σ}
    {is : List ι} (h : Run step s is s') (hs : I s) :
    ∃ ledger, List.Forall₂ Books is ledger ∧ S.Moves s (total ledger) s' := by
  induction h with
  | nil s => exact ⟨[], .nil, .of_perm (.refl _) le_rfl⟩
  | cons h _ ih =>
    obtain ⟨e, hbooks, hmoves⟩ := hstep _ _ _ hs h
    obtain ⟨ledger, hall, hrest⟩ := ih (hI _ _ _ hs h)
    refine ⟨e :: ledger, .cons hbooks hall, ?_⟩
    rw [total, List.flatMap_cons, List.flatMap_cons]
    exact hmoves.trans hrest

end Mlmq.Lib.Ledger
