import Mlmq.Db.Dequeue

/-! # Concurrent calls with one query

As many calls of `dequeueMessage` as there are matching messages, all with the same query, nothing
fails and nothing else runs. A select takes the first row of its snapshot also when another call has
already taken it; it then waits for that call and, once the row is deleted, returns no row. So a run
in which that never happens (`Unclaimed`) gives every call a message, and any other complete run
gives some call null (`dequeueMessage_no_false_empty`). -/

namespace Mlmq.Db.NoFalseEmpty

open Mlmq.Dto Mlmq.Db.Table Mlmq.Db.Dequeue Mlmq.Lib.RowStore Mlmq.Lib.Transition

variable {κ : Type} [DecidableEq κ] {q : MessageQueryInfoDto}

/-! ### Runs without failures -/

/-- Nothing fails. -/
def normal : Event → Bool
  | .beginFails | .statementFails | .throws | .commitFails => false
  | _ => true

/-- The steps of the calls with the query `q`. -/
def CallStep (q : MessageQueryInfoDto) (s : State κ) (l : κ × Event) (s' : State κ) : Prop :=
  normal l.2 = true ∧ Step (fun _ => some q) s (.call l.1 l.2) s'

/-- The row that a call has taken and not yet removed. -/
def claims : Phase → Option Message
  | .locking m => some m
  | .selected m => some m
  | .closing (.message m) => some m
  | _ => none

/-- **The condition on a step**: a select takes no row that another call has taken. -/
def Unclaimed (s : State κ) (l : κ × Event) : Prop :=
  ∀ m, l.2 = .select m → ∀ c, claims (s.phase c) ≠ some m

/-- The steps that satisfy the condition. -/
def UnclaimedStep (q : MessageQueryInfoDto) (s : State κ) (l : κ × Event) (s' : State κ) : Prop :=
  CallStep q s l s' ∧ Unclaimed s l

/-- The call has lost: it returns, or will return, no message. -/
def Lost (p : Phase) : Prop :=
  p = .closing .null ∨ p = .closing .exception ∨ p = .done .null ∨ p = .done .exception

theorem CallStep.phase_of_ne {s s' : State κ} {l : κ × Event} (h : CallStep q s l s') {c : κ}
    (hc : c ≠ l.1) : s'.phase c = s.phase c := by
  refine h.2.phase_of_ne fun e hl => hc ?_
  exact (Label.call.inj hl).1.symm

theorem CallStep.inv {s s' : State κ} {l : κ × Event} (hinv : Inv s) (h : CallStep q s l s') :
    Inv s' :=
  hinv.step h.2

/-- **What becomes of a taken row**: the call keeps it, or loses, or returns it. -/
theorem CallStep.of_claims {s s' : State κ} {l : κ × Event} {m : Message} (hinv : Inv s)
    (h : CallStep q s l s') (hc : claims (s.phase l.1) = some m) :
    claims (s'.phase l.1) = some m ∨ Lost (s'.phase l.1) ∨
      Returned s' l.1 m ∧ m ∈ s.store.rows := by
  obtain ⟨c, e⟩ := l
  obtain ⟨hnormal, hstep⟩ := h
  simp only at hc hstep hnormal ⊢
  cases hstep with
  | begin hs => rw [hs] at hc; cases hc
  | beginFails hs => rw [hs] at hc; cases hc
  | select hs => rw [hs] at hc; cases hc
  | selectNone hs => rw [hs] at hc; cases hc
  | lock hs =>
    rw [hs] at hc
    left
    rw [phase_self]
    exact hc
  | gone hs =>
    right; left
    rw [phase_self]
    exact Or.inl rfl
  | statementFails => cases hnormal
  | throws => cases hnormal
  | delete hs =>
    rw [hs] at hc
    left
    rw [phase_self]
    exact hc
  | deleteNone hs =>
    right; left
    rw [phase_self]
    exact Or.inr (Or.inl rfl)
  | @commit _ o d hs htx =>
    rw [hs] at hc
    rcases o with m' | _ | _
    · obtain rfl : m' = m := Option.some.inj hc
      exact Or.inr (Or.inr ⟨returned_set.mpr rfl, (Inv.closing_message hinv hs).2⟩)
    · cases hc
    · cases hc
  | @rollback _ o hs htx =>
    rw [hs] at hc
    rcases o with m' | _ | _
    · rw [(Inv.closing_message hinv hs).1] at htx
      cases htx
    · cases hc
    · cases hc
  | commitFails => cases hnormal
  | noTransaction =>
    right; left
    rw [phase_self]
    exact Or.inr (Or.inr (Or.inr rfl))

/-- A lost call stays lost. -/
theorem CallStep.lost {s s' : State κ} {l : κ × Event} (h : CallStep q s l s') {c : κ}
    (hc : Lost (s.phase c)) : Lost (s'.phase c) := by
  obtain ⟨c₀, e⟩ := l
  by_cases hcl : c = c₀
  · subst hcl
    obtain ⟨-, hstep⟩ := h
    have hphase : ∃ o, s.phase c = .closing o ∧ (o = .null ∨ o = .exception) := by
      rcases hc with hc | hc | hc | hc
      · exact ⟨_, hc, Or.inl rfl⟩
      · exact ⟨_, hc, Or.inr rfl⟩
      · cases hstep <;> simp_all
      · cases hstep <;> simp_all
    obtain ⟨o, ho, hlost⟩ := hphase
    have hdone : Lost (.done o) := by
      rcases hlost with rfl | rfl
      · exact Or.inr (Or.inr (Or.inl rfl))
      · exact Or.inr (Or.inr (Or.inr rfl))
    rcases hstep.of_closing ho with ⟨d, -, rfl⟩ | ⟨-, rfl⟩ | rfl | rfl <;> rw [phase_self]
    · exact hdone
    · exact hdone
    · exact Or.inr (Or.inr (Or.inr rfl))
    · exact Or.inr (Or.inr (Or.inr rfl))
  · rwa [h.phase_of_ne hcl]

/-! ### A row taken twice -/

/-- Two calls have taken one row, or a call has lost. -/
def Clash (s : State κ) : Prop :=
  (∃ c c' m, c ≠ c' ∧ claims (s.phase c) = some m ∧
    (claims (s.phase c') = some m ∨ Returned s c' m)) ∨ ∃ c, Lost (s.phase c)

theorem CallStep.not_returned {s s' : State κ} {l : κ × Event} {m : Message}
    (h : CallStep q s l s') : ¬ Returned s l.1 m := by
  intro hret
  obtain ⟨c, e⟩ := l
  obtain ⟨-, hstep⟩ := h
  unfold Returned at hret
  cases hstep <;> simp_all

/-- **A clash stays.** -/
theorem Clash.step {s s' : State κ} {l : κ × Event} (h : Clash s) (hinv : Inv s)
    (hstep : CallStep q s l s') : Clash s' := by
  rcases h with ⟨c, c', m, hne, hc, hc'⟩ | ⟨c, hc⟩
  · by_cases hcl : c = l.1
    · -- the first of the two moves
      subst hcl
      have hkeep : claims (s'.phase c') = some m ∨ Returned s' c' m := by
        unfold Returned at hc' ⊢
        rwa [hstep.phase_of_ne hne.symm]
      rcases hstep.of_claims hinv hc with hclaim | hlost | ⟨hret, hrow⟩
      · exact Or.inl ⟨_, c', m, hne, hclaim, hkeep⟩
      · exact Or.inr ⟨_, hlost⟩
      · rcases hc' with hc' | hc'
        · refine Or.inl ⟨c', _, m, hne.symm, ?_, Or.inr hret⟩
          rwa [hstep.phase_of_ne hne.symm]
        · exact absurd hrow (hinv.returned c' m hc').2
    · have hkeep : claims (s'.phase c) = some m := by rwa [hstep.phase_of_ne hcl]
      by_cases hcl' : c' = l.1
      · -- the second of the two moves
        subst hcl'
        rcases hc' with hc' | hc'
        · rcases hstep.of_claims hinv hc' with hclaim | hlost | ⟨hret, -⟩
          · exact Or.inl ⟨c, _, m, hne, hkeep, Or.inl hclaim⟩
          · exact Or.inr ⟨_, hlost⟩
          · exact Or.inl ⟨c, _, m, hne, hkeep, Or.inr hret⟩
        · exact absurd hc' hstep.not_returned
      · refine Or.inl ⟨c, c', m, hne, hkeep, ?_⟩
        unfold Returned at hc' ⊢
        rwa [hstep.phase_of_ne hcl']
  · exact Or.inr ⟨c, hstep.lost hc⟩

/-- A select that violates the condition makes a clash. -/
theorem clash_of_claimed {s s' : State κ} {l : κ × Event} (hstep : CallStep q s l s')
    (h : ¬ Unclaimed s l) : Clash s' := by
  obtain ⟨c, e⟩ := l
  simp only [Unclaimed, not_forall, not_not] at h
  obtain ⟨m, rfl, c', hc'⟩ := h
  obtain ⟨-, hstep⟩ := hstep
  cases hstep with
  | select hs =>
    have hne : c' ≠ c := by
      rintro rfl
      rw [hs] at hc'
      cases hc'
    refine Or.inl ⟨c, c', m, hne.symm, ?_, Or.inl ?_⟩
    · rw [phase_self]
      rfl
    · rwa [phase_of_ne hne]

/-- A complete run that gives every call a message satisfies the condition at every step. -/
theorem run_unclaimed {s s' : State κ} {is : List (κ × Event)} (run : Run (CallStep q) s is s')
    (hinv : Inv s) (hall : ∀ c, ∃ m, Returned s' c m) : Run (UnclaimedStep q) s is s' := by
  induction run with
  | nil s => exact .nil s
  | @cons s s₁ s₂ l ls h t ih =>
    refine .cons ⟨h, ?_⟩ (ih (CallStep.inv hinv h) hall)
    by_contra hcl
    have hclash : Clash s₂ ∧ Inv s₂ :=
      t.invariant (P := fun s => Clash s ∧ Inv s)
        (fun s i s' hs hstep => ⟨hs.1.step hs.2 hstep, CallStep.inv hs.2 hstep⟩)
        ⟨clash_of_claimed h hcl, CallStep.inv hinv h⟩
    rcases hclash.1 with ⟨c, c', m, -, hc, -⟩ | ⟨c, hc⟩
    · obtain ⟨m', hm'⟩ := hall c
      rw [show s₂.phase c = _ from hm'] at hc
      cases hc
    · obtain ⟨m', hm'⟩ := hall c
      rw [show s₂.phase c = _ from hm'] at hc
      simp [Lost] at hc

/-! ### Enough messages -/

/-- Whether a call has returned a message. -/
def returnsMessage : Phase → Bool
  | .done (.message _) => true
  | _ => false

section Finite

variable [Fintype κ]

/-- The calls that have returned a message. -/
def returnedCalls (s : State κ) : Finset κ :=
  Finset.univ.filter fun c => returnsMessage (s.phase c)

/-- The messages that are there and those that have been returned are enough for all calls. -/
def Enough (q : MessageQueryInfoDto) (s : State κ) : Prop :=
  Fintype.card κ ≤ (s.store.rows.filter (peekArgs q).Selects).card + (returnedCalls s).card

theorem returnedCalls_subset {s : State κ} {c : κ} {p : Phase} {store : Store κ Message}
    (hold : returnsMessage (s.phase c) = false) :
    returnedCalls s ⊆ returnedCalls (s.set c p store) := by
  intro c' hc'
  simp only [returnedCalls, Finset.mem_filter, Finset.mem_univ, true_and] at hc' ⊢
  have hne : c' ≠ c := by
    rintro rfl
    rw [hold] at hc'
    cases hc'
  rwa [phase_of_ne hne]

/-- A step that leaves the rows as they are. -/
theorem Enough.set {s : State κ} {c : κ} {p : Phase} {store : Store κ Message} (h : Enough q s)
    (hrows : store.rows = s.store.rows) (hold : returnsMessage (s.phase c) = false) :
    Enough q (s.set c p store) := by
  have hsub : returnedCalls s ⊆ returnedCalls (s.set c p store) := returnedCalls_subset hold
  have hle := Finset.card_le_card hsub
  unfold Enough at h ⊢
  rw [show (s.set c p store).store.rows = s.store.rows from hrows]
  omega

/-- The commit of a call that returns a message. -/
theorem Enough.commit {s : State κ} {c : κ} {m : Message} (h : Enough q s) (hinv : Inv s)
    (hc : s.phase c = .closing (.message m)) :
    Enough q (s.set c (.done (.message m)) (s.store.commit c)) := by
  have hrows : (s.set c (.done (.message m)) (s.store.commit c)).store.rows = s.store.rows \ {m} :=
    Store.rows_commit (Inv.closing_message hinv hc).1
  have hnot : c ∉ returnedCalls s := by
    rw [returnedCalls, Finset.mem_filter, hc]
    simp [returnsMessage]
  have hins : insert c (returnedCalls s) ⊆
      returnedCalls (s.set c (.done (.message m)) (s.store.commit c)) := by
    refine Finset.insert_subset ?_ (returnedCalls_subset (by rw [hc]; rfl))
    simp only [returnedCalls, Finset.mem_filter, Finset.mem_univ, true_and]
    rw [phase_self]
    rfl
  have h1 := Finset.card_le_card hins
  rw [Finset.card_insert_of_notMem hnot] at h1
  have h2 : (s.store.rows.filter (peekArgs q).Selects).card ≤
      ((s.store.rows \ {m}).filter (peekArgs q).Selects).card + 1 := by
    have hsub : s.store.rows.filter (peekArgs q).Selects ⊆
        insert m ((s.store.rows \ {m}).filter (peekArgs q).Selects) := by
      intro m' hm'
      by_cases hm : m' = m
      · rw [hm]
        exact Finset.mem_insert_self m _
      · obtain ⟨hrow, hsel⟩ := Finset.mem_filter.mp hm'
        refine Finset.mem_insert_of_mem (Finset.mem_filter.mpr ⟨?_, hsel⟩)
        exact Finset.mem_sdiff.mpr ⟨hrow, by rwa [Finset.mem_singleton]⟩
    exact (Finset.card_le_card hsub).trans (Finset.card_insert_le m _)
  unfold Enough at h ⊢
  rw [hrows]
  omega

omit [DecidableEq κ] in
/-- A call that has not returned finds a message. -/
theorem Enough.exists_selects {s : State κ} {c : κ} (h : Enough q s)
    (hc : returnsMessage (s.phase c) = false) : ∃ m ∈ s.store.rows, (peekArgs q).Selects m := by
  by_contra hnone
  have hempty : s.store.rows.filter (peekArgs q).Selects = ∅ := by
    refine Finset.filter_eq_empty_iff.mpr fun m hm hsel => hnone ⟨m, hm, hsel⟩
  have hlt : (returnedCalls s).card < Fintype.card κ := by
    refine Finset.card_lt_univ_of_notMem (x := c) ?_
    simp [returnedCalls, hc]
  unfold Enough at h
  rw [hempty, Finset.card_empty] at h
  omega

/-! ### Runs that satisfy the condition -/

/-- No call has lost, and the taken rows are there, each taken by one call. -/
structure Good (q : MessageQueryInfoDto) (s : State κ) : Prop where
  inv : Inv s
  enough : Enough q s
  fine : ∀ c, ¬ Lost (s.phase c)
  claimed : ∀ c m, claims (s.phase c) = some m → m ∈ s.store.rows
  exclusive : ∀ c c' m, claims (s.phase c) = some m → claims (s.phase c') = some m → c = c'

/-- A step of `c` that takes no row of another call and removes at most its own. -/
theorem Good.set {s : State κ} {c : κ} {p : Phase} {store : Store κ Message} (h : Good q s)
    (hinv : Inv (s.set c p store)) (henough : Enough q (s.set c p store)) (hp : ¬ Lost p)
    (hclaim : ∀ m, claims p = some m → m ∈ store.rows ∧ ∀ c', c' ≠ c → claims (s.phase c') ≠ some m)
    (hrows : ∀ m ∈ s.store.rows, claims (s.phase c) ≠ some m → m ∈ store.rows) :
    Good q (s.set c p store) := by
  refine ⟨hinv, henough, fun c' => ?_, fun c' m hc' => ?_, fun c' c'' m hc' hc'' => ?_⟩
  · by_cases hc : c' = c
    · rwa [hc, phase_self]
    · rw [phase_of_ne hc]
      exact h.fine c'
  · by_cases hc : c' = c
    · rw [hc, phase_self] at hc'
      exact (hclaim m hc').1
    · rw [phase_of_ne hc] at hc'
      exact hrows m (h.claimed c' m hc') fun hown => hc (h.exclusive c' c m hc' hown)
  · by_cases h1 : c' = c
    · by_cases h2 : c'' = c
      · rw [h1, h2]
      · rw [h1, phase_self] at hc'
        rw [phase_of_ne h2] at hc''
        exact absurd hc'' ((hclaim m hc').2 c'' h2)
    · by_cases h2 : c'' = c
      · rw [h2, phase_self] at hc''
        rw [phase_of_ne h1] at hc'
        exact absurd hc' ((hclaim m hc'').2 c' h1)
      · rw [phase_of_ne h1] at hc'
        rw [phase_of_ne h2] at hc''
        exact h.exclusive c' c'' m hc' hc''

omit [DecidableEq κ] in
/-- A call that is about to end has a message, and its deletion is in the open transaction. -/
theorem Good.closing {s : State κ} (h : Good q s) {c : κ} {o : Outcome}
    (hc : s.phase c = .closing o) : ∃ m, o = .message m ∧ s.store.tx c = .active {m} := by
  have hlost := h.fine c
  rw [hc] at hlost
  rcases o with m | _ | _
  · exact ⟨m, rfl, (Inv.closing_message h.inv hc).1⟩
  · exact absurd (Or.inl rfl) hlost
  · exact absurd (Or.inr (Or.inl rfl)) hlost

/-- **A step that satisfies the condition.** -/
theorem Good.step {s s' : State κ} {l : κ × Event} (h : Good q s) (hstep : UnclaimedStep q s l s') :
    Good q s' := by
  obtain ⟨c, e⟩ := l
  obtain ⟨⟨hnormal, hstep⟩, hcond⟩ := hstep
  have hinv := h.inv.step hstep
  have hkeep : ∀ m, claims (s.phase c) = some m →
      m ∈ s.store.rows ∧ ∀ c', c' ≠ c → claims (s.phase c') ≠ some m :=
    fun m hm => ⟨h.claimed c m hm, fun c' hne hc' => hne (h.exclusive c' c m hc' hm)⟩
  cases hstep with
  | begin hs =>
    exact h.set hinv (h.enough.set rfl (by rw [hs]; rfl)) (by simp [Lost]) (by simp [claims])
      fun m hm _ => hm
  | beginFails => cases hnormal
  | @select _ q' m hs hq hm =>
    refine h.set hinv (h.enough.set rfl (by rw [hs]; rfl)) (by simp [Lost]) (fun m' hm' => ?_)
      fun m hm _ => hm
    obtain rfl : m = m' := Option.some.inj hm'
    exact ⟨hm.1, fun c' _ => hcond m rfl c'⟩
  | @selectNone _ q' hs hq hm =>
    obtain rfl := Option.some.inj hq
    obtain ⟨m, hrow, hsel⟩ := h.enough.exists_selects (c := c) (by rw [hs]; rfl)
    exact absurd hsel (hm m hrow)
  | lock hs hm hfree =>
    refine h.set hinv (h.enough.set rfl (by rw [hs]; rfl)) (by simp [Lost])
      (fun m' hm' => hkeep m' (by rw [hs]; exact hm')) fun m hm _ => hm
  | gone hs hm => exact absurd (h.claimed c _ (by rw [hs]; rfl)) hm
  | statementFails => cases hnormal
  | throws => cases hnormal
  | @delete _ m hs hm =>
    refine h.set hinv (h.enough.set Store.rows_delete (by rw [hs]; rfl)) (by simp [Lost])
      (fun m' hm' => ?_) fun m' hm' _ => ?_
    · rw [Store.rows_delete]
      exact hkeep m' (by rw [hs]; exact hm')
    · rwa [Store.rows_delete]
  | deleteNone hs hm => exact absurd (h.claimed c _ (by rw [hs]; rfl)) hm
  | commit hs htx =>
    obtain ⟨m, rfl, hopen⟩ := h.closing hs
    refine h.set hinv (h.enough.commit h.inv hs) (by simp [Lost]) (by simp [claims])
      fun m' hm' hne => ?_
    rw [Store.rows_commit hopen, Finset.mem_sdiff, Finset.mem_singleton]
    refine ⟨hm', ?_⟩
    rintro rfl
    exact hne (by rw [hs]; rfl)
  | rollback hs htx =>
    obtain ⟨m, rfl, hopen⟩ := h.closing hs
    cases htx.symm.trans hopen
  | commitFails => cases hnormal
  | noTransaction hs htx =>
    obtain ⟨m, rfl, hopen⟩ := h.closing hs
    cases htx.symm.trans hopen

omit [DecidableEq κ] in
theorem Good.outcome {s : State κ} (h : Good q s) {c : κ} {o : Outcome}
    (hc : s.phase c = .done o) : ∃ m, o = .message m := by
  have hlost := h.fine c
  rw [hc] at hlost
  rcases o with m | _ | _
  · exact ⟨m, rfl⟩
  · exact absurd (Or.inr (Or.inr (Or.inl rfl))) hlost
  · exact absurd (Or.inr (Or.inr (Or.inr rfl))) hlost

/-! ### Runs end -/

/-- How far a call is. -/
def rank : Phase → ℕ
  | .start => 0
  | .begun => 1
  | .locking _ => 2
  | .selected _ => 3
  | .closing _ => 4
  | .done _ => 5

theorem rank_le (p : Phase) : rank p ≤ 5 := by
  cases p <;> simp [rank]

omit [Fintype κ] in
theorem CallStep.rank_lt {s s' : State κ} {l : κ × Event} (h : CallStep q s l s') :
    rank (s.phase l.1) < rank (s'.phase l.1) := by
  obtain ⟨c, e⟩ := l
  obtain ⟨hnormal, hstep⟩ := h
  cases hstep with
  | statementFails => cases hnormal
  | throws => cases hnormal
  | _ => simp_all [phase_self, rank]

/-- The sum of the ranks grows with every step. -/
theorem CallStep.sum_rank {s s' : State κ} {l : κ × Event} (h : CallStep q s l s') :
    ∑ c, rank (s.phase c) + 1 ≤ ∑ c, rank (s'.phase c) := by
  have hlt : ∃ c ∈ Finset.univ, rank (s.phase c) < rank (s'.phase c) :=
    ⟨l.1, Finset.mem_univ _, h.rank_lt⟩
  refine Nat.succ_le_of_lt (Finset.sum_lt_sum (fun c _ => ?_) hlt)
  by_cases hc : c = l.1
  · rw [hc]
    exact h.rank_lt.le
  · rw [h.phase_of_ne hc]

/-- A run has at most five steps for each call. -/
theorem run_length_le {s s' : State κ} {is : List (κ × Event)} (run : Run (CallStep q) s is s') :
    is.length ≤ 5 * Fintype.card κ := by
  have h := run.length_le (P := fun _ => True) (f := fun s => ∑ c, rank (s.phase c))
    (fun _ _ _ _ _ => trivial) (fun _ _ _ _ => CallStep.sum_rank) trivial
  have hle : ∑ c, rank (s'.phase c) ≤ ∑ _c : κ, 5 := Finset.sum_le_sum fun c _ => rank_le _
  rw [Finset.sum_const, Finset.card_univ, smul_eq_mul] at hle
  omega

omit [Fintype κ] in
theorem exists_step_of_closing {s : State κ} {c : κ} {o : Outcome} (hc : s.phase c = .closing o) :
    ∃ l s', CallStep q s l s' := by
  rcases htx : s.store.tx c with _ | d | _
  · exact ⟨(c, .noTransaction), _, rfl, .noTransaction hc htx⟩
  · exact ⟨(c, .commit), _, rfl, .commit hc htx⟩
  · exact ⟨(c, .rollback), _, rfl, .rollback hc htx⟩

omit [Fintype κ] in
theorem exists_step_of_selected {s : State κ} {c : κ} {m : Message} (hc : s.phase c = .selected m) :
    ∃ l s', CallStep q s l s' := by
  by_cases hm : m ∈ s.store.rows
  · exact ⟨(c, .delete), _, rfl, .delete hc hm⟩
  · exact ⟨(c, .deleteNone), _, rfl, .deleteNone hc hm⟩

omit [Fintype κ] in
/-- **No deadlock**: while a call has not returned, some call can go on. -/
theorem exists_step {s : State κ} (hinv : Inv s) {c : κ} (hc : ∀ o, s.phase c ≠ .done o) :
    ∃ l s', CallStep q s l s' := by
  rcases hp : s.phase c with _ | _ | m | m | o | o
  · exact ⟨(c, .begin), _, rfl, .begin hp⟩
  · by_cases hsel : ∃ m ∈ s.store.rows, (peekArgs q).Selects m
    · obtain ⟨m, hm⟩ := ((peekArgs q).exists_picks_iff _).mpr hsel
      exact ⟨(c, .select m), _, rfl, .select hp rfl hm⟩
    · refine ⟨(c, .selectNone), _, rfl, .selectNone hp rfl fun m hm hs => ?_⟩
      exact hsel ⟨m, hm, hs⟩
  · by_cases hm : m ∈ s.store.rows
    · rcases hlock : s.store.lock m with _ | c'
      · exact ⟨(c, .lock), _, rfl, .lock hp hm hlock⟩
      · -- the holder of the lock can go on
        rcases hinv.holder m c' hlock with hc' | ⟨o, hc'⟩
        · exact exists_step_of_selected hc'
        · exact exists_step_of_closing hc'
    · exact ⟨(c, .gone), _, rfl, .gone hp hm⟩
  · exact exists_step_of_selected hp
  · exact exists_step_of_closing hp
  · exact absurd hp (hc o)

/-! ### No false empty -/

/-- **When no call returns null.** From a database with a matching message for every call: in a run
whose selects take no row that another call has taken, every call that has returned has returned a
message; a complete run gives every call a message iff it is such a run; and every run can be
completed and has at most five steps for each call. -/
theorem dequeueMessage_no_false_empty {s₀ s : State κ} {is : List (κ × Event)} (h₀ : Init s₀)
    (hk : Fintype.card κ ≤ (s₀.store.rows.filter (peekArgs q).Selects).card)
    (run : Run (CallStep q) s₀ is s) :
    (Run (UnclaimedStep q) s₀ is s → ∀ c o, s.phase c = .done o → ∃ m, o = .message m) ∧
    ((∀ c, ∃ o, s.phase c = .done o) →
      ((∀ c, ∃ m, Returned s c m) ↔ Run (UnclaimedStep q) s₀ is s)) ∧
    (∀ c, (∀ o, s.phase c ≠ .done o) → ∃ l s', CallStep q s l s') ∧
    is.length ≤ 5 * Fintype.card κ := by
  have hgood : Run (UnclaimedStep q) s₀ is s → Good q s := by
    intro hrun
    refine hrun.invariant (fun _ _ _ => Good.step) ⟨h₀.inv, ?_, ?_, ?_, ?_⟩
    · exact hk.trans (Nat.le_add_right _ _)
    · intro c
      simp [h₀.start, Lost]
    · intro c m hc
      rw [h₀.start] at hc
      cases hc
    · intro c c' m hc
      rw [h₀.start] at hc
      cases hc
  have hinv : Inv s := run.invariant (fun _ _ _ h hstep => CallStep.inv h hstep) h₀.inv
  refine ⟨fun hrun c o hc => (hgood hrun).outcome hc, fun hdone => ⟨fun hall => ?_, fun hrun c => ?_⟩,
    fun c hc => exists_step hinv hc, run_length_le run⟩
  · exact run_unclaimed run h₀.inv hall
  · obtain ⟨o, ho⟩ := hdone c
    obtain ⟨m, rfl⟩ := (hgood hrun).outcome ho
    exact ⟨m, ho⟩

end Finite

/-! ### Two calls, two messages -/

/-- A query without filters. -/
def anyMessage : MessageQueryInfoDto := ⟨none, none, false, none⟩

/-- A message with this id, sent at this time. -/
def messageAt (id : Int32) (sentAt : ℕ) : Message := ⟨id, 1, 1, none, 0, sentAt, none⟩

theorem anyMessage_selects (m : Message) : (peekArgs anyMessage).Selects m :=
  ⟨by simp [peekArgs, anyMessage], by simp [peekArgs, anyMessage], by simp [peekArgs, anyMessage]⟩

theorem anyMessage_picks {rows : Finset Message} {m : Message} (hm : m ∈ rows)
    (hfirst : ∀ m' ∈ rows, m.sentAt ≤ m'.sentAt) : (peekArgs anyMessage).Picks rows m :=
  ⟨hm, anyMessage_selects m, fun m' hm' _ => hfirst m' hm'⟩

/-- No call has begun on these rows. -/
def initial (κ : Type) (rows : Finset Message) : State κ :=
  ⟨⟨rows, fun _ => none, fun _ => .closed⟩, ↑rows, fun _ => .start⟩

theorem init_initial {κ : Type} {rows : Finset Message}
    (hids : ∀ m ∈ rows, ∀ m' ∈ rows, m.id = m'.id → m = m') : Init (initial κ rows) :=
  ⟨fun _ => rfl, fun _ => rfl, fun _ => rfl, rfl, hids⟩

theorem run_next {q : MessageQueryInfoDto} {s₀ s s' : State κ} {c : κ} {e : Event}
    (h : ∃ is, Run (CallStep q) s₀ is s) (he : normal e = true)
    (hstep : Step (fun _ => some q) s (.call c e) s') : ∃ is, Run (CallStep q) s₀ is s' := by
  obtain ⟨is, run⟩ := h
  exact ⟨is ++ [(c, e)], run.append (.single ⟨he, hstep⟩)⟩

/-- The messages for two calls. -/
def twoMessages : Finset Message := {messageAt 1 0, messageAt 2 1}

theorem first_ne_second : messageAt 1 0 ≠ messageAt 2 1 :=
  fun heq => absurd (congrArg Message.sentAt heq) Nat.zero_ne_one

theorem first_mem : messageAt 1 0 ∈ twoMessages := Finset.mem_insert_self _ _

theorem first_picks : (peekArgs anyMessage).Picks twoMessages (messageAt 1 0) :=
  anyMessage_picks first_mem fun m' _ => Nat.zero_le m'.sentAt

theorem init_twoMessages : Init (initial (Fin 2) twoMessages) := by
  refine init_initial fun m hm m' hm' hid => ?_
  unfold twoMessages at hm hm'
  rw [Finset.mem_insert, Finset.mem_singleton] at hm hm'
  have hids : (messageAt 1 0).id ≠ (messageAt 2 1).id := by decide
  rcases hm with rfl | rfl <;> rcases hm' with rfl | rfl
  · rfl
  · exact absurd hid hids
  · exact absurd hid.symm hids
  · rfl

theorem two_le_card : 2 ≤ (twoMessages.filter (peekArgs anyMessage).Selects).card := by
  unfold twoMessages
  rw [Finset.filter_true_of_mem fun m _ => anyMessage_selects m, Finset.card_pair first_ne_second]

/-- Both calls select the first message, and the second one returns null. -/
theorem dequeueMessage_false_empty : ¬ ∀ (k : ℕ) (q : MessageQueryInfoDto) (s₀ s : State (Fin k))
    (is : List (Fin k × Event)), Init s₀ →
      k ≤ (s₀.store.rows.filter (peekArgs q).Selects).card → Run (CallStep q) s₀ is s →
        ∀ c o, s.phase c = .done o → ∃ m, o = .message m := by
  intro h
  let m₁ := messageAt 1 0
  have r0 : ∃ is, Run (CallStep anyMessage) (initial (Fin 2) twoMessages) is _ := ⟨[], .nil _⟩
  have r1 := run_next r0 rfl (.begin (c := 0) rfl)
  have r2 := run_next r1 rfl (.begin (c := 1) rfl)
  have r3 := run_next r2 rfl (.select (c := 0) (m := m₁) rfl rfl first_picks)
  have r4 := run_next r3 rfl (.select (c := 1) (m := m₁) rfl rfl first_picks)
  have r5 := run_next r4 rfl (.lock (c := 0) (m := m₁) rfl first_mem rfl)
  have r6 := run_next r5 rfl (.delete (c := 0) (m := m₁) rfl first_mem)
  have r7 := run_next r6 rfl (.commit (c := 0) (d := {m₁}) rfl rfl)
  have hgone : m₁ ∉ twoMessages \ {m₁} := by simp
  have r8 := run_next r7 rfl (.gone (c := 1) (m := m₁) rfl hgone)
  have r9 := run_next r8 rfl (.commit (c := 1) (d := ∅) rfl rfl)
  obtain ⟨is, run⟩ := r9
  obtain ⟨m, hm⟩ := h 2 anyMessage _ _ is init_twoMessages two_le_card run 1 .null rfl
  cases hm

/-- Both calls have begun before the first one selects, and each of them gets its message. -/
theorem dequeueMessage_no_false_empty_of_two :
    ∃ (s : State (Fin 2)) (is : List (Fin 2 × Event)),
      Run (CallStep anyMessage) (initial (Fin 2) twoMessages) is s ∧
        s.phase 0 = .done (.message (messageAt 1 0)) ∧
        s.phase 1 = .done (.message (messageAt 2 1)) ∧ is.length ≤ 10 ∧
        Run (UnclaimedStep anyMessage) (initial (Fin 2) twoMessages) is s := by
  let m₁ := messageAt 1 0
  let m₂ := messageAt 2 1
  have hm₂ : m₂ ∈ twoMessages \ {m₁} := by
    rw [Finset.mem_sdiff, Finset.mem_singleton]
    exact ⟨Finset.mem_insert_of_mem (Finset.mem_singleton_self _), first_ne_second.symm⟩
  have hpicks : (peekArgs anyMessage).Picks (twoMessages \ {m₁}) m₂ := by
    refine anyMessage_picks hm₂ fun m' hm' => ?_
    unfold twoMessages at hm'
    rw [Finset.mem_sdiff, Finset.mem_insert, Finset.mem_singleton, Finset.mem_singleton] at hm'
    obtain rfl := hm'.1.resolve_left hm'.2
    exact le_rfl
  have r0 : ∃ is, Run (CallStep anyMessage) (initial (Fin 2) twoMessages) is _ := ⟨[], .nil _⟩
  have r1 := run_next r0 rfl (.begin (c := 0) rfl)
  have r2 := run_next r1 rfl (.begin (c := 1) rfl)
  have r3 := run_next r2 rfl (.select (c := 0) (m := m₁) rfl rfl first_picks)
  have r4 := run_next r3 rfl (.lock (c := 0) (m := m₁) rfl first_mem rfl)
  have r5 := run_next r4 rfl (.delete (c := 0) (m := m₁) rfl first_mem)
  have r6 := run_next r5 rfl (.commit (c := 0) (d := {m₁}) rfl rfl)
  have r7 := run_next r6 rfl (.select (c := 1) (m := m₂) rfl rfl hpicks)
  have r8 := run_next r7 rfl (.lock (c := 1) (m := m₂) rfl hm₂ rfl)
  have r9 := run_next r8 rfl (.delete (c := 1) (m := m₂) rfl hm₂)
  have r10 := run_next r9 rfl (.commit (c := 1) (d := {m₂}) rfl rfl)
  obtain ⟨is, run⟩ := r10
  obtain ⟨-, hiff, -, hlen⟩ := dequeueMessage_no_false_empty init_twoMessages two_le_card run
  refine ⟨_, is, run, rfl, rfl, hlen, (hiff fun c => ?_).mp fun c => ?_⟩
  · fin_cases c
    · exact ⟨_, rfl⟩
    · exact ⟨_, rfl⟩
  · fin_cases c
    · exact ⟨m₁, rfl⟩
    · exact ⟨m₂, rfl⟩

end Mlmq.Db.NoFalseEmpty
