import Mlmq.Db.Table
import Mlmq.Lib.RowStore
import Mlmq.Lib.Transition

/-! # `MessageDao.dequeueMessage` as concurrent transactions

Every call runs `BEGIN`, the `SELECT … LIMIT 1 FOR UPDATE` of the stored procedure, `DELETE`, and
the `COMMIT` of the `finally` block, which is executed on every path. The select takes a row of its
snapshot (`Phase.locking`) and then has to lock it: it waits while another transaction holds the
lock, and returns no row if the row has been deleted meanwhile. Any statement may fail, and the code
around the statements may throw. The statements of all calls interleave with each other and with
inserts.

The invariant (`Inv`) says what each call has done to its transaction, and that the rows that are
gone are the messages that calls have returned. So no message is returned twice, and a commit
removes exactly the message its call returns (`dequeueMessage_exactly_once`). -/

namespace Mlmq.Db.Dequeue

open Mlmq.Dto Mlmq.Db.Table Mlmq.Lib.RowStore Mlmq.Lib.Transition

variable {κ : Type} [DecidableEq κ]

/-- What a call returns. -/
inductive Outcome
  | message (m : Message)
  | null
  | exception
deriving DecidableEq

/-- Where a call is. -/
inductive Phase
  | start
  | begun
  | locking (m : Message)
  | selected (m : Message)
  | closing (o : Outcome)
  | done (o : Outcome)
deriving DecidableEq

/-- The database and the calls. `inserted` are the rows there have ever been. -/
structure State (κ : Type) where
  store : Store κ Message
  inserted : Set Message
  phase : κ → Phase

/-- The call `c` is at `p` and has left the database at `store`. -/
def State.set (s : State κ) (c : κ) (p : Phase) (store : Store κ Message) : State κ :=
  { s with store, phase := Function.update s.phase c p }

/-- What happens next in a call. -/
inductive Event
  | begin
  | beginFails
  | select (m : Message)
  | selectNone
  | lock
  | gone
  | statementFails
  | throws
  | delete
  | deleteNone
  | commit
  | rollback
  | commitFails
  | noTransaction
deriving DecidableEq

inductive Label (κ : Type)
  | call (c : κ) (event : Event)
  | insert (m : Message)

/-- **The steps.** `query c` is the argument of the call `c`, `none` for null. -/
inductive Step (query : κ → Option MessageQueryInfoDto) : State κ → Label κ → State κ → Prop
  | begin {s c} (h : s.phase c = .start) :
    Step query s (.call c .begin) (s.set c .begun (s.store.begin c))
  | beginFails {s c} (h : s.phase c = .start) :
    Step query s (.call c .beginFails) (s.set c (.closing .exception) s.store)
  | select {s c q m} (h : s.phase c = .begun) (hq : query c = some q)
    (hm : (peekArgs q).Picks s.store.rows m) :
    Step query s (.call c (.select m)) (s.set c (.locking m) s.store)
  | selectNone {s c q} (h : s.phase c = .begun) (hq : query c = some q)
    (hm : ∀ m ∈ s.store.rows, ¬ (peekArgs q).Selects m) :
    Step query s (.call c .selectNone) (s.set c (.closing .null) s.store)
  | lock {s c m} (h : s.phase c = .locking m) (hm : m ∈ s.store.rows)
    (hfree : s.store.lock m = none) :
    Step query s (.call c .lock) (s.set c (.selected m) (s.store.acquire c m))
  | gone {s c m} (h : s.phase c = .locking m) (hm : m ∉ s.store.rows) :
    Step query s (.call c .gone) (s.set c (.closing .null) s.store)
  -- the select or the delete fails, also while it waits
  | statementFails {s c} (h : s.phase c = .begun ∨ ∃ m, s.phase c = .locking m ∨
      s.phase c = .selected m) :
    Step query s (.call c .statementFails) (s.set c (.closing .exception) (s.store.fail c))
  -- a null query, or an exception while the result set is read
  | throws {s c} (h : s.phase c = .begun ∨ ∃ m, s.phase c = .selected m) :
    Step query s (.call c .throws) (s.set c (.closing .exception) s.store)
  | delete {s c m} (h : s.phase c = .selected m) (hm : m ∈ s.store.rows) :
    Step query s (.call c .delete) (s.set c (.closing (.message m)) (s.store.delete c m))
  -- `result != 1`
  | deleteNone {s c m} (h : s.phase c = .selected m) (hm : m ∉ s.store.rows) :
    Step query s (.call c .deleteNone) (s.set c (.closing .exception) s.store)
  | commit {s c o d} (h : s.phase c = .closing o) (htx : s.store.tx c = .active d) :
    Step query s (.call c .commit) (s.set c (.done o) (s.store.commit c))
  | rollback {s c o} (h : s.phase c = .closing o) (htx : s.store.tx c = .failed) :
    Step query s (.call c .rollback) (s.set c (.done o) (s.store.rollback c))
  | commitFails {s c o} (h : s.phase c = .closing o) (htx : s.store.tx c ≠ .closed) :
    Step query s (.call c .commitFails) (s.set c (.done .exception) (s.store.rollback c))
  -- the `COMMIT` after a `BEGIN` that failed
  | noTransaction {s c o} (h : s.phase c = .closing o) (htx : s.store.tx c = .closed) :
    Step query s (.call c .noTransaction) (s.set c (.done .exception) s.store)
  -- the sequence gives a new id
  | insert {s m} (hm : ∀ m' ∈ s.inserted, m'.id ≠ m.id) :
    Step query s (.insert m)
      { s with store := s.store.add m, inserted := Insert.insert m s.inserted }

/-- No call has begun, no row is locked, and the ids of the rows are different. -/
structure Init (s : State κ) : Prop where
  start : ∀ c, s.phase c = .start
  closed : ∀ c, s.store.tx c = .closed
  free : ∀ m, s.store.lock m = none
  inserted : s.inserted = ↑s.store.rows
  ids : ∀ m ∈ s.inserted, ∀ m' ∈ s.inserted, m.id = m'.id → m = m'

/-! ### The invariant -/

/-- What a call has done to its transaction. -/
def PhaseInv (store : Store κ Message) (c : κ) : Phase → Prop
  | .start => store.tx c = .closed
  | .begun => store.tx c = .active ∅
  | .locking _ => store.tx c = .active ∅
  | .selected m => store.tx c = .active ∅ ∧ store.lock m = some c
  | .closing (.message m) => store.tx c = .active {m}
  | .closing .null => store.tx c = .active ∅
  | .closing .exception => ∀ d, store.tx c = .active d → d = ∅
  | .done _ => store.tx c = .closed

/-- The call has returned the message. -/
def Returned (s : State κ) (c : κ) (m : Message) : Prop := s.phase c = .done (.message m)

/-- Only a call that has selected a row, or is about to commit, holds locks. -/
def Phase.MayHold (m : Message) (p : Phase) : Prop := p = .selected m ∨ ∃ o, p = .closing o

structure Inv (s : State κ) : Prop where
  store : s.store.Consistent
  phase : ∀ c, PhaseInv s.store c (s.phase c)
  holder : ∀ m c, s.store.lock m = some c → (s.phase c).MayHold m
  inserted : ∀ m ∈ s.store.rows, m ∈ s.inserted
  ids : ∀ m ∈ s.inserted, ∀ m' ∈ s.inserted, m.id = m'.id → m = m'
  returned : ∀ c m, Returned s c m → m ∈ s.inserted ∧ m ∉ s.store.rows
  gone : ∀ m ∈ s.inserted, m ∉ s.store.rows → ∃ c, Returned s c m
  unique : ∀ c c' m, Returned s c m → Returned s c' m → c = c'

omit [DecidableEq κ] in
theorem Init.inv {s : State κ} (h : Init s) : Inv s where
  store :=
    { mem_of_lock := fun r t hr => by rw [h.free] at hr; cases hr
      open_of_lock := fun r t hr => by rw [h.free] at hr; cases hr
      lock_of_deleted := fun t d r ht => by rw [h.closed] at ht; cases ht }
  phase c := by
    rw [h.start]
    exact h.closed c
  holder m c hlock := by
    rw [h.free] at hlock
    cases hlock
  inserted m hm := by rwa [h.inserted]
  ids := h.ids
  returned c m hc := by
    rw [Returned, h.start] at hc
    cases hc
  gone m hm hrow := by
    rw [h.inserted] at hm
    exact absurd hm hrow
  unique c c' m hc := by
    rw [Returned, h.start] at hc
    cases hc

omit [DecidableEq κ] in
theorem PhaseInv.frame {store store' : Store κ Message} {c c' : κ} {p : Phase}
    (h : PhaseInv store c' p) (hframe : Store.Frame c store store') (hne : c' ≠ c) :
    PhaseInv store' c' p := by
  obtain ⟨htx, hlock⟩ := hframe c' hne
  rcases p with _ | _ | m | m | (m | _ | _) | o
  · exact htx.trans h
  · exact htx.trans h
  · exact htx.trans h
  · exact ⟨htx.trans h.1, (hlock m).mpr h.2⟩
  · exact htx.trans h
  · exact htx.trans h
  · intro d hd
    exact h d (htx ▸ hd)
  · exact htx.trans h

theorem phase_set (s : State κ) (c c' : κ) (p : Phase) (store : Store κ Message) :
    (s.set c p store).phase c' = if c' = c then p else s.phase c' :=
  Function.update_apply _ _ _ _

theorem phase_of_ne {s : State κ} {c c' : κ} {p : Phase} {store : Store κ Message} (h : c' ≠ c) :
    (s.set c p store).phase c' = s.phase c' := by
  rw [phase_set, if_neg h]

theorem phase_self (s : State κ) (c : κ) (p : Phase) (store : Store κ Message) :
    (s.set c p store).phase c = p := by
  rw [phase_set, if_pos rfl]

omit [DecidableEq κ] in
/-- The invariant of a call, in the phase it is in. -/
theorem Inv.of_phase {s : State κ} {c : κ} {p : Phase} (h : Inv s) (hc : s.phase c = p) :
    PhaseInv s.store c p :=
  hc ▸ h.phase c

/-- The phases of all calls after a step of `c`. -/
theorem Inv.phase_of_frame {s : State κ} {c : κ} {p : Phase} {store : Store κ Message} (h : Inv s)
    (hframe : Store.Frame c s.store store) (hp : PhaseInv store c p) (c' : κ) :
    PhaseInv store c' ((s.set c p store).phase c') := by
  rw [phase_set]
  split_ifs with hc
  · exact hc ▸ hp
  · exact (h.phase c').frame hframe hc

/-- The holders of locks after a step of `c`. -/
theorem Inv.holder_of_frame {s : State κ} {c : κ} {p : Phase} {store : Store κ Message} (h : Inv s)
    (hframe : Store.Frame c s.store store) (hp : ∀ m, store.lock m = some c → p.MayHold m)
    (m : Message) (c' : κ) (hlock : store.lock m = some c') :
    ((s.set c p store).phase c').MayHold m := by
  rw [phase_set]
  split_ifs with hc
  · exact hp m (hc ▸ hlock)
  · exact h.holder m c' (((hframe c' hc).2 m).mp hlock)

/-- A step of `c` that leaves the rows as they are and returns no message. -/
theorem Inv.quiet {s : State κ} {c : κ} {p : Phase} {store : Store κ Message} (h : Inv s)
    (hstore : store.Consistent) (hrows : store.rows = s.store.rows)
    (hframe : Store.Frame c s.store store) (hp : PhaseInv store c p)
    (hlock : ∀ m, store.lock m = some c → p.MayHold m) (hold : ∀ m, s.phase c ≠ .done (.message m))
    (hnew : ∀ m, p ≠ .done (.message m)) :
    Inv (s.set c p store) := by
  have hret : ∀ c' m, Returned (s.set c p store) c' m ↔ Returned s c' m := by
    intro c' m
    unfold Returned
    rw [phase_set]
    split_ifs with hc
    · subst hc
      exact ⟨fun h' => absurd h' (hnew m), fun h' => absurd h' (hold m)⟩
    · exact Iff.rfl
  refine ⟨hstore, h.phase_of_frame hframe hp, h.holder_of_frame hframe hlock, fun m hm => ?_, h.ids,
    fun c' m hc => ?_, fun m hm hrow => ?_, fun c' c'' m hc hc' => ?_⟩
  · exact h.inserted m (hrows ▸ hm)
  · obtain ⟨h1, h2⟩ := h.returned c' m ((hret c' m).mp hc)
    exact ⟨h1, fun hm => h2 (hrows ▸ hm)⟩
  · obtain ⟨c', hc⟩ := h.gone m hm fun hm' => hrow (hrows.symm ▸ hm')
    exact ⟨c', (hret c' m).mpr hc⟩
  · exact h.unique c' c'' m ((hret c' m).mp hc) ((hret c'' m).mp hc')

omit [DecidableEq κ] in
/-- A call that has deleted its message has an open transaction, and the row is still there. -/
theorem Inv.closing_message {s : State κ} {c : κ} {m : Message} (h : Inv s)
    (hc : s.phase c = .closing (.message m)) : s.store.tx c = .active {m} ∧ m ∈ s.store.rows := by
  have hp := h.of_phase hc
  exact ⟨hp, h.store.mem_of_lock m c
    (h.store.lock_of_deleted c {m} m hp (Finset.mem_singleton_self m))⟩

/-- The commit of a call that has deleted a message. -/
theorem Inv.commit_message {s : State κ} {c : κ} {m : Message} (h : Inv s)
    (hc : s.phase c = .closing (.message m)) :
    Inv (s.set c (.done (.message m)) (s.store.commit c)) := by
  obtain ⟨htx, hm⟩ := h.closing_message hc
  have hrows : (s.store.commit c).rows = s.store.rows \ {m} := Store.rows_commit htx
  have hret : ∀ c' m', Returned (s.set c (.done (.message m)) (s.store.commit c)) c' m' ↔
      c' = c ∧ m' = m ∨ Returned s c' m' := by
    intro c' m'
    unfold Returned
    rw [phase_set]
    split_ifs with hcc
    · subst hcc
      simp [hc, eq_comm]
    · simp [hcc]
  have hnot : ∀ c', ¬ Returned s c' m := fun c' hc' => (h.returned c' m hc').2 hm
  refine ⟨h.store.commit, h.phase_of_frame (Store.frame_commit c s.store) ?_,
    h.holder_of_frame (Store.frame_commit c s.store) (fun m' hlock => ?_), fun m' hm' => ?_, h.ids,
    fun c' m' hc' => ?_, fun m' hm' hrow => ?_, fun c' c'' m' hc' hc'' => ?_⟩
  · show (s.store.commit c).tx c = .closed
    simp
  · have hlock' : (s.store.commit c).lock m' = some c := hlock
    rw [Store.lock_commit] at hlock'
    exact absurd rfl (Store.unlocked_eq_some.mp hlock').2
  · have hm'' : m' ∈ (s.store.commit c).rows := hm'
    rw [hrows, Finset.mem_sdiff] at hm''
    exact h.inserted m' hm''.1
  · change m' ∈ s.inserted ∧ m' ∉ (s.store.commit c).rows
    rw [hrows, Finset.mem_sdiff, Finset.mem_singleton]
    rcases (hret c' m').mp hc' with ⟨-, rfl⟩ | hc'
    · exact ⟨h.inserted m' hm, fun h' => h'.2 rfl⟩
    · obtain ⟨h1, h2⟩ := h.returned c' m' hc'
      exact ⟨h1, fun h' => h2 h'.1⟩
  · have hrow' : m' ∉ (s.store.commit c).rows := hrow
    rw [hrows, Finset.mem_sdiff, Finset.mem_singleton, not_and_not_right] at hrow'
    by_cases hmem : m' ∈ s.store.rows
    · exact ⟨c, (hret c m').mpr (Or.inl ⟨rfl, hrow' hmem⟩)⟩
    · obtain ⟨c', hc'⟩ := h.gone m' hm' hmem
      exact ⟨c', (hret c' m').mpr (Or.inr hc')⟩
  · rcases (hret c' m').mp hc' with ⟨h1, hm1⟩ | h1
    · rcases (hret c'' m').mp hc'' with ⟨h2, -⟩ | h2
      · rw [h1, h2]
      · exact absurd (hm1 ▸ h2) (hnot c'')
    · rcases (hret c'' m').mp hc'' with ⟨-, hm2⟩ | h2
      · exact absurd (hm2 ▸ h1) (hnot c')
      · exact h.unique c' c'' m' h1 h2

omit [DecidableEq κ] in
/-- An insert with a new id. -/
theorem Inv.insert {s : State κ} {m : Message} (h : Inv s) (hm : ∀ m' ∈ s.inserted, m'.id ≠ m.id) :
    Inv { s with store := s.store.add m, inserted := Insert.insert m s.inserted } where
  store := h.store.add
  phase c := by
    have := h.phase c
    rcases hp : s.phase c with _ | _ | m | m | (m | _ | _) | o <;> rwa [hp] at this
  holder := h.holder
  inserted m' hm' := by
    rcases Finset.mem_insert.mp hm' with rfl | hm'
    · exact Or.inl rfl
    · exact Or.inr (h.inserted m' hm')
  ids := by
    rintro m₁ (rfl | h₁) m₂ (rfl | h₂) hid
    · rfl
    · exact absurd hid.symm (hm m₂ h₂)
    · exact absurd hid (hm m₁ h₁)
    · exact h.ids m₁ h₁ m₂ h₂ hid
  returned c m' hc := by
    obtain ⟨h1, h2⟩ := h.returned c m' hc
    refine ⟨Or.inr h1, fun hmem => ?_⟩
    rcases Finset.mem_insert.mp hmem with rfl | hmem
    · exact hm m' h1 rfl
    · exact h2 hmem
  gone m' hm' hrow := by
    rcases hm' with rfl | hm'
    · exact absurd (Finset.mem_insert_self m' _) hrow
    · exact h.gone m' hm' fun hmem => hrow (Finset.mem_insert_of_mem hmem)
  unique := h.unique

omit [DecidableEq κ] in
/-- A call that is not at a place where it may hold locks holds none. -/
theorem Inv.not_holding {s : State κ} {c : κ} (h : Inv s) (hc : ∀ m, ¬ (s.phase c).MayHold m)
    {p : Phase} (m : Message) (hlock : s.store.lock m = some c) : p.MayHold m :=
  absurd (h.holder m c hlock) (hc m)

/-- A call that has ended its transaction holds no lock. -/
theorem not_holding_unlocked {s : State κ} {c : κ} {p : Phase} (m : Message)
    (hlock : s.store.unlocked c m = some c) : p.MayHold m :=
  absurd rfl (Store.unlocked_eq_some.mp hlock).2

/-- **Every step preserves the invariant.** -/
theorem Inv.step {query : κ → Option MessageQueryInfoDto} {s s' : State κ} {l : Label κ}
    (h : Inv s) (hstep : Step query s l s') : Inv s' := by
  have hclosing : ∀ o m, (Phase.closing o).MayHold m := fun o _ => Or.inr ⟨o, rfl⟩
  cases hstep with
  | @begin c hc =>
    have hp := h.of_phase hc
    refine h.quiet (h.store.begin hp) rfl (Store.frame_begin c _) ?_
      (h.not_holding (by simp [hc, Phase.MayHold])) (by simp [hc]) (by simp)
    show (s.store.begin c).tx c = .active ∅
    simp
  | @beginFails c hc =>
    have hp := h.of_phase hc
    refine h.quiet h.store rfl (Store.Frame.refl c _) (fun d hd => ?_) (fun m _ => hclosing _ m)
      (by simp [hc]) (by simp)
    rw [show s.store.tx c = .closed from hp] at hd
    cases hd
  | @select c q m hc =>
    have hp := h.of_phase hc
    exact h.quiet h.store rfl (Store.Frame.refl c _) hp
      (h.not_holding (by simp [hc, Phase.MayHold])) (by simp [hc]) (by simp)
  | @selectNone c q hc =>
    have hp := h.of_phase hc
    exact h.quiet h.store rfl (Store.Frame.refl c _) hp (fun m _ => hclosing _ m) (by simp [hc])
      (by simp)
  | @lock c m hc hm hfree =>
    have hp := h.of_phase hc
    have hopen : s.store.tx c ≠ .closed := by
      rw [show s.store.tx c = .active ∅ from hp]
      simp
    refine h.quiet (h.store.acquire hm hfree hopen) rfl (Store.frame_acquire hfree) ⟨hp, by simp⟩
      (fun m' hlock => ?_) (by simp [hc]) (by simp)
    by_cases hmm : m' = m
    · exact Or.inl (by rw [hmm])
    · rw [Store.lock_acquire, Function.update_of_ne hmm] at hlock
      exact h.not_holding (by simp [hc, Phase.MayHold]) m' hlock
  | @gone c m hc =>
    have hp := h.of_phase hc
    exact h.quiet h.store rfl (Store.Frame.refl c _) hp (fun m _ => hclosing _ m) (by simp [hc])
      (by simp)
  | @statementFails c hc =>
    refine h.quiet h.store.fail rfl (Store.frame_fail c _) (fun d hd => ?_)
      (fun m _ => hclosing _ m) (fun m hm => ?_) (by simp)
    · rw [Store.tx_fail, Function.update_self] at hd
      cases hd
    · rcases hc with hc | ⟨m', hc | hc⟩ <;> rw [hc] at hm <;> cases hm
  | @throws c hc =>
    have hp : s.store.tx c = .active ∅ := by
      rcases hc with hc | ⟨m, hc⟩
      · exact h.of_phase hc
      · exact (h.of_phase hc).1
    refine h.quiet h.store rfl (Store.Frame.refl c _) (fun d hd => ?_) (fun m _ => hclosing _ m)
      (fun m hm => ?_) (by simp)
    · rw [hp] at hd
      exact (Tx.active.inj hd).symm
    · rcases hc with hc | ⟨m', hc⟩ <;> rw [hc] at hm <;> cases hm
  | @delete c m hc hm =>
    have hp := h.of_phase hc
    refine h.quiet (h.store.delete hp.2) Store.rows_delete (Store.frame_delete c _) ?_
      (fun m _ => hclosing _ m) (by simp [hc]) (by simp)
    show (s.store.delete c m).tx c = .active {m}
    rw [Store.tx_delete hp.1]
    simp
  | @deleteNone c m hc hm =>
    have hp := h.of_phase hc
    refine h.quiet h.store rfl (Store.Frame.refl c _) (fun d hd => ?_) (fun m _ => hclosing _ m)
      (by simp [hc]) (by simp)
    rw [hp.1] at hd
    exact (Tx.active.inj hd).symm
  | @commit c o d hc htx =>
    have hp := h.of_phase hc
    have hclosed : PhaseInv (s.store.commit c) c (.done o) := by
      show (s.store.commit c).tx c = .closed
      simp
    have hfree : ∀ m, (s.store.commit c).lock m = some c → (Phase.done o).MayHold m := by
      rw [Store.lock_commit]
      exact not_holding_unlocked
    have hempty : d = ∅ → (s.store.commit c).rows = s.store.rows := by
      rintro rfl
      rw [Store.rows_commit htx, Finset.sdiff_empty]
    rcases o with m | _ | _
    · exact h.commit_message hc
    · have hd : d = ∅ := Tx.active.inj (htx.symm.trans hp)
      exact h.quiet h.store.commit (hempty hd) (Store.frame_commit c _) hclosed hfree (by simp [hc])
        (by simp)
    · exact h.quiet h.store.commit (hempty (hp d htx)) (Store.frame_commit c _) hclosed hfree
        (by simp [hc]) (by simp)
  | @rollback c o hc htx =>
    have hp := h.of_phase hc
    refine h.quiet h.store.rollback rfl (Store.frame_rollback c _) ?_ not_holding_unlocked
      (by simp [hc]) ?_
    · show (s.store.rollback c).tx c = .closed
      simp
    · rintro m ho
      obtain rfl := Phase.done.inj ho
      rw [show s.store.tx c = .active {m} from hp] at htx
      cases htx
  | @commitFails c o hc =>
    refine h.quiet h.store.rollback rfl (Store.frame_rollback c _) ?_ not_holding_unlocked
      (by simp [hc]) (by simp)
    show (s.store.rollback c).tx c = .closed
    simp
  | @noTransaction c o hc htx =>
    refine h.quiet h.store rfl (Store.Frame.refl c _) htx (fun m hlock => ?_) (by simp [hc]) (by simp)
    exact absurd htx (h.store.open_of_lock m c hlock)
  | insert hm => exact h.insert hm

theorem inv_of_reachable {query : κ → Option MessageQueryInfoDto} {s : State κ}
    (h : Reachable Init (Step query) s) : Inv s :=
  h.invariant (fun _ => Init.inv) fun _ _ _ => Inv.step

/-! ### Calls on their own -/

/-- Only a step of a call changes its phase. -/
theorem Step.phase_of_ne {query : κ → Option MessageQueryInfoDto} {s s' : State κ} {l : Label κ}
    {c : κ} (h : Step query s l s') (hl : ∀ e, l ≠ .call c e) : s'.phase c = s.phase c := by
  cases h with
  | insert => rfl
  | _ =>
    refine Dequeue.phase_of_ne ?_
    rintro rfl
    exact hl _ rfl

/-- A call that is done makes no step. -/
theorem Step.not_done {query : κ → Option MessageQueryInfoDto} {s s' : State κ} {c : κ} {e : Event}
    (h : Step query s (.call c e) s') (o : Outcome) : s.phase c ≠ .done o := by
  intro hc
  cases h <;> simp_all

/-! ### Exactly once -/

/-- What the `COMMIT` of a call can do. -/
theorem Step.of_closing {query : κ → Option MessageQueryInfoDto} {s s' : State κ} {c : κ} {e : Event}
    {o : Outcome} (hstep : Step query s (.call c e) s') (hc : s.phase c = .closing o) :
    (∃ d, s.store.tx c = .active d ∧ s' = s.set c (.done o) (s.store.commit c)) ∨
      (s.store.tx c = .failed ∧ s' = s.set c (.done o) (s.store.rollback c)) ∨
      s' = s.set c (.done .exception) (s.store.rollback c) ∨
      s' = s.set c (.done .exception) s.store := by
  cases hstep with
  | commit h htx =>
    obtain rfl := Phase.closing.inj (h.symm.trans hc)
    exact Or.inl ⟨_, htx, rfl⟩
  | rollback h htx =>
    obtain rfl := Phase.closing.inj (h.symm.trans hc)
    exact Or.inr (Or.inl ⟨htx, rfl⟩)
  | commitFails => exact Or.inr (Or.inr (Or.inl rfl))
  | noTransaction => exact Or.inr (Or.inr (Or.inr rfl))
  | _ => simp_all

theorem returned_set {s : State κ} {c : κ} {o : Outcome} {store : Store κ Message} {m : Message} :
    Returned (s.set c (.done o) store) c m ↔ o = .message m := by
  rw [Returned, phase_set, if_pos rfl, Phase.done.injEq]

/-- **A commit removes exactly the message that its call returns.** -/
theorem Inv.rows_commit {query : κ → Option MessageQueryInfoDto} {s s' : State κ} {c : κ} {e : Event}
    {o : Outcome} (h : Inv s) (hc : s.phase c = .closing o) (hstep : Step query s (.call c e) s')
    {m : Message} (hm : m ∈ s.store.rows) : m ∉ s'.store.rows ↔ Returned s' c m := by
  have hp := h.of_phase hc
  rcases hstep.of_closing hc with ⟨d, htx, rfl⟩ | ⟨htx, rfl⟩ | rfl | rfl
  · rw [returned_set, show (s.set c (.done o) (s.store.commit c)).store.rows = s.store.rows \ d from
      Store.rows_commit htx, Finset.mem_sdiff, not_and_not_right]
    have hd : m ∈ d ↔ o = .message m := by
      rcases o with m' | _ | _
      · rw [Tx.active.inj (htx.symm.trans hp), Finset.mem_singleton, Outcome.message.injEq, eq_comm]
      · rw [Tx.active.inj (htx.symm.trans hp)]
        simp
      · rw [hp d htx]
        simp
    exact ⟨fun h' => hd.mp (h' hm), fun h' _ => hd.mpr h'⟩
  · rw [returned_set]
    refine ⟨fun h' => absurd hm h', ?_⟩
    rintro rfl
    cases htx.symm.trans hp
  · rw [returned_set]
    exact ⟨fun h' => absurd hm h', fun h' => by cases h'⟩
  · rw [returned_set]
    exact ⟨fun h' => absurd hm h', fun h' => by cases h'⟩

/-- **Exactly-once dequeue.** In every reachable state no message has been returned by two calls,
the next commit removes exactly the message its call returns, and the messages that are gone are
those that calls have returned. -/
theorem dequeueMessage_exactly_once {query : κ → Option MessageQueryInfoDto} {s : State κ}
    (h : Reachable Init (Step query) s) :
    (∀ c c' m m', Returned s c m → Returned s c' m' → m.id = m'.id → c = c') ∧
    (∀ c o e s', s.phase c = .closing o → Step query s (.call c e) s' → ∀ m ∈ s.store.rows,
      (m ∉ s'.store.rows ↔ Returned s' c m)) ∧
    ∀ m ∈ s.inserted, m ∉ s.store.rows ↔ ∃ c, Returned s c m := by
  have hinv := inv_of_reachable h
  refine ⟨fun c c' m m' hm hm' hid => ?_, fun c o e s' hc hstep m hm => hinv.rows_commit hc hstep hm,
    fun m hm => ⟨hinv.gone m hm, ?_⟩⟩
  · obtain rfl := hinv.ids m (hinv.returned c m hm).1 m' (hinv.returned c' m' hm').1 hid
    exact hinv.unique c c' m hm hm'
  · rintro ⟨c, hc⟩
    exact (hinv.returned c m hc).2

/-- Two calls on a table with one row, one of which has returned it. -/
theorem dequeueMessage_exactly_once_of_one_row : ∃ s : State Bool,
    Reachable Init (Step fun _ => some ⟨none, none, false, none⟩) s ∧
      Returned s true ⟨1, 1, 1, none, 0, 0, none⟩ ∧
      ∀ c, Returned s c ⟨1, 1, 1, none, 0, 0, none⟩ → c = true := by
  let m : Message := ⟨1, 1, 1, none, 0, 0, none⟩
  let s₀ : State Bool := ⟨⟨{m}, fun _ => none, fun _ => .closed⟩, {m}, fun _ => .start⟩
  have h0 : Reachable Init (Step fun _ => some ⟨none, none, false, none⟩) s₀ := by
    refine .of_init ⟨fun _ => rfl, fun _ => rfl, fun _ => rfl, by simp [s₀], ?_⟩
    rintro _ rfl _ rfl -
    rfl
  have hpicks : (peekArgs ⟨none, none, false, none⟩).Picks {m} m := by
    refine ⟨Finset.mem_singleton_self m, ⟨by simp [peekArgs], by simp [peekArgs],
      by simp [peekArgs]⟩, fun m' hm' _ => ?_⟩
    rw [Finset.mem_singleton.mp hm']
    exact le_refl m.sentAt
  have h1 := h0.next (Step.begin (c := true) rfl)
  have h2 := h1.next (Step.select (c := true) (m := m) rfl rfl hpicks)
  have h3 := h2.next (Step.lock (c := true) (m := m) rfl (Finset.mem_singleton_self m) rfl)
  have h4 := h3.next (Step.delete (c := true) (m := m) rfl (Finset.mem_singleton_self m))
  have h5 := h4.next (Step.commit (c := true) (d := {m}) rfl rfl)
  refine ⟨_, h5, returned_set.mpr rfl, fun c hc => ?_⟩
  exact (dequeueMessage_exactly_once h5).1 c true m m hc (returned_set.mpr rfl) rfl

end Mlmq.Db.Dequeue
