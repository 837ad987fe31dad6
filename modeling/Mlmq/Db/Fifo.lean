import Mlmq.Db.NoFalseEmpty

/-! # The order in which messages leave

Inserts at increasing instants and dequeues one after the other. `Exec` are the executions of such a
sequence on the table: a dequeue takes any selected row with the least `sent_at`. `fifo` is what a
queue would do: every dequeue returns the earliest message that matches. The column `sent_at` is a
time of day, so the two agree only while no later message has an earlier time of day
(`dequeueMessage_fifo_iff`); a dequeue at midnight may return the newer message.

`dequeueMessage_alone` connects the dequeue of `Exec` with the statements of a call that runs alone.
-/

namespace Mlmq.Db.Fifo

open Mlmq.Dto Mlmq.Db.Table Mlmq.Db.Dequeue Mlmq.Lib.RowStore Mlmq.Lib.Transition

/-! ### Instants and times of day -/

/-- The microseconds of a day. -/
def dayMicros : ℤ := 24 * 60 * 60 * 1000000

/-- `NOW()` as the column `time without time zone` stores it: the local time without the date.
`zone` is the offset of the local time at each instant. -/
def timeOfDay (zone : ℤ → ℤ) (t : ℤ) : ℕ := ((t + zone t) % dayMicros).toNat

/-! ### Operations and executions -/

inductive Op
  /-- The insert of a message at the instant `t`; `id` is the next value of the sequence. -/
  | insert (args : Insert) (id : Int32) (t : ℤ)
  /-- `dequeueMessage` without priority ordering. -/
  | dequeue (queue : Option QueueDto) (sender : Option ClientDto) (ctx : Option Int32)

/-- The query of a dequeue. -/
def query (queue : Option QueueDto) (sender : Option ClientDto) (ctx : Option Int32) :
    MessageQueryInfoDto :=
  { queue, sender, shouldOrderByPriority := false, conversationContext := ctx }

/-- The instants of the inserts, in order. -/
def instants : List Op → List ℤ
  | [] => []
  | .insert _ _ t :: ops => t :: instants ops
  | .dequeue .. :: ops => instants ops

/-- The message meets the filters of the query. -/
def Matches (q : MessageQueryInfoDto) (m : Message) : Prop :=
  (∀ queue ∈ q.queue, m.queueId.toInt64 = queue.id) ∧
    (∀ sender ∈ q.sender, m.clientSenderId.toInt64 = sender.id) ∧
    ∀ ctx ∈ q.conversationContext, m.context = some ctx

instance (q : MessageQueryInfoDto) (m : Message) : Decidable (Matches q m) :=
  inferInstanceAs (Decidable (_ ∧ _ ∧ _))

/-- What `dequeueMessage` may return from these rows. -/
def Returns (rows : List Message) (q : MessageQueryInfoDto) : Option Message → Prop
  | some m => (peekArgs q).Picks rows.toFinset m
  | none => ∀ m ∈ rows, ¬ (peekArgs q).Selects m

/-- The rows without the returned one. -/
def remove (rows : List Message) (r : Option Message) : List Message :=
  r.elim rows rows.erase

/-- **The executions**: the rows in the order of their inserts, and the results of the dequeues. -/
inductive Exec (zone : ℤ → ℤ) : List Message → List Op → List (Option Message) → Prop
  | nil (rows) : Exec zone rows [] []
  | insert {rows args id t ops rs}
    (h : Exec zone (rows ++ (Insert.row args id (timeOfDay zone t)).toList) ops rs) :
    Exec zone rows (.insert args id t :: ops) rs
  | dequeue {rows queue sender ctx ops r rs} (hr : Returns rows (query queue sender ctx) r)
    (h : Exec zone (remove rows r) ops rs) :
    Exec zone rows (.dequeue queue sender ctx :: ops) (r :: rs)

/-- The results of a queue: the earliest message that matches. -/
def fifo (zone : ℤ → ℤ) : List Message → List Op → List (Option Message)
  | _, [] => []
  | rows, .insert args id t :: ops =>
    fifo zone (rows ++ (Insert.row args id (timeOfDay zone t)).toList) ops
  | rows, .dequeue queue sender ctx :: ops =>
    let r := rows.find? (Matches (query queue sender ctx))
    r :: fifo zone (remove rows r) ops

/-- **The condition on a dequeue**: every selected row is the earliest message that matches, or has
a later time of day than it. -/
def InOrder (rows : List Message) (q : MessageQueryInfoDto) : Prop :=
  ∀ m ∈ rows, (peekArgs q).Selects m →
    ∃ e, rows.find? (Matches q) = some e ∧ (m = e ∨ e.sentAt < m.sentAt)

/-- The condition at each dequeue of the queue. -/
def AllInOrder (zone : ℤ → ℤ) : List Message → List Op → Prop
  | _, [] => True
  | rows, .insert args id t :: ops =>
    AllInOrder zone (rows ++ (Insert.row args id (timeOfDay zone t)).toList) ops
  | rows, .dequeue queue sender ctx :: ops =>
    InOrder rows (query queue sender ctx) ∧
      AllInOrder zone (remove rows (rows.find? (Matches (query queue sender ctx)))) ops

/-! ### One dequeue -/

/-- The ids are cut to `int`, so a message that matches is selected. -/
theorem Matches.selects {q : MessageQueryInfoDto} {m : Message} (h : Matches q m) :
    (peekArgs q).Selects m := by
  obtain ⟨hqueue, hsender, hctx⟩ := h
  refine ⟨fun queueId hq => ?_, fun clientId hc => ?_, hctx⟩
  · obtain ⟨queue, hmem, rfl⟩ := Option.map_eq_some_iff.mp hq
    rw [← hqueue queue hmem, Int32.toInt32_toInt64]
  · obtain ⟨sender, hmem, rfl⟩ := Option.map_eq_some_iff.mp hc
    rw [← hsender sender hmem, Int32.toInt32_toInt64]

theorem exists_returns (rows : List Message) (q : MessageQueryInfoDto) :
    ∃ r, Returns rows q r := by
  by_cases h : ∃ m ∈ rows.toFinset, (peekArgs q).Selects m
  · obtain ⟨m, hm⟩ := ((peekArgs q).exists_picks_iff _).mpr h
    exact ⟨some m, hm⟩
  · exact ⟨none, fun m hm hsel => h ⟨m, List.mem_toFinset.mpr hm, hsel⟩⟩

theorem picks_iff {rows : List Message} {q : MessageQueryInfoDto}
    (hq : q.shouldOrderByPriority = false) {m : Message} :
    (peekArgs q).Picks rows.toFinset m ↔ m ∈ rows ∧ (peekArgs q).Selects m ∧
      ∀ m' ∈ rows, (peekArgs q).Selects m' → m.sentAt ≤ m'.sentAt := by
  simp [PeekArgs.Picks, PeekArgs.Precedes, peekArgs, hq]

/-- **A dequeue must return the earliest message that matches iff the rows are in order.** -/
theorem returns_find_iff {rows : List Message} {q : MessageQueryInfoDto}
    (hq : q.shouldOrderByPriority = false) :
    (∀ r, Returns rows q r → r = rows.find? (Matches q)) ↔ InOrder rows q := by
  constructor
  · intro h m hm hsel
    obtain ⟨p, hp⟩ := ((peekArgs q).exists_picks_iff rows.toFinset).mpr
      ⟨m, List.mem_toFinset.mpr hm, hsel⟩
    have hpe : some p = rows.find? (Matches q) := h (some p) hp
    refine ⟨p, hpe.symm, ?_⟩
    by_cases hlt : p.sentAt < m.sentAt
    · exact Or.inr hlt
    · -- a row that is not later than the first one may also be chosen
      have hm' : (peekArgs q).Picks rows.toFinset m := by
        refine (picks_iff hq).mpr ⟨hm, hsel, fun m' hrow hsel' => ?_⟩
        exact (not_lt.mp hlt).trans (((picks_iff hq).mp hp).2.2 m' hrow hsel')
      have hme : some m = rows.find? (Matches q) := h (some m) hm'
      exact Or.inl (Option.some.inj (hme.trans hpe.symm))
  · intro h r hr
    cases hfind : rows.find? (Matches q) with
    | none =>
      rcases r with _ | m
      · rfl
      · obtain ⟨hm, hsel, -⟩ := (picks_iff hq).mp hr
        obtain ⟨e, he, -⟩ := h m hm hsel
        rw [hfind] at he
        cases he
    | some e =>
      have hmatch : Matches q e :=
        of_decide_eq_true (List.find?_some (p := fun m => decide (Matches q m)) hfind)
      have hrow : e ∈ rows := List.mem_of_find?_eq_some hfind
      rcases r with _ | m
      · exact absurd hmatch.selects (hr e hrow)
      · obtain ⟨hm, hsel, hfirst⟩ := (picks_iff hq).mp hr
        obtain ⟨e', he', hme⟩ := h m hm hsel
        obtain rfl : e = e' := Option.some.inj (hfind.symm.trans he')
        rcases hme with rfl | hlt
        · rfl
        · exact absurd (hfirst e hrow hmatch.selects) (not_le.mpr hlt)

/-! ### Whole runs -/

theorem exists_exec (zone : ℤ → ℤ) : ∀ (ops : List Op) (rows : List Message),
    ∃ rs, Exec zone rows ops rs
  | [], rows => ⟨[], .nil rows⟩
  | .insert args id t :: ops, rows => by
    obtain ⟨rs, h⟩ := exists_exec zone ops (rows ++ (args.row id (timeOfDay zone t)).toList)
    exact ⟨rs, .insert h⟩
  | .dequeue queue sender ctx :: ops, rows => by
    obtain ⟨r, hr⟩ := exists_returns rows (query queue sender ctx)
    obtain ⟨rs, h⟩ := exists_exec zone ops (remove rows r)
    exact ⟨r :: rs, .dequeue hr h⟩

theorem exec_eq_fifo_iff (zone : ℤ → ℤ) : ∀ (ops : List Op) (rows : List Message),
    (∀ rs, Exec zone rows ops rs → rs = fifo zone rows ops) ↔ AllInOrder zone rows ops
  | [], rows => by
    refine ⟨fun _ => trivial, fun _ rs h => ?_⟩
    cases h
    rfl
  | .insert args id t :: ops, rows => by
    refine Iff.trans ⟨fun h rs hrs => h rs (.insert hrs), fun h rs hrs => ?_⟩
      (exec_eq_fifo_iff zone ops _)
    cases hrs with
    | insert hrs => exact h rs hrs
  | .dequeue queue sender ctx :: ops, rows => by
    have ih := exec_eq_fifo_iff zone ops
      (remove rows (rows.find? (Matches (query queue sender ctx))))
    have hfirst : (∀ r, Returns rows (query queue sender ctx) r →
        r = rows.find? (Matches (query queue sender ctx))) ↔ InOrder rows (query queue sender ctx) :=
      returns_find_iff rfl
    constructor
    · intro h
      have hhead : ∀ r, Returns rows (query queue sender ctx) r →
          r = rows.find? (Matches (query queue sender ctx)) := by
        intro r hr
        obtain ⟨rs, hrs⟩ := exists_exec zone ops (remove rows r)
        exact (List.cons.inj (h (r :: rs) (.dequeue hr hrs))).1
      refine ⟨hfirst.mp hhead, ih.mp fun rs hrs => ?_⟩
      obtain ⟨r, hr⟩ := exists_returns rows (query queue sender ctx)
      obtain rfl := hhead r hr
      exact (List.cons.inj (h _ (.dequeue hr hrs))).2
    · rintro ⟨hhead, htail⟩ rs hrs
      cases hrs with
      | dequeue hr hrs =>
        obtain rfl := hfirst.mpr hhead _ hr
        rw [ih.mpr htail _ hrs]
        rfl

/-- **The messages leave in the order in which they were sent iff** at every dequeue each selected
row is the earliest message that matches, or has a later time of day than it. -/
theorem dequeueMessage_fifo_iff (zone : ℤ → ℤ) (ops : List Op) (rows : List Message) :
    (∀ rs, Exec zone rows ops rs → rs = fifo zone rows ops) ↔ AllInOrder zone rows ops :=
  exec_eq_fifo_iff zone ops rows

/-- A message of 23:59 and a message of 00:01 on the next day: the second one leaves first. -/
theorem dequeueMessage_not_fifo : ¬ ∀ (zone : ℤ → ℤ) (ops : List Op),
    (instants ops).Pairwise (· < ·) → ∀ rs, Exec zone [] ops rs → rs = fifo zone [] ops := by
  intro h
  let args : Insert := ⟨1, 1, none, 0, none⟩
  let ops : List Op := [.insert args 1 86340000000, .insert args 2 86460000000,
    .dequeue none none none]
  let m₁ : Message := ⟨1, 1, 1, none, 0, 86340000000, none⟩
  let m₂ : Message := ⟨2, 1, 1, none, 0, 60000000, none⟩
  have hinc : (instants ops).Pairwise (· < ·) := by decide
  have hall : AllInOrder (fun _ => 0) [] ops :=
    (exec_eq_fifo_iff (fun _ => 0) ops []).mp (h (fun _ => 0) ops hinc)
  have horder : InOrder [m₁, m₂] (query none none none) := hall.1
  have hsel : (peekArgs (query none none none)).Selects m₂ :=
    ⟨by simp [peekArgs, query], by simp [peekArgs, query], by simp [peekArgs, query]⟩
  obtain ⟨e, he, hme⟩ := horder m₂ (by simp) hsel
  have hfirst : [m₁, m₂].find? (Matches (query none none none)) = some m₁ :=
    List.find?_cons_of_pos (by simp [Matches, query])
  obtain rfl : m₁ = e := Option.some.inj (hfirst.symm.trans he)
  rcases hme with heq | hlt
  · exact absurd (congrArg Message.sentAt heq) (by decide)
  · exact absurd hlt (by decide)

/-! ### The statements of a call that runs alone -/

section Alone

variable {κ : Type} [DecidableEq κ] {q : MessageQueryInfoDto}

/-- What a call that runs alone on the rows `R` has done. -/
def AloneInv (q : MessageQueryInfoDto) (R : Finset Message) (store : Store κ Message) (c : κ) :
    Phase → Prop
  | .start => store.rows = R
  | .begun => store.rows = R ∧ store.tx c = .active ∅
  | .locking m => store.rows = R ∧ store.tx c = .active ∅ ∧ (peekArgs q).Picks R m
  | .selected m => store.rows = R ∧ store.tx c = .active ∅ ∧ (peekArgs q).Picks R m
  | .closing (.message m) => store.rows = R ∧ store.tx c = .active {m} ∧ (peekArgs q).Picks R m
  | .closing .null => store.rows = R ∧ store.tx c = .active ∅ ∧ ∀ m ∈ R, ¬ (peekArgs q).Selects m
  | .closing .exception => False
  | .done (.message m) => store.rows = R \ {m} ∧ (peekArgs q).Picks R m
  | .done .null => store.rows = R ∧ ∀ m ∈ R, ¬ (peekArgs q).Selects m
  | .done .exception => False

theorem AloneInv.step {R : Finset Message} {s s' : State κ} {c : κ} {e : Event}
    (h : AloneInv q R s.store c (s.phase c)) (hstep : NoFalseEmpty.CallStep q s (c, e) s') :
    AloneInv q R s'.store c (s'.phase c) := by
  obtain ⟨hnormal, hstep⟩ := hstep
  cases hstep with
  | begin hs =>
    rw [hs] at h
    rw [phase_self]
    exact ⟨h, by simp [State.set]⟩
  | beginFails => cases hnormal
  | select hs hq hm =>
    rw [hs] at h
    rw [phase_self]
    obtain rfl := Option.some.inj hq
    exact ⟨h.1, h.2, h.1 ▸ hm⟩
  | selectNone hs hq hm =>
    rw [hs] at h
    rw [phase_self]
    obtain rfl := Option.some.inj hq
    exact ⟨h.1, h.2, h.1 ▸ hm⟩
  | lock hs =>
    rw [hs] at h
    rw [phase_self]
    exact h
  | gone hs hm =>
    rw [hs] at h
    exact absurd (h.1 ▸ h.2.2.1) hm
  | statementFails => cases hnormal
  | throws => cases hnormal
  | @delete _ m hs =>
    rw [hs] at h
    obtain ⟨hrows, htx, hpicks⟩ := h
    rw [phase_self]
    refine ⟨Store.rows_delete.trans hrows, ?_, hpicks⟩
    show (s.store.delete c m).tx c = .active {m}
    rw [Store.tx_delete htx]
    simp
  | deleteNone hs hm =>
    rw [hs] at h
    exact absurd (h.1 ▸ h.2.2.1) hm
  | @commit _ o d hs htx =>
    rw [hs] at h
    rw [phase_self]
    have hrows : (s.set c (.done o) (s.store.commit c)).store.rows = s.store.rows \ d :=
      Store.rows_commit htx
    rcases o with m | _ | _
    · obtain ⟨hR, htx', hpicks⟩ := h
      obtain rfl := Tx.active.inj (htx.symm.trans htx')
      exact ⟨by rw [hrows, hR], hpicks⟩
    · obtain ⟨hR, htx', hnone⟩ := h
      obtain rfl := Tx.active.inj (htx.symm.trans htx')
      exact ⟨by rw [hrows, hR, Finset.sdiff_empty], hnone⟩
    · exact h.elim
  | @rollback _ o hs htx =>
    rw [hs] at h
    rcases o with m | _ | _
    · cases htx.symm.trans h.2.1
    · cases htx.symm.trans h.2.1
    · exact h.elim
  | commitFails => cases hnormal
  | @noTransaction _ o hs htx =>
    rw [hs] at h
    rcases o with m | _ | _
    · cases htx.symm.trans h.2.1
    · cases htx.symm.trans h.2.1
    · exact h.elim

/-- **A call that runs alone does what a dequeue of `Exec` does.** -/
theorem dequeueMessage_alone {s₀ s : State κ} {c : κ} {es : List Event} {o : Outcome}
    {rows : List Message} (hnd : rows.Nodup) (hrows : s₀.store.rows = rows.toFinset)
    (hc : s₀.phase c = .start) (run : Run (fun s e => NoFalseEmpty.CallStep q s (c, e)) s₀ es s)
    (hdone : s.phase c = .done o) :
    ∃ r, Returns rows q r ∧ o = r.elim .null .message ∧
      s.store.rows = (remove rows r).toFinset := by
  have h₀ : AloneInv q rows.toFinset s₀.store c (s₀.phase c) := by
    rw [hc]
    exact hrows
  have h := run.invariant (P := fun s => AloneInv q rows.toFinset s.store c (s.phase c))
    (fun _ _ _ => AloneInv.step) h₀
  simp only [hdone] at h
  rcases o with m | _ | _
  · refine ⟨some m, h.2, rfl, ?_⟩
    rw [h.1]
    ext m'
    simp [remove, hnd.mem_erase_iff, and_comm]
  · exact ⟨none, fun m hm => h.2 m (List.mem_toFinset.mpr hm), rfl, h.1⟩
  · exact h.elim

end Alone

end Mlmq.Db.Fifo
