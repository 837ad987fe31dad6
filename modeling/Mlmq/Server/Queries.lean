import Mlmq.Server.Processing

/-! # What a query finds

`MessageDao` cuts the ids of a query to `int`. The stored procedures then choose the right row among
those that match the cut ids, so a query is answered as it says iff its ids are `int`s, or no
message matches the cut ones either (`queries_right_iff`). -/

namespace Mlmq.Server.Queries

open Mlmq.Dto Mlmq.Db.Table Mlmq.Db.Schema Mlmq.Db.Dao Mlmq.Server.Calls Mlmq.Server.Processing
open Mlmq.Lib.Programs Mlmq.Lib.Programs.Program

/-! ### The property -/

/-- The message matches all filters, with the full ids. -/
def Matches (queryInfo : MessageQueryInfoDto) (m : Message) : Prop :=
  (∀ queue ∈ queryInfo.queue, m.queueId.toInt64 = queue.id) ∧
    (∀ sender ∈ queryInfo.sender, m.clientSenderId.toInt64 = sender.id) ∧
    ∀ context ∈ queryInfo.conversationContext, m.context = some context

/-- What a query finds among the messages. -/
def Finds (queryInfo : MessageQueryInfoDto) (messages : List Message) : Option Message → Prop
  | none => ∀ m ∈ messages, ¬ Matches queryInfo m
  | some m => m ∈ messages ∧ Matches queryInfo m ∧ ∀ m' ∈ messages, Matches queryInfo m' →
    if queryInfo.shouldOrderByPriority then m'.prio.toInt ≤ m.prio.toInt else m.sentAt ≤ m'.sentAt

/-- A `peekMessage` returns what the query finds, and changes nothing. -/
def PeeksRight (queryInfo : MessageQueryInfoDto) (db : Database) : Prop :=
  ∀ context r w,
    Runs (dbSem Reliable) (MessageDao.peekMessage (some queryInfo)) ⟨db, none, context⟩ r w →
      ∃ m, r = .ok (m.map Message.toDto) ∧ Finds queryInfo db.messages m ∧ w.db = db

/-- A `dequeueMessage` returns what the query finds, and removes it. -/
def DequeuesRight (queryInfo : MessageQueryInfoDto) (db : Database) : Prop :=
  ∀ context r w,
    Runs (dbSem Reliable) (MessageDao.dequeueMessage (some queryInfo)) ⟨db, none, context⟩ r w →
      ∃ m, r = .ok (m.map Message.toDto) ∧ Finds queryInfo db.messages m ∧
        w.db = { db with messages := db.messages.filter fun m' => some m' ≠ m }

/-! ### The condition -/

/-- The ids of the query are `int`s. -/
def IdsFit (queryInfo : MessageQueryInfoDto) : Prop :=
  (∀ queue ∈ queryInfo.queue, queue.id.toInt32.toInt64 = queue.id) ∧
    ∀ sender ∈ queryInfo.sender, sender.id.toInt32.toInt64 = sender.id

/-- **The cut ids select the right messages iff nothing was cut off.** -/
theorem matches_iff {queryInfo : MessageQueryInfoDto} {m : Message} :
    Matches queryInfo m ↔ IdsFit queryInfo ∧ (peekArgs queryInfo).Selects m := by
  constructor
  · rintro ⟨hqueue, hsender, hcontext⟩
    refine ⟨⟨fun queue h => (eq_toInt32_iff.mp (hqueue queue h)).1,
      fun sender h => (eq_toInt32_iff.mp (hsender sender h)).1⟩, ?_, ?_, hcontext⟩
    · intro queueId h
      obtain ⟨queue, hq, rfl⟩ := Option.map_eq_some_iff.mp h
      exact (eq_toInt32_iff.mp (hqueue queue hq)).2
    · intro clientId h
      obtain ⟨sender, hs, rfl⟩ := Option.map_eq_some_iff.mp h
      exact (eq_toInt32_iff.mp (hsender sender hs)).2
  · rintro ⟨⟨hqueue, hsender⟩, hqueueId, hclientId, hctx⟩
    exact ⟨fun queue h => eq_toInt32_iff.mpr
        ⟨hqueue queue h, hqueueId _ (Option.map_eq_some_iff.mpr ⟨queue, h, rfl⟩)⟩,
      fun sender h => eq_toInt32_iff.mpr
        ⟨hsender sender h, hclientId _ (Option.map_eq_some_iff.mpr ⟨sender, h, rfl⟩)⟩, hctx⟩

/-- What the stored procedures choose is what the query finds. -/
theorem finds_of_peeks {queryInfo : MessageQueryInfoDto} {messages : List Message}
    {m : Option Message}
    (hfit : IdsFit queryInfo ∨ ∀ m ∈ messages, ¬ (peekArgs queryInfo).Selects m)
    (h : Peeks (peekArgs queryInfo) messages m) : Finds queryInfo messages m := by
  cases m with
  | none => exact fun m hm hmatch => h m hm (matches_iff.mp hmatch).2
  | some m =>
    obtain ⟨hm, hsel, hfirst⟩ := h
    rw [List.mem_toFinset] at hm
    have hids : IdsFit queryInfo := hfit.resolve_right fun hnone => hnone m hm hsel
    exact ⟨hm, matches_iff.mpr ⟨hids, hsel⟩, fun m' hm' hmatch =>
      hfirst m' (List.mem_toFinset.mpr hm') (matches_iff.mp hmatch).2⟩

/-! ### The data access object -/

section Dao

variable {queryInfo : MessageQueryInfoDto} {w : World}

theorem wp_peek {stmt : PeekArgs → Java (Option Message)}
    (hstmt : ∀ args, wp (dbSem Reliable) anyOp (stmt args)
      (fun r w' => w' = w ∧ ∃ m, r = .ok m ∧ Peeks args w.db.messages m) w) :
    wp (dbSem Reliable) anyOp (MessageDao.peek stmt (some queryInfo))
      (fun r w' => w' = w ∧ ∃ m, r = .ok (m.map Message.toDto) ∧
        Peeks (peekArgs queryInfo) w.db.messages m) w := by
  refine wp_bind (hstmt _) (fun m w' h => ?_) fun e w' h => ?_
  · obtain ⟨rfl, m, hr, hpeeks⟩ := h
    obtain rfl := Except.ok.inj hr
    refine wp_bind (wp_silent smooth_reliable trivial trivial) (fun _ w'' h => ?_)
      fun _ _ h => nomatch h.1.choose_spec
    obtain ⟨-, rfl⟩ := h
    exact ⟨rfl, _, rfl, hpeeks⟩
  · obtain ⟨_, _, hr, -⟩ := h
    cases hr

theorem wp_peekMessage :
    wp (dbSem Reliable) anyOp (MessageDao.peekMessage (some queryInfo))
      (fun r w' => w' = w ∧ ∃ m, r = .ok (m.map Message.toDto) ∧
        Peeks (peekArgs queryInfo) w.db.messages m) w := by
  refine wp_timed smooth_reliable (fun _ => trivial) (wp_peek fun args => ?_)
  refine wp_execute (fun hfails => hfails _ _ ⟨peeks_peek w.db args, rfl⟩) ?_
  rintro m db ⟨hpeeks, rfl⟩
  exact ⟨rfl, m, rfl, hpeeks⟩

theorem wp_peekMessageForUpdate (args : PeekArgs) :
    wp (dbSem Reliable) anyOp (execute (.peekMessageForUpdate args))
      (fun r w' => w' = w ∧ ∃ m, r = .ok m ∧ Peeks args w.db.messages m) w := by
  refine wp_execute (fun hfails => hfails _ _ ⟨peeks_peek w.db args, rfl⟩) ?_
  rintro m db ⟨hpeeks, rfl⟩
  exact ⟨rfl, m, rfl, hpeeks⟩

/-- The deletion by the id removes the message only. -/
theorem deleteMessage_of_key {db : Database} (hkey : (db.messages.map Message.id).Nodup)
    {m : Message} (hm : m ∈ db.messages) : db.deleteMessage m.id.toInt64 =
      { db with messages := db.messages.filter fun m' => some m' ≠ some m } := by
  unfold Database.deleteMessage
  congr 1
  refine List.filter_congr fun m' hm' => ?_
  rw [decide_eq_decide, not_iff_not, toInt64_inj, Option.some_inj]
  exact ⟨List.inj_on_of_nodup_map hkey hm' hm, fun h => congrArg Message.id h⟩

/-- The `try` block of `dequeueMessage`. -/
theorem wp_dequeue (hkey : (w.db.messages.map Message.id).Nodup) :
    wp (dbSem Reliable) anyOp (MessageDao.dequeue (some queryInfo))
      (fun r w' => ∃ m, r = .ok (m.map Message.toDto) ∧
        Peeks (peekArgs queryInfo) w.db.messages m ∧
        w'.db = { w.db with messages := w.db.messages.filter fun m' => some m' ≠ m }) w := by
  have hbegin : wp (dbSem Reliable) anyOp (execute .beginTransaction)
      (fun r w' => r = .ok () ∧ w'.db = w.db) w := by
    refine wp_execute (fun hfails => hfails () _ rfl) ?_
    rintro _ db rfl
    exact ⟨rfl, rfl⟩
  refine wp_bind hbegin (fun _ w₁ h => ?_) fun _ _ h => nomatch h.1
  rw [← h.2] at hkey ⊢
  refine wp_bind (wp_peek wp_peekMessageForUpdate) (fun message w₂ h => ?_) fun e w₂ h => ?_
  · obtain ⟨rfl, m, hr, hpeeks⟩ := h
    obtain rfl := Except.ok.inj hr
    cases m with
    | none => exact ⟨none, rfl, hpeeks, by simp⟩
    | some m =>
      have hm : m ∈ w₂.db.messages := List.mem_toFinset.mp hpeeks.1
      have hdelete : wp (dbSem Reliable) anyOp (execute (.deleteMessage m.toDto.id))
          (fun r w' => r = .ok 1 ∧ w'.db = w₂.db.deleteMessage m.toDto.id) w₂ := by
        refine wp_execute (fun hfails => hfails _ _ ⟨rfl, rfl⟩) ?_
        rintro _ db ⟨rfl, rfl⟩
        exact ⟨congrArg _ (length_of_key hkey.of_map
          (fun _ hm _ hm' => List.inj_on_of_nodup_map hkey hm hm') hm), rfl⟩
      refine wp_bind hdelete (fun result w₃ h => ?_) fun _ _ h => nomatch h.1
      obtain ⟨hr, hdb⟩ := h
      obtain rfl := Except.ok.inj hr
      exact ⟨some m, rfl, hpeeks, hdb.trans (deleteMessage_of_key hkey hm)⟩
  · obtain ⟨_, _, hr, -⟩ := h
    cases hr

theorem wp_dequeueMessage (hkey : (w.db.messages.map Message.id).Nodup) :
    wp (dbSem Reliable) anyOp (MessageDao.dequeueMessage (some queryInfo))
      (fun r w' => ∃ m, r = .ok (m.map Message.toDto) ∧
        Peeks (peekArgs queryInfo) w.db.messages m ∧
        w'.db = { w.db with messages := w.db.messages.filter fun m' => some m' ≠ m }) w := by
  refine wp_bind (wp_silent smooth_reliable trivial trivial) (fun _ w₁ h => ?_)
    fun _ _ h => nomatch h.1.choose_spec
  obtain ⟨-, rfl⟩ := h
  refine wp_andFinally (fun r a w' => a = .ok () ∧ ∃ m, r = .ok (m.map Message.toDto) ∧
    Peeks (peekArgs queryInfo) w₁.db.messages m ∧
    w'.db = { w₁.db with messages := w₁.db.messages.filter fun m' => some m' ≠ m })
    (wp_dequeue hkey) (fun r w₂ h => ?_) (fun r w₂ h => h.2) fun _ _ _ h => nomatch h.1
  have hcommit : wp (dbSem Reliable) anyOp (execute .commitTransaction)
      (fun r w' => r = .ok () ∧ w'.db = w₂.db) w₂ := by
    refine wp_execute (fun hfails => hfails () _ rfl) ?_
    rintro _ db rfl
    exact ⟨rfl, rfl⟩
  refine wp_bind hcommit (fun _ w₃ h₃ => ?_) fun _ _ h => nomatch h.1
  rw [← h₃.2] at h
  refine wp_mono (fun a w₄ h₄ => ?_) (wp_silent smooth_reliable trivial trivial)
  obtain ⟨⟨_, rfl⟩, rfl⟩ := h₄
  exact ⟨rfl, h⟩

end Dao

/-! ### The result -/

/-- **A query is answered as it says iff its ids are `int`s or their cut ids match no message.** -/
theorem queries_right_iff (db : Database) (hkey : (db.messages.map Message.id).Nodup)
    (queryInfo : MessageQueryInfoDto) :
    PeeksRight queryInfo db ∧ DequeuesRight queryInfo db ↔
      IdsFit queryInfo ∨ ∀ m ∈ db.messages, ¬ (peekArgs queryInfo).Selects m := by
  constructor
  · rintro ⟨hpeeks, -⟩
    by_contra hnot
    obtain ⟨hfit, hsome⟩ := not_or.mp hnot
    have hrun := runs_reliable (MessageDao.peekMessage (some queryInfo)) ⟨db, none, .empty⟩
    obtain ⟨m, hr, hfinds, -⟩ := hpeeks _ _ _ hrun
    obtain ⟨-, m', hr', hpeeks'⟩ := wp_peekMessage.sound hrun
    have hnone : m = none := by
      cases m with
      | none => rfl
      | some m => exact absurd (matches_iff.mp hfinds.2.1).1 hfit
    subst hnone
    have hnone' : m' = none := Option.map_eq_none_iff.mp (Except.ok.inj (hr'.symm.trans hr))
    subst hnone'
    exact hsome hpeeks'
  · intro hfit
    constructor
    · intro context r w hrun
      obtain ⟨rfl, m, hr, hpeeks⟩ := wp_peekMessage.sound hrun
      exact ⟨m, hr, finds_of_peeks hfit hpeeks, rfl⟩
    · intro context r w hrun
      obtain ⟨m, hr, hpeeks, hdb⟩ := (wp_dequeueMessage hkey).sound hrun
      exact ⟨m, hr, finds_of_peeks hfit hpeeks, hdb⟩

/-- A message in queue 1. -/
def inQueueOne : Database where
  clients := [⟨1, none⟩]
  queues := [⟨1, none, none⟩]
  messages := [⟨1, 1, 1, none, 0, 0, none⟩]
  clientSeq := 2
  queueSeq := 2
  messageSeq := 2
  contextSeq := 1

def queryQueue (id : Int64) : MessageQueryInfoDto where
  queue := some { id, name := none }
  sender := none
  shouldOrderByPriority := false
  conversationContext := none

/-- Messages in two queues, from two senders. -/
def inTwoQueues : Database where
  clients := [⟨1, none⟩, ⟨2, none⟩]
  queues := [⟨1, none, none⟩, ⟨2, none, none⟩]
  messages := [⟨1, 2, 1, none, 9, 0, none⟩, ⟨2, 1, 2, none, 8, 1, none⟩,
    ⟨3, 1, 1, none, 7, 3, none⟩, ⟨4, 1, 1, none, 6, 2, none⟩]
  clientSeq := 3
  queueSeq := 3
  messageSeq := 5
  contextSeq := 1

/-- Of the messages in queue 1 from client 1 the older one is found, behind older and more urgent
ones that do not match. -/
theorem queries_right_inTwoQueues :
    let queryInfo : MessageQueryInfoDto := { queryQueue 1 with sender := some ⟨1, none⟩ }
    PeeksRight queryInfo inTwoQueues ∧ DequeuesRight queryInfo inTwoQueues ∧
      Finds queryInfo inTwoQueues.messages (some ⟨4, 1, 1, none, 6, 2, none⟩) := by
  intro queryInfo
  have hfit : IdsFit queryInfo := by
    constructor
    · rintro queue ⟨⟩
      rfl
    · rintro sender ⟨⟩
      rfl
  have hfinds : Finds queryInfo inTwoQueues.messages (some ⟨4, 1, 1, none, 6, 2, none⟩) := by
    refine ⟨by simp [inTwoQueues], ⟨?_, ?_, nofun⟩, fun m hm hmatch => ?_⟩
    · rintro queue ⟨⟩
      rfl
    · rintro sender ⟨⟩
      rfl
    · simp only [inTwoQueues, List.mem_cons, List.not_mem_nil, or_false] at hm
      show 2 ≤ m.sentAt
      rcases hm with rfl | rfl | rfl | rfl
      · exact absurd (hmatch.1 _ rfl) (by decide)
      · exact absurd (hmatch.2.1 _ rfl) (by decide)
      · decide
      · decide
  obtain ⟨hpeeks, hdequeues⟩ :=
    (queries_right_iff inTwoQueues (by decide) queryInfo).mpr (.inl hfit)
  exact ⟨hpeeks, hdequeues, hfinds⟩

/-- The query for queue `2 ^ 32 + 1` finds the message as well. -/
theorem not_queries_right_cutId : ¬ ∀ (db : Database) (queryInfo : MessageQueryInfoDto),
    (db.messages.map Message.id).Nodup → PeeksRight queryInfo db ∧ DequeuesRight queryInfo db := by
  intro hall
  have hrun := runs_reliable (MessageDao.peekMessage (some (queryQueue (2 ^ 32 + 1))))
    ⟨inQueueOne, none, .empty⟩
  obtain ⟨m, hr, hfinds, -⟩ := (hall inQueueOne _ (by decide)).1 _ _ _ hrun
  obtain ⟨-, m', hr', hpeeks⟩ := wp_peekMessage.sound hrun
  have hfit : ¬ IdsFit (queryQueue (2 ^ 32 + 1)) := fun h => absurd (h.1 _ rfl) (by decide)
  cases m with
  | none =>
    obtain rfl : m' = none := Option.map_eq_none_iff.mp (Except.ok.inj (hr'.symm.trans hr))
    refine hpeeks ⟨1, 1, 1, none, 0, 0, none⟩ List.mem_cons_self ⟨?_, nofun, nofun⟩
    rintro _ ⟨⟩
    decide
  | some m => exact hfit (matches_iff.mp hfinds.2.1).1

end Mlmq.Server.Queries
