import Mlmq.Server.EarlyFaults

/-! # A message to several queues

`insertMessage` executes one insert for each queue id, and each is committed. So the messages up to
the first queue id that fails are stored: the request is all or nothing iff every insert can be
executed or the first one cannot (`allOrNothing_iff`). -/

namespace Mlmq.Server.MultiSend

open Mlmq.Dto Mlmq.Db.Table Mlmq.Db.Schema Mlmq.Db.Dao Mlmq.Net.Requests Mlmq.Net.Responses
open Mlmq.Server.RequestProcessor Mlmq.Server.Calls Mlmq.Server.Processing
open Mlmq.Server.EarlyFaults Mlmq.Lib.Programs Mlmq.Lib.Programs.Program

/-! ### The property -/

/-- The messages are as they were. -/
def Same (db : Database) (w : World) : Prop := w.db.messages = db.messages

/-- The message that the request inserts for a queue id. -/
def IsCopy (context : ClientApplicationContext) (request : SendMessageRequest)
    (queueId : Option Int64) (m : Message) : Prop :=
  queueId = some m.queueId.toInt64 ∧
    context.client.map ClientDto.id = some m.clientSenderId.toInt64 ∧
    m.content = request.content ∧ m.prio.toInt32 = request.prio ∧ m.context = none

/-- **One message is inserted for each queue id, or none at all**, whatever throws before the first
insert. -/
def AllOrNothing (db : Database) (context : ClientApplicationContext)
    (request : SendMessageRequest) : Prop :=
  ∀ r w, Runs (earlySem (Same db)) (process (.sendMessage request)) ⟨db, none, context⟩ r w →
    (r = .ok (.sendMessage {}) ∧ ∃ ms, w.db.messages = db.messages ++ ms ∧
      List.Forall₂ (IsCopy context request) request.queueIds ms) ∨
    (∃ e, r = .error e) ∧ w.db.messages = db.messages

/-! ### The condition -/

/-- The message for a queue id can be inserted behind `n` others. -/
def CanInsert (db : Database) (context : ClientApplicationContext) (request : SendMessageRequest)
    (n : ℕ) : Option Int64 → Prop
  | none => False
  | some queueId => db.messageSeq + n < 2 ^ 31 ∧ (∃ row ∈ db.queues, row.id.toInt64 = queueId) ∧
    (∃ client ∈ context.client, ∃ row ∈ db.clients, row.id.toInt64 = client.id) ∧
    request.prio.toInt16.toInt32 = request.prio

/-- All messages can be inserted, one after the other. -/
def CanInsertAll (db : Database) (context : ClientApplicationContext)
    (request : SendMessageRequest) : ℕ → List (Option Int64) → Prop
  | _, [] => True
  | n, queueId :: queueIds =>
    CanInsert db context request n queueId ∧ CanInsertAll db context request (n + 1) queueIds

/-! ### One insert -/

section Insert

variable {db : Database} {context : ClientApplicationContext} {request : SendMessageRequest}

/-- The world behind the inserts of these messages. -/
def sent (db : Database) (context : ClientApplicationContext) (ms : List Message) : World :=
  ⟨{ db with messages := db.messages ++ ms, messageSeq := db.messageSeq + ms.length }, none, context⟩

theorem sent_nil : sent db context [] = ⟨db, none, context⟩ := by
  simp [sent]

theorem same_sent_nil : Same db (sent db context []) := List.append_nil _

/-- The parameters of the insert. -/
def insertArgs (request : SendMessageRequest) (queueId : Int64) (client : ClientDto) : Insert where
  queueId := queueId
  clientId := client.id
  content := request.content
  prio := request.prio
  context := none

/-- What an insert does. -/
theorem executes_insert {ms : List Message} {queueId : Int64} {client : ClientDto} {r : Unit}
    {db' : Database} (hclient : context.client = some client)
    (he : Executes (sent db context ms).db (.insertMessage (insertArgs request queueId client)) r
      db') :
    CanInsert db context request ms.length (some queueId) ∧
      ∃ m, db' = (sent db context (ms ++ [m])).db ∧ IsCopy context request (some queueId) m := by
  obtain ⟨t, ht⟩ := he
  obtain ⟨id, m, hid, hm, ⟨⟨queue, hqueue, hq⟩, sender, hsender, hs⟩, rfl⟩ :=
    insertMessage_eq_some.mp ht
  simp only [Insert.row, Option.bind_eq_bind, Option.bind_eq_some_iff] at hm
  obtain ⟨q, hq', c, hc, p, hp, x, hx, hm⟩ := hm
  obtain rfl := Option.some.inj hm
  rw [toInteger_eq_some] at hq' hc
  rw [toSmallint_eq_some] at hp
  obtain ⟨hfits, rfl⟩ := hp
  obtain rfl := Option.some.inj hx
  have hqueueId : q.toInt64 = queueId := hq'
  have hclientId : c.toInt64 = client.id := hc
  have hdb : ({ (sent db context ms).db with
      messages := (sent db context ms).db.messages ++
        [⟨id, q, c, request.content, request.prio.toInt16, t, none⟩]
      messageSeq := (sent db context ms).db.messageSeq + 1 } : Database) =
      (sent db context (ms ++ [⟨id, q, c, request.content, request.prio.toInt16, t, none⟩])).db := by
    simp only [sent, List.append_assoc, List.length_append, List.length_singleton, Nat.add_assoc]
  refine ⟨⟨lt_of_toId hid, ⟨queue, hqueue, by rw [hq, hqueueId]⟩,
    ⟨client, hclient, sender, hsender, by rw [hs, hclientId]⟩, hfits⟩, _, hdb, ?_, ?_, rfl, hfits,
    rfl⟩
  · rw [hqueueId]
  · rw [hclientId, hclient, Option.map_some]

/-- An insert that can be executed. -/
theorem not_fails_insert {ms : List Message} {queueId : Int64} {client : ClientDto}
    (hclient : context.client = some client)
    (h : CanInsert db context request ms.length (some queueId)) :
    ¬ Fails (sent db context ms).db (.insertMessage (insertArgs request queueId client)) := by
  obtain ⟨hseq, ⟨queue, hqueue, hq⟩, ⟨client', hclient', sender, hsender, hs⟩, hfits⟩ := h
  obtain rfl : client = client' := Option.some.inj (hclient.symm.trans hclient')
  have hrow : ∀ id, (insertArgs request queueId client).row id 0 = some
      ⟨id, queue.id, sender.id, request.content, request.prio.toInt16, 0, none⟩ := by
    intro id
    simp only [Insert.row, Option.bind_eq_bind, Option.bind_eq_some_iff]
    exact ⟨_, toInteger_eq_some.mpr hq, _, toInteger_eq_some.mpr hs, _,
      toSmallint_eq_some.mpr ⟨hfits, rfl⟩, none, rfl, rfl⟩
  intro hfails
  exact hfails () _ ⟨0, insertMessage_eq_some.mpr ⟨_, _, if_pos hseq, hrow _,
    ⟨⟨queue, hqueue, rfl⟩, sender, hsender, rfl⟩, rfl⟩⟩

end Insert

/-! ### All or the first -/

section Loop

variable {db : Database} {context : ClientApplicationContext} {request : SendMessageRequest}

theorem closed_same : Closed (Same db) := fun _ _ hs hgap => hgap.messages.trans hs

theorem guarded_same : Guarded (earlySem (Same db)) (Same db) := guarded_early closed_same

theorem not_same_sent {ms : List Message} (h : ms ≠ []) : ¬ Same db (sent db context ms) :=
  fun hs => h (List.append_right_eq_self.mp hs)

/-- One insert of the loop, before or behind the first change. -/
theorem ends_insert {ms : List Message} {queueId : Int64} {client : ClientDto}
    (hclient : context.client = some client)
    (h : ms = [] ∨ CanInsert db context request ms.length (some queueId)) :
    wp (earlySem (Same db)) anyOp (execute (.insertMessage (insertArgs request queueId client)))
      (Ends (fun _ w => CanInsert db context request ms.length (some queueId) ∧
        ∃ m, w = sent db context (ms ++ [m]) ∧ IsCopy context request (some queueId) m) (Same db))
      (sent db context ms) := by
  have hexecutes : wp (earlySem (Same db)) anyOp
      (execute (.insertMessage (insertArgs request queueId client)))
      (Ends (fun r w => ∃ db', Executes (sent db context ms).db (.insertMessage
        (insertArgs request queueId client)) r db' ∧
        w = (sent db context ms).executed (.insertMessage (insertArgs request queueId client)) db')
        (Same db)) (sent db context ms) := by
    by_cases hms : ms = []
    · subst hms
      exact ends_execute closed_same same_sent_nil nofun fun hinsert => absurd trivial hinsert
    · exact ends_execute_late (not_same_sent hms) (not_fails_insert hclient (h.resolve_left hms))
  refine ends_mono ?_ hexecutes
  rintro r w ⟨db', he, rfl⟩
  obtain ⟨hcan, m, rfl, hcopy⟩ := executes_insert hclient he
  exact ⟨hcan, m, rfl, hcopy⟩

/-- **If all messages can be inserted, the loop inserts them all** or throws before the first. -/
theorem ends_insertAll (queueIds : List (Option Int64)) (ms : List Message)
    (h : CanInsertAll db context request ms.length queueIds) :
    wp (earlySem (Same db)) anyOp (MessageDao.insertAll request queueIds)
      (Ends (fun _ w => ∃ ms', w = sent db context (ms ++ ms') ∧
        List.Forall₂ (IsCopy context request) queueIds ms') (Same db)) (sent db context ms) := by
  induction queueIds generalizing ms with
  | nil => exact ⟨[], by rw [List.append_nil], .nil⟩
  | cons queueId queueIds ih =>
    cases queueId with
    | none => exact h.1.elim
    | some queueId =>
      obtain ⟨client, hclient, -⟩ := h.1.2.2.1
      refine ends_bind (ends_access nofun) fun found w hget => ?_
      obtain ⟨rfl, rfl⟩ := hget
      rw [show (sent db context ms).context.client = some client from hclient]
      refine ends_bind (ends_insert hclient (.inr h.1)) fun _ w hw => ?_
      obtain ⟨-, m, rfl, hcopy⟩ := hw
      have hrest : CanInsertAll db context request (ms ++ [m]).length queueIds := by
        rw [List.length_append]
        exact h.2
      refine ends_mono ?_ (ih _ hrest)
      rintro _ w ⟨ms', rfl, hcopies⟩
      exact ⟨m :: ms', by rw [List.append_assoc]; rfl, .cons hcopy hcopies⟩

/-- If the first message cannot be inserted, the loop throws. -/
theorem ends_insertAll_first {queueId : Option Int64} {queueIds : List (Option Int64)}
    (h : ¬ CanInsert db context request 0 queueId) :
    wp (earlySem (Same db)) anyOp (MessageDao.insertAll request (queueId :: queueIds))
      (Ends (fun _ _ => False) (Same db)) (sent db context []) := by
  cases queueId with
  | none => exact same_sent_nil
  | some queueId =>
    refine ends_bind (ends_access nofun) fun found w hget => ?_
    obtain ⟨hfound, rfl⟩ := hget
    cases found with
    | none => exact same_sent_nil
    | some client =>
      exact ends_bind (ends_insert hfound.symm (.inl rfl)) fun _ _ hw => absurd hw.1 h

/-- **All or nothing.** -/
theorem ends_sendMessage (h : CanInsertAll db context request 0 request.queueIds ∨
      ∃ queueId ∈ request.queueIds.head?, ¬ CanInsert db context request 0 queueId) :
    wp (earlySem (Same db)) anyOp (process (.sendMessage request))
      (Ends (fun x w => x = .sendMessage {} ∧ ∃ ms, w.db.messages = db.messages ++ ms ∧
        List.Forall₂ (IsCopy context request) request.queueIds ms) (Same db))
      (sent db context []) := by
  refine ends_process closed_same same_sent_nil fun _ => ends_withConnection guarded_same
    (ends_bind (ends_timed guarded_same ?_) fun _ w hw => ⟨rfl, hw⟩)
  rcases h with hall | ⟨queueId, hhead, hfirst⟩
  · refine ends_mono ?_ (ends_insertAll request.queueIds [] hall)
    rintro _ w ⟨ms, rfl, hcopies⟩
    exact ⟨ms, rfl, hcopies⟩
  · obtain ⟨queueIds, hqueueIds⟩ := List.head?_eq_some_iff.mp hhead
    rw [hqueueIds]
    exact ends_mono (fun _ _ hw => hw.elim) (ends_insertAll_first hfirst)

/-! ### Some, but not all -/

/-- Some messages have been inserted. -/
def Changed (db : Database) (w : World) : Prop := db.messages.length < w.db.messages.length

theorem changed_sent {ms : List Message} (h : ms ≠ []) : Changed db (sent db context ms) := by
  have hpos := List.length_pos_iff.mpr h
  have hlength : (sent db context ms).db.messages.length = db.messages.length + ms.length :=
    List.length_append
  unfold Changed
  omega

theorem wp_getClient {w : World} {E : World → Prop} :
    wp (dbSem Reliable) anyOp (invoke .getClient)
      (Ends (fun r w' => r = w.context.client ∧ w' = w) E) w := by
  refine ⟨trivial, fun a w' hcall => ?_⟩
  obtain ⟨client, rfl, rfl, rfl⟩ := Reliable.acts hcall nofun
  exact ⟨rfl, rfl⟩

theorem wp_insert {ms : List Message} {queueId : Int64} {client : ClientDto} {E : World → Prop}
    (hclient : context.client = some client)
    (h : CanInsert db context request ms.length (some queueId)) :
    wp (dbSem Reliable) anyOp (execute (.insertMessage (insertArgs request queueId client)))
      (Ends (fun _ w => ∃ m, w = sent db context (ms ++ [m])) E) (sent db context ms) := by
  refine wp_execute (not_fails_insert hclient h) fun r db' he => ?_
  obtain ⟨-, m, rfl, -⟩ := executes_insert hclient he
  exact ⟨m, rfl⟩

/-- Behind the first insert, a message that cannot be inserted ends the loop too late. -/
theorem wp_insertAll_late (queueIds : List (Option Int64)) (ms : List Message) (hms : ms ≠ [])
    (h : ¬ CanInsertAll db context request ms.length queueIds) :
    wp (dbSem Reliable) anyOp (MessageDao.insertAll request queueIds)
      (Ends (fun _ _ => False) (Changed db)) (sent db context ms) := by
  induction queueIds generalizing ms with
  | nil => exact absurd trivial h
  | cons queueId queueIds ih =>
    cases queueId with
    | none => exact changed_sent hms
    | some queueId =>
      refine ends_bind wp_getClient fun found w hget => ?_
      obtain ⟨hfound, rfl⟩ := hget
      cases found with
      | none => exact changed_sent hms
      | some client =>
        have hclient : context.client = some client := hfound.symm
        by_cases hcan : CanInsert db context request ms.length (some queueId)
        · refine ends_bind (wp_insert hclient hcan) fun _ w hw => ?_
          obtain ⟨m, rfl⟩ := hw
          refine ih _ (List.append_ne_nil_of_right_ne_nil _ (List.cons_ne_nil _ _)) fun hrest => ?_
          rw [List.length_append] at hrest
          exact h ⟨hcan, hrest⟩
        · have hfails : Fails (sent db context ms).db
              (.insertMessage (insertArgs request queueId client)) :=
            fun r db' he => hcan (executes_insert hclient he).1
          refine wp_bind (wp_fails hfails nofun) (fun _ _ hw => nomatch hw.1.choose_spec)
            fun e w hw => ?_
          obtain ⟨-, db', hgap, rfl⟩ := hw
          have hchanged : Changed db (sent db context ms) := changed_sent hms
          unfold Changed at hchanged
          rw [← hgap.messages] at hchanged
          exact hchanged

/-- **If the first message can be inserted, but not all of them, some are left behind.** -/
theorem ends_some (hregistered : context.clientQueue.isSome)
    (hall : ¬ CanInsertAll db context request 0 request.queueIds)
    (hfirst : ∀ queueId ∈ request.queueIds.head?, CanInsert db context request 0 queueId) :
    wp (dbSem Reliable) anyOp (process (.sendMessage request))
      (Ends (fun _ _ => False) (Changed db)) (sent db context []) := by
  have hguarded := smooth_reliable.guarded (Changed db)
  obtain ⟨queue, hqueue⟩ := Option.isSome_iff_exists.mp hregistered
  have hloop : wp (dbSem Reliable) anyOp (MessageDao.insertAll request request.queueIds)
      (Ends (fun _ _ => False) (Changed db)) (sent db context []) := by
    cases hqueueIds : request.queueIds with
    | nil =>
      rw [hqueueIds] at hall
      exact absurd trivial hall
    | cons queueId queueIds =>
      rw [hqueueIds] at hall hfirst
      have hcan := hfirst queueId rfl
      cases queueId with
      | none => exact hcan.elim
      | some queueId =>
        obtain ⟨client, hclient, -⟩ := hcan.2.2.1
        refine ends_bind wp_getClient fun found w hget => ?_
        obtain ⟨rfl, rfl⟩ := hget
        rw [show (sent db context []).context.client = some client from hclient]
        refine ends_bind (wp_insert hclient hcan) fun _ w hw => ?_
        obtain ⟨m, rfl⟩ := hw
        exact wp_insertAll_late queueIds [m] (List.cons_ne_nil _ _) fun hrest => hall ⟨hcan, hrest⟩
  refine wp_process ?_ (ends_withConnection hguarded
    (ends_bind (ends_timed hguarded hloop) fun _ _ hw => False.elim hw))
  rw [show (sent db context []).context.clientQueue = some queue from hqueue]
  rfl

theorem not_allOrNothing_of_some (hregistered : context.clientQueue.isSome)
    (hall : ¬ CanInsertAll db context request 0 request.queueIds)
    (hfirst : ∀ queueId ∈ request.queueIds.head?, CanInsert db context request 0 queueId) :
    ¬ AllOrNothing db context request := by
  intro hprop
  have hrun := runs_reliable (process (.sendMessage request)) (sent db context [])
  have hends := (ends_some hregistered hall hfirst).sound hrun
  rw [sent_nil] at hrun hends
  generalize (exec answer (process (.sendMessage request)) ⟨db, none, context⟩).1 = r at hrun hends
  cases r with
  | ok x => exact hends
  | error e =>
    rcases hprop _ _ (hrun.mono fun w op a w' => by
      rintro ⟨_, rfl, hd⟩
      exact ⟨.none, early_none w op, hd⟩) with ⟨h, -⟩ | ⟨-, hsame⟩
    · cases h
    · have hchanged : Changed db _ := hends
      rw [Changed, hsame] at hchanged
      exact lt_irrefl _ hchanged

end Loop

/-! ### The result -/

/-- **The request is all or nothing iff it is refused, every message can be inserted, or the first
one cannot.** -/
theorem allOrNothing_iff (db : Database) (context : ClientApplicationContext)
    (request : SendMessageRequest) : AllOrNothing db context request ↔
      context.clientQueue = none ∨ CanInsertAll db context request 0 request.queueIds ∨
        ∃ queueId ∈ request.queueIds.head?, ¬ CanInsert db context request 0 queueId := by
  constructor
  · intro hprop
    by_contra hnot
    obtain ⟨hregistered, hnot⟩ := not_or.mp hnot
    obtain ⟨hall, hfirst⟩ := not_or.mp hnot
    refine not_allOrNothing_of_some (Option.isSome_iff_ne_none.mpr hregistered) hall
      (fun queueId hhead => ?_) hprop
    by_contra hcan
    exact hfirst ⟨queueId, hhead, hcan⟩
  · intro hcond r w hrun
    have hwp : wp (earlySem (Same db)) anyOp (process (.sendMessage request))
        (Ends (fun x w => x = .sendMessage {} ∧ ∃ ms, w.db.messages = db.messages ++ ms ∧
          List.Forall₂ (IsCopy context request) request.queueIds ms) (Same db))
        (sent db context []) := by
      rcases hcond with hnone | h
      · refine ends_process closed_same same_sent_nil fun hregistered => ?_
        rw [show (sent db context []).context.clientQueue = none from hnone] at hregistered
        cases hregistered
      · exact ends_sendMessage h
    rw [sent_nil] at hwp
    have hends := hwp.sound hrun
    cases r with
    | ok x =>
      obtain ⟨rfl, hms⟩ := hends
      exact .inl ⟨rfl, hms⟩
    | error e => exact .inr ⟨⟨e, rfl⟩, hends⟩

/-- One client and one queue. -/
def oneQueue : Database where
  clients := [⟨1, some "a"⟩]
  queues := [⟨1, some "a", some 1⟩]
  messages := []
  clientSeq := 2
  queueSeq := 2
  messageSeq := 1
  contextSeq := 1

/-- A message to queue 1 and to a queue that does not exist. -/
def toDeleted : SendMessageRequest where
  queueIds := [some 1, some 2]
  content := none
  prio := 0

/-- The message to queue 1 is left behind. -/
theorem not_allOrNothing_toDeleted : ¬ ∀ (db : Database) (context : ClientApplicationContext)
    (request : SendMessageRequest), AllOrNothing db context request := by
  intro hall
  have hfirst : CanInsert oneQueue ⟨some ⟨1, some "a"⟩, some ⟨1, none⟩⟩ toDeleted 0 (some 1) :=
    ⟨by decide, by decide, ⟨_, rfl, by decide⟩, by decide⟩
  refine not_allOrNothing_of_some rfl (fun h => ?_) (fun queueId hhead => ?_)
    (hall oneQueue ⟨some ⟨1, some "a"⟩, some ⟨1, none⟩⟩ toDeleted)
  · exact absurd h.2.1.2.1 (by decide)
  · obtain rfl := Option.some.inj hhead
    exact hfirst

end Mlmq.Server.MultiSend
