import Mlmq.Server.Processing

/-! # Queues with pending messages

The statement behind `getPublicQueuesContainingMessages` groups all messages by their queue, so the
queues of clients are listed as well. The answer is right iff nothing is listed or there is no
message to a client (`answersRight_iff`). -/

namespace Mlmq.Server.PendingQueues

open Mlmq.Dto Mlmq.Db.Table Mlmq.Db.Schema Mlmq.Db.Dao Mlmq.Net.Requests Mlmq.Net.Responses
open Mlmq.Server.RequestProcessor Mlmq.Server.Calls Mlmq.Server.Processing
open Mlmq.Lib.Programs Mlmq.Lib.Programs.Program

/-! ### The property -/

/-- The queue belongs to no client. -/
def IsPublic (db : Database) (queueId : Int32) : Prop :=
  ∃ row ∈ db.queues, row.id = queueId ∧ row.clientId = none

instance (db : Database) (queueId : Int32) : Decidable (IsPublic db queueId) :=
  inferInstanceAs (Decidable (∃ row ∈ db.queues, _ ∧ _))

/-- The public queues that contain messages. -/
def publicQueuesWithMessages (db : Database) : List Int32 :=
  db.queuesWithMessages.filter fun queueId => IsPublic db queueId

/-- The messages in the queue of the requester. -/
def myMessages (db : Database) (clientQueue : QueueDto) : List Message :=
  db.messages.filter fun m => m.queueId.toInt64 = clientQueue.id

/-- The response with these queues and this number. -/
def pending (queueIds : List Int32) (numMessagesInMyQueue : Int32) : Response JavaException :=
  .queuesWithPendingMessages
    { queues := queueIds.map fun queueId => some { id := queueId.toInt64, name := none }
      numMessagesInMyQueue }

/-- **The right answer**: different public queues with messages, as many as there are up to the
limit, and the number of messages to the requester. -/
def Answers (db : Database) (clientQueue : QueueDto) (maxNumQueues : Int32)
    (r : Except JavaException (Response JavaException)) : Prop :=
  ∃ queueIds numMessagesInMyQueue, r = .ok (pending queueIds numMessagesInMyQueue) ∧
    queueIds.Nodup ∧ (∀ queueId ∈ queueIds, IsPublic db queueId ∧
      ∃ m ∈ db.messages, m.queueId = queueId) ∧
    queueIds.length = min maxNumQueues.toInt.toNat (publicQueuesWithMessages db).length ∧
    numMessagesInMyQueue.toInt = (myMessages db clientQueue).length

/-- Every execution without faults gives the right answer. -/
def AnswersRight (db : Database) (context : ClientApplicationContext) (clientQueue : QueueDto)
    (maxNumQueues : Int32) : Prop :=
  ∀ r w, Runs (dbSem Reliable) (process (.queuesWithPendingMessages ⟨maxNumQueues⟩))
    ⟨db, none, context⟩ r w → Answers db clientQueue maxNumQueues r

/-! ### Executions -/

theorem pending_eq (queueIds : List Int32) (n : Int32) :
    Response.queuesWithPendingMessages (ε := JavaException)
      { queues := (queueIds.map fun queueId => { id := queueId.toInt64, name := none : QueueDto }).map
          some
        numMessagesInMyQueue := n } = pending queueIds n := by
  rw [List.map_map]
  rfl

theorem pending_inj {queueIds queueIds' : List Int32} {n n' : Int32}
    (h : pending queueIds n = pending queueIds' n') : queueIds = queueIds' := by
  have hqueues := (QueuesWithPendingMessagesResponse.mk.inj
    (Response.queuesWithPendingMessages.inj h)).1
  refine List.map_injective_iff.mpr (fun id id' hid => ?_) hqueues
  exact toInt64_inj.mp (QueueDto.mk.inj (Option.some.inj hid)).1

section Executions

variable {db : Database} {context : ClientApplicationContext} {clientQueue : QueueDto}
  {maxNumQueues : Int32} {queueIds : List Int32}

/-- The statement lists these queues. -/
def Lists (db : Database) (maxNumQueues : Int32) (queueIds : List Int32) : Prop :=
  Executes db (.publicQueuesContainingMessages maxNumQueues) queueIds db

/-- The number of messages is an `int`. -/
def CountFits (db : Database) (clientQueue : QueueDto) : Prop :=
  (myMessages db clientQueue).length < 2 ^ 31

theorem wp_body (hmax : 0 ≤ maxNumQueues.toInt) (hqueue : context.clientQueue = some clientQueue)
    (hcount : CountFits db clientQueue) :
    wp (dbSem Reliable) anyOp (queuesWithPendingMessages ⟨maxNumQueues⟩)
      (fun r _ => ∃ queueIds, Lists db maxNumQueues queueIds ∧
        r = .ok (pending queueIds (Int32.ofNat (myMessages db clientQueue).length)))
      ⟨db, none, context⟩ := by
  have hlist : wp (dbSem Reliable) anyOp (execute (.publicQueuesContainingMessages maxNumQueues))
      (fun r w => w = ⟨db, none, context⟩ ∧ ∃ queueIds, Lists db maxNumQueues queueIds ∧
        r = .ok queueIds) ⟨db, none, context⟩ := by
    refine wp_execute (fun hfails => ?_) ?_
    · have hanswer : db.answer (.publicQueuesContainingMessages maxNumQueues) = some _ :=
        if_pos hmax
      exact hfails _ _ (executes_answer hanswer)
    · rintro queueIds db' he
      obtain ⟨hlimit, hnodup, hsub, hlength, rfl⟩ := he
      exact ⟨rfl, queueIds, ⟨hlimit, hnodup, hsub, hlength, rfl⟩, rfl⟩
  have hnumber : wp (dbSem Reliable) anyOp (execute (.numMsgPerQueue clientQueue.id))
      (fun r _ => r = .ok (Int32.ofNat (myMessages db clientQueue).length))
      ⟨db, none, context⟩ := by
    refine wp_execute (fun hfails => hfails _ _ ⟨hcount, rfl, rfl⟩) ?_
    rintro count db' ⟨-, rfl, -⟩
    rfl
  have hget : wp (dbSem Reliable) anyOp (invoke .getClientQueue)
      (fun r w => w = ⟨db, none, context⟩ ∧ r = .ok (some clientQueue)) ⟨db, none, context⟩ := by
    refine ⟨trivial, fun a w' hcall => ?_⟩
    obtain ⟨queue, rfl, rfl, rfl⟩ := Reliable.acts hcall nofun
    exact ⟨rfl, congrArg _ hqueue⟩
  have hqueues : wp (dbSem Reliable) anyOp
      (MessageDao.getPublicQueuesContainingMessages maxNumQueues)
      (fun r w => w = ⟨db, none, context⟩ ∧ ∃ queueIds, Lists db maxNumQueues queueIds ∧
        r = .ok (queueIds.map fun queueId => { id := queueId.toInt64, name := none }))
      ⟨db, none, context⟩ := by
    refine wp_timed smooth_reliable (fun _ => trivial) (wp_bind hlist (fun queueIds w h => ?_)
      fun e w h => ?_)
    · obtain ⟨rfl, queueIds, hlists, hr⟩ := h
      obtain rfl := Except.ok.inj hr
      exact ⟨rfl, _, hlists, rfl⟩
    · obtain ⟨_, _, _, hr⟩ := h
      cases hr
  refine wp_bind hqueues (fun queues w h => ?_) fun e w h => ?_
  · obtain ⟨rfl, queueIds, hlists, hr⟩ := h
    obtain rfl := Except.ok.inj hr
    refine wp_bind hget (fun queue w h => ?_) fun _ _ h => nomatch h.2
    obtain ⟨rfl, hr⟩ := h
    obtain rfl := Except.ok.inj hr
    refine wp_bind (wp_timed smooth_reliable (fun _ => trivial) hnumber) (fun count w hr => ?_)
      fun _ _ h => nomatch h
    obtain rfl := Except.ok.inj hr
    exact ⟨queueIds, hlists, congrArg Except.ok (pending_eq ..)⟩
  · obtain ⟨_, _, _, hr⟩ := h
    cases hr

/-- Whatever the statement lists, some execution answers. -/
theorem runs_lists (hqueue : context.clientQueue = some clientQueue)
    (hcount : CountFits db clientQueue) (hlists : Lists db maxNumQueues queueIds) :
    Runs (dbSem Reliable) (process (.queuesWithPendingMessages ⟨maxNumQueues⟩)) ⟨db, none, context⟩
      (.ok (pending queueIds (Int32.ofNat (myMessages db clientQueue).length)))
      ⟨db, none, context⟩ := by
  have hok : ∀ w op, Reliable w op .none := fun _ _ => rfl
  have hlist : Runs (dbSem Reliable) (execute (.publicQueuesContainingMessages maxNumQueues))
      ⟨db, none, context⟩ (.ok queueIds) ⟨db, none, context⟩ :=
    runs_invoke hok ⟨db, hlists, rfl⟩
  have hget : Runs (dbSem Reliable) (invoke .getClientQueue) ⟨db, none, context⟩
      (.ok (some clientQueue)) ⟨db, none, context⟩ := runs_invoke hok ⟨hqueue.symm, rfl⟩
  have hnumber : Runs (dbSem Reliable) (execute (.numMsgPerQueue clientQueue.id))
      ⟨db, none, context⟩ (.ok (Int32.ofNat (myMessages db clientQueue).length))
      ⟨db, none, context⟩ := runs_invoke hok ⟨db, ⟨hcount, rfl, rfl⟩, rfl⟩
  refine runs_process hok hqueue (runs_withConnection hok
    (.bind (runs_timed hok (.bind hlist ⟨rfl, rfl⟩)) (.bind hget
      (.bind (runs_timed hok hnumber) ⟨?_, rfl⟩))))
  exact congrArg Except.ok (pending_eq ..).symm

end Executions

/-! ### Lists of queues -/

section Lists

variable {db : Database} {maxNumQueues : Int32} {queueId : Int32}

theorem mem_queuesWithMessages :
    queueId ∈ db.queuesWithMessages ↔ ∃ m ∈ db.messages, m.queueId = queueId := by
  unfold Database.queuesWithMessages
  rw [List.mem_dedup, List.mem_map]

/-- Every queue with messages may be listed. -/
theorem exists_lists (hmax : 0 < maxNumQueues.toInt) (hqueue : queueId ∈ db.queuesWithMessages) :
    ∃ queueIds, Lists db maxNumQueues queueIds ∧ queueId ∈ queueIds := by
  have hnodup : db.queuesWithMessages.Nodup := List.nodup_dedup _
  have hlength : 0 < db.queuesWithMessages.length := List.length_pos_of_mem hqueue
  refine ⟨queueId :: (db.queuesWithMessages.erase queueId).take (maxNumQueues.toInt.toNat - 1),
    ⟨hmax.le, ?_, ?_, ?_, rfl⟩, List.mem_cons_self⟩
  · refine List.nodup_cons.mpr ⟨fun hmem => ?_, (hnodup.erase _).sublist (List.take_sublist _ _)⟩
    exact hnodup.not_mem_erase (List.mem_of_mem_take hmem)
  · intro id hid
    rcases List.mem_cons.mp hid with rfl | hid
    · exact hqueue
    · exact List.mem_of_mem_erase (List.mem_of_mem_take hid)
  · rw [List.length_cons, List.length_take, List.length_erase_of_mem hqueue]
    omega

theorem publicQueues_of_all (hpublic : ∀ m ∈ db.messages, IsPublic db m.queueId) :
    publicQueuesWithMessages db = db.queuesWithMessages := by
  refine List.filter_eq_self.mpr fun queueId hqueue => ?_
  obtain ⟨m, hm, rfl⟩ := mem_queuesWithMessages.mp hqueue
  exact decide_eq_true (hpublic m hm)

end Lists

/-! ### The result -/

/-- **The answer is right iff no queue is asked for or there is no message to a client**, and the
number of messages is an `int`. -/
theorem answersRight_iff (db : Database) (context : ClientApplicationContext)
    (clientQueue : QueueDto) (hqueue : context.clientQueue = some clientQueue)
    (maxNumQueues : Int32) (hmax : 0 ≤ maxNumQueues.toInt) :
    AnswersRight db context clientQueue maxNumQueues ↔
      (maxNumQueues.toInt = 0 ∨ ∀ m ∈ db.messages, IsPublic db m.queueId) ∧
        (myMessages db clientQueue).length < 2 ^ 31 := by
  constructor
  · intro hright
    have hcount : CountFits db clientQueue := by
      obtain ⟨_, n, -, -, -, -, hn⟩ := hright _ _ (runs_reliable _ _)
      have hlt := n.toInt_lt
      unfold CountFits
      omega
    refine ⟨?_, hcount⟩
    by_contra hnot
    obtain ⟨hpos, hsome⟩ := not_or.mp hnot
    obtain ⟨m, hm, hprivate⟩ : ∃ m ∈ db.messages, ¬ IsPublic db m.queueId := by
      simpa only [not_forall, exists_prop] using hsome
    obtain ⟨queueIds, hlists, hmem⟩ := exists_lists (show 0 < maxNumQueues.toInt by omega)
      (mem_queuesWithMessages.mpr ⟨m, hm, rfl⟩)
    obtain ⟨queueIds', n, hr, -, hpublic, -, -⟩ := hright _ _ (runs_lists hqueue hcount hlists)
    rw [pending_inj (Except.ok.inj hr)] at hmem
    exact hprivate (hpublic _ hmem).1
  · rintro ⟨hcond, hcount⟩ r w hrun
    have hhandler : wp (dbSem Reliable) anyOp (handler (.queuesWithPendingMessages ⟨maxNumQueues⟩))
        (fun r _ => ∃ queueIds, Lists db maxNumQueues queueIds ∧
          r = .ok (pending queueIds (Int32.ofNat (myMessages db clientQueue).length)))
        ⟨db, none, context⟩ := by
      refine wp_withConnection smooth_reliable (fun _ _ _ => trivial)
        (wp_mono (fun r w h => ⟨?_, h⟩) (wp_body hmax hqueue hcount))
      obtain ⟨_, _, rfl⟩ := h
      exact nofun
    obtain ⟨queueIds, ⟨-, hnodup, hsub, hlength, -⟩, rfl⟩ := (wp_process (by rw [hqueue]; rfl) hhandler).sound hrun
    refine ⟨queueIds, _, rfl, hnodup, fun queueId hmem => ?_, ?_, ?_⟩
    · obtain ⟨m, hm, rfl⟩ := mem_queuesWithMessages.mp (hsub hmem)
      refine ⟨?_, m, hm, rfl⟩
      rcases hcond with hzero | hpublic
      · have hpos := List.length_pos_of_mem hmem
        omega
      · exact hpublic m hm
    · rcases hcond with hzero | hpublic
      · rw [hlength, hzero, Int.toNat_zero, Nat.zero_min, Nat.zero_min]
      · rw [hlength, publicQueues_of_all hpublic]
    · exact Int32.toInt_ofNat_of_lt hcount

/-- A public queue and the queue of a client, with one message in each. -/
def mixed : Database where
  clients := [⟨1, some "a"⟩]
  queues := [⟨1, some "a", some 1⟩, ⟨2, some "q", none⟩]
  messages := [⟨1, 1, 1, none, 0, 0, none⟩, ⟨2, 2, 1, none, 0, 0, none⟩]
  clientSeq := 2
  queueSeq := 3
  messageSeq := 3
  contextSeq := 1

/-- The client of `mixed`. -/
def contextOfA : ClientApplicationContext := ⟨some ⟨1, some "a"⟩, some ⟨1, none⟩⟩

/-- Without the message to the client. -/
theorem answersRight_public :
    AnswersRight { mixed with messages := [⟨2, 2, 1, none, 0, 0, none⟩] } contextOfA ⟨1, none⟩ 10 :=
  (answersRight_iff _ contextOfA ⟨1, none⟩ rfl 10 (by decide)).mpr
    ⟨.inr (by decide), by decide⟩

/-- With it, the queue of the client is listed among the public queues. -/
theorem not_answersRight_mixed : ¬ ∀ (db : Database) (context : ClientApplicationContext)
    (clientQueue : QueueDto) (maxNumQueues : Int32), context.clientQueue = some clientQueue →
    0 ≤ maxNumQueues.toInt → AnswersRight db context clientQueue maxNumQueues := by
  intro hall
  have hlists : Lists mixed 10 [1, 2] :=
    ⟨by decide, by decide, by decide, by decide, rfl⟩
  obtain ⟨queueIds, n, hr, -, hpublic, -, -⟩ := hall mixed contextOfA ⟨1, none⟩ 10 rfl (by decide)
    _ _ (runs_lists rfl (by unfold CountFits; decide) hlists)
  have hmem : 1 ∈ queueIds := by
    rw [← pending_inj (Except.ok.inj hr)]
    exact List.mem_cons_self
  exact absurd (hpublic 1 hmem).1 (by decide)

end Mlmq.Server.PendingQueues
