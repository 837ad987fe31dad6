import Mlmq.Server.Processing

/-! # Every client has its queue

A registration inserts the client and its queue with two statements that commit on their own, and
any client may delete any queue. So a client has exactly one queue only as long as no request
deletes the queue of a client and nothing fails between the two inserts (`KeepsQueues`). Then a
known client can always register again (`oneQueueEach_of_run`); a client without queue never can. -/

namespace Mlmq.Server.PersonalQueue

open Mlmq.Dto Mlmq.Db.Table Mlmq.Db.Schema Mlmq.Db.Dao Mlmq.Net.Requests Mlmq.Net.Responses
open Mlmq.Server.RequestProcessor Mlmq.Server.Calls Mlmq.Server.Processing
open Mlmq.Lib.Programs Mlmq.Lib.Transition Mlmq.Lib.Programs.Program

/-! ### The property -/

/-- The queues of a client. -/
def queuesOf (db : Database) (clientId : Int32) : List QueueRow :=
  db.queues.filter fun row => row.clientId = some clientId

/-- **Every client has exactly one queue.** -/
def OneQueueEach (db : Database) : Prop :=
  ∀ client ∈ db.clients, (queuesOf db client.id).length = 1

/-- **A registration under a known name succeeds**, with a client of that name. -/
def RegistersAgain (db : Database) : Prop :=
  ∀ name, (∃ client ∈ db.clients, client.name = some name) → ∀ context r w,
    Runs (dbSem Reliable) (process (.registration ⟨some name⟩)) ⟨db, none, context⟩ r w →
      ∃ client ∈ db.clients, client.name = some name ∧ r = .ok (.registration
        { clientDto := some { id := client.id.toInt64, name := some name }, isNewClient := false })

/-! ### The condition -/

/-- Some client has no queue. -/
def Orphaned (db : Database) : Prop := ∃ client ∈ db.clients, queuesOf db client.id = []

/-- No queue of a client is deleted, an insert of a client that throws has not inserted it, and as
long as the client that has been inserted has no queue nothing fails. -/
def KeepsQueues (w : World) (op : Op) (fault : Fault) : Prop :=
  (∀ id, op = .execute (.deleteQueue id) → fault ≠ .before →
    ∀ row ∈ w.db.queues, row.id.toInt64 = id → row.clientId = none) ∧
  (∀ name, op = .execute (.createClient name) → fault ≠ .after) ∧
  (Orphaned w.db → fault = .none ∧ ∀ stmt, op = .execute stmt → ¬ Fails w.db stmt)

/-! ### Queues of clients -/

theorem queuesOf_congr {db db' : Database} (h : db'.queues = db.queues) (clientId : Int32) :
    queuesOf db' clientId = queuesOf db clientId := by
  unfold queuesOf
  rw [h]

theorem OneQueueEach.congr {db db' : Database} (h : OneQueueEach db)
    (hclients : db'.clients = db.clients) (hqueues : db'.queues = db.queues) :
    OneQueueEach db' := by
  intro client hclient
  rw [queuesOf_congr hqueues]
  exact h client (hclients ▸ hclient)

/-- The deletion of a public queue. -/
theorem queuesOf_deleteQueue {db : Database} {id : Int64} {clientId : Int32}
    (h : ∀ row ∈ db.queues, row.id.toInt64 = id → row.clientId = none) :
    queuesOf (db.deleteQueue id) clientId = queuesOf db clientId := by
  unfold queuesOf Database.deleteQueue
  rw [List.filter_filter]
  refine List.filter_congr fun row hrow => ?_
  by_cases hid : row.id.toInt64 = id
  · simp [hid, h row hrow hid]
  · simp [hid]

theorem queuesOf_append {db : Database} {row : QueueRow} {n : ℕ} {clientId : Int32} :
    queuesOf { db with queues := db.queues ++ [row], queueSeq := n } clientId =
      queuesOf db clientId ++ if row.clientId = some clientId then [row] else [] := by
  unfold queuesOf
  rw [List.filter_append]
  congr 1
  by_cases h : row.clientId = some clientId <;> simp [h]

/-! ### Operations -/

/-- A valid world in which every client has its queue. -/
structure Good (w : World) : Prop where
  valid : w.Valid
  each : OneQueueEach w.db

/-- Only the client `id`, which has just been inserted, has no queue. -/
structure Half (id : Int32) (w : World) : Prop where
  valid : w.Valid
  client : ∃ client ∈ w.db.clients, client.id = id
  none : queuesOf w.db id = []
  others : ∀ client ∈ w.db.clients, client.id ≠ id → (queuesOf w.db client.id).length = 1

theorem Half.orphaned {id : Int32} {w : World} (h : Half id w) : Orphaned w.db := by
  obtain ⟨client, hclient, rfl⟩ := h.client
  exact ⟨client, hclient, h.none⟩

theorem queues_undone {w w' : World} {op : Op} (h : Undone w op w') :
    w'.db.clients = w.db.clients ∧ w'.db.queues = w.db.queues := by
  unfold Undone at h
  split_ifs at h
  · subst h
    exact ⟨rfl, rfl⟩
  · obtain ⟨db, hgap, rfl⟩ := h
    exact ⟨hgap.clients, hgap.queues⟩

/-- **Every client keeps its queue** under every other operation than the inserts of a
registration. -/
theorem Good.acts {w w' : World} {op : Op} {r : Ans op} (h : Good w) (hop : ¬ Registers op)
    (hdelete : ∀ id, op = .execute (.deleteQueue id) →
      ∀ row ∈ w.db.queues, row.id.toInt64 = id → row.clientId = none)
    (ha : Acts w op r w') : Good w' := by
  refine ⟨h.valid.acts ha, ?_⟩
  cases op with
  | execute stmt =>
    obtain ⟨db, he, rfl⟩ := ha
    rw [World.db_executed]
    cases stmt with
    | createClient name => exact absurd trivial hop
    | createQueue clientId name =>
      cases clientId with
      | some c => exact absurd trivial hop
      | none =>
        obtain ⟨stored, -, -, -, -, rfl⟩ := createQueue_eq_some.mp he
        intro client hclient
        rw [queuesOf_append, if_neg nofun, List.append_nil]
        exact h.each client hclient
    | deleteQueue id =>
      obtain rfl := he
      intro client hclient
      rw [queuesOf_deleteQueue (hdelete id rfl)]
      exact h.each client hclient
    | insertMessage args =>
      obtain ⟨t, ht⟩ := he
      obtain ⟨id, m, -, -, -, rfl⟩ := insertMessage_eq_some.mp ht
      exact h.each
    | beginTransaction | commitTransaction =>
      obtain rfl := he
      exact h.each
    | clientByName name | queueByName name | generateNewConversationContext
    | numMsgPerQueue queueId =>
      obtain ⟨-, -, rfl⟩ := he
      exact h.each
    | queueByClientId id | peekMessage args | peekMessageForUpdate args | deleteMessage id =>
      obtain ⟨-, rfl⟩ := he
      exact h.each
    | publicQueuesContainingMessages limit =>
      obtain ⟨-, -, -, -, rfl⟩ := he
      exact h.each
  | getClient | getClientQueue =>
    obtain ⟨-, rfl⟩ := ha
    exact h.each
  | _ =>
    obtain rfl := ha
    exact h.each

theorem Good.undone {w w' : World} {op : Op} (h : Good w) (hu : Undone w op w') : Good w' := by
  obtain ⟨hclients, hqueues⟩ := queues_undone hu
  exact ⟨h.valid.undone hu, h.each.congr hclients hqueues⟩

/-- **Every client keeps its queue under every operation but the inserts of a registration.** -/
theorem Good.does {w w' : World} {op : Op} {fault : Fault} {a : Except JavaException (Ans op)}
    (h : Good w) (hop : ¬ Registers op) (hok : KeepsQueues w op fault)
    (hd : Does w op fault a w') : Good w' := by
  unfold Does at hd
  split at hd
  · exact h.acts hop (fun id hid => hok.1 id hid nofun) hd
  · exact h.undone hd.2.2
  · exact h.undone hd.2
  · obtain ⟨-, r, ha⟩ := hd
    exact h.acts hop (fun id hid => hok.1 id hid nofun) ha
  · exact hd.elim

/-- Between the inserts of a registration, an operation answers. -/
theorem Half.does {id : Int32} {w w' : World} {op : Op} {fault : Fault}
    {a : Except JavaException (Ans op)} (h : Half id w) (hok : KeepsQueues w op fault)
    (hd : Does w op fault a w') : ∃ r, a = .ok r ∧ Acts w op r w' := by
  obtain ⟨rfl, hop⟩ := hok.2.2 h.orphaned
  exact hd.acts hop

/-! ### A registration -/

abbrev keepsSem : Semantics Ans JavaException World := dbSem KeepsQueues

theorem wp_good {α : Type} {p : Java α} {w : World} (hp : p.Only fun op => ¬ Registers op)
    (h : Good w) : wp keepsSem anyOp p (fun _ w => Good w) w := by
  refine hp.wp (fun _ _ _ _ => trivial) ?_ h
  rintro w op a w' hop hw ⟨fault, hok, hd⟩
  exact hw.does hop hok hd

/-- A step between the inserts. -/
theorem wp_half_step {id : Int32} {w : World} (h : Half id w) :
    wp keepsSem anyOp (invoke .step) (fun r w => r = .ok () ∧ Half id w) w := by
  refine ⟨trivial, ?_⟩
  rintro a w' ⟨fault, hok, hd⟩
  obtain ⟨r, rfl, rfl⟩ := h.does hok hd
  exact ⟨rfl, h⟩

/-- The insert of a client. -/
theorem wp_createClient {w : World} (h : Good w) (name : Option String) :
    wp keepsSem anyOp (execute (.createClient name))
      (fun r w => match r with
        | .ok id => Half id w
        | .error _ => Good w) w := by
  refine ⟨trivial, ?_⟩
  rintro (e | id) w' ⟨fault, hok, hd⟩
  · cases fault with
    | none => exact h.undone hd.2.2
    | before => exact h.undone hd.2
    | after => exact absurd rfl (hok.2.1 name rfl)
  · cases fault with
    | none =>
      have ha : Acts w (.execute (.createClient name)) id w' := hd
      have hvalid := h.valid.acts ha
      obtain ⟨db, he, rfl⟩ := hd
      obtain ⟨stored, -, hid, -, rfl⟩ := createClient_eq_some.mp he
      have hnew : ∀ client ∈ w.db.clients, client.id ≠ id := by
        intro client hclient heq
        have hlt := h.valid.db.clientSeq client hclient
        rw [heq, toInt_of_toId hid] at hlt
        exact lt_irrefl _ hlt
      refine ⟨hvalid, ⟨⟨id, stored⟩, List.mem_append_right _ List.mem_cons_self, rfl⟩, ?_, ?_⟩
      · refine List.filter_eq_nil_iff.mpr fun row hrow => ?_
        rw [decide_eq_true_eq]
        intro howner
        obtain ⟨client, hclient, heq⟩ := h.valid.db.owners row hrow id howner
        exact hnew client hclient heq
      · intro client hclient hne
        rcases List.mem_append.mp hclient with hclient | hclient
        · exact h.each client hclient
        · rw [List.mem_singleton.mp hclient] at hne
          exact absurd rfl hne
    | before | after => exact hd.elim

/-- The insert of the queue. -/
theorem wp_createQueue {id : Int32} {w : World} (h : Half id w) (name : Option String) :
    wp keepsSem anyOp (execute (.createQueue (some id) name)) (fun _ w => Good w) w := by
  refine ⟨trivial, ?_⟩
  rintro a w' ⟨fault, hok, hd⟩
  obtain ⟨r, rfl, ha⟩ := h.does hok hd
  have hvalid := h.valid.acts ha
  obtain ⟨db, he, rfl⟩ := ha
  obtain ⟨stored, -, -, -, -, rfl⟩ := createQueue_eq_some.mp he
  refine ⟨hvalid, fun client hclient => ?_⟩
  rw [World.db_executed, queuesOf_append, List.length_append]
  by_cases hid : client.id = id
  · rw [hid, h.none, if_pos rfl]
    rfl
  · have hcount := h.others client hclient hid
    have hne : ¬ (some id = some client.id) := fun heq => hid (Option.some.inj heq).symm
    rw [hcount, if_neg hne]
    rfl

theorem wp_step {w : World} (h : Good w) : wp keepsSem anyOp (invoke .step) (fun _ w => Good w) w :=
  wp_good (only_perform id) h

/-- **The insert of a client and its queue**: every client has its queue again when it is over. -/
theorem wp_insertNewClient {w : World} (h : Good w) (name : Option String) :
    wp keepsSem anyOp (ClientDao.insertNewClient name)
      (fun r w => match r with
        | .ok id => Half id w
        | .error _ => Good w) w := by
  refine wp_bind (wp_step h) (fun _ w h => ?_) fun _ _ h => h
  refine wp_andFinally (fun r r' w => match r with
    | .ok id => r' = .ok () ∧ Half id w
    | .error _ => Good w) (wp_createClient h name) (fun r w h => ?_) (fun r w h => ?_)
    fun r e w h => ?_
  · cases r with
    | ok id => exact wp_half_step h
    | error e => exact wp_step h
  · cases r with
    | ok id => exact h.2
    | error e => exact h
  · cases r with
    | ok id => cases h.1
    | error e => exact h

theorem wp_createClientQueue {id : Int32} {w : World} (h : Half id w) (name : Option String) :
    wp keepsSem anyOp (QueueDao.createClientQueue (some id) name) (fun _ w => Good w) w := by
  refine wp_bind (wp_half_step h) (fun _ w h => ?_) fun _ _ h => nomatch h.1
  have hinsert : wp keepsSem anyOp (execute (.createQueue (some id) name) >>= fun queueId =>
      pure { id := queueId.toInt64, name := none : QueueDto }) (fun _ w => Good w) w :=
    wp_bind (wp_createQueue h.2 name) (fun _ _ h => h) fun _ _ h => h
  exact wp_andFinally _ hinsert (fun _ _ h => wp_step h) (fun _ _ h => h) fun _ _ _ h => h

theorem wp_clientAndQueue {w : World} (h : Good w) (name : Option String) :
    wp keepsSem anyOp (clientAndQueue name) (fun _ w => Good w) w := by
  refine wp_bind (wp_good ((quiet_getClientId name).mono fun _ => IsQuiet.not_registers) h)
    (fun clientId w h => ?_) fun _ _ h => h
  cases clientId with
  | none =>
    exact wp_bind (wp_insertNewClient h name)
      (fun id w h => wp_bind (wp_createClientQueue h name) (fun _ _ h => h) fun _ _ h => h)
      fun _ _ h => h
  | some clientId =>
    refine wp_bind (wp_good ((quiet_getQueueByClientId _).mono fun _ => IsQuiet.not_registers) h)
      (fun queue w h => ?_) fun _ _ h => h
    cases queue with
    | none => exact h
    | some queue => exact wp_bind (wp_step h) (fun _ _ h => h) fun _ _ h => h

theorem wp_registration {w : World} (h : Good w) (request : RegistrationRequest) :
    wp keepsSem anyOp (registration request) (fun _ w => Good w) w := by
  refine wp_bind (wp_clientAndQueue h _) (fun found w h => ?_) fun _ _ h => h
  exact wp_good (only_bind (only_perform id) fun _ => only_bind (only_perform id) fun _ =>
    only_pure _) h

theorem wp_handler {failed : String → JavaException} {body : Java (Response JavaException)}
    {w : World} (h : Good w)
    (hbody : ∀ w, Good w → wp keepsSem anyOp body (fun _ w => Good w) w) :
    wp keepsSem anyOp (withConnection failed body) (fun _ w => Good w) w := by
  refine wp_bind (wp_good (pooling_getConnection.mono fun _ => IsPooling.not_registers) h)
    (fun _ w h => ?_) fun _ _ h => h
  refine wp_andFinally (Q := fun _ w => Good w) (fun _ _ w => Good w)
    (wp_catching (hbody w h) (fun _ _ h => h) fun e w h => ?_) (fun _ w h => ?_)
    (fun _ _ h => h) fun _ _ _ h => h
  · cases e with
    | sql message =>
      exact wp_good (only_bind (closing_close.mono fun _ => IsClosing.not_registers)
        fun _ => only_raise _) h
    | _ => exact h
  · exact wp_good (pooling_returnConnection.mono fun _ => IsPooling.not_registers) h

/-- **Every client keeps its queue under every request.** -/
theorem wp_process {w : World} (h : Good w) (request : Request) :
    wp keepsSem anyOp (process request) (fun _ w => Good w) w := by
  cases hreq : Request.isRegistration request with
  | false => exact wp_good (not_registers_process request hreq) h
  | true =>
    cases request with
    | registration r =>
      refine wp_bind (wp_good (only_perform id) h) (fun clientQueue w h => ?_) fun _ _ h => h
      rw [hreq, Bool.not_true, Bool.and_false, if_neg Bool.false_ne_true]
      exact wp_bind (wp_step h) (fun _ w h => wp_handler h fun w h => wp_registration h r)
        fun _ _ h => h
    | _ => cases hreq

/-! ### A registration under a known name -/

section Known

variable {name : String} {w : World}

theorem wp_getClientId (hsend : Sendable (some name))
    (hknown : ∃ client ∈ w.db.clients, client.name = some name) :
    wp (dbSem Reliable) anyOp (ClientDao.getClientId (some name))
      (fun r w' => w' = w ∧ ∃ client ∈ w.db.clients, client.name = some name ∧
        r = .ok (some client.id)) w := by
  have hrow : wp (dbSem Reliable) anyOp (execute (.clientByName (some name)))
      (fun r w' => w' = w ∧ ∃ client ∈ w.db.clients, client.name = some name ∧
        r = .ok (some client)) w := by
    refine ⟨trivial, fun a w' hcall => ?_⟩
    obtain ⟨row, rfl, db', ⟨-, hrow, rfl⟩, rfl⟩ := Reliable.acts hcall (by
      rintro stmt ⟨⟩ hfails
      exact hfails _ _ ⟨hsend, fetches_find _ _, rfl⟩)
    refine ⟨rfl, ?_⟩
    cases row with
    | none =>
      obtain ⟨client, hclient, hname⟩ := hknown
      exact absurd ⟨Option.some_ne_none name, hname⟩ (hrow client hclient)
    | some client => exact ⟨client, hrow.1, hrow.2.2, rfl⟩
  refine wp_timed smooth_reliable (fun _ => trivial) (wp_bind hrow (fun row w' h => ?_)
    fun e w' h => ?_)
  · obtain ⟨rfl, client, hclient, hname, hr⟩ := h
    obtain rfl := Except.ok.inj hr
    exact ⟨rfl, client, hclient, hname, rfl⟩
  · obtain ⟨_, _, _, _, hr⟩ := h
    cases hr

theorem wp_getQueueByClientId {id : Int32} (hqueue : (queuesOf w.db id).length = 1) :
    wp (dbSem Reliable) anyOp (QueueDao.getQueueByClientId id.toInt64)
      (fun r w' => w' = w ∧ ∃ queue, r = .ok (some queue)) w := by
  have hrow : wp (dbSem Reliable) anyOp (execute (.queueByClientId id.toInt64))
      (fun r w' => w' = w ∧ ∃ row, r = .ok (some row)) w := by
    refine ⟨trivial, fun a w' hcall => ?_⟩
    obtain ⟨row, rfl, db', ⟨hrow, rfl⟩, rfl⟩ := Reliable.acts hcall (by
      rintro stmt ⟨⟩ hfails
      exact hfails _ _ ⟨fetches_find _ _, rfl⟩)
    refine ⟨rfl, ?_⟩
    cases row with
    | none =>
      obtain ⟨queue, hmem⟩ := List.length_eq_one_iff.mp hqueue
      have hof : queue ∈ queuesOf w.db id := by
        rw [hmem]
        exact List.mem_singleton_self queue
      obtain ⟨hq, howner⟩ := List.mem_filter.mp hof
      rw [decide_eq_true_eq] at howner
      exact absurd (congrArg (Option.map Int32.toInt64) howner) (hrow queue hq)
    | some row => exact ⟨row, rfl⟩
  refine wp_timed smooth_reliable (fun _ => trivial) (wp_bind hrow (fun row w' h => ?_)
    fun e w' h => ?_)
  · obtain ⟨rfl, row, hr⟩ := h
    obtain rfl := Except.ok.inj hr
    exact ⟨rfl, _, rfl⟩
  · obtain ⟨_, _, hr⟩ := h
    cases hr

/-- A known client is welcome back. -/
theorem wp_known (hsend : Sendable (some name))
    (hknown : ∃ client ∈ w.db.clients, client.name = some name) (heach : OneQueueEach w.db) :
    wp (dbSem Reliable) anyOp (clientAndQueue (some name))
      (fun r _ => ∃ client ∈ w.db.clients, client.name = some name ∧
        ∃ queue, r = .ok (client.id, queue)) w := by
  refine wp_bind (wp_getClientId hsend hknown) (fun clientId w' h => ?_) fun e w' h => ?_
  · obtain ⟨rfl, client, hclient, hname, hr⟩ := h
    obtain rfl := Except.ok.inj hr
    refine wp_bind (wp_getQueueByClientId (heach client hclient)) (fun queue w' h => ?_)
      fun e w' h => ?_
    · obtain ⟨-, queue, hr⟩ := h
      obtain rfl := Except.ok.inj hr
      exact wp_bind (wp_silent smooth_reliable trivial trivial)
        (fun _ _ _ => ⟨client, hclient, hname, _, rfl⟩) fun _ _ h => nomatch h.1.choose_spec
    · obtain ⟨_, _, hr⟩ := h
      cases hr
  · obtain ⟨_, _, _, _, hr⟩ := h
    cases hr

theorem wp_plainCall {op : Op} (hop : ∀ stmt, op ≠ .execute stmt) :
    wp (dbSem Reliable) anyOp (invoke op) (fun r _ => ∃ a, r = .ok a) w := by
  refine ⟨trivial, fun a w' hcall => ?_⟩
  obtain ⟨r, rfl, -⟩ := Reliable.acts hcall fun stmt hstmt => absurd hstmt (hop stmt)
  exact ⟨r, rfl⟩

/-- The response to a known client. -/
def KnownAs (db : Database) (name : String) (r : Except JavaException (Response JavaException)) :
    Prop :=
  ∃ client ∈ db.clients, client.name = some name ∧ r = .ok (.registration
    { clientDto := some { id := client.id.toInt64, name := some name }, isNewClient := false })

theorem wp_registration_known (hsend : Sendable (some name))
    (hknown : ∃ client ∈ w.db.clients, client.name = some name) (heach : OneQueueEach w.db) :
    wp (dbSem Reliable) anyOp (registration ⟨some name⟩) (fun r _ => KnownAs w.db name r) w := by
  refine wp_bind (wp_known hsend hknown heach) (fun found w' h => ?_) fun e w' h => ?_
  · obtain ⟨client, hclient, hname, queue, hr⟩ := h
    obtain rfl := Except.ok.inj hr
    refine wp_bind (wp_plainCall nofun) (fun _ w' _ => ?_) fun _ _ h => nomatch h.choose_spec
    exact wp_bind (wp_plainCall nofun) (fun _ w' _ => ⟨client, hclient, hname, rfl⟩)
      fun _ _ h => nomatch h.choose_spec
  · obtain ⟨_, _, _, _, hr⟩ := h
    cases hr

end Known

/-- **Where every client has its queue, a known client can register again.** -/
theorem registersAgain {db : Database} (hvalid : db.Valid) (heach : OneQueueEach db) :
    RegistersAgain db := by
  intro name hknown context r w hrun
  have hsend : Sendable (some name) := by
    obtain ⟨client, hclient, hname⟩ := hknown
    rw [← hname]
    exact hvalid.sendable client hclient
  have hhandler : ∀ w : World, w.db = db →
      wp (dbSem Reliable) anyOp (handler (.registration ⟨some name⟩))
        (fun r _ => KnownAs db name r) w := by
    rintro w rfl
    refine wp_withConnection smooth_reliable (fun _ _ _ => trivial)
      (wp_mono (fun r w' h => ?_) (wp_registration_known hsend hknown heach))
    refine ⟨?_, h⟩
    obtain ⟨-, -, -, rfl⟩ := h
    exact nofun
  have hwp : wp (dbSem Reliable) anyOp (process (.registration ⟨some name⟩))
      (fun r _ => KnownAs db name r) ⟨db, none, context⟩ := by
    have hget : wp (dbSem Reliable) anyOp (invoke .getClientQueue)
        (fun r w => (∃ a, r = .ok a) ∧ w.db = db) ⟨db, none, context⟩ := by
      refine ⟨trivial, fun a w' hcall => ?_⟩
      obtain ⟨queue, rfl, -, rfl⟩ := Reliable.acts hcall nofun
      exact ⟨⟨queue, rfl⟩, rfl⟩
    refine wp_bind hget (fun clientQueue w h => ?_) fun _ _ h => nomatch h.1.choose_spec
    obtain ⟨-, hdb⟩ := h
    rw [show Request.isRegistration (.registration ⟨some name⟩) = true from rfl, Bool.not_true,
      Bool.and_false, if_neg Bool.false_ne_true]
    refine wp_bind (wp_silent smooth_reliable trivial trivial) (fun _ w' h => ?_)
      fun _ _ h => nomatch h.1.choose_spec
    obtain ⟨-, rfl⟩ := h
    exact hhandler w' hdb
  exact hwp.sound hrun

/-! ### Runs -/

variable {η : Type} [DecidableEq η]

theorem good_step {s s' : State η}
    {l : η × Request × Except JavaException (Response JavaException)}
    (hs : s.db.Valid ∧ OneQueueEach s.db) (h : RequestStep KeepsQueues s l s') :
    s'.db.Valid ∧ OneQueueEach s'.db := by
  obtain ⟨w, hrun, rfl⟩ := h
  have hgood : Good (s.world l.1) :=
    ⟨⟨hs.1, fun messages hm => absurd hm (Option.not_mem_none _)⟩, hs.2⟩
  have hw := (wp_process hgood l.2.1).sound hrun
  exact ⟨hw.valid.db, hw.each⟩

/-- **In every run whose steps keep the queues, every client has exactly one queue, and a known
client can register again.** -/
theorem oneQueueEach_of_run
    {ls : List (η × Request × Except JavaException (Response JavaException))} {s : State η}
    (h : Run (RequestStep KeepsQueues) State.init ls s) :
    OneQueueEach s.db ∧ RegistersAgain s.db := by
  have hs : s.db.Valid ∧ OneQueueEach s.db :=
    Run.invariant (P := fun s => s.db.Valid ∧ OneQueueEach s.db) (fun _ _ _ => good_step) h
      ⟨valid_empty, nofun⟩
  exact ⟨hs.2, registersAgain hs.1 hs.2⟩

/-- Operations that keep the queues if nothing fails. -/
def keepsCheck (w : World) (op : Op) : Bool :=
  match op with
  | .execute (.deleteQueue _) => false
  | .execute stmt => Option.isSome (w.db.answer stmt)
  | _ => true

theorem keeps_of_check {w : World} {op : Op} (h : keepsCheck w op = true) :
    KeepsQueues w op .none := by
  refine ⟨?_, fun _ _ => nofun, fun _ => ⟨rfl, ?_⟩⟩
  · rintro id rfl
    cases h
  · rintro stmt rfl hfails
    have hanswer : Option.isSome (w.db.answer stmt) = true := by
      unfold keepsCheck at h
      split at h
      · cases h
      · rename_i heq
        rwa [Op.execute.inj heq]
      · rename_i hne
        exact absurd rfl (hne stmt)
    obtain ⟨r, hr⟩ := Option.isSome_iff_exists.mp hanswer
    exact hfails r.1 r.2 (executes_answer hr)

/-- Requests of one connection that keep the queues. -/
def processAll : List Request → State Unit →
    Option (List (Unit × Request × Except JavaException (Response JavaException)) × State Unit)
  | [], s => some ([], s)
  | request :: requests, s => do
    let (r, w) ← execWhile keepsCheck answer (process request) (s.world ())
    let (ls, s') ← processAll requests ⟨w.db, Function.update s.context () w.context⟩
    some (((), request, r) :: ls, s')

theorem run_processAll {requests : List Request} {s s' : State Unit}
    {ls : List (Unit × Request × Except JavaException (Response JavaException))}
    (h : processAll requests s = some (ls, s')) : Run (RequestStep KeepsQueues) s ls s' := by
  induction requests generalizing s ls with
  | nil =>
    obtain ⟨rfl, rfl⟩ := Prod.mk.inj (Option.some.inj h)
    exact .nil s
  | cons request requests ih =>
    obtain ⟨⟨r, w⟩, hexec, hrest⟩ := Option.bind_eq_some_iff.mp h
    obtain ⟨⟨ls₁, s₁⟩, hall, hsome⟩ := Option.bind_eq_some_iff.mp hrest
    obtain ⟨rfl, rfl⟩ := Prod.mk.inj (Option.some.inj hsome)
    have hruns : Runs (dbSem KeepsQueues) (process request) (s.world ()) r w := runs_execWhile
      (fun w op hop => ⟨.none, keeps_of_check hop, does_answer w op⟩) hexec
    exact .cons ⟨w, hruns, rfl⟩ (ih hall)

/-- Two clients register. -/
theorem oneQueueEach_twoClients : ∃ ls, ∃ s : State Unit,
    Run (RequestStep KeepsQueues) State.init ls s ∧ s.db.clients.length = 2 ∧
      OneQueueEach s.db ∧ RegistersAgain s.db := by
  obtain ⟨⟨ls, s⟩, hall, hlength⟩ := Option.map_eq_some_iff.mp
    (show (processAll [.registration ⟨some "a"⟩, .registration ⟨some "b"⟩] State.init).map
      (fun r => r.2.db.clients.length) = some 2 by decide)
  have hrun := run_processAll hall
  exact ⟨ls, s, hrun, hlength, oneQueueEach_of_run hrun⟩

/-- A client whose queue has been deleted. -/
theorem not_oneQueueEach_afterDelete : ¬ ∀ ls (s : State Unit),
    Run (RequestStep fun _ _ _ => True) State.init ls s →
      OneQueueEach s.db ∧ RegistersAgain s.db := by
  intro hall
  have hstep : ∀ (s : State Unit) request, RequestStep (fun _ _ _ => True) s
      ((), request, (s.process () request).1) (s.process () request).2 := fun s =>
    step_process (fun _ _ => trivial) s ()
  have hrun := (Run.single (hstep State.init (.registration ⟨some "a"⟩))).append
    (.single (hstep _ (.deleteQueue ⟨some ⟨1, none⟩⟩)))
  have heach := (hall _ _ hrun).1 ⟨1, some "a"⟩ (by decide)
  exact absurd heach (by decide)

end Mlmq.Server.PersonalQueue
