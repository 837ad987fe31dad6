import Mlmq.Server.EarlyFaults

/-! # A registration that fails

The insert of the client is committed before the insert of its queue, which fails if any queue has
the name of the client already. Apart from that, and from faults between the two inserts or behind
them, a registration that ends in an exception has changed nothing (`registration_atomic_iff`). -/

namespace Mlmq.Server.Registration

open Mlmq.Dto Mlmq.Db.Table Mlmq.Db.Schema Mlmq.Db.Dao Mlmq.Net.Requests Mlmq.Net.Responses
open Mlmq.Server.RequestProcessor Mlmq.Server.Calls Mlmq.Server.Processing
open Mlmq.Server.EarlyFaults Mlmq.Lib.Programs Mlmq.Lib.Programs.Program

/-! ### The property -/

/-- The clients, the queues and the context are as they were. -/
def Same (db : Database) (context : ClientApplicationContext) (w : World) : Prop :=
  w.db.clients = db.clients ∧ w.db.queues = db.queues ∧ w.context = context

/-- **A registration that does not end in a response has changed nothing**, whatever throws before
the first change. -/
def Atomic (db : Database) (context : ClientApplicationContext) (name : Option String) : Prop :=
  ∀ r w, Runs (earlySem (Same db context)) (process (.registration ⟨name⟩)) ⟨db, none, context⟩
    r w → (∀ response, r ≠ .ok (.registration response)) → Same db context w

/-! ### The condition -/

/-- The client can be inserted, and its queue cannot. -/
def Clashes (db : Database) (name : Option String) : Prop :=
  (∀ row ∈ db.clients, ¬ NameIs name row.name) ∧
    ∃ stored, storedName name = some stored ∧ (∀ row ∈ db.clients, ¬ NameIs stored row.name) ∧
      db.clientSeq < 2 ^ 31 ∧ ((∃ row ∈ db.queues, NameIs stored row.name) ∨ 2 ^ 31 ≤ db.queueSeq)

/-! ### Without a clash -/

section Registration

variable {db : Database} {context : ClientApplicationContext} {name : Option String}

theorem closed_same : Closed (Same db context) := by
  rintro w db' ⟨hclients, hqueues, hcontext⟩ hgap
  exact ⟨hgap.clients.trans hclients, hgap.queues.trans hqueues, hcontext⟩

theorem guarded_same : Guarded (earlySem (Same db context)) (Same db context) :=
  guarded_early closed_same

/-- The world before the first change. -/
def start (db : Database) (context : ClientApplicationContext) : World := ⟨db, none, context⟩

theorem same_start : Same db context (start db context) := ⟨rfl, rfl, rfl⟩

theorem ends_getClientId : wp (earlySem (Same db context)) anyOp (ClientDao.getClientId name)
    (Ends (fun clientId w => w = start db context ∧
      (clientId = none → Sendable name ∧ ∀ row ∈ db.clients, ¬ NameIs name row.name))
      (Same db context)) (start db context) := by
  refine ends_timed guarded_same (ends_bind (ends_execute closed_same same_start nofun
    fun _ r db' he => ?_) ?_)
  · obtain ⟨-, -, rfl⟩ := he
    exact same_start
  · rintro row w ⟨db', ⟨hsend, hrow, rfl⟩, rfl⟩
    refine ⟨rfl, fun hnone => ?_⟩
    obtain rfl := Option.map_eq_none_iff.mp hnone
    exact ⟨hsend, hrow⟩

theorem ends_getQueueByClientId (clientId : Int64) :
    wp (earlySem (Same db context)) anyOp (QueueDao.getQueueByClientId clientId)
      (Ends (fun _ w => w = start db context) (Same db context)) (start db context) := by
  refine ends_timed guarded_same (ends_bind (ends_execute closed_same same_start nofun
    fun _ r db' he => ?_) ?_)
  · obtain ⟨-, rfl⟩ := he
    exact same_start
  · rintro row w ⟨db', ⟨-, rfl⟩, rfl⟩
    rfl

/-- The database behind the insert of the client. -/
def withClient (db : Database) (id : Int32) (stored : Option String) : Database :=
  { db with clients := db.clients ++ [⟨id, stored⟩], clientSeq := db.clientSeq + 1 }

theorem ends_insertNewClient : wp (earlySem (Same db context)) anyOp (ClientDao.insertNewClient name)
    (Ends (fun id w => ∃ stored, w = start (withClient db id stored) context ∧
      db.createClient name = some (id, withClient db id stored) ∧ storedName name = some stored)
      (Same db context)) (start db context) := by
  refine ends_timed guarded_same (ends_mono ?_ (ends_execute closed_same same_start nofun
    fun hinsert => absurd trivial hinsert))
  rintro id w ⟨db', he, rfl⟩
  obtain ⟨stored, hstored, -, -, rfl⟩ := createClient_eq_some.mp he
  exact ⟨stored, rfl, he, hstored⟩

/-- The insert of the queue succeeds. -/
theorem ends_createClientQueue {id : Int32} {stored : Option String}
    (hstored : storedName name = some stored) (hseq : db.queueSeq < 2 ^ 31)
    (hqueues : ∀ row ∈ db.queues, ¬ NameIs stored row.name) :
    wp (earlySem (Same db context)) anyOp (QueueDao.createClientQueue (some id) name)
      (Ends (fun _ _ => True) (Same db context)) (start (withClient db id stored) context) := by
  have hchanged : ¬ Same db context (start (withClient db id stored) context) := by
    rintro ⟨hclients, -, -⟩
    have hlength := congrArg List.length hclients
    simp [start, withClient] at hlength
  have hinsert : ¬ Fails (withClient db id stored) (.createQueue (some id) name) := by
    intro hfails
    refine hfails (Int32.ofNat db.queueSeq) _ (createQueue_eq_some.mpr
      ⟨stored, hstored, if_pos hseq, hqueues, ?_, rfl⟩)
    rintro c ⟨⟩
    exact ⟨⟨id, stored⟩, List.mem_append_right _ List.mem_cons_self, rfl⟩
  exact ends_timed guarded_same (ends_bind (ends_execute_late hchanged hinsert)
    fun _ _ _ => trivial)

theorem ends_clientAndQueue (h : ¬ Clashes db name) :
    wp (earlySem (Same db context)) anyOp (clientAndQueue name)
      (Ends (fun _ _ => True) (Same db context)) (start db context) := by
  refine ends_bind ends_getClientId fun clientId w hw => ?_
  obtain ⟨rfl, hunknown⟩ := hw
  cases clientId with
  | none =>
    obtain ⟨-, hnew⟩ := hunknown rfl
    refine ends_bind ends_insertNewClient fun id w hw => ?_
    obtain ⟨stored, rfl, he, hstored⟩ := hw
    obtain ⟨stored', hstored', hid, hclients, -⟩ := createClient_eq_some.mp he
    obtain rfl : stored = stored' := Option.some.inj (hstored.symm.trans hstored')
    have hclientSeq : db.clientSeq < 2 ^ 31 := lt_of_toId hid
    have hnoClash : ¬ ((∃ row ∈ db.queues, NameIs stored row.name) ∨ 2 ^ 31 ≤ db.queueSeq) :=
      fun hclash => h ⟨hnew, stored, hstored, hclients, hclientSeq, hclash⟩
    obtain ⟨hqueues, hseq⟩ := not_or.mp hnoClash
    refine ends_bind (ends_createClientQueue hstored (not_le.mp hseq) fun row hrow hname =>
      hqueues ⟨row, hrow, hname⟩) fun _ _ _ => trivial
  | some clientId =>
    refine ends_bind (ends_getQueueByClientId _) fun queue w hw => ?_
    obtain rfl := hw
    cases queue with
    | none => exact same_start
    | some queue => exact ends_bind (ends_silent guarded_same trivial) fun _ _ _ => trivial

/-- **Without a clash, an exception leaves everything as it was.** -/
theorem ends_registration (h : ¬ Clashes db name) :
    wp (earlySem (Same db context)) anyOp (process (.registration ⟨name⟩))
      (Ends (fun x _ => ∃ response, x = .registration response) (Same db context))
      (start db context) := by
  refine ends_process closed_same same_start fun _ =>
    ends_withConnection guarded_same (ends_bind (ends_clientAndQueue h) fun found w _ => ?_)
  exact ends_bind (ends_access nofun) fun _ _ _ => ends_bind (ends_access nofun)
    fun _ _ _ => ⟨_, rfl⟩

/-! ### With a clash -/

/-- The client has been inserted. -/
def Changed (db : Database) (w : World) : Prop := w.db.clients ≠ db.clients

theorem wp_getClientId_new (hsend : Sendable name)
    (hnew : ∀ row ∈ db.clients, ¬ NameIs name row.name) :
    wp (dbSem Reliable) anyOp (ClientDao.getClientId name)
      (Ends (fun clientId w => clientId = none ∧ w = start db context) (Changed db))
      (start db context) := by
  have hguarded := smooth_reliable.guarded (Changed db)
  refine ends_timed hguarded (ends_bind (R := fun row w => row = none ∧ w = start db context)
    (wp_execute (fun hfails => hfails _ _ ⟨hsend, fetches_find _ _, rfl⟩) ?_) ?_)
  · rintro row db' ⟨-, hrow, rfl⟩
    cases row with
    | none => exact ⟨rfl, rfl⟩
    | some row => exact absurd hrow.2 (hnew row hrow.1)
  · rintro _ w ⟨rfl, rfl⟩
    exact ⟨rfl, rfl⟩

/-- **With a clash, the client is left behind.** -/
theorem ends_clash (h : Clashes db name) :
    wp (dbSem Reliable) anyOp (process (.registration ⟨name⟩))
      (Ends (fun _ _ => False) (Changed db)) (start db context) := by
  obtain ⟨hnew, stored, hstored, hclients, hclientSeq, hclash⟩ := h
  have hguarded := smooth_reliable.guarded (Changed db)
  have hsend : Sendable name := by
    unfold storedName at hstored
    split_ifs at hstored with hs
    exact hs
  have hcreate : db.createClient name = some (Int32.ofNat db.clientSeq,
      withClient db (Int32.ofNat db.clientSeq) stored) :=
    createClient_eq_some.mpr ⟨stored, hstored, if_pos hclientSeq, hclients, rfl⟩
  have hinsert : wp (dbSem Reliable) anyOp (ClientDao.insertNewClient name)
      (Ends (fun id w => w = start (withClient db id stored) context) (Changed db))
      (start db context) := by
    refine ends_timed hguarded (wp_execute (fun hfails => hfails _ _ hcreate) ?_)
    intro id db' he
    obtain ⟨rfl, rfl⟩ := Prod.mk.inj (Option.some.inj (hcreate.symm.trans he))
    rfl
  have hqueue : ∀ id, wp (dbSem Reliable) anyOp (QueueDao.createClientQueue (some id) name)
      (Ends (fun _ _ => False) (Changed db)) (start (withClient db id stored) context) := by
    intro id
    have hfails : Fails (withClient db id stored) (.createQueue (some id) name) := by
      intro queueId db' he
      obtain ⟨stored', hstored', hid, hqueues, -⟩ := createQueue_eq_some.mp he
      obtain rfl : stored = stored' := Option.some.inj (hstored.symm.trans hstored')
      rcases hclash with ⟨row, hrow, hname⟩ | hseq
      · exact hqueues row hrow hname
      · exact absurd (show toId db.queueSeq = some queueId from hid) (by
          rw [toId, if_neg (not_lt.mpr hseq)]
          exact Option.some_ne_none _ |>.symm)
    refine ends_timed hguarded (wp_bind (wp_fails hfails nofun) (fun _ _ hw => ?_)
      fun e w hw => ?_)
    · exact nomatch hw.1.choose_spec
    · obtain ⟨-, db', hgap, rfl⟩ := hw
      intro hclients
      have hlength := congrArg List.length (hgap.clients.symm.trans hclients)
      simp [start, withClient] at hlength
  have hboth : wp (dbSem Reliable) anyOp (clientAndQueue name)
      (Ends (fun _ _ => False) (Changed db)) (start db context) := by
    refine ends_bind (wp_getClientId_new hsend hnew) fun clientId w hw => ?_
    obtain ⟨rfl, rfl⟩ := hw
    refine ends_bind hinsert fun id w hw => ?_
    obtain rfl := hw
    exact ends_bind (hqueue id) fun _ _ hw => False.elim hw
  exact wp_process (Bool.and_false _) (ends_withConnection hguarded
    (ends_bind hboth fun _ _ hw => False.elim hw))

theorem not_atomic_of_clash (h : Clashes db name) : ¬ Atomic db context name := by
  intro hatomic
  have hrun := runs_reliable (process (.registration ⟨name⟩)) (start db context)
  have hends := (ends_clash h).sound hrun
  generalize (exec answer (process (.registration ⟨name⟩)) (start db context)).1 = r at hrun hends
  cases r with
  | ok x => exact hends
  | error e =>
    have hsame := hatomic _ _ (hrun.mono fun w op a w' => by
      rintro ⟨_, rfl, hd⟩
      exact ⟨.none, early_none w op, hd⟩) nofun
    exact hends hsame.1

end Registration

/-! ### The result -/

/-- **Registration is atomic iff there is no clash.** -/
theorem registration_atomic_iff (db : Database) (context : ClientApplicationContext)
    (name : Option String) : Atomic db context name ↔ ¬ Clashes db name := by
  constructor
  · exact fun hatomic hclash => not_atomic_of_clash hclash hatomic
  · intro hclash r w hrun hr
    have hends := (ends_registration hclash).sound hrun
    cases r with
    | ok x =>
      obtain ⟨response, rfl⟩ := hends
      exact absurd rfl (hr response)
    | error e => exact hends

/-- A public queue with the name of the client. -/
def publicA : Database where
  clients := []
  queues := [⟨1, some "a", none⟩]
  messages := []
  clientSeq := 1
  queueSeq := 2
  messageSeq := 1
  contextSeq := 1

/-- The registration leaves a client without queue. -/
theorem not_atomic_publicA : ¬ ∀ (db : Database) (context : ClientApplicationContext)
    (name : Option String), Atomic db context name := by
  intro hall
  have hclash : Clashes publicA (some "a") :=
    ⟨nofun, some "a", by decide, nofun, by decide, .inl ⟨_, List.mem_cons_self, by decide⟩⟩
  exact not_atomic_of_clash hclash (hall publicA .empty (some "a"))

end Mlmq.Server.Registration
