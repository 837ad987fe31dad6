import Mlmq.Server.Processing

/-! # Get or create

`CreateQueueRequest` and `RegistrationRequest` look a name up, and insert it if it has not been
found. The statements of concurrent requests are interleaved, so a request may insert a name that
another one has inserted since the lookup, which fails, or find a client whose queue is not there
yet. As long as that does not happen (`Undisturbed`), all requests for a name that is new succeed,
with the same queue or client (`getsOrCreates_of_careful`); otherwise not (`not_getsOrCreates`). -/

namespace Mlmq.Server.GetOrCreate

open Mlmq.Dto Mlmq.Db.Table Mlmq.Db.Schema Mlmq.Db.Dao Mlmq.Net.Requests Mlmq.Net.Responses
open Mlmq.Server.RequestProcessor Mlmq.Server.Calls Mlmq.Server.Processing
open Mlmq.Lib.Programs Mlmq.Lib.Programs.Program Mlmq.Lib.Transition

/-! ### Threads -/

section Threads

variable {κ η : Type} [DecidableEq κ] [DecidableEq η]

/-- The database, the contexts, and the request that each thread processes. -/
abbrev Threads (κ η : Type) : Type :=
  Lib.Programs.State κ (Processing.State η) Ans JavaException (Response JavaException)

/-- What happens in a thread. -/
abbrev ThreadEvent : Type := Event Unit Ans JavaException (Response JavaException)

/-- The operations of a thread, on the context of the connection `conn w`. Every statement is
committed at once. -/
def threadSem (ok : World → Op → Fault → Prop) (conn : κ → η) (w : κ) :
    Semantics Ans JavaException (Processing.State η) := fun s op a s' =>
  ∃ world, dbSem ok (s.world (conn w)) op a world ∧
    s' = ⟨world.db, Function.update s.context (conn w) world.context⟩

/-- **Threads process the same request**, as often as they like. -/
abbrev Serves (ok : World → Op → Fault → Prop) (conn : κ → η) (request : Request) :
    Threads κ η → κ × ThreadEvent → Threads κ η → Prop :=
  Step (fun _ : Unit => process request) (threadSem ok conn)

end Threads

/-- A statement of the two requests that no other request has come before: the name is still there
to be taken when it is inserted, and the queue of a known client when it is looked up. The name can
be sent and stored, and the sequence is not at its end. -/
def Undisturbed (db : Database) : Statement → Prop
  | .clientByName name | .queueByName name => Sendable name
  | .createClient name => db.clientSeq < 2 ^ 31 ∧
    ∃ stored ∈ storedName name, ∀ row ∈ db.clients, ¬ NameIs stored row.name
  | .createQueue _ name => db.queueSeq < 2 ^ 31 ∧
    ∃ stored ∈ storedName name, ∀ row ∈ db.queues, ¬ NameIs stored row.name
  | .queueByClientId clientId => ∃ row ∈ db.queues, row.clientId.map Int32.toInt64 = some clientId
  | _ => True

instance (db : Database) : (stmt : Statement) → Decidable (Undisturbed db stmt)
  | .clientByName name | .queueByName name => inferInstanceAs (Decidable (Sendable name))
  | .createClient _ | .createQueue _ _ => inferInstanceAs (Decidable (_ ∧ _))
  | .queueByClientId clientId =>
    inferInstanceAs (Decidable (∃ row ∈ db.queues, row.clientId.map Int32.toInt64 = some clientId))
  | .beginTransaction | .commitTransaction | .deleteQueue _ | .insertMessage _ | .peekMessage _
  | .peekMessageForUpdate _ | .deleteMessage _ | .generateNewConversationContext
  | .publicQueuesContainingMessages _ | .numMsgPerQueue _ => .isTrue trivial

/-- No faults, and undisturbed statements. -/
def Careful (w : World) (op : Op) (fault : Fault) : Prop :=
  fault = .none ∧ ∀ stmt, op = .execute stmt → Undisturbed w.db stmt

/-! ### Rows with the name -/

variable {name : String} {db db' : Database} {w w' : World}

/-- What the column of a name is when it has been inserted. -/
def StoredAs (name : String) (column : Option String) : Prop := storedName (some name) = some column

/-- The client has the id. -/
def ClientIs (name : String) (db : Database) (id : Int32) : Prop :=
  ∃ row ∈ db.clients, StoredAs name row.name ∧ row.id = id

/-- The queue has the id. -/
def QueueIs (name : String) (db : Database) (id : Int32) : Prop :=
  ∃ row ∈ db.queues, StoredAs name row.name ∧ row.id = id

/-- The personal queue of the client has the id. -/
def Personal (name : String) (db : Database) (clientId id : Int32) : Prop :=
  ∃ row ∈ db.queues, StoredAs name row.name ∧ row.clientId = some clientId ∧ row.id = id

theorem Personal.queueIs {clientId id : Int32} (h : Personal name db clientId id) :
    QueueIs name db id := by
  obtain ⟨row, hrow, hname, -, hid⟩ := h
  exact ⟨row, hrow, hname, hid⟩

/-- **The tables while requests for the name are processed**: one client and one queue at most have
it, and the client has no other queue. -/
structure Tables (name : String) (db : Database) : Prop where
  valid : db.Valid
  clientName : ∀ row ∈ db.clients, row.name = some name → StoredAs name row.name
  queueName : ∀ row ∈ db.queues, row.name = some name → StoredAs name row.name
  client : ∀ id id', ClientIs name db id → ClientIs name db id' → id = id'
  queue : ∀ id id', QueueIs name db id → QueueIs name db id' → id = id'
  personal : ∀ row ∈ db.queues, ∀ id, ClientIs name db id → row.clientId = some id →
    StoredAs name row.name

theorem StoredAs.nameIs {column column' : Option String} (h : StoredAs name column)
    (h' : StoredAs name column') : NameIs column column' := by
  obtain rfl : column = column' := Option.some.inj (h.symm.trans h')
  refine ⟨fun hnone => ?_, rfl⟩
  subst hnone
  unfold StoredAs storedName at h
  simp [toVarchar] at h

/-- Nobody has the name. -/
structure Absent (name : String) (db : Database) : Prop where
  valid : db.Valid
  clients : ∀ row ∈ db.clients, row.name ≠ some name ∧ ¬ StoredAs name row.name
  queues : ∀ row ∈ db.queues, row.name ≠ some name ∧ ¬ StoredAs name row.name

theorem Absent.tables (h : Absent name db) : Tables name db where
  valid := h.valid
  clientName row hrow hname := absurd hname (h.clients row hrow).1
  queueName row hrow hname := absurd hname (h.queues row hrow).1
  client := by
    rintro _ _ ⟨row, hrow, hname, -⟩
    exact absurd hname (h.clients row hrow).2
  queue := by
    rintro _ _ ⟨row, hrow, hname, -⟩
    exact absurd hname (h.queues row hrow).2
  personal := by
    rintro _ _ _ ⟨row, hrow, hname, -⟩
    exact absurd hname (h.clients row hrow).2

/-- **The insert of the client.** -/
theorem Tables.createClient {id : Int32} (h : Tables name db)
    (he : db.createClient (some name) = some (id, db')) :
    Tables name db' ∧ ClientIs name db' id := by
  have hexecutes : Executes db (.createClient (some name)) id db' := he
  have hvalid := h.valid.executes hexecutes
  obtain ⟨stored, hstored, hid, hnew, rfl⟩ := createClient_eq_some.mp he
  have hlast : ∀ row ∈ db.clients ++ [⟨id, stored⟩], StoredAs name row.name →
      row = ⟨id, stored⟩ := by
    intro row hrow hname
    rcases List.mem_append.mp hrow with hrow | hrow
    · exact absurd (StoredAs.nameIs hstored hname) (hnew row hrow)
    · exact List.mem_singleton.mp hrow
  have hclient : ∀ c, (∃ row ∈ db.clients ++ [⟨id, stored⟩], StoredAs name row.name ∧ row.id = c) →
      c = id := by
    rintro c ⟨row, hrow, hname, rfl⟩
    rw [hlast row hrow hname]
  refine ⟨⟨hvalid, fun row hrow hname => ?_, h.queueName, fun c c' hc hc' => ?_, h.queue,
    fun row hrow c hc howner => ?_⟩, ⟨id, stored⟩, List.mem_append_right _ List.mem_cons_self,
    hstored, rfl⟩
  · rcases List.mem_append.mp hrow with hrow | hrow
    · exact h.clientName row hrow hname
    · obtain rfl := List.mem_singleton.mp hrow
      exact hstored
  · rw [hclient c hc, hclient c' hc']
  · -- A client with a new id has no queue.
    obtain rfl := hclient c hc
    obtain ⟨client, hmem, hclientId⟩ := h.valid.owners row hrow c howner
    have hlt := h.valid.clientSeq client hmem
    rw [hclientId, toInt_of_toId hid] at hlt
    exact absurd hlt (lt_irrefl _)

/-- **The insert of the queue.** -/
theorem Tables.createQueue {clientId : Option Int32} {id : Int32} (h : Tables name db)
    (he : db.createQueue clientId (some name) = some (id, db')) :
    Tables name db' ∧ ∃ row ∈ db'.queues, StoredAs name row.name ∧ row.clientId = clientId ∧
      row.id = id := by
  have hexecutes : Executes db (.createQueue clientId (some name)) id db' := he
  have hvalid := h.valid.executes hexecutes
  obtain ⟨stored, hstored, hid, hnew, -, rfl⟩ := createQueue_eq_some.mp he
  have hqueue : ∀ q, (∃ row ∈ db.queues ++ [⟨id, stored, clientId⟩], StoredAs name row.name ∧
      row.id = q) → q = id := by
    rintro q ⟨row, hrow, hname, rfl⟩
    rcases List.mem_append.mp hrow with hrow | hrow
    · exact absurd (StoredAs.nameIs hstored hname) (hnew row hrow)
    · rw [List.mem_singleton.mp hrow]
  refine ⟨⟨hvalid, h.clientName, fun row hrow hname => ?_, h.client, fun q q' hq hq' => ?_,
    fun row hrow c hc howner => ?_⟩, ⟨id, stored, clientId⟩,
    List.mem_append_right _ List.mem_cons_self, hstored, rfl, rfl⟩
  · rcases List.mem_append.mp hrow with hrow | hrow
    · exact h.queueName row hrow hname
    · obtain rfl := List.mem_singleton.mp hrow
      exact hstored
  · rw [hqueue q hq, hqueue q' hq']
  · rcases List.mem_append.mp hrow with hrow | hrow
    · exact h.personal row hrow c hc howner
    · obtain rfl := List.mem_singleton.mp hrow
      exact hstored

/-! ### What a request asks for, and what it may rely on -/

/-- The context has the client. -/
def HasClient (name : String) (w : World) : Prop :=
  ∃ id, ClientIs name w.db id ∧ w.context.client = some ⟨id.toInt64, some name⟩

/-- The context has the personal queue of the client. -/
def HasQueue (name : String) (w : World) : Prop :=
  ∃ clientId id, ClientIs name w.db clientId ∧ Personal name w.db clientId id ∧
    w.context.clientQueue = some ⟨id.toInt64, none⟩

/-- **Rows stay**, and a context is changed only to the client of the name and its queue. -/
structure Evolve (name : String) (w w' : World) : Prop where
  clients : w.db.clients ⊆ w'.db.clients
  queues : w.db.queues ⊆ w'.db.queues
  client : w'.context.client = w.context.client ∨ HasClient name w'
  clientQueue : w'.context.clientQueue = w.context.clientQueue ∨ HasQueue name w'

theorem Evolve.refl (w : World) : Evolve name w w :=
  ⟨List.Subset.refl _, List.Subset.refl _, .inl rfl, .inl rfl⟩

theorem ClientIs.mono {id : Int32} (h : ClientIs name db id) (hdb : db.clients ⊆ db'.clients) :
    ClientIs name db' id := by
  obtain ⟨row, hrow, hname, hid⟩ := h
  exact ⟨row, hdb hrow, hname, hid⟩

theorem QueueIs.mono {id : Int32} (h : QueueIs name db id) (hdb : db.queues ⊆ db'.queues) :
    QueueIs name db' id := by
  obtain ⟨row, hrow, hname, hid⟩ := h
  exact ⟨row, hdb hrow, hname, hid⟩

theorem Personal.mono {clientId id : Int32} (h : Personal name db clientId id)
    (hdb : db.queues ⊆ db'.queues) : Personal name db' clientId id := by
  obtain ⟨row, hrow, hname, howner, hid⟩ := h
  exact ⟨row, hdb hrow, hname, howner, hid⟩

theorem HasClient.evolve (h : HasClient name w) (he : Evolve name w w') : HasClient name w' := by
  obtain ⟨id, hid, hcontext⟩ := h
  rcases he.client with heq | hclient
  · exact ⟨id, hid.mono he.clients, heq.trans hcontext⟩
  · exact hclient

theorem HasQueue.evolve (h : HasQueue name w) (he : Evolve name w w') : HasQueue name w' := by
  obtain ⟨clientId, id, hclient, hid, hcontext⟩ := h
  rcases he.clientQueue with heq | hqueue
  · exact ⟨clientId, id, hclient.mono he.clients, hid.mono he.queues, heq.trans hcontext⟩
  · exact hqueue

theorem Evolve.trans {w w₁ w₂ : World} (h : Evolve name w w₁) (h' : Evolve name w₁ w₂) :
    Evolve name w w₂ where
  clients := List.Subset.trans h.clients h'.clients
  queues := List.Subset.trans h.queues h'.queues
  client := by
    rcases h.client with heq | hclient
    · exact h'.client.imp_left fun heq' => heq'.trans heq
    · exact .inr (hclient.evolve h')
  clientQueue := by
    rcases h.clientQueue with heq | hqueue
    · exact h'.clientQueue.imp_left fun heq' => heq'.trans heq
    · exact .inr (hqueue.evolve h')

/-- The statements of the requests. -/
def Asks (name : String) (db : Database) : Statement → Prop
  | .clientByName _ | .queueByName _ | .queueByClientId _ => True
  | .createClient name' => name' = some name
  | .createQueue clientId name' => name' = some name ∧ ∀ id ∈ clientId, ClientIs name db id
  | _ => False

/-- **The operations of the requests**, which set the context to what they have found. -/
def Requests (name : String) (w : World) : Op → Prop
  | .execute stmt => Asks name w.db stmt
  | .setClient client => ∃ id, ClientIs name w.db id ∧ client = ⟨id.toInt64, some name⟩
  | .setClientQueue queue => ∃ clientId id, ClientIs name w.db clientId ∧
    Personal name w.db clientId id ∧ queue = ⟨id.toInt64, none⟩
  | _ => True

theorem Requests.evolve {op : Op} (h : Requests name w op) (he : Evolve name w w') :
    Requests name w' op := by
  cases op with
  | execute stmt =>
    cases stmt with
    | createQueue clientId name' => exact ⟨h.1, fun id hid => (h.2 id hid).mono he.clients⟩
    | _ => exact h
  | setClient client =>
    obtain ⟨id, hid, hclient⟩ := h
    exact ⟨id, hid.mono he.clients, hclient⟩
  | setClientQueue queue =>
    obtain ⟨clientId, id, hclient, hid, hqueue⟩ := h
    exact ⟨clientId, id, hclient.mono he.clients, hid.mono he.queues, hqueue⟩
  | _ => trivial

/-- **Undisturbed statements do not fail.** -/
theorem not_fails {stmt : Statement} (hasks : Asks name db stmt) (h : Undisturbed db stmt) :
    ¬ Fails db stmt := by
  intro hfails
  cases stmt with
  | clientByName _ | queueByName _ => exact hfails _ _ ⟨h, fetches_find _ _, rfl⟩
  | queueByClientId clientId => exact hfails _ _ ⟨fetches_find _ _, rfl⟩
  | createClient name =>
    obtain ⟨hseq, stored, hstored, hnew⟩ := h
    exact hfails _ _ (createClient_eq_some.mpr ⟨stored, hstored, if_pos hseq, hnew, rfl⟩)
  | createQueue clientId name =>
    obtain ⟨hseq, stored, hstored, hnew⟩ := h
    refine hfails _ _ (createQueue_eq_some.mpr ⟨stored, hstored, if_pos hseq, hnew, ?_, rfl⟩)
    intro id hid
    obtain ⟨row, hrow, -, hrowId⟩ := hasks.2 id hid
    exact ⟨row, hrow, hrowId⟩
  | _ => exact hasks

theorem Careful.acts {op : Op} {a : Except JavaException (Ans op)} (hop : Requests name w op)
    (h : dbSem Careful w op a w') : ∃ r, a = .ok r ∧ Acts w op r w' := by
  obtain ⟨_, ⟨rfl, hok⟩, hd⟩ := h
  refine hd.acts ?_
  rintro stmt rfl
  exact not_fails hop (hok stmt rfl)

/-- **What the operations of a request guarantee.** -/
theorem Tables.acts {op : Op} {r : Ans op} (h : Tables name w.db) (hop : Requests name w op)
    (ha : Acts w op r w') : Tables name w'.db ∧ Evolve name w w' ∧ w'.saved = w.saved := by
  cases op with
  | execute stmt =>
    obtain ⟨db, he, rfl⟩ := ha
    cases stmt with
    | createClient name' =>
      obtain rfl : name' = some name := hop
      have htables := (h.createClient he).1
      obtain ⟨stored, -, -, -, rfl⟩ := createClient_eq_some.mp he
      exact ⟨htables, ⟨List.subset_append_left .., List.Subset.refl _, .inl rfl, .inl rfl⟩, rfl⟩
    | createQueue clientId name' =>
      obtain rfl : name' = some name := hop.1
      have htables := (h.createQueue he).1
      obtain ⟨stored, -, -, -, -, rfl⟩ := createQueue_eq_some.mp he
      exact ⟨htables, ⟨List.Subset.refl _, List.subset_append_left .., .inl rfl, .inl rfl⟩, rfl⟩
    | clientByName _ | queueByName _ =>
      obtain ⟨-, -, rfl⟩ := he
      exact ⟨h, .refl _, rfl⟩
    | queueByClientId _ =>
      obtain ⟨-, rfl⟩ := he
      exact ⟨h, .refl _, rfl⟩
    | _ => exact hop.elim
  | setClient client =>
    obtain rfl := ha
    obtain ⟨id, hid, rfl⟩ := hop
    exact ⟨h, ⟨List.Subset.refl _, List.Subset.refl _, .inr ⟨id, hid, rfl⟩, .inl rfl⟩, rfl⟩
  | setClientQueue queue =>
    obtain rfl := ha
    obtain ⟨clientId, id, hclient, hid, rfl⟩ := hop
    exact ⟨h, ⟨List.Subset.refl _, List.Subset.refl _, .inl rfl,
      .inr ⟨clientId, id, hclient, hid, rfl⟩⟩, rfl⟩
  | getClient | getClientQueue =>
    obtain ⟨-, rfl⟩ := ha
    exact ⟨h, .refl _, rfl⟩
  | _ =>
    obtain rfl := ha
    exact ⟨h, .refl _, rfl⟩

/-! ### One request among others -/

/-- The connection has registered, unless the request does that. -/
structure Ready (name : String) (request : Request) (w : World) : Prop where
  tables : Tables name w.db
  registered : Request.isRegistration request = false → w.context.clientQueue.isSome

theorem Ready.evolve {request : Request} (h : Ready name request w) (htables : Tables name w'.db)
    (he : Evolve name w w') : Ready name request w' := by
  refine ⟨htables, fun hrequest => ?_⟩
  rcases he.clientQueue with heq | hqueue
  · rw [heq]
    exact h.registered hrequest
  · obtain ⟨clientId, id, -, -, hcontext⟩ := hqueue
    rw [hcontext]
    rfl

/-- The operations of a thread, behind those of the others. -/
abbrev relySem (name : String) (request : Request) : Semantics Ans JavaException World :=
  relying (Evolve name) IsSilent fun w op a w' => Ready name request w ∧ dbSem Careful w op a w'

variable {request : Request}

theorem smooth_relySem : Smooth (relySem name request) := by
  intro w op a w' hop h
  rcases h with ⟨-, h⟩ | ⟨hnot, -⟩
  · exact h
  · exact absurd hop hnot

theorem wp_rely {op : Op} {Q : Except JavaException (Ans op) → World → Prop} (hop : ¬ IsSilent op)
    (hask : Requests name w op) (hQ : ∀ w₁ r w', Evolve name w w₁ → Ready name request w₁ →
      (∀ stmt, op = .execute stmt → Undisturbed w₁.db stmt) → Acts w₁ op r w' → Q (.ok r) w') :
    wp (relySem name request) (Requests name) (invoke op) Q w := by
  refine ⟨hask, fun a w' hcall => ?_⟩
  rcases hcall with ⟨hsilent, -⟩ | ⟨-, w₁, he, hready, hcall⟩
  · exact absurd hsilent hop
  · obtain ⟨r, rfl, ha⟩ := Careful.acts (hask.evolve he) hcall
    obtain ⟨_, ⟨-, hok⟩, -⟩ := hcall
    exact hQ w₁ r w' he hready hok ha

theorem wp_request {α : Type} {p : Java α} {Q : Except JavaException α → World → Prop}
    (h : wp (relySem name request) (Requests name) p Q w) :
    wp (relySem name request) (Requests name) (timed p) Q w :=
  wp_timed smooth_relySem (fun _ => trivial) h

theorem wp_getQueueByName :
    wp (relySem name request) (Requests name) (QueueDao.getQueueByName (some name))
      (fun r w' => ∃ queue, r = .ok queue ∧ ∀ dto ∈ queue, ∃ id, QueueIs name w'.db id ∧
        dto.id = id.toInt64) w := by
  refine wp_request (wp_bind (Q := fun r w' => ∃ row, r = .ok row ∧ ∀ queue ∈ row,
    QueueIs name w'.db queue.id) (wp_rely id trivial ?_) (fun row w' h => ?_)
    fun _ _ h => nomatch h.choose_spec.1)
  · rintro w₁ row w' he hready - ⟨db, ⟨-, hrow, rfl⟩, rfl⟩
    refine ⟨row, rfl, fun queue hqueue => ?_⟩
    obtain rfl := hqueue
    exact ⟨queue, hrow.1, hready.tables.queueName queue hrow.1 hrow.2.2, rfl⟩
  · obtain ⟨_, heq, hrow⟩ := h
    obtain rfl := Except.ok.inj heq
    refine ⟨_, rfl, fun dto hdto => ?_⟩
    obtain ⟨queue, hqueue, rfl⟩ := Option.map_eq_some_iff.mp hdto
    exact ⟨queue.id, hrow queue hqueue, rfl⟩

/-- **The queue is inserted.** -/
theorem wp_createClientQueue {clientId : Option Int32}
    (hclient : ∀ id ∈ clientId, ClientIs name w.db id) :
    wp (relySem name request) (Requests name) (QueueDao.createClientQueue clientId (some name))
      (fun r w' => Evolve name w w' ∧ ∃ id, r = .ok ⟨id.toInt64, none⟩ ∧ ∃ row ∈ w'.db.queues,
        StoredAs name row.name ∧ row.clientId = clientId ∧ row.id = id) w := by
  refine wp_request (wp_bind (Q := fun r w' => Evolve name w w' ∧ ∃ id, r = .ok id ∧
    ∃ row ∈ w'.db.queues, StoredAs name row.name ∧ row.clientId = clientId ∧ row.id = id)
    (wp_rely id ⟨rfl, hclient⟩ ?_) (fun id w' h => ?_) fun _ _ h => nomatch h.2.choose_spec.1)
  · intro w₁ id w' he hready hok ha
    have hask : Requests name w (.execute (.createQueue clientId (some name))) := ⟨rfl, hclient⟩
    obtain ⟨-, hevolve, -⟩ := hready.tables.acts (hask.evolve he) ha
    obtain ⟨db, hcreate, rfl⟩ := ha
    exact ⟨he.trans hevolve, id, rfl, (hready.tables.createQueue hcreate).2⟩
  · obtain ⟨he, _, heq, hrow⟩ := h
    obtain rfl := Except.ok.inj heq
    exact ⟨he, id, rfl, hrow⟩

/-- A queue with the name. -/
def QueueFound (name : String) (r : Except JavaException (Response JavaException)) (w : World) :
    Prop :=
  ∃ dto id, r = .ok (.queue { queue := some dto }) ∧ QueueIs name w.db id ∧ dto.id = id.toInt64

theorem wp_createQueue : wp (relySem name request) (Requests name) (createQueue ⟨some name⟩)
    (QueueFound name) w := by
  refine wp_bind wp_getQueueByName (fun queue w h => ?_) fun _ _ h => nomatch h.choose_spec.1
  obtain ⟨_, heq, hfound⟩ := h
  obtain rfl := Except.ok.inj heq
  cases queue with
  | some dto =>
    obtain ⟨id, hid, hdto⟩ := hfound dto rfl
    exact ⟨dto, id, rfl, hid, hdto⟩
  | none =>
    refine wp_bind (wp_createClientQueue nofun) (fun queue w h => ?_)
      fun _ _ h => nomatch h.2.choose_spec.1
    obtain ⟨-, id, heq, row, hrow, hname, -, hid⟩ := h
    obtain rfl := Except.ok.inj heq
    exact ⟨_, id, rfl, ⟨row, hrow, hname, hid⟩, rfl⟩

theorem wp_getClientId :
    wp (relySem name request) (Requests name) (ClientDao.getClientId (some name))
      (fun r w' => ∃ clientId, r = .ok clientId ∧ ∀ id ∈ clientId, ClientIs name w'.db id) w := by
  refine wp_request (wp_bind (Q := fun r w' => ∃ row, r = .ok row ∧ ∀ client ∈ row,
    ClientIs name w'.db client.id) (wp_rely id trivial ?_) (fun row w' h => ?_)
    fun _ _ h => nomatch h.choose_spec.1)
  · rintro w₁ row w' he hready - ⟨db, ⟨-, hrow, rfl⟩, rfl⟩
    refine ⟨row, rfl, fun client hclient => ?_⟩
    obtain rfl := hclient
    exact ⟨client, hrow.1, hready.tables.clientName client hrow.1 hrow.2.2, rfl⟩
  · obtain ⟨_, heq, hrow⟩ := h
    obtain rfl := Except.ok.inj heq
    refine ⟨_, rfl, fun id hid => ?_⟩
    obtain ⟨client, hclient, rfl⟩ := Option.map_eq_some_iff.mp hid
    exact hrow client hclient

/-- **The client is inserted.** -/
theorem wp_insertNewClient :
    wp (relySem name request) (Requests name) (ClientDao.insertNewClient (some name))
      (fun r w' => ∃ id, r = .ok id ∧ ClientIs name w'.db id) w := by
  refine wp_request (wp_rely id rfl ?_)
  rintro w₁ id w' he hready - ⟨db, hcreate, rfl⟩
  exact ⟨id, rfl, (hready.tables.createClient hcreate).2⟩

/-- The queue of a client that has been found. -/
theorem wp_getQueueByClientId {clientId : Int32} (hclient : ClientIs name w.db clientId) :
    wp (relySem name request) (Requests name) (QueueDao.getQueueByClientId clientId.toInt64)
      (fun r w' => ClientIs name w'.db clientId ∧ ∃ dto id, r = .ok (some dto) ∧
        Personal name w'.db clientId id ∧ dto.id = id.toInt64) w := by
  refine wp_request (wp_bind (Q := fun r w' => ClientIs name w'.db clientId ∧ ∃ row,
    r = .ok (some row) ∧ Personal name w'.db clientId row.id) (wp_rely id trivial ?_)
    (fun row w' h => ?_) fun _ _ h => nomatch h.2.choose_spec.1)
  · rintro w₁ row w' he hready hok ⟨db, ⟨hrow, rfl⟩, rfl⟩
    have hclient := hclient.mono he.clients
    refine ⟨hclient, ?_⟩
    cases row with
    | none =>
      obtain ⟨queue, hqueue, howner⟩ := hok _ rfl
      exact absurd howner (hrow queue hqueue)
    | some queue =>
      obtain ⟨c, howner, hc⟩ := Option.map_eq_some_iff.mp hrow.2
      obtain rfl := toInt64_inj.mp hc
      have hname := hready.tables.personal queue hrow.1 c hclient howner
      exact ⟨queue, rfl, queue, hrow.1, hname, howner, rfl⟩
  · obtain ⟨hclient, queue, heq, hid⟩ := h
    obtain rfl := Except.ok.inj heq
    exact ⟨hclient, _, queue.id, rfl, hid, rfl⟩

/-- The client and its queue. -/
theorem wp_clientAndQueue : wp (relySem name request) (Requests name) (clientAndQueue (some name))
    (fun r w' => ∃ clientId id, r = .ok (clientId, ⟨id.toInt64, none⟩) ∧
      ClientIs name w'.db clientId ∧ Personal name w'.db clientId id) w := by
  refine wp_bind wp_getClientId (fun clientId w h => ?_) fun _ _ h => nomatch h.choose_spec.1
  obtain ⟨_, heq, hfound⟩ := h
  obtain rfl := Except.ok.inj heq
  cases clientId with
  | none =>
    refine wp_bind wp_insertNewClient (fun clientId w h => ?_) fun _ _ h => nomatch h.choose_spec.1
    obtain ⟨_, heq, hclient⟩ := h
    obtain rfl := Except.ok.inj heq
    refine wp_bind (wp_createClientQueue ?_) (fun queue w h => ?_)
      fun _ _ h => nomatch h.2.choose_spec.1
    · rintro _ ⟨⟩
      exact hclient
    · obtain ⟨he, id, heq, row, hrow, hname, howner, hid⟩ := h
      obtain rfl := Except.ok.inj heq
      exact ⟨clientId, id, rfl, hclient.mono he.clients, row, hrow, hname, howner, hid⟩
  | some clientId =>
    refine wp_bind (wp_getQueueByClientId (hfound clientId rfl)) (fun queue w h => ?_)
      fun _ _ h => nomatch h.2.choose_spec.choose_spec.1
    obtain ⟨hclient, dto, id, heq, hid, hdto⟩ := h
    obtain rfl := Except.ok.inj heq
    refine wp_bind (wp_silent smooth_relySem trivial trivial) (fun _ w' h => ?_)
      fun _ _ h => nomatch h.1.choose_spec
    obtain ⟨-, rfl⟩ := h
    exact ⟨clientId, id, by rw [hdto], hclient, hid⟩

/-- The client with the name, which is registered with its queue. -/
def Registered (name : String) (r : Except JavaException (Response JavaException)) (w : World) :
    Prop :=
  (∃ id, ClientIs name w.db id ∧ r = .ok (.registration
    { clientDto := some ⟨id.toInt64, some name⟩, isNewClient := false })) ∧
  HasClient name w ∧ HasQueue name w

theorem wp_registration : wp (relySem name request) (Requests name) (registration ⟨some name⟩)
    (Registered name) w := by
  refine wp_bind wp_clientAndQueue (fun found w h => ?_)
    fun _ _ h => nomatch h.choose_spec.choose_spec.1
  obtain ⟨clientId, id, heq, hclient, hid⟩ := h
  obtain rfl := Except.ok.inj heq
  refine wp_bind (Q := fun r w' => ClientIs name w'.db clientId ∧ Personal name w'.db clientId id ∧
    HasClient name w' ∧ ∃ u, r = .ok u) (wp_rely not_false ⟨clientId, hclient, rfl⟩ ?_)
    (fun _ w h => ?_) fun _ _ h => nomatch h.2.2.2.choose_spec
  · rintro w₁ u w' he - - rfl
    have hclient := hclient.mono he.clients
    exact ⟨hclient, hid.mono he.queues, ⟨clientId, hclient, rfl⟩, u, rfl⟩
  · obtain ⟨hclient, hid, hhas, -⟩ := h
    refine wp_bind (Q := fun r w' => ClientIs name w'.db clientId ∧ HasClient name w' ∧
      HasQueue name w' ∧ ∃ u, r = .ok u)
      (wp_rely not_false ⟨clientId, id, hclient, hid, rfl⟩ ?_) (fun _ w h => ?_)
      fun _ _ h => nomatch h.2.2.2.choose_spec
    · rintro w₁ u w' he - - rfl
      have hclient := hclient.mono he.clients
      have hhas : HasClient name w₁ := hhas.evolve he
      exact ⟨hclient, hhas, ⟨clientId, id, hclient, hid.mono he.queues, rfl⟩, u, rfl⟩
    · exact ⟨⟨clientId, h.1, rfl⟩, h.2.1, h.2.2.1⟩

/-! ### The requests -/

/-- A registered connection, or a registration, gets to the handler. -/
theorem wp_process {failed : String → JavaException} {body : Java (Response JavaException)}
    {Q : Except JavaException (Response JavaException) → World → Prop}
    (hhandler : handler request = withConnection failed body)
    (hbody : ∀ w, wp (relySem name request) (Requests name) body Q w)
    (hQ : ∀ r w, Q r w → ∃ x, r = .ok x) :
    wp (relySem name request) (Requests name) (process request) Q w := by
  refine wp_bind (Q := fun r w => ∃ clientQueue, r = .ok clientQueue ∧
    (clientQueue.isNone && !Request.isRegistration request) = false) (wp_rely id trivial ?_)
    (fun clientQueue w h => ?_) fun _ _ h => nomatch h.choose_spec.1
  · rintro w₁ clientQueue w' he hready - ⟨rfl, rfl⟩
    refine ⟨_, rfl, ?_⟩
    cases hrequest : Request.isRegistration request with
    | true => exact Bool.and_false _
    | false =>
      obtain ⟨queue, hqueue⟩ := Option.isSome_iff_exists.mp (hready.registered hrequest)
      rw [hqueue]
      rfl
  · obtain ⟨_, heq, hgoes⟩ := h
    obtain rfl := Except.ok.inj heq
    rw [if_neg (Bool.eq_false_iff.mp hgoes)]
    refine wp_bind (wp_silent smooth_relySem trivial trivial) (fun _ w h => ?_)
      fun _ _ h => nomatch h.1.choose_spec
    rw [hhandler]
    refine wp_withConnection smooth_relySem (fun _ op hop => ?_)
      (wp_mono (fun r w h => ?_) (hbody w))
    · cases op <;> trivial
    · obtain ⟨x, rfl⟩ := hQ r w h
      exact ⟨nofun, h⟩

/-- **The requests for a name, and what they end with.** -/
inductive Gets (name : String) :
    Request → (Except JavaException (Response JavaException) → World → Prop) → Prop
  | createQueue : Gets name (.createQueue ⟨some name⟩) (QueueFound name)
  | registration : Gets name (.registration ⟨some name⟩) (Registered name)

theorem Gets.wp {Q : Except JavaException (Response JavaException) → World → Prop}
    (h : Gets name request Q) :
    wp (relySem name request) (Requests name) (process request) Q w := by
  cases h with
  | createQueue =>
    exact wp_process rfl (fun w => wp_createQueue) fun r w h => ⟨_, h.choose_spec.choose_spec.1⟩
  | registration =>
    exact wp_process rfl (fun w => wp_registration) fun r w h => ⟨_, h.1.choose_spec.2⟩

theorem Gets.evolve {Q : Except JavaException (Response JavaException) → World → Prop}
    (h : Gets name request Q) {r : Except JavaException (Response JavaException)}
    (hr : Q r w) (he : Evolve name w w') : Q r w' := by
  cases h with
  | createQueue =>
    obtain ⟨dto, id, heq, hid, hdto⟩ := hr
    exact ⟨dto, id, heq, hid.mono he.queues, hdto⟩
  | registration =>
    obtain ⟨⟨id, hid, heq⟩, hclient, hqueue⟩ := hr
    exact ⟨⟨id, hid.mono he.clients, heq⟩, hclient.evolve he, hqueue.evolve he⟩

/-! ### All requests together -/

section Runs

variable {κ η : Type} [DecidableEq κ] [DecidableEq η] {conn : κ → η}
  {Q : Except JavaException (Response JavaException) → World → Prop} {s s' : Threads κ η}

omit [DecidableEq κ] in
/-- **What a call of a thread guarantees to all connections.** -/
theorem threadSem_guarantees {w : κ} {op : Op} {a : Except JavaException (Ans op)}
    {s s' : Processing.State η} (htables : Tables name s.db)
    (hop : Requests name (s.world (conn w)) op) (hcall : threadSem Careful conn w s op a s') :
    dbSem Careful (s.world (conn w)) op a (s'.world (conn w)) ∧ Tables name s'.db ∧
      ∀ h, Evolve name (s.world h) (s'.world h) := by
  obtain ⟨⟨db, saved, context⟩, hcall, rfl⟩ := hcall
  obtain ⟨r, rfl, ha⟩ := Careful.acts hop hcall
  obtain ⟨htables', he, hsaved⟩ := htables.acts hop ha
  obtain rfl : saved = none := hsaved
  have hworld : Processing.State.world ⟨db, Function.update s.context (conn w) context⟩ (conn w) =
      ⟨db, none, context⟩ := congrArg (World.mk db none) (Function.update_self ..)
  refine ⟨by rwa [hworld], htables', fun h => ?_⟩
  rcases eq_or_ne h (conn w) with rfl | hne
  · rw [hworld]
    exact he
  · have hcontext : Function.update s.context (conn w) context h = s.context h :=
      Function.update_of_ne hne ..
    exact ⟨he.clients, he.queues, .inl (congrArg _ hcontext), .inl (congrArg _ hcontext)⟩

/-- **The invariant.** -/
structure Invariant (name : String) (request : Request) (conn : κ → η)
    (Q : Except JavaException (Response JavaException) → World → Prop) (s : Threads κ η) :
    Prop where
  tables : Tables name s.world.db
  ready : ∀ w, Ready name request (s.world.world (conn w))
  safe : Safe (fun s w => Processing.State.world s (conn w)) (relySem name request) (Requests name)
    Q (fun _ => True) s

theorem Invariant.evolve {l : κ × ThreadEvent} (h : Invariant name request conn Q s)
    (hstep : Serves Careful conn request s l s') :
    Tables name s'.world.db ∧ ∀ h, Evolve name (s.world.world h) (s'.world.world h) := by
  cases hstep with
  | start i hw => exact ⟨h.tables, fun h => .refl _⟩
  | finish hw => exact ⟨h.tables, fun h => .refl _⟩
  | call hw hcall =>
    have hop := h.safe.pre_call (.call hw hcall : Serves Careful conn request s _ _)
    exact (threadSem_guarantees h.tables hop hcall).2

theorem Invariant.step {l : κ × ThreadEvent} (hgets : Gets name request Q)
    (h : Invariant name request conn Q s) (hstep : Serves Careful conn request s l s') :
    Invariant name request conn Q s' := by
  obtain ⟨htables, hevolve⟩ := h.evolve hstep
  refine ⟨htables, fun w => (h.ready w).evolve htables (hevolve _), ?_⟩
  refine Safe.step_relying (fun s => Tables name s.db ∧ ∀ w, Ready name request (s.world (conn w)))
    (Evolve name) .refl (fun _ _ _ h h' => h.trans h') ?_ ?_ ?_ (fun _ _ _ he hop => hop.evolve he)
    (fun _ _ _ he hr => hgets.evolve hr he) (fun _ _ _ _ => trivial) (fun _ _ _ => hgets.wp)
    (fun _ _ _ => trivial) ⟨h.tables, h.ready⟩ h.safe hstep
  · rintro w s op a s' hop ⟨world, ⟨_, ⟨rfl, -⟩, hd⟩, rfl⟩
    obtain ⟨ha, rfl⟩ := smooth_reliable _ op a world hop ⟨_, rfl, hd⟩
    exact ⟨ha, congrArg (World.mk s.db none) (Function.update_self ..)⟩
  · rintro w s op a s' ⟨htables, hready⟩ hop hcall
    exact ⟨hready w, (threadSem_guarantees htables hop hcall).1⟩
  · rintro w w' s op a s' ⟨htables, -⟩ hop hcall
    exact (threadSem_guarantees htables hop hcall).2.2 _

/-- No thread has started, and nobody has the name. The connections have registered, if the request
does not do that. -/
structure Start (name : String) (request : Request) (conn : κ → η) (s : Threads κ η) : Prop where
  absent : Absent name s.world.db
  idle : ∀ w, s.thread w = none
  registered : Request.isRegistration request = false →
    ∀ w, (s.world.context (conn w)).clientQueue.isSome

/-- All requests that are over have succeeded, with the same queue. -/
def SameQueue (ls : List (κ × ThreadEvent)) : Prop :=
  ∃ id : Int64, ∀ w r, (w, .finish r) ∈ ls →
    ∃ dto, r = .ok (.queue { queue := some dto }) ∧ dto.id = id

/-- All requests that are over have succeeded, with the same client, and its personal queue is set
in their contexts. -/
def SameClient (name : String) (conn : κ → η) (ls : List (κ × ThreadEvent)) (s : Threads κ η) :
    Prop :=
  ∃ clientId queueId : Int32, ∀ w r, (w, .finish r) ∈ ls →
    r = .ok (.registration
      { clientDto := some ⟨clientId.toInt64, some name⟩, isNewClient := false }) ∧
    s.world.context (conn w) =
      ⟨some ⟨clientId.toInt64, some name⟩, some ⟨queueId.toInt64, none⟩⟩ ∧
    ∃ row ∈ s.world.db.queues, row.clientId = some clientId ∧ row.id = queueId

omit [DecidableEq κ] [DecidableEq η] in
theorem Start.invariant (h : Start name request conn s) : Invariant name request conn Q s where
  tables := h.absent.tables
  ready w := ⟨h.absent.tables, fun hrequest => h.registered hrequest w⟩
  safe w := by
    rw [h.idle w]
    trivial

/-- **What the requests end with holds at the end of the run.** -/
theorem Gets.run {ls : List (κ × ThreadEvent)} (hgets : Gets name request Q)
    (hstart : Start name request conn s) (hrun : Run (Serves Careful conn request) s ls s') :
    Tables name s'.world.db ∧
      ∀ w r, (w, .finish r) ∈ ls → Q r (s'.world.world (conn w)) := by
  have hinvariant := hstart.invariant (Q := Q)
  refine ⟨(hrun.invariant (fun _ _ _ h hstep => h.step hgets hstep) hinvariant).tables, ?_⟩
  intro w r hfinish
  have hends := Safe.finished (P := Invariant name request conn Q)
    (fun _ _ _ h hstep => h.step hgets hstep) (fun _ h => h.safe)
    (fun _ _ _ h hstep w => (h.evolve hstep).2 (conn w)) (fun _ _ _ he hr => hgets.evolve hr he)
    hrun hinvariant hfinish
  exact hends

theorem sameQueue {ls : List (κ × ThreadEvent)}
    (hstart : Start name (.createQueue ⟨some name⟩) conn s)
    (hrun : Run (Serves Careful conn (.createQueue ⟨some name⟩)) s ls s') : SameQueue ls := by
  obtain ⟨htables, hends⟩ := Gets.createQueue.run hstart hrun
  by_cases hany : ∃ id, QueueIs name s'.world.db id
  · obtain ⟨id, hid⟩ := hany
    refine ⟨id.toInt64, fun w r hfinish => ?_⟩
    obtain ⟨dto, id', hr, hid', hdto⟩ := hends w r hfinish
    obtain rfl := htables.queue _ _ hid hid'
    exact ⟨dto, hr, hdto⟩
  · refine ⟨0, fun w r hfinish => ?_⟩
    obtain ⟨dto, id', -, hid', -⟩ := hends w r hfinish
    exact absurd ⟨id', hid'⟩ hany

theorem sameClient {ls : List (κ × ThreadEvent)}
    (hstart : Start name (.registration ⟨some name⟩) conn s)
    (hrun : Run (Serves Careful conn (.registration ⟨some name⟩)) s ls s') :
    SameClient name conn ls s' := by
  obtain ⟨htables, hends⟩ := Gets.registration.run hstart hrun
  by_cases hany : ∃ clientId id, ClientIs name s'.world.db clientId ∧ QueueIs name s'.world.db id
  · obtain ⟨clientId, id, hclient, hid⟩ := hany
    refine ⟨clientId, id, fun w r hfinish => ?_⟩
    obtain ⟨⟨c, hc, hr⟩, ⟨c', hc', hcontext⟩, c'', q, hc'', hq, hqueue⟩ := hends w r hfinish
    obtain rfl := htables.client _ _ hclient hc
    obtain rfl := htables.client _ _ hclient hc'
    obtain rfl := htables.client _ _ hclient hc''
    obtain rfl := htables.queue _ _ hid hq.queueIs
    obtain ⟨row, hrow, -, howner, hrowId⟩ := hq
    exact ⟨hr, congrArg₂ ClientApplicationContext.mk hcontext hqueue, row, hrow, howner, hrowId⟩
  · refine ⟨0, 0, fun w r hfinish => ?_⟩
    obtain ⟨⟨c, hc, -⟩, -, c', q, -, hq, -⟩ := hends w r hfinish
    exact absurd ⟨c, q, hc, hq.queueIs⟩ hany

/-- **What is wanted of concurrent requests for a name.** -/
def GetsOrCreates (ok : World → Op → Fault → Prop) (conn : κ → η) (name : String)
    (s : Threads κ η) (ls : List (κ × ThreadEvent)) (s' : Threads κ η) : Prop :=
  (Start name (.createQueue ⟨some name⟩) conn s →
    Run (Serves ok conn (.createQueue ⟨some name⟩)) s ls s' → SameQueue ls) ∧
  (Start name (.registration ⟨some name⟩) conn s →
    Run (Serves ok conn (.registration ⟨some name⟩)) s ls s' → SameClient name conn ls s')

/-- **Undisturbed, all requests for a name get the same queue, or the same client.** -/
theorem getsOrCreates_of_careful (conn : κ → η) (name : String) (s : Threads κ η)
    (ls : List (κ × ThreadEvent)) (s' : Threads κ η) : GetsOrCreates Careful conn name s ls s' :=
  ⟨sameQueue, sameClient⟩

end Runs

/-! ### Two requests -/

/-- Two connections that are registered, or are not. -/
def twoThreads (context : ClientApplicationContext) : Threads Bool Bool :=
  ⟨⟨.empty, fun _ => context⟩, fun _ => none⟩

/-- The answer of an operation of a thread, without faults. -/
def threadAnswer (w : Bool) (s : Processing.State Bool) (op : Op) :
    Except JavaException (Ans op) × Processing.State Bool :=
  let r := answer (s.world w) op
  (r.1, ⟨r.2.db, Function.update s.context w r.2.context⟩)

/-- The threads take turns, as long as the statements meet a check. -/
def interleave (check : Database → Statement → Bool) (request : Request) (ws : List Bool)
    (s : Threads Bool Bool) : Option (List (Bool × ThreadEvent) × Threads Bool Bool) :=
  s.schedule (fun _ : Unit => process request)
    (fun _ s op => match op with
      | .execute stmt => check s.db stmt
      | _ => true) threadAnswer () ws

theorem run_interleave {ok : World → Op → Fault → Prop} {check : Database → Statement → Bool}
    {request : Request} {ws : List Bool} {s s' : Threads Bool Bool}
    {ls : List (Bool × ThreadEvent)} (hok : ∀ w op, (∀ stmt, op = .execute stmt →
      check w.db stmt = true) → ok w op .none)
    (h : interleave check request ws s = some (ls, s')) : Run (Serves ok id request) s ls s' := by
  refine run_schedule (fun w s op hcheck => ⟨_, ⟨.none, hok _ _ ?_, does_answer _ _⟩, rfl⟩) h
  rintro stmt rfl
  exact hcheck

/-- How the requests end. -/
def results (ls : List (Bool × ThreadEvent)) :
    List (Bool × Except JavaException (Response JavaException)) :=
  ls.filterMap fun l => match l.2 with
    | .finish r => some (l.1, r)
    | _ => none

theorem mem_results {ls : List (Bool × ThreadEvent)} {w : Bool}
    {r : Except JavaException (Response JavaException)} (h : (w, r) ∈ results ls) :
    (w, .finish r) ∈ ls := by
  obtain ⟨⟨w', e⟩, hmem, he⟩ := List.mem_filterMap.mp h
  cases e with
  | finish r' =>
    obtain ⟨rfl, rfl⟩ := Prod.mk.inj (Option.some.inj he)
    exact hmem
  | _ => cases he

/-- The connections of `createQueue` have registered. -/
def someContext : ClientApplicationContext := ⟨some ⟨1, none⟩, some ⟨1, none⟩⟩

theorem start_twoThreads {request : Request} {name : String} {context : ClientApplicationContext}
    (hcontext : Request.isRegistration request = false → context.clientQueue.isSome) :
    Start name request id (twoThreads context) where
  absent := ⟨valid_empty, nofun, nofun⟩
  idle _ := rfl
  registered h _ := hcontext h

theorem exists_failure (request : Request) (ws : List Bool) (context : ClientApplicationContext)
    (h : (interleave (fun _ _ => true) request ws (twoThreads context)).any (fun x =>
      (results x.1).any fun r => !r.2.isOk) = true) :
    ∃ ls s' w e, Run (Serves Reliable id request) (twoThreads context) ls s' ∧
      (w, .finish (.error e)) ∈ ls := by
  obtain ⟨⟨ls, s'⟩, hrun, hany⟩ := (Option.any_eq_true _ _).mp h
  obtain ⟨⟨w, r⟩, hr, hfails⟩ := List.any_eq_true.mp hany
  cases r with
  | ok x => cases hfails
  | error e => exact ⟨ls, s', w, e, run_interleave (fun _ _ _ => rfl) hrun, mem_results hr⟩

/-- **Two requests fail together.** Both look the queue up before one of them inserts it, so the
insert of the other one fails; a client is found whose queue is not there yet. -/
theorem not_getsOrCreates :
    (¬ ∀ name (s : Threads Bool Bool) ls s', Start name (.createQueue ⟨some name⟩) id s →
      Run (Serves Reliable id (.createQueue ⟨some name⟩)) s ls s' → SameQueue ls) ∧
    ¬ ∀ name (s : Threads Bool Bool) ls s', Start name (.registration ⟨some name⟩) id s →
      Run (Serves Reliable id (.registration ⟨some name⟩)) s ls s' → SameClient name id ls s' := by
  constructor
  · intro h
    obtain ⟨ls, s', w, e, hrun, hfails⟩ := exists_failure (.createQueue ⟨some "queue"⟩)
      (.replicate 6 false ++ .replicate 13 true ++ .replicate 26 false) someContext
      (by decide +kernel)
    obtain ⟨id, hsame⟩ := h _ _ ls s' (start_twoThreads fun _ => rfl) hrun
    obtain ⟨dto, heq, -⟩ := hsame w _ hfails
    cases heq
  · intro h
    obtain ⟨ls, s', w, e, hrun, hfails⟩ := exists_failure (.registration ⟨some "client"⟩)
      (.replicate 10 false ++ .replicate 19 true) .empty (by decide +kernel)
    obtain ⟨clientId, id, hsame⟩ := h _ _ ls s' (start_twoThreads nofun) hrun
    cases (hsame w _ hfails).1

/-- A request whose lookup comes after the inserts finds the queue, or the client. -/
theorem getsOrCreates_of_careful_later :
    (∃ ls s', (results ls).length = 2 ∧ Run (Serves Careful id (.createQueue ⟨some "queue"⟩))
      (twoThreads someContext) ls s' ∧ SameQueue ls) ∧
    ∃ ls s', (results ls).length = 2 ∧ Run (Serves Careful id (.registration ⟨some "client"⟩))
      (twoThreads .empty) ls s' ∧ SameClient "client" id ls s' := by
  have hcareful : ∀ w op, (∀ stmt, op = .execute stmt → decide (Undisturbed w.db stmt) = true) →
      Careful w op .none := fun w op h => ⟨rfl, fun stmt hop => of_decide_eq_true (h stmt hop)⟩
  constructor
  · obtain ⟨⟨ls, s'⟩, hrun, hlength⟩ := (Option.any_eq_true _ _).mp (show (interleave
      (fun db stmt => Undisturbed db stmt) (.createQueue ⟨some "queue"⟩)
      (.replicate 3 false ++ .replicate 13 true ++ .replicate 7 false) (twoThreads someContext)).any
        (fun x => (results x.1).length = 2) = true by decide +kernel)
    have hrun := run_interleave hcareful hrun
    exact ⟨ls, s', of_decide_eq_true hlength, hrun,
      (getsOrCreates_of_careful id "queue" _ ls s').1 (start_twoThreads fun _ => rfl) hrun⟩
  · obtain ⟨⟨ls, s'⟩, hrun, hlength⟩ := (Option.any_eq_true _ _).mp (show (interleave
      (fun db stmt => Undisturbed db stmt) (.registration ⟨some "client"⟩)
      (.replicate 3 false ++ .replicate 18 true ++ .replicate 13 false) (twoThreads .empty)).any
        (fun x => (results x.1).length = 2) = true by decide +kernel)
    have hrun := run_interleave hcareful hrun
    exact ⟨ls, s', of_decide_eq_true hlength, hrun,
      (getsOrCreates_of_careful id "client" _ ls s').2 (start_twoThreads nofun) hrun⟩

end Mlmq.Server.GetOrCreate
