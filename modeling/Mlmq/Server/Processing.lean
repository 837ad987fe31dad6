import Mlmq.Server.Calls

/-! # Requests against the database

What the operations of the handlers do to the database and to the `ClientApplicationContext` of the
connection (`World`). An operation may also throw, before or after it has had its effect (`Fault`);
a statement that cannot be executed throws in any case. A transaction whose `COMMIT` throws is over,
committed or rolled back.

`RequestStep` are requests of any number of connections that are processed one after the other. -/

namespace Mlmq.Server.Processing

open Mlmq.Dto Mlmq.Db.Table Mlmq.Db.Schema Mlmq.Db.Dao Mlmq.Net.Requests Mlmq.Net.Responses
open Mlmq.Server.RequestProcessor Mlmq.Server.Calls Mlmq.Lib.Programs Mlmq.Lib.Transition
open Mlmq.Lib.Programs.Program

/-! ### The world of a request -/

/-- The registration of a connection. -/
structure ClientApplicationContext where
  client : Option ClientDto
  clientQueue : Option QueueDto
deriving DecidableEq, Repr

/-- A connection whose client has not registered. -/
def ClientApplicationContext.empty : ClientApplicationContext := ⟨none, none⟩

/-- `saved` are the messages at the start of the transaction, if there is one. -/
structure World where
  db : Database
  saved : Option (List Message)
  context : ClientApplicationContext
deriving DecidableEq, Repr

/-- The world after a statement that has led to `db`. -/
def World.executed (w : World) (stmt : Statement) (db : Database) : World :=
  match stmt with
  | .beginTransaction => { w with db, saved := some db.messages }
  | .commitTransaction => { w with db, saved := none }
  | _ => { w with db }

@[simp] theorem World.db_executed (w : World) (stmt : Statement) (db : Database) :
    (w.executed stmt db).db = db := by
  cases stmt <;> rfl

/-- The world after a transaction that is rolled back. -/
def World.rolledBack (w : World) : World :=
  { w with db := { w.db with messages := w.saved.getD w.db.messages }, saved := none }

theorem World.rolledBack_messages {P : List Message → Prop} {w : World} (h : P w.db.messages)
    (hsaved : ∀ messages, w.saved = some messages → P messages) :
    P w.rolledBack.db.messages := by
  show P (w.saved.getD w.db.messages)
  cases hw : w.saved with
  | none => exact h
  | some messages => exact hsaved messages hw

/-- Values of the sequences may be lost. -/
structure Gap (db db' : Database) : Prop where
  clients : db'.clients = db.clients
  queues : db'.queues = db.queues
  messages : db'.messages = db.messages
  clientSeq : db.clientSeq ≤ db'.clientSeq
  queueSeq : db.queueSeq ≤ db'.queueSeq
  messageSeq : db.messageSeq ≤ db'.messageSeq
  contextSeq : db.contextSeq ≤ db'.contextSeq

theorem Gap.refl (db : Database) : Gap db db := ⟨rfl, rfl, rfl, le_rfl, le_rfl, le_rfl, le_rfl⟩

/-! ### Operations -/

/-- Whether an operation throws although it could be executed, and whether it has had its effect
by then. -/
inductive Fault
  | none
  | before
  | after
deriving DecidableEq, Repr

/-- What an operation may throw. -/
def Throws : Op → JavaException → Prop
  | .take, .interrupted => True
  | .createConnection, .sql _ => True
  | .createConnection, .runtime _ => True
  | .add, .runtime .illegalState => True
  | .closeStatement, .sql _ => True
  | .closeStatement, .runtime _ => True
  | .closeJdbc, .sql _ => True
  | .closeJdbc, .runtime _ => True
  | .warnClosed, .runtime _ => True
  | .logClosing, .runtime _ => True
  | .step, .runtime _ => True
  | .execute _, .sql _ => True
  | _, _ => False

/-- The effect and the answer of an operation that is executed. -/
def Acts (w : World) : (op : Op) → Ans op → World → Prop
  | .getClient, client, w' => client = w.context.client ∧ w' = w
  | .getClientQueue, queue, w' => queue = w.context.clientQueue ∧ w' = w
  | .setClient client, _, w' => w' = { w with context := { w.context with client := some client } }
  | .setClientQueue queue, _, w' =>
    w' = { w with context := { w.context with clientQueue := some queue } }
  | .execute stmt, r, w' => ∃ db, Executes w.db stmt r db ∧ w' = w.executed stmt db
  | _, _, w' => w' = w

/-- The world after an operation that throws without effect. -/
def Undone (w : World) (op : Op) (w' : World) : Prop :=
  if op = .execute .commitTransaction then w' = w.rolledBack
  else ∃ db, Gap w.db db ∧ w' = { w with db }

/-- **What an operation does.** -/
def Does (w : World) (op : Op) : Fault → Except JavaException (Ans op) → World → Prop
  | .none, .ok r, w' => Acts w op r w'
  | .none, .error e, w' =>
    (∃ stmt, op = .execute stmt ∧ Fails w.db stmt) ∧ Throws op e ∧ Undone w op w'
  | .before, .error e, w' => Throws op e ∧ Undone w op w'
  | .after, .error e, w' => Throws op e ∧ ∃ r, Acts w op r w'
  | _, .ok _, _ => False

/-- With or without an exception, an operation has its effect or none. -/
theorem Does.acts_or_undone {w w' : World} {op : Op} {fault : Fault}
    {a : Except JavaException (Ans op)} (h : Does w op fault a w') :
    (∃ r, Acts w op r w') ∨ Undone w op w' := by
  unfold Does at h
  split at h
  · exact Or.inl ⟨_, h⟩
  · exact Or.inr h.2.2
  · exact Or.inr h.2
  · exact Or.inl h.2
  · exact h.elim

/-- Without fault, an operation that can be executed answers. -/
theorem Does.acts {w w' : World} {op : Op} {a : Except JavaException (Ans op)}
    (h : Does w op .none a w') (hop : ∀ stmt, op = .execute stmt → ¬ Fails w.db stmt) :
    ∃ r, a = .ok r ∧ Acts w op r w' := by
  rcases a with e | r
  · obtain ⟨⟨stmt, hstmt, hfails⟩, -⟩ := h
    exact absurd hfails (hop stmt hstmt)
  · exact ⟨r, rfl, h⟩

/-- The semantics with the faults that `ok` admits. -/
def dbSem (ok : World → Op → Fault → Prop) : Semantics Ans JavaException World := fun w op a w' =>
  ∃ fault, ok w op fault ∧ Does w op fault a w'

/-- No faults. -/
def Reliable (_ : World) (_ : Op) (fault : Fault) : Prop := fault = .none

theorem Reliable.acts {w w' : World} {op : Op} {a : Except JavaException (Ans op)}
    (h : dbSem Reliable w op a w') (hop : ∀ stmt, op = .execute stmt → ¬ Fails w.db stmt) :
    ∃ r, a = .ok r ∧ Acts w op r w' := by
  obtain ⟨_, rfl, hd⟩ := h
  exact hd.acts hop

theorem smooth_reliable : Smooth (dbSem Reliable) := by
  intro w op a w' hop h
  obtain ⟨r, rfl, ha⟩ := Reliable.acts h (by rintro stmt rfl; exact hop.elim)
  refine ⟨⟨r, rfl⟩, ?_⟩
  cases op <;> first | exact ha | exact hop.elim

theorem wp_execute {w : World} {stmt : Statement}
    {Q : Except JavaException stmt.Result → World → Prop} (hstmt : ¬ Fails w.db stmt)
    (hQ : ∀ r db, Executes w.db stmt r db → Q (.ok r) (w.executed stmt db)) :
    wp (dbSem Reliable) anyOp (execute stmt) Q w := by
  refine ⟨trivial, fun a w' hcall => ?_⟩
  obtain ⟨r, rfl, db, he, rfl⟩ := Reliable.acts hcall (by
    rintro stmt' heq
    rwa [← Op.execute.inj heq])
  exact hQ r db he

theorem wp_fails {w : World} {stmt : Statement} (hstmt : Fails w.db stmt)
    (hcommit : stmt ≠ .commitTransaction) :
    wp (dbSem Reliable) anyOp (execute stmt)
      (fun r w' => (∃ e, r = .error e) ∧ ∃ db, Gap w.db db ∧ w' = { w with db }) w := by
  refine ⟨trivial, ?_⟩
  rintro (e | r) w' ⟨_, rfl, hd⟩
  · have hundone := hd.2.2
    rw [Undone, if_neg fun h => hcommit (Op.execute.inj h)] at hundone
    exact ⟨⟨e, rfl⟩, hundone⟩
  · obtain ⟨db, he, -⟩ := hd
    exact absurd he (hstmt r db)

/-! ### Requests -/

variable {η : Type} [DecidableEq η]

/-- The database, and the context of every connection. -/
structure State (η : Type) where
  db : Database
  context : η → ClientApplicationContext

/-- The empty schema, and no registered connection. -/
def State.init : State η := ⟨.empty, fun _ => .empty⟩

/-- The world in which a request of the connection `h` starts. -/
def State.world (s : State η) (h : η) : World := ⟨s.db, none, s.context h⟩

/-- **A request is processed**, with the faults that `ok` admits. The label is the connection, the
request and how `process` ends. -/
def RequestStep (ok : World → Op → Fault → Prop) (s : State η)
    (l : η × Request × Except JavaException (Response JavaException)) (s' : State η) : Prop :=
  ∃ w, Runs (dbSem ok) (process l.2.1) (s.world l.1) l.2.2 w ∧
    s' = ⟨w.db, Function.update s.context l.1 w.context⟩

/-- The states after requests with any faults. -/
def Reached (s : State η) : Prop :=
  Reachable (· = State.init) (RequestStep fun _ _ _ => True) s

/-! ### One execution -/

/-- The execution without faults in which `Database.answer` executes the statements. -/
def answer (w : World) : (op : Op) → Except JavaException (Ans op) × World
  | .getClient => (.ok w.context.client, w)
  | .getClientQueue => (.ok w.context.clientQueue, w)
  | .setClient client => (.ok (), { w with context := { w.context with client := some client } })
  | .setClientQueue queue =>
    (.ok (), { w with context := { w.context with clientQueue := some queue } })
  | .isClosed => (.ok false, w)
  | .execute stmt =>
    match w.db.answer stmt with
    | some r => (.ok r.1, w.executed stmt r.2)
    | none => (.error (.sql "the statement fails"), w)
  | .step | .take | .warnClosed | .createConnection | .add | .logClosing | .closeStatement
  | .closeJdbc | .setClosed => (.ok (), w)

theorem does_answer (w : World) (op : Op) :
    Does w op .none (answer w op).1 (answer w op).2 := by
  cases op with
  | getClient | getClientQueue => exact ⟨rfl, rfl⟩
  | execute stmt =>
    unfold answer
    dsimp only
    cases h : w.db.answer stmt with
    | some r => exact ⟨r.2, executes_answer h, rfl⟩
    | none =>
      refine ⟨⟨stmt, rfl, fails_of_answer h⟩, trivial, ?_⟩
      rw [Undone, if_neg]
      · exact ⟨w.db, .refl w.db, rfl⟩
      · rintro ⟨⟩
        cases h
  | _ => rfl

theorem runs_answer {α : Type} {ok : World → Op → Fault → Prop}
    (hok : ∀ w op, ok w op .none) (p : Java α) (w : World) :
    Runs (dbSem ok) p w (exec answer p w).1 (exec answer p w).2 :=
  runs_exec fun w op => ⟨.none, hok w op, does_answer w op⟩

theorem runs_reliable {α : Type} (p : Java α) (w : World) :
    Runs (dbSem Reliable) p w (exec answer p w).1 (exec answer p w).2 := by
  have hok : ∀ w op, Reliable w op .none := fun _ _ => rfl
  exact runs_answer hok p w

/-- A request without faults. -/
def State.process (s : State η) (h : η) (request : Request) :
    Except JavaException (Response JavaException) × State η :=
  let r := exec answer (RequestProcessor.process request) (s.world h)
  (r.1, ⟨r.2.db, Function.update s.context h r.2.context⟩)

theorem step_process {ok : World → Op → Fault → Prop} (hok : ∀ w op, ok w op .none) (s : State η)
    (h : η) (request : Request) :
    RequestStep ok s (h, request, (s.process h request).1) (s.process h request).2 :=
  ⟨_, runs_answer hok _ _, rfl⟩

/-! ### Executions without faults -/

section NoFaults

variable {α : Type} {ok : World → Op → Fault → Prop} {p : Java α} {w w' : World}

theorem runs_invoke (hok : ∀ w op, ok w op .none) {op : Op} {r : Ans op} (h : Acts w op r w') :
    Runs (dbSem ok) (invoke op) w (.ok r) w' :=
  runs_perform.mpr ⟨.none, hok w op, h⟩

theorem runs_timed (hok : ∀ w op, ok w op .none) {r : Except JavaException α}
    (h : Runs (dbSem ok) p w r w') : Runs (dbSem ok) (timed p) w r w' := by
  have hstep : ∀ w, Runs (dbSem ok) (invoke .step) w (.ok ()) w := fun _ => runs_invoke hok rfl
  exact .bind (hstep w) (.andFinally h (hstep w'))

theorem runs_withConnection (hok : ∀ w op, ok w op .none) {failed : String → JavaException}
    {a : α} (h : Runs (dbSem ok) p w (.ok a) w') :
    Runs (dbSem ok) (withConnection failed p) w (.ok a) w' := by
  have htake : Runs (dbSem ok) DbConnectionPool.getConnection w (.ok ()) w :=
    .catching (runs_invoke hok rfl)
  have hclosed : Runs (dbSem ok) (invoke .isClosed) w' (.ok false) w' := runs_invoke hok rfl
  have hadd : Runs (dbSem ok) DbConnectionPool.addConnection w' (.ok ()) w' :=
    .catching (runs_invoke hok rfl)
  exact .bind htake (.andFinally (.catching h) (.bind hclosed hadd))

/-- A registered client's request is processed. -/
theorem runs_process (hok : ∀ w op, ok w op .none) {request : Request}
    {r : Except JavaException (Response JavaException)} {queue : QueueDto}
    (hqueue : w.context.clientQueue = some queue)
    (h : Runs (dbSem ok) (handler request) w r w') : Runs (dbSem ok) (process request) w r w' := by
  have hget : Runs (dbSem ok) (invoke .getClientQueue) w (.ok (some queue)) w :=
    runs_invoke hok ⟨hqueue.symm, rfl⟩
  have hstep : Runs (dbSem ok) (invoke .step) w (.ok ()) w := runs_invoke hok rfl
  exact .bind hget (.bind hstep h)

end NoFaults

/-- The executions without faults of a request of a registered client, or of a registration, are
those of its handler. -/
theorem wp_process {request : Request} {w : World}
    {Q : Except JavaException (Response JavaException) → World → Prop}
    (hregistered : (w.context.clientQueue.isNone && !Request.isRegistration request) = false)
    (h : wp (dbSem Reliable) anyOp (handler request) Q w) :
    wp (dbSem Reliable) anyOp (process request) Q w := by
  have hget : wp (dbSem Reliable) anyOp (invoke .getClientQueue)
      (fun r w' => r = .ok w.context.clientQueue ∧ w' = w) w := by
    refine ⟨trivial, fun a w' hcall => ?_⟩
    obtain ⟨queue, rfl, rfl, rfl⟩ := Reliable.acts hcall nofun
    exact ⟨rfl, rfl⟩
  refine wp_bind hget (fun clientQueue w' hq => ?_) fun _ _ hq => nomatch hq.1
  obtain ⟨hr, rfl⟩ := hq
  obtain rfl := Except.ok.inj hr
  rw [if_neg (Bool.eq_false_iff.mp hregistered)]
  refine wp_bind (wp_silent smooth_reliable trivial trivial) (fun _ w'' hs => ?_)
    fun _ _ hs => nomatch hs.1.choose_spec
  obtain ⟨-, rfl⟩ := hs
  exact h

/-! ### What holds of every reached database -/

/-- The tables are valid, and so are the messages that a rollback restores. -/
structure World.Valid (w : World) : Prop where
  db : w.db.Valid
  saved : ∀ messages ∈ w.saved, Numbered messages w.db.messageSeq

theorem World.Valid.acts {w w' : World} {op : Op} {r : Ans op} (h : w.Valid)
    (ha : Acts w op r w') : w'.Valid := by
  cases op with
  | execute stmt =>
    obtain ⟨db, he, rfl⟩ := ha
    have hdb := h.db.executes he
    have hsaved : ∀ messages ∈ w.saved, Numbered messages db.messageSeq := fun ms hms =>
      (h.saved ms hms).mono (seqs_le he).1
    cases stmt with
    | beginTransaction =>
      refine ⟨hdb, ?_⟩
      rintro messages ⟨⟩
      exact hdb.messages
    | commitTransaction => exact ⟨hdb, nofun⟩
    | _ => exact ⟨hdb, hsaved⟩
  | getClient | getClientQueue =>
    obtain ⟨-, rfl⟩ := ha
    exact h
  | _ =>
    obtain rfl := ha
    exact ⟨h.db, h.saved⟩

theorem World.Valid.undone {w w' : World} {op : Op} (h : w.Valid) (hu : Undone w op w') :
    w'.Valid := by
  unfold Undone at hu
  split_ifs at hu
  · subst hu
    have hmessages := World.rolledBack_messages h.db.messages h.saved
    exact ⟨⟨hmessages, h.db.clientSeq, h.db.owners, h.db.sendable⟩, nofun⟩
  · obtain ⟨db, hgap, rfl⟩ := hu
    refine ⟨⟨?_, ?_, ?_, ?_⟩, fun ms hms => (h.saved ms hms).mono hgap.messageSeq⟩
    · rw [hgap.messages]
      exact h.db.messages.mono hgap.messageSeq
    · rw [hgap.clients]
      exact fun row hrow => (h.db.clientSeq row hrow).trans_le (Int.ofNat_le.mpr hgap.clientSeq)
    · rw [hgap.queues, hgap.clients]
      exact h.db.owners
    · rw [hgap.clients]
      exact h.db.sendable

/-- **Every operation keeps the world valid.** -/
theorem World.Valid.does {w w' : World} {op : Op} {fault : Fault}
    {a : Except JavaException (Ans op)} (h : w.Valid) (hd : Does w op fault a w') : w'.Valid := by
  rcases hd.acts_or_undone with ⟨r, ha⟩ | hu
  · exact h.acts ha
  · exact h.undone hu

theorem World.Valid.runs {α : Type} {ok : World → Op → Fault → Prop} {p : Java α}
    {w w' : World} {r : Except JavaException α} (h : w.Valid) (hrun : Runs (dbSem ok) p w r w') :
    w'.Valid := by
  have hwp : wp (dbSem ok) (fun _ _ => True) p (fun _ w => w.Valid) w := by
    refine (only_true p).wp (fun _ _ _ _ => trivial) ?_ h
    rintro w op a w' - hw ⟨fault, -, hd⟩
    exact hw.does hd
  exact hwp.sound hrun

theorem RequestStep.valid {ok : World → Op → Fault → Prop} {s s' : State η}
    {l : η × Request × Except JavaException (Response JavaException)} (hs : s.db.Valid)
    (h : RequestStep ok s l s') : s'.db.Valid := by
  obtain ⟨w, hrun, rfl⟩ := h
  have hstart : (s.world l.1).Valid := ⟨hs, fun messages hm => absurd hm (Option.not_mem_none _)⟩
  exact (hstart.runs hrun).db

theorem Reached.valid {s : State η} (h : Reached s) : s.db.Valid :=
  Reachable.invariant (P := fun s => s.db.Valid) (by rintro s rfl; exact valid_empty)
    (fun _ _ _ => RequestStep.valid) h

end Mlmq.Server.Processing
