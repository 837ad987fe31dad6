import Mlmq.Server.RequestProcessor

/-! # What the handlers call

Nine of the ten handlers call plain operations only, which leave the connection as it is; a dequeue
also begins and commits a transaction. The pool is left to `getConnection` and `returnConnection`. -/

namespace Mlmq.Server.Calls

open Mlmq.Dto Mlmq.Db.Table Mlmq.Db.Schema Mlmq.Db.Dao Mlmq.Net.Requests
open Mlmq.Server.RequestProcessor Mlmq.Lib.Programs
open Mlmq.Lib.Programs.Program

/-- Operations other than those of `getConnection` and `returnConnection`. -/
def IsLocal : Op → Prop
  | .take | .isClosed | .warnClosed | .createConnection | .add => False
  | _ => True

/-- Operations that leave the connection as it is. -/
def IsPlain : Op → Prop
  | .step | .getClient | .getClientQueue | .setClient _ | .setClientQueue _ => True
  | .execute .beginTransaction | .execute .commitTransaction => False
  | .execute _ => True
  | _ => False

/-- The operations of `DbConnection.close`. -/
def IsClosing : Op → Prop
  | .step | .logClosing | .closeStatement | .closeJdbc | .setClosed => True
  | _ => False

/-- The operations of `getConnection` and `returnConnection`. -/
def IsPooling : Op → Prop
  | .take | .isClosed | .warnClosed | .createConnection | .add => True
  | _ => False

/-- Inserts of a client or of its queue. -/
def Registers : Op → Prop
  | .execute (.createClient _) => True
  | .execute (.createQueue (some _) _) => True
  | _ => False

/-- Plain operations other than those of a registration. -/
def IsQuiet : Op → Prop
  | .execute (.createClient _) => False
  | .execute (.createQueue (some _) _) => False
  | op => IsPlain op

/-- The operations of a dequeue. -/
def IsDequeue : Op → Prop
  | .step | .execute .beginTransaction | .execute .commitTransaction
  | .execute (.peekMessageForUpdate _) | .execute (.deleteMessage _) => True
  | _ => False

theorem IsPlain.isLocal {op : Op} (h : IsPlain op) : IsLocal op := by
  cases op <;> trivial

theorem IsDequeue.isLocal {op : Op} (h : IsDequeue op) : IsLocal op := by
  cases op <;> trivial

theorem IsClosing.isLocal {op : Op} (h : IsClosing op) : IsLocal op := by
  cases op <;> trivial

theorem IsQuiet.isPlain {op : Op} (h : IsQuiet op) : IsPlain op := by
  unfold IsQuiet at h
  split at h
  · exact h.elim
  · exact h.elim
  · exact h

theorem IsQuiet.not_registers {op : Op} (h : IsQuiet op) : ¬ Registers op := by
  intro hr
  unfold Registers at hr
  split at hr
  · exact h
  · exact h
  · exact hr

theorem IsDequeue.not_registers {op : Op} (h : IsDequeue op) : ¬ Registers op := by
  intro hr
  unfold Registers at hr
  split at hr
  · exact h
  · exact h
  · exact hr

theorem IsClosing.not_registers {op : Op} (h : IsClosing op) : ¬ Registers op := by
  cases op <;> first | exact id | exact h.elim

theorem IsPooling.not_registers {op : Op} (h : IsPooling op) : ¬ Registers op := by
  cases op <;> first | exact id | exact h.elim

variable {P : Op → Prop} {α : Type}

/-! ### Data access objects -/

theorem only_timed {p : Java α} (hstep : P .step) (h : p.Only P) : (timed p).Only P :=
  only_bind (only_perform hstep) fun _ => only_andFinally h (only_perform hstep)

theorem quiet_getClientId (name : Option String) : (ClientDao.getClientId name).Only IsQuiet :=
  only_timed trivial (only_bind (only_perform trivial) fun _ => only_pure _)

theorem plain_insertNewClient (name : Option String) :
    (ClientDao.insertNewClient name).Only IsPlain :=
  only_timed trivial (only_perform trivial)

theorem plain_createClientQueue (clientId : Option Int32) (name : Option String) :
    (QueueDao.createClientQueue clientId name).Only IsPlain :=
  only_timed trivial (only_bind (only_perform trivial) fun _ => only_pure _)

theorem quiet_createQueue_none (name : Option String) :
    (QueueDao.createQueue name).Only IsQuiet :=
  only_timed trivial (only_bind (only_perform trivial) fun _ => only_pure _)

theorem quiet_getQueueByClientId (clientId : Int64) :
    (QueueDao.getQueueByClientId clientId).Only IsQuiet :=
  only_timed trivial (only_bind (only_perform trivial) fun _ => only_pure _)

theorem quiet_getQueueByName (name : Option String) : (QueueDao.getQueueByName name).Only IsQuiet :=
  only_timed trivial (only_bind (only_perform trivial) fun _ => only_pure _)

theorem quiet_insertAll (request : SendMessageRequest) (queueIds : List (Option Int64)) :
    (MessageDao.insertAll request queueIds).Only IsQuiet := by
  induction queueIds with
  | nil => trivial
  | cons queueId queueIds ih =>
    cases queueId with
    | none => trivial
    | some queueId =>
      refine only_bind (only_perform trivial) fun client => ?_
      cases client with
      | none => trivial
      | some client => exact only_bind (only_perform trivial) fun _ => ih

theorem only_peek {stmt : PeekArgs → Java (Option Message)} (hstep : P .step)
    (hstmt : ∀ args, (stmt args).Only P) (queryInfo : Option MessageQueryInfoDto) :
    (MessageDao.peek stmt queryInfo).Only P := by
  cases queryInfo with
  | none => trivial
  | some queryInfo =>
    exact only_bind (hstmt _) fun _ => only_bind (only_perform hstep) fun _ => only_pure _

/-! ### Handlers -/

theorem plain_clientAndQueue (name : Option String) : (clientAndQueue name).Only IsPlain := by
  refine only_bind ((quiet_getClientId name).mono fun _ => IsQuiet.isPlain) fun clientId => ?_
  cases clientId with
  | none =>
    exact only_bind (plain_insertNewClient name) fun _ =>
      only_bind (plain_createClientQueue _ name) fun _ => only_pure _
  | some clientId =>
    refine only_bind ((quiet_getQueueByClientId _).mono fun _ => IsQuiet.isPlain) fun queue => ?_
    cases queue with
    | none => trivial
    | some queue => exact only_bind (only_perform trivial) fun _ => only_pure _

theorem plain_registration (request : RegistrationRequest) : (registration request).Only IsPlain :=
  only_bind (plain_clientAndQueue _) fun _ => only_bind (only_perform trivial) fun _ =>
    only_bind (only_perform trivial) fun _ => only_pure _

theorem quiet_createQueue (request : CreateQueueRequest) :
    (RequestProcessor.createQueue request).Only IsQuiet := by
  refine only_bind (quiet_getQueueByName _) fun queue => ?_
  cases queue with
  | none => exact only_bind (quiet_createQueue_none _) fun _ => only_pure _
  | some queue => trivial

theorem quiet_lookupQueue (request : LookupQueueRequest) :
    (lookupQueue request).Only IsQuiet := by
  unfold lookupQueue
  cases request.clientId with
  | none => exact only_bind (quiet_getQueueByName _) fun _ => only_pure _
  | some clientId => exact only_bind (quiet_getQueueByClientId _) fun _ => only_pure _

theorem quiet_lookupClient (request : LookupClientRequest) : (lookupClient request).Only IsQuiet :=
  only_bind (quiet_getClientId _) fun _ => only_pure _

theorem quiet_deleteQueue (request : DeleteQueueRequest) :
    (RequestProcessor.deleteQueue request).Only IsQuiet := by
  unfold RequestProcessor.deleteQueue
  cases request.queue with
  | none => trivial
  | some queue =>
    exact only_bind (only_timed trivial (only_perform trivial)) fun _ => only_pure _

theorem quiet_sendMessage (request : SendMessageRequest) : (sendMessage request).Only IsQuiet :=
  only_bind (only_timed trivial (quiet_insertAll request _)) fun _ => only_pure _

theorem quiet_peekMessage (request : PeekMessageRequest) :
    (RequestProcessor.peekMessage request).Only IsQuiet :=
  only_bind (only_timed trivial (only_peek trivial (fun _ => only_perform trivial) _)) fun _ =>
    only_pure _

theorem quiet_queuesWithPendingMessages (request : QueuesWithPendingMessagesRequest) :
    (queuesWithPendingMessages request).Only IsQuiet := by
  refine only_bind (only_timed trivial (only_bind (only_perform trivial) fun _ => only_pure _))
    fun queues => only_bind (only_perform trivial) fun clientQueue => ?_
  cases clientQueue with
  | none => trivial
  | some clientQueue =>
    exact only_bind (only_timed trivial (only_perform trivial)) fun _ => only_pure _

theorem quiet_conversationContext (request : SendClientMessageRequest) :
    (conversationContext request).Only IsQuiet := by
  unfold conversationContext
  split_ifs
  · exact only_bind (only_timed trivial (only_perform trivial)) fun _ => only_pure _
  · exact only_pure _

theorem quiet_sendClientMessage (request : SendClientMessageRequest) :
    (sendClientMessage request).Only IsQuiet := by
  refine only_bind (quiet_getQueueByClientId _) fun queue => ?_
  cases queue with
  | none => trivial
  | some queue =>
    refine only_bind (quiet_conversationContext request) fun context =>
      only_bind (only_perform trivial) fun client => ?_
    cases client with
    | none => trivial
    | some client =>
      exact only_bind (only_timed trivial (only_perform trivial)) fun _ => only_pure _

theorem only_dequeue (queryInfo : Option MessageQueryInfoDto) :
    (MessageDao.dequeue queryInfo).Only IsDequeue := by
  refine only_bind (only_perform trivial) fun _ =>
    only_bind (only_peek trivial (fun _ => only_perform trivial) _) fun message => ?_
  cases message with
  | none => trivial
  | some message =>
    refine only_bind (only_perform trivial) fun result => ?_
    split_ifs <;> trivial

theorem only_dequeueMessage (request : DequeueMessageRequest) :
    (RequestProcessor.dequeueMessage request).Only IsDequeue :=
  only_bind (only_bind (only_perform trivial) fun _ => only_andFinally (only_dequeue _)
    (only_bind (only_perform trivial) fun _ => only_perform trivial)) fun _ => only_pure _

/-! ### Connections -/

theorem closing_closeDao (n : ℕ) : (DbConnection.closeDao n).Only IsClosing := by
  induction n with
  | zero => trivial
  | succ n ih =>
    refine only_bind (only_catching (only_perform trivial) fun e => ?_) fun _ => ih
    cases e with
    | sql message => exact only_perform trivial
    | _ => trivial

theorem closing_closeConnection : DbConnection.closeConnection.Only IsClosing := by
  refine only_andFinally (only_catching
    (only_bind (only_perform trivial) fun _ => only_perform trivial) fun e => ?_)
    (only_perform trivial)
  cases e with
  | sql message => exact only_perform trivial
  | _ => trivial

theorem closing_close : DbConnection.close.Only IsClosing :=
  only_bind (only_perform trivial) fun _ => only_bind (closing_closeDao 4) fun _ =>
    only_bind (closing_closeDao 9) fun _ => only_bind (closing_closeDao 2) fun _ =>
    closing_closeConnection

theorem pooling_getConnection : DbConnectionPool.getConnection.Only IsPooling :=
  only_catching (only_perform trivial) fun e => by cases e <;> trivial

theorem pooling_addConnection : DbConnectionPool.addConnection.Only IsPooling :=
  only_catching (only_perform trivial) fun e => by split <;> trivial

theorem pooling_returnConnection : DbConnectionPool.returnConnection.Only IsPooling := by
  refine only_bind (only_perform trivial) fun closed => ?_
  split_ifs
  · exact only_bind (only_bind (only_perform trivial) fun _ =>
      only_catching (only_perform trivial) fun e => by cases e <;> trivial)
      fun _ => pooling_addConnection
  · exact pooling_addConnection

/-- A handler calls what its body calls, and the operations on its connection. -/
theorem only_withConnection {failed : String → JavaException} {body : Java α}
    (hclosing : ∀ op, IsClosing op → P op) (hpooling : ∀ op, IsPooling op → P op)
    (hbody : body.Only P) : (withConnection failed body).Only P := by
  refine only_bind (pooling_getConnection.mono hpooling) fun _ => only_andFinally
    (only_catching hbody fun e => ?_) (pooling_returnConnection.mono hpooling)
  cases e with
  | sql message => exact only_bind (closing_close.mono hclosing) fun _ => trivial
  | _ => trivial

/-- **What the handlers do between borrowing and returning.** -/
theorem handler_cases (request : Request) :
    (∃ r, request = .dequeueMessage r) ∨ (∃ r, request = .registration r) ∨
      ∃ failed body, handler request = withConnection failed body ∧ body.Only IsQuiet := by
  cases request with
  | dequeueMessage r => exact .inl ⟨r, rfl⟩
  | registration r => exact .inr (.inl ⟨r, rfl⟩)
  | createQueue r => exact .inr (.inr ⟨_, _, rfl, quiet_createQueue r⟩)
  | deleteQueue r => exact .inr (.inr ⟨_, _, rfl, quiet_deleteQueue r⟩)
  | peekMessage r => exact .inr (.inr ⟨_, _, rfl, quiet_peekMessage r⟩)
  | queuesWithPendingMessages r => exact .inr (.inr ⟨_, _, rfl, quiet_queuesWithPendingMessages r⟩)
  | sendClientMessage r => exact .inr (.inr ⟨_, _, rfl, quiet_sendClientMessage r⟩)
  | sendMessage r => exact .inr (.inr ⟨_, _, rfl, quiet_sendMessage r⟩)
  | lookupQueue r => exact .inr (.inr ⟨_, _, rfl, quiet_lookupQueue r⟩)
  | lookupClient r => exact .inr (.inr ⟨_, _, rfl, quiet_lookupClient r⟩)

/-- Every handler but that of a dequeue is plain between borrowing and returning. -/
theorem handler_plain (request : Request) : (∃ r, request = .dequeueMessage r) ∨
    ∃ failed body, handler request = withConnection failed body ∧ body.Only IsPlain := by
  rcases handler_cases request with h | ⟨r, rfl⟩ | ⟨failed, body, h, hbody⟩
  · exact .inl h
  · exact .inr ⟨_, _, rfl, plain_registration r⟩
  · exact .inr ⟨failed, body, h, hbody.mono fun _ => IsQuiet.isPlain⟩

/-- Every handler is local between borrowing and returning. -/
theorem handler_local (request : Request) :
    ∃ failed body, handler request = withConnection failed body ∧ body.Only IsLocal := by
  obtain ⟨r, rfl⟩ | ⟨failed, body, h, hbody⟩ := handler_plain request
  · exact ⟨_, _, rfl, (only_dequeueMessage r).mono fun _ => IsDequeue.isLocal⟩
  · exact ⟨failed, body, h, hbody.mono fun _ => IsPlain.isLocal⟩

/-- Only a registration inserts clients and their queues. -/
theorem not_registers_process (request : Request) (h : Request.isRegistration request = false) :
    (process request).Only fun op => ¬ Registers op := by
  have hclosing : ∀ op, IsClosing op → ¬ Registers op := fun _ => IsClosing.not_registers
  have hpooling : ∀ op, IsPooling op → ¬ Registers op := fun _ => IsPooling.not_registers
  refine only_bind (only_perform id) fun clientQueue => ?_
  split_ifs
  · trivial
  · refine only_bind (only_perform id) fun _ => ?_
    obtain ⟨r, rfl⟩ | ⟨r, rfl⟩ | ⟨failed, body, heq, hbody⟩ := handler_cases request
    · exact only_withConnection hclosing hpooling
        ((only_dequeueMessage r).mono fun _ => IsDequeue.not_registers)
    · cases h
    · rw [heq]
      exact only_withConnection hclosing hpooling (hbody.mono fun _ => IsQuiet.not_registers)

/-- Operations of `P` change neither `I` nor what a program has ended with, and an exception never
does. -/
structure Robust {σ : Type} (sem : Semantics Ans JavaException σ) (P : Op → Prop) (I : σ → Prop)
    (Q : Except JavaException α → σ → Prop) : Prop where
  state : ∀ s op a s', P op → I s → sem s op a s' → I s'
  result : ∀ r s op a s', P op → Q r s → sem s op a s' → Q r s'
  thrown : ∀ e s, I s → Q (.error e) s
  replaced : ∀ r e s, Q r s → Q (.error e) s

section Robust

variable {σ : Type} {sem : Semantics Ans JavaException σ} {pre : σ → Op → Prop} {I : σ → Prop}
  {Q : Except JavaException α → σ → Prop} {s : σ}

/-- A program with operations of `P` does not change what another one has ended with. -/
theorem Robust.keeps {β : Type} {p : Java β} {r : Except JavaException α} (h : Robust sem P I Q)
    (hpre : ∀ s op, pre s op) (hp : p.Only P) (hr : Q r s) :
    wp sem pre p (fun _ s => Q r s) s :=
  hp.wp (fun s op _ _ => hpre s op) (fun s op a s' hop => h.result r s op a s' hop) hr

/-- **A handler ends as its body**, whatever the operations on the connection do. -/
theorem Robust.wp_withConnection {failed : String → JavaException} {body : Java α}
    (h : Robust sem P I Q) (hpre : ∀ s op, pre s op) (hclosing : ∀ op, IsClosing op → P op)
    (hpooling : ∀ op, IsPooling op → P op) (hbody : ∀ s, I s → wp sem pre body Q s) (hs : I s) :
    wp sem pre (withConnection failed body) Q s := by
  refine wp_bind (pooling_getConnection.wp (fun s op _ _ => hpre s op)
    (fun s op a s' hop => h.state s op a s' (hpooling op hop)) hs) (fun _ s hs => ?_)
    fun e s hs => h.thrown e s hs
  refine wp_andFinally (Q := Q) (fun r _ s => Q r s)
    (wp_catching (hbody s hs) (fun _ _ hr => hr) fun e s hr => ?_) (fun r s hr => ?_)
    (fun _ _ hr => hr) fun r e s hr => h.replaced r e s hr
  · cases e with
    | sql message =>
      exact wp_bind (h.keeps hpre (closing_close.mono hclosing) hr)
        (fun _ s hr => h.replaced _ _ s hr) fun _ s hr => h.replaced _ _ s hr
    | _ => exact hr
  · exact h.keeps hpre (pooling_returnConnection.mono hpooling) hr

/-- What is timed ends as it does on its own. -/
theorem Robust.wp_timed {p : Java α} (h : Robust sem P I Q) (hpre : ∀ s op, pre s op)
    (hstep : P .step) (hp : ∀ s, I s → wp sem pre p Q s) (hs : I s) :
    wp sem pre (timed p) Q s := by
  refine wp_bind (Q := fun _ s => I s) ⟨hpre s _, fun a s' hcall => h.state s _ a s' hstep hs hcall⟩
    (fun _ s hs => ?_) fun e s hs => h.thrown e s hs
  exact wp_andFinally (fun r _ s => Q r s) (hp s hs)
    (fun r s hr => h.keeps hpre (only_perform hstep) hr) (fun _ _ hr => hr)
    fun r e s hr => h.replaced r e s hr

end Robust

/-! ### Where only statements fail -/

/-- Operations other than the statements and the accesses to the `ClientApplicationContext`. -/
def IsSilent : Op → Prop
  | .getClient | .getClientQueue | .setClient _ | .setClientQueue _ | .execute _ => False
  | _ => True

theorem IsClosing.isSilent {op : Op} (h : IsClosing op) : IsSilent op := by
  cases op <;> trivial

/-- Silent operations change nothing, or throw and establish `E`. -/
def Guarded {σ : Type} (sem : Semantics Ans JavaException σ) (E : σ → Prop) : Prop :=
  ∀ s op a s', IsSilent op → sem s op a s' → Ends (fun _ s' => s' = s) E a s'

section Guarded

variable {σ : Type} {sem : Semantics Ans JavaException σ} {E : σ → Prop} {s : σ} {p : Java α}
  {R : α → σ → Prop}

/-- A precondition that every call meets. -/
abbrev anyOp (_ : σ) (_ : Op) : Prop := True

theorem ends_silent {op : Op} (hsem : Guarded sem E) (hop : IsSilent op) :
    wp sem anyOp (invoke op) (Ends (fun _ s' => s' = s) E) s :=
  ⟨trivial, fun a s' hcall => hsem s op a s' hop hcall⟩

theorem ends_silent_catching {op : Op} {handle : JavaException → Java (Ans op)}
    (hsem : Guarded sem E) (hop : IsSilent op)
    (hhandle : ∀ e, ∃ e', handle e = raise e') :
    wp sem anyOp ((invoke op).catching handle) (Ends (fun _ s' => s' = s) E) s := by
  refine ends_catching (ends_silent hsem hop) fun e s' he => ?_
  obtain ⟨e', he'⟩ := hhandle e
  rw [he']
  exact he

theorem ends_timed (hsem : Guarded sem E) (h : wp sem anyOp p (Ends R E) s) :
    wp sem anyOp (timed p) (Ends R E) s := by
  refine ends_bind (ends_silent hsem trivial) fun _ s' hs => ?_
  obtain rfl := hs
  exact ends_andFinally h fun s => ends_silent hsem trivial

theorem ends_getConnection (hsem : Guarded sem E) :
    wp sem anyOp DbConnectionPool.getConnection (Ends (fun _ s' => s' = s) E) s :=
  ends_silent_catching hsem trivial fun e => by cases e <;> exact ⟨_, rfl⟩

theorem ends_addConnection (hsem : Guarded sem E) :
    wp sem anyOp DbConnectionPool.addConnection (Ends (fun _ s' => s' = s) E) s :=
  ends_silent_catching hsem trivial fun e => by split <;> exact ⟨_, rfl⟩

theorem ends_returnConnection (hsem : Guarded sem E) :
    wp sem anyOp DbConnectionPool.returnConnection (Ends (fun _ s' => s' = s) E) s := by
  refine ends_bind (ends_silent hsem trivial) fun closed s' hs => ?_
  obtain rfl := hs
  split_ifs
  · refine ends_bind (R := fun _ s => s = s') (ends_bind (ends_silent hsem trivial)
      fun _ s hs => ?_) fun _ s hs => ?_
    · obtain rfl := hs
      exact ends_silent_catching hsem trivial fun e => by cases e <;> exact ⟨_, rfl⟩
    · obtain rfl := hs
      exact ends_addConnection hsem
  · exact ends_addConnection hsem

/-- **A handler ends as its body**, or throws and establishes `E`. -/
theorem ends_withConnection {failed : String → JavaException} (hsem : Guarded sem E)
    (h : wp sem anyOp p (Ends R E) s) :
    wp sem anyOp (withConnection failed p) (Ends R E) s := by
  refine ends_bind (ends_getConnection hsem) fun _ s' hs => ?_
  obtain rfl := hs
  refine ends_andFinally (ends_catching h fun e s he => ?_) fun s => ends_returnConnection hsem
  cases e with
  | sql message =>
    have hclose : wp sem anyOp DbConnection.close (fun _ s => E s) s := by
      refine closing_close.wp (fun _ _ _ _ => trivial) (fun s op a s' hop hs hcall => ?_) he
      have hend := hsem s op a s' hop.isSilent hcall
      cases a with
      | ok r =>
        obtain rfl : s' = s := hend
        exact hs
      | error e => exact hend
    exact wp_bind hclose (fun _ _ hs => hs) fun _ _ hs => hs
  | _ => exact he

end Guarded

/-- Silent operations answer, and change nothing. -/
def Smooth {σ : Type} (sem : Semantics Ans JavaException σ) : Prop :=
  ∀ s op a s', IsSilent op → sem s op a s' → (∃ r, a = .ok r) ∧ s' = s

theorem Smooth.guarded {σ : Type} {sem : Semantics Ans JavaException σ} (hsem : Smooth sem)
    (E : σ → Prop) : Guarded sem E := by
  intro s op a s' hop hcall
  obtain ⟨⟨r, rfl⟩, hs⟩ := hsem s op a s' hop hcall
  exact hs

section Smooth

variable {σ : Type} {sem : Semantics Ans JavaException σ} {pre : σ → Op → Prop} {s : σ}
  {p : Java α} {Q : Except JavaException α → σ → Prop}

theorem wp_silent {op : Op} (hsem : Smooth sem) (hop : IsSilent op) (hpre : pre s op) :
    wp sem pre (invoke op) (fun a s' => (∃ r, a = .ok r) ∧ s' = s) s :=
  ⟨hpre, fun a s' hcall => hsem s op a s' hop hcall⟩

/-- What a silent operation throws is never caught. -/
theorem wp_silent_catching {op : Op} {h : JavaException → Java (Ans op)} (hsem : Smooth sem)
    (hop : IsSilent op) (hpre : pre s op) :
    wp sem pre ((invoke op).catching h) (fun a s' => (∃ r, a = .ok r) ∧ s' = s) s := by
  refine wp_catching (wp_silent hsem hop hpre) (fun r _ hs => ?_)
    fun _ _ hs => nomatch hs.1.choose_spec
  exact ⟨⟨r, rfl⟩, hs.2⟩

theorem wp_timed (hsem : Smooth sem) (hpre : ∀ s, pre s .step) (h : wp sem pre p Q s) :
    wp sem pre (timed p) Q s := by
  refine wp_bind (wp_silent hsem trivial (hpre s)) (fun _ s' hs => ?_)
    fun _ _ hs => nomatch hs.1.choose_spec
  obtain ⟨-, rfl⟩ := hs
  refine wp_andFinally (fun r a s => (∃ u, a = .ok u) ∧ Q r s) h (fun r s hr => ?_)
    (fun r s hr => hr.2) fun r e s hr => nomatch hr.1.choose_spec
  refine wp_mono (fun a s' hs => ?_) (wp_silent hsem trivial (hpre s))
  exact ⟨hs.1, hs.2 ▸ hr⟩

theorem wp_addConnection (hsem : Smooth sem) (hpre : ∀ s op, IsPooling op → pre s op) :
    wp sem pre DbConnectionPool.addConnection (fun a s' => (∃ u, a = .ok u) ∧ s' = s) s :=
  wp_silent_catching hsem trivial (hpre s _ trivial)

theorem wp_replaceConnection (hsem : Smooth sem) (hpre : ∀ s op, IsPooling op → pre s op) :
    wp sem pre DbConnectionPool.replaceConnection (fun a s' => (∃ u, a = .ok u) ∧ s' = s) s := by
  refine wp_bind (wp_silent hsem trivial (hpre s _ trivial)) (fun _ s' hs => ?_)
    fun _ _ hs => nomatch hs.1.choose_spec
  obtain ⟨-, rfl⟩ := hs
  exact wp_silent_catching hsem trivial (hpre s' _ trivial)

theorem wp_returnConnection (hsem : Smooth sem) (hpre : ∀ s op, IsPooling op → pre s op) :
    wp sem pre DbConnectionPool.returnConnection (fun a s' => (∃ u, a = .ok u) ∧ s' = s) s := by
  refine wp_bind (wp_silent hsem trivial (hpre s _ trivial)) (fun closed s' hs => ?_)
    fun _ _ hs => nomatch hs.1.choose_spec
  obtain ⟨-, rfl⟩ := hs
  split_ifs
  · refine wp_bind (wp_replaceConnection hsem hpre) (fun _ s hs => ?_)
      fun _ _ hs => nomatch hs.1.choose_spec
    obtain ⟨-, rfl⟩ := hs
    exact wp_addConnection hsem hpre
  · exact wp_addConnection hsem hpre

/-- **A handler ends as its body**, if that does not end with an `SQLException`. -/
theorem wp_withConnection {failed : String → JavaException} (hsem : Smooth sem)
    (hpre : ∀ s op, IsPooling op → pre s op)
    (h : wp sem pre p (fun r s => (∀ message, r ≠ .error (.sql message)) ∧ Q r s) s) :
    wp sem pre (withConnection failed p) Q s := by
  refine wp_bind (wp_silent_catching hsem trivial (hpre s _ trivial)) (fun _ s' hs => ?_)
    fun _ _ hs => nomatch hs.1.choose_spec
  obtain ⟨-, rfl⟩ := hs
  refine wp_andFinally (Q := Q) (fun r a s => (∃ u, a = .ok u) ∧ Q r s) ?_ (fun r s hr => ?_)
    (fun r s hr => hr.2) fun r e s hr => nomatch hr.1.choose_spec
  · refine wp_catching h (fun _ _ hr => hr.2) fun e s hr => ?_
    cases e with
    | sql message => exact absurd rfl (hr.1 message)
    | _ => exact hr.2
  · refine wp_mono (fun a s' hs => ?_) (wp_returnConnection hsem hpre)
    exact ⟨hs.1, hs.2 ▸ hr⟩

end Smooth

end Mlmq.Server.Calls
