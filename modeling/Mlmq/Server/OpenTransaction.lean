import Mlmq.Server.ConnectionPool

/-! # Transactions of pooled connections

Only a dequeue begins a transaction, and its `COMMIT` is executed on every path. If the `COMMIT`
throws, the handler closes the connection, which then is replaced and not pooled. But
`DbConnection.close` sets `closed` in the `finally` block of its last `try` only: if one of the
steps before throws a `RuntimeException` (`LeavesOpen`), the connection is pooled with its
transaction.

`clean_of_run`: in a run without such a step every pooled connection is open and has no transaction
in progress. -/

namespace Mlmq.Server.OpenTransaction

open Mlmq.Dto Mlmq.Db.Table Mlmq.Db.Schema Mlmq.Db.Dao Mlmq.Net.Requests Mlmq.Net.Responses
open Mlmq.Server.RequestProcessor Mlmq.Server.Calls Mlmq.Server.ConnectionPool
open Mlmq.Lib.Programs Mlmq.Lib.Transition Mlmq.Lib.Programs.Program
open Mlmq.Lib.Queue (BoundedQueue)

/-- The connection is open and has no transaction in progress. -/
def IsClean (c : Connection) : Prop :=
  c.closed = false ∧ c.jdbcClosed = false ∧ c.inTransaction = false

theorem isClean_iff {c : Connection} : IsClean c ↔ c = .opened := by
  obtain ⟨closed, jdbcClosed, inTransaction⟩ := c
  simp [IsClean, Connection.opened]

variable {κ : Type} [DecidableEq κ]

/-- **No pooled connection is closed or has a transaction in progress.** -/
def AllClean (s : Workers κ) : Prop := ∀ c ∈ s.world.connections.items, IsClean c

/-- `close` throws before its last `try`, and the connection may have a transaction in progress. -/
def LeavesOpen (own : Option Connection) : (op : Op) → Except JavaException (Ans op) → Prop
  | .logClosing, .error (.runtime _) => own.any Connection.inTransaction
  | .closeStatement, .error (.runtime _) => own.any Connection.inTransaction
  | _, _ => False

/-- The step does not leave a connection with a transaction open. -/
def ClosesTransactions (s : Workers κ) : Label κ → Prop
  | (w, .call op a) => ¬ LeavesOpen (s.world.connection w) op a
  | _ => True

/-! ### The handlers, one at a time -/

/-- What a handler sees of the pool in such a run. -/
abbrev cleanSem : Semantics Ans JavaException (Option Connection) :=
  viewSem (fun c => c = .opened) fun own op a => ¬ LeavesOpen own op a

/-- Only clean connections are added. -/
def AddsClean (own : Option Connection) (op : Op) : Prop := op = .add → own = some .opened

/-- A connection that statements are executed on. -/
def Usable (own : Option Connection) : Prop :=
  ∃ inTransaction, own = some { Connection.opened with inTransaction }

/-- A connection that may be returned: it is clean, or closed and will be replaced. -/
def Returnable (own : Option Connection) : Prop :=
  ∃ c, own = some c ∧ (c.closed = false → c = .opened)

theorem returnable_opened : Returnable (some .opened) := ⟨_, rfl, fun _ => rfl⟩

section Perform

variable {pool pool' : BoundedQueue Connection} {own own' : Option Connection} {op : Op}
  {a : Except JavaException (Ans op)}

/-- What a statement does to the connection. -/
theorem perform_execute {stmt : Statement} {a : Except JavaException stmt.Result}
    (h : perform pool own (.execute stmt) a = some (pool', own')) :
    own' = own.map (fun c => c.after (!a.isOk) stmt) ∧ (a.isOk ∨ ∃ message, a = .error (.sql message)) := by
  rcases a with e | r
  · cases e with
    | sql message =>
      obtain ⟨-, rfl⟩ := Prod.mk.inj (Option.some.inj h)
      exact ⟨rfl, .inr ⟨message, rfl⟩⟩
    | _ => cases h
  · obtain ⟨-, rfl⟩ := Prod.mk.inj (Option.some.inj h)
    exact ⟨rfl, .inl rfl⟩

/-- A plain operation does nothing to the connection. -/
theorem perform_plain (hop : IsPlain op) (h : perform pool own op a = some (pool', own')) :
    own' = own := by
  cases op with
  | execute stmt =>
    have hid : (fun c : Connection => c.after (!a.isOk) stmt) = id := by
      funext c
      cases stmt <;> first | rfl | exact hop.elim
    rw [(perform_execute h).1, hid, Option.map_id_fun, id]
  | step =>
    rcases a with e | u
    · cases e with
      | runtime e => exact (Prod.mk.inj (Option.some.inj h)).2.symm
      | _ => cases h
    · exact (Prod.mk.inj (Option.some.inj h)).2.symm
  | getClient | getClientQueue | setClient client | setClientQueue queue =>
    rcases a with e | r
    · cases h
    · exact (Prod.mk.inj (Option.some.inj h)).2.symm
  | _ => exact hop.elim

/-- A step of `close` before its last `try` throws a `RuntimeException` only if the connection is
clean. -/
theorem perform_closing (hop : op = .logClosing ∨ op = .closeStatement)
    (h : perform pool own op a = some (pool', own')) (hok : ¬ LeavesOpen own op a)
    (hown : Usable own) : own' = own ∧ ∀ e, a = .error e →
      own = some .opened ∨ op = .closeStatement ∧ ∃ message, e = .sql message := by
  obtain ⟨t, rfl⟩ := hown
  rcases a with e | u
  · cases e with
    | runtime e =>
      refine ⟨?_, fun _ _ => .inl ?_⟩
      · rcases hop with rfl | rfl <;> exact (Prod.mk.inj (Option.some.inj h)).2.symm
      · cases t with
        | false => rfl
        | true => rcases hop with rfl | rfl <;> exact absurd rfl hok
    | sql message =>
      rcases hop with rfl | rfl
      · cases h
      · refine ⟨(Prod.mk.inj (Option.some.inj h)).2.symm, ?_⟩
        rintro e ⟨⟩
        exact .inr ⟨rfl, message, rfl⟩
    | _ => rcases hop with rfl | rfl <;> cases h
  · refine ⟨?_, nofun⟩
    rcases hop with rfl | rfl <;> exact (Prod.mk.inj (Option.some.inj h)).2.symm

end Perform

/-- A plain program keeps the connection. -/
theorem wp_plain {α : Type} {p : Java α} {own : Option Connection} (hp : p.Only IsPlain) :
    wp cleanSem AddsClean p (fun _ own' => own' = own) own := by
  refine hp.wp ?_ ?_ rfl
  · rintro own' op hop - rfl
    exact hop.elim
  · rintro own₁ op a own₂ hop rfl ⟨-, pool, pool', -, h⟩
    exact perform_plain hop h

/-! ### A dequeue -/

/-- What the body of a handler leaves: a clean connection, or, with an `SQLException`, maybe an open
transaction. -/
def BodyPost {α : Type} (r : Except JavaException α) (own : Option Connection) : Prop :=
  own = some .opened ∨ Usable own ∧ ∃ message, r = .error (.sql message)

theorem usable_opened : Usable (some .opened) := ⟨false, rfl⟩

/-- A connection is usable after a statement. -/
theorem wp_execute {stmt : Statement} {own : Option Connection} (hown : Usable own) :
    wp cleanSem AddsClean (execute stmt) (fun _ own => Usable own) own := by
  refine ⟨nofun, ?_⟩
  rintro a own' ⟨-, pool, pool', -, h⟩
  obtain ⟨t, rfl⟩ := hown
  rw [(perform_execute h).1]
  cases stmt
  case beginTransaction => exact ⟨true, rfl⟩
  case commitTransaction =>
    cases a with
    | error e => exact ⟨t, rfl⟩
    | ok r => exact ⟨false, rfl⟩
  all_goals exact ⟨t, rfl⟩

theorem wp_dequeue {own : Option Connection} (hown : Usable own)
    (queryInfo : Option MessageQueryInfoDto) :
    wp cleanSem AddsClean (MessageDao.dequeue queryInfo) (fun _ own => Usable own) own := by
  refine (only_dequeue queryInfo).wp ?_ ?_ hown
  · rintro own op hop - rfl
    exact hop.elim
  · intro own op a own' hop hown h
    cases op with
    | execute stmt => exact (wp_execute hown).2 a own' h
    | step =>
      obtain ⟨-, pool, pool', -, hperform⟩ := h
      rwa [perform_plain (show IsPlain .step from trivial) hperform]
    | _ => exact hop.elim

/-- **The `finally` block of a dequeue**: the transaction is over, or the `COMMIT` has thrown. -/
theorem wp_commit {own : Option Connection} (hown : Usable own) :
    wp cleanSem AddsClean (execute .commitTransaction >>= fun _ => invoke .step)
      (fun r own => own = some .opened ∨ Usable own ∧ ∃ message, r = .error (.sql message)) own := by
  refine wp_bind (Q := fun r own => own = some .opened ∨
    Usable own ∧ ∃ message, r = .error (.sql message)) ⟨nofun, ?_⟩ (fun u own h => ?_) ?_
  · rintro a own' ⟨-, pool, pool', -, h⟩
    obtain ⟨t, rfl⟩ := hown
    obtain ⟨rfl, hok | ⟨message, rfl⟩⟩ := perform_execute h
    · left
      rw [hok]
      rfl
    · exact .inr ⟨⟨t, rfl⟩, message, rfl⟩
  · rcases h with rfl | ⟨-, message, h⟩
    · exact wp_mono (fun _ _ h => .inl h) (wp_plain (only_perform trivial))
    · cases h
  · rintro e own (h | ⟨hown, message, h⟩)
    · exact .inl h
    · cases h
      exact .inr ⟨hown, message, rfl⟩

theorem wp_dequeueMessage (request : DequeueMessageRequest) :
    wp cleanSem AddsClean (RequestProcessor.dequeueMessage request) BodyPost (some .opened) := by
  refine wp_bind (Q := BodyPost) (wp_bind (wp_plain (only_perform trivial)) (fun u own h => ?_)
    fun e own h => .inl h) (fun message own h => ?_) fun e own h => ?_
  · subst h
    refine wp_andFinally _ (wp_dequeue usable_opened _) (fun r own h => wp_commit h) ?_ ?_
    · rintro r own (h | ⟨-, message, h⟩)
      · exact .inl h
      · cases h
    · rintro r e own (h | ⟨hown, message, h⟩)
      · exact .inl h
      · cases h
        exact .inr ⟨hown, message, rfl⟩
  · rcases h with h | ⟨-, message, h⟩
    · exact .inl h
    · cases h
  · rcases h with h | ⟨hown, message, h⟩
    · exact .inl h
    · cases h
      exact .inr ⟨hown, message, rfl⟩

/-! ### Closing and returning -/

/-- As long as `close` has not reached its last `try`. -/
def Closing (r : Except JavaException Unit) (own : Option Connection) : Prop :=
  Usable own ∧ ∀ e, r = .error e → own = some .opened

theorem wp_logClosing {own : Option Connection} (hown : Usable own) :
    wp cleanSem AddsClean (invoke .logClosing) Closing own := by
  refine ⟨nofun, ?_⟩
  rintro a own' ⟨hok, pool, pool', -, h⟩
  obtain ⟨rfl, hclean⟩ := perform_closing (.inl rfl) h hok hown
  refine ⟨hown, fun e he => ?_⟩
  rcases hclean e he with hclean | ⟨hop, -⟩
  · exact hclean
  · cases hop

/-- The closing of prepared statements. -/
theorem wp_closeDao (n : ℕ) {own : Option Connection} (hown : Usable own) :
    wp cleanSem AddsClean (DbConnection.closeDao n) Closing own := by
  induction n generalizing own with
  | zero => exact ⟨hown, nofun⟩
  | succ n ih =>
    refine wp_bind (Q := Closing) (wp_catching (Q := fun r own => Usable own ∧
      ∀ e, r = .error e → own = some .opened ∨ ∃ message, e = .sql message) ⟨nofun, ?_⟩
      (fun u own h => ⟨h.1, nofun⟩) fun e own h => ?_) (fun u own h => ih h.1)
      fun e own h => ⟨h.1, fun _ _ => h.2 e rfl⟩
    · rintro a own' ⟨hok, pool, pool', -, h⟩
      obtain ⟨rfl, hclean⟩ := perform_closing (.inr rfl) h hok hown
      exact ⟨hown, fun e he => (hclean e he).imp_right And.right⟩
    · rcases h.2 e rfl with hclean | ⟨message, rfl⟩
      · cases e with
        | sql message => exact wp_logClosing h.1
        | _ => exact ⟨h.1, fun _ _ => hclean⟩
      · exact wp_logClosing h.1

/-- A connection whose field `closed` is set. -/
def Closed (own : Option Connection) : Prop := ∃ c, own = some c ∧ c.closed = true

/-- A local program keeps whether there is a connection. -/
theorem wp_keeps {α : Type} {p : Java α} {own : Option Connection} (hp : p.Only IsLocal)
    (hown : own.isSome) : wp cleanSem AddsClean p (fun _ own => own.isSome) own := by
  refine hp.wp ?_ ?_ hown
  · rintro own op hop - rfl
    exact hop.elim
  · rintro own op a own' hop hown ⟨-, pool, pool', -, h⟩
    rwa [(perform_local hop h).2]

theorem wp_setClosed {own : Option Connection} (hown : own.isSome) :
    wp cleanSem AddsClean (invoke .setClosed) (fun _ own => Closed own) own := by
  refine ⟨nofun, ?_⟩
  rintro (e | u) own' ⟨-, pool, pool', -, h⟩
  · cases h
  · obtain ⟨c, rfl⟩ := Option.isSome_iff_exists.mp hown
    obtain ⟨-, rfl⟩ := Prod.mk.inj (Option.some.inj h)
    exact ⟨_, rfl, rfl⟩

/-- **The last `try` of `close`** leaves a closed connection, however it ends. -/
theorem wp_closeConnection {own : Option Connection} (hown : own.isSome) :
    wp cleanSem AddsClean DbConnection.closeConnection (fun _ own => Closed own) own := by
  refine wp_andFinally _ (Q := fun _ own => own.isSome) (wp_catching
    (wp_keeps (only_bind (only_perform trivial) fun _ => only_perform trivial) hown)
    (fun _ _ h => h) fun e own h => ?_) (fun _ _ h => wp_setClosed h) (fun _ _ h => h)
    fun _ _ _ h => h
  cases e with
  | sql message => exact wp_keeps (only_perform trivial) h
  | _ => exact h

theorem Usable.isSome {own : Option Connection} (h : Usable own) : own.isSome := by
  obtain ⟨t, rfl⟩ := h
  rfl

theorem Closed.returnable {own : Option Connection} (h : Closed own) : Returnable own := by
  obtain ⟨c, rfl, hc⟩ := h
  exact ⟨c, rfl, fun hopen => absurd (hc.symm.trans hopen) Bool.true_eq_false.mp⟩

/-- **`close` leaves a connection that may be returned.** -/
theorem wp_close {own : Option Connection} (hown : Usable own) :
    wp cleanSem AddsClean DbConnection.close (fun _ own => Returnable own) own := by
  have herr : ∀ (e : JavaException) own, Closing (.error e) own → Returnable own := by
    intro e own h
    rw [h.2 e rfl]
    exact returnable_opened
  refine wp_bind (wp_logClosing hown) (fun _ _ h => ?_) herr
  refine wp_bind (wp_closeDao 4 h.1) (fun _ _ h => ?_) herr
  refine wp_bind (wp_closeDao 9 h.1) (fun _ _ h => ?_) herr
  refine wp_bind (wp_closeDao 2 h.1) (fun _ _ h => ?_) herr
  exact wp_mono (fun _ _ h => h.returnable) (wp_closeConnection h.1.isSome)

/-- `add` of a clean connection. -/
theorem wp_addConnection :
    wp cleanSem AddsClean DbConnectionPool.addConnection (fun _ _ => True) (some .opened) :=
  wp_catching (Q := fun _ _ => True) ⟨fun _ => rfl, fun _ _ _ => trivial⟩ (fun _ _ _ => trivial)
    fun e _ _ => by split <;> trivial

/-- A replacement is clean. -/
theorem wp_replaceConnection {own : Option Connection} :
    wp cleanSem AddsClean DbConnectionPool.replaceConnection
      (fun r own => r = .ok () → own = some .opened) own := by
  refine wp_bind (Q := fun _ _ => True) ⟨nofun, fun _ _ _ => trivial⟩ (fun u own _ => ?_)
    fun _ _ _ => nofun
  refine wp_catching (Q := fun r own => r = .ok () → own = some .opened) ⟨nofun, ?_⟩
    (fun _ _ h => h) fun e own h => ?_
  · rintro (e | u) own' ⟨-, pool, pool', -, h⟩
    · exact nofun
    · obtain ⟨-, rfl⟩ := Prod.mk.inj (Option.some.inj h)
      exact fun _ => rfl
  · cases e <;> exact nofun

/-- **Only clean connections are put back.** -/
theorem wp_returnConnection {own : Option Connection} (hown : Returnable own) :
    wp cleanSem AddsClean DbConnectionPool.returnConnection (fun _ _ => True) own := by
  obtain ⟨c, rfl, hc⟩ := hown
  refine wp_bind (Q := fun r own => own = some c ∧ ∀ closed, r = .ok closed → closed = c.closed)
    ⟨nofun, ?_⟩ (fun closed own h => ?_) fun _ _ _ => trivial
  · rintro (e | closed) own' ⟨-, pool, pool', -, h⟩
    · cases h
    · obtain ⟨hclosed, h⟩ := Option.ite_none_right_eq_some.mp h
      obtain ⟨-, rfl⟩ := Prod.mk.inj (Option.some.inj h)
      refine ⟨rfl, ?_⟩
      rintro _ ⟨⟩
      exact (Option.some.inj hclosed).symm
  · obtain ⟨rfl, hclosed⟩ := h
    cases closed with
    | true =>
      refine wp_bind wp_replaceConnection (fun u own h => ?_) fun _ _ _ => trivial
      rw [h rfl]
      exact wp_addConnection
    | false =>
      rw [hc (hclosed false rfl).symm]
      exact wp_addConnection

/-! ### Requests -/

theorem wp_getConnection {own : Option Connection} :
    wp cleanSem AddsClean DbConnectionPool.getConnection
      (fun r own => r = .ok () → own = some .opened) own := by
  refine wp_catching (Q := fun r own => r = .ok () → own = some .opened) ⟨nofun, ?_⟩
    (fun _ _ h => h) fun e own h => ?_
  · rintro (e | u) own' ⟨-, pool, pool', hpool, h⟩
    · exact nofun
    · obtain ⟨c, hpoll, rfl⟩ := perform_take_ok h
      have hmem : c ∈ pool.items := by
        rw [(BoundedQueue.poll_eq_some_iff.mp hpoll).2]
        exact List.mem_cons_self
      rw [hpool c hmem]
      exact fun _ => rfl
  · cases e <;> exact nofun

/-- **A handler returns a clean connection, or one that will be replaced.** -/
theorem wp_withConnection {α : Type} {failed : String → JavaException} {body : Java α}
    (hbody : wp cleanSem AddsClean body BodyPost (some .opened)) {own : Option Connection} :
    wp cleanSem AddsClean (withConnection failed body) (fun _ _ => True) own := by
  refine wp_bind wp_getConnection (fun u own hown => ?_) fun _ _ _ => trivial
  rw [hown rfl]
  refine wp_andFinally _ (Q := fun _ own => Returnable own)
    (wp_catching hbody (fun a own h => ?_) fun e own h => ?_)
    (fun _ _ h => wp_returnConnection h) (fun _ _ _ => trivial) fun _ _ _ _ => trivial
  · rcases h with rfl | ⟨-, message, h⟩
    · exact returnable_opened
    · cases h
  · have husable : Usable own := h.elim (fun h => h ▸ usable_opened) And.left
    cases e with
    | sql message =>
      exact wp_bind (wp_close husable) (fun _ _ h => h) fun _ _ h => h
    | _ =>
      rcases h with rfl | ⟨-, message, h⟩
      · exact returnable_opened
      · cases h

theorem wp_process (request : Request) (own : Option Connection) :
    wp cleanSem AddsClean (process request) (fun _ _ => True) own := by
  refine wp_bind (Q := fun _ _ => True) ⟨nofun, fun _ _ _ => trivial⟩ (fun clientQueue own _ => ?_)
    fun _ _ _ => trivial
  split_ifs
  · trivial
  · refine wp_bind (Q := fun _ _ => True) ⟨nofun, fun _ _ _ => trivial⟩ (fun _ own _ => ?_)
      fun _ _ _ => trivial
    obtain ⟨r, rfl⟩ | ⟨failed, body, h, hbody⟩ := handler_plain request
    · exact wp_withConnection (wp_dequeueMessage r)
    · rw [h]
      exact wp_withConnection (wp_mono (fun _ _ h => .inl h) (wp_plain hbody))

/-! ### Runs -/

/-- Every worker is safe, and every pooled connection is clean. -/
structure Inv (s : Workers κ) : Prop where
  safe : Safe World.connection cleanSem AddsClean (fun _ _ => True) (fun _ => True) s
  pool : ∀ c ∈ s.world.connections.items, c = .opened

/-- What an operation puts into the pool. -/
theorem mem_perform {pool pool' : BoundedQueue Connection} {own own' : Option Connection} {op : Op}
    {a : Except JavaException (Ans op)} {c : Connection}
    (h : perform pool own op a = some (pool', own')) (hc : c ∈ pool'.items) :
    c ∈ pool.items ∨ op = .add ∧ own = some c := by
  by_cases hop : IsLocal op
  · rw [(perform_local hop h).1] at hc
    exact .inl hc
  cases op with
  | take =>
    rcases a with e | u
    · rw [(perform_take_error h).1] at hc
      exact .inl hc
    · obtain ⟨c', hpoll, -⟩ := perform_take_ok h
      rw [(BoundedQueue.poll_eq_some_iff.mp hpoll).2]
      exact .inl (List.mem_cons_of_mem _ hc)
  | isClosed =>
    rcases a with e | closed
    · cases h
    · obtain ⟨-, h⟩ := Option.ite_none_right_eq_some.mp h
      obtain ⟨rfl, -⟩ := Prod.mk.inj (Option.some.inj h)
      exact .inl hc
  | warnClosed =>
    rcases a with e | u
    · rw [(perform_warnClosed_error h).1] at hc
      exact .inl hc
    · obtain ⟨rfl, -⟩ := Prod.mk.inj (Option.some.inj h)
      exact .inl hc
  | createConnection =>
    rcases a with e | u
    · rw [(perform_createConnection_error h).1] at hc
      exact .inl hc
    · obtain ⟨rfl, -⟩ := Prod.mk.inj (Option.some.inj h)
      exact .inl hc
  | add =>
    rcases a with e | u
    · rw [(perform_add_error h).2.1] at hc
      exact .inl hc
    · obtain ⟨c', hown, hadd, -⟩ := perform_add_ok h
      rw [(BoundedQueue.add_eq_some_iff.mp hadd).2.2, List.mem_append, List.mem_singleton] at hc
      rcases hc with hc | rfl
      · exact .inl hc
      · exact .inr ⟨rfl, hown⟩
  | _ => exact absurd trivial hop

theorem Inv.step {s s' : Workers κ} {l : Label κ} (hs : Inv s) (h : WorkerStep s l s')
    (hl : ClosesTransactions s l) : Inv s' := by
  have hstep : Step process (fun w s op a s' => workerSem w s op a s' ∧
      ¬ LeavesOpen (s.connection w) op a) s l s' := by
    refine Step.restrict h ?_
    rintro w op a rfl
    exact hl
  refine ⟨?_, fun c hc => ?_⟩
  · refine Safe.step (fun world => ∀ c ∈ world.connections.items, c = .opened) Eq ?_ ?_ ?_ ?_
      (fun _ _ _ => trivial) hs.pool hs.safe hstep
    · rintro w s op a s' hpool - ⟨⟨pool, own, hperform, rfl⟩, hok⟩
      refine ⟨hok, s.connections, pool, hpool, ?_⟩
      simpa only [Function.update_self] using hperform
    · rintro w w' s op a s' - - ⟨⟨pool, own, -, rfl⟩, -⟩ hne
      exact (Function.update_of_ne hne _ _).symm
    · rintro v v' o rfl h
      exact h
    · exact fun request v _ => wp_process request v
  · obtain ⟨w, e⟩ := l
    cases hstep with
    | start i h => exact hs.pool c hc
    | finish h => exact hs.pool c hc
    | @call _ op k a _ hthread hsem =>
      have hadds := hs.safe.pre_call (show Step process workerSem s _ _ from h)
      obtain ⟨⟨pool, own, hperform, rfl⟩, -⟩ := hsem
      rcases mem_perform hperform hc with hc | ⟨hadd, hown⟩
      · exact hs.pool c hc
      · exact Option.some.inj (hown.symm.trans (hadds hadd))

/-- **No transaction reaches the pool** in a run in which `close` never throws before its last
`try` while a transaction may be in progress. -/
theorem allClean_of_run {poolSize : ℕ} {s₀ s : Workers κ} {is : List (Label κ)}
    (h₀ : AfterInit poolSize s₀) (h : Run (Restrict WorkerStep ClosesTransactions) s₀ is s) :
    AllClean s := by
  have hinit : Inv s₀ := by
    refine ⟨fun w => ?_, fun c hc => ?_⟩
    · rw [h₀.1 w]
      trivial
    · rw [h₀.pool.2] at hc
      exact List.eq_of_mem_replicate hc
  have hinv := h.invariant (fun s l s' hs hl => hs.step hl.1 hl.2) hinit
  exact fun c hc => isClean_iff.mpr (hinv.pool c hc)

/-! ### A dequeue whose `COMMIT` throws -/

/-- The message of a dequeue does not exist, the `COMMIT` throws, and `logClosing` answers the first
call of the logger in `close`. -/
def commitFails (logClosing : Except JavaException Unit) (s : World Unit) :
    (op : Op) → Except JavaException (Ans op)
  | .getClientQueue => .ok (some ⟨1, none⟩)
  | .getClient => .ok (some ⟨1, none⟩)
  | .isClosed => .ok ((s.connection ()).any Connection.closed)
  | .execute .beginTransaction => .ok ()
  | .execute (.peekMessageForUpdate _) => .ok none
  | .execute _ => .error (.sql "connection lost")
  | .logClosing => logClosing
  | .step | .take | .warnClosed | .createConnection | .add | .closeStatement | .closeJdbc
  | .setClosed | .setClient _ | .setClientQueue _ => .ok ()

/-- A dequeue without filters. -/
def anyMessage : Request := .dequeueMessage ⟨some ⟨none, none, false, none⟩⟩

/-- The first `n` calls for the dequeue. -/
def duringCommit (logClosing : Except JavaException Unit) (n : ℕ) :
    Option (List (Event Request Ans JavaException (Response JavaException)) ×
      Java (Response JavaException) × World Unit) :=
  feed Request (commitFails logClosing) (workerEffect ()) n (process anyMessage) oneWorker.world

theorem run_duringCommit {logClosing : Except JavaException Unit} {n : ℕ} {es p world}
    (h : duringCommit logClosing n = some (es, p, world)) :
    ∃ s, Run WorkerStep oneWorker (((), .start anyMessage) :: es.map fun e => ((), e)) s ∧
      s.world = world :=
  ⟨_, .cons (.start _ rfl) (run_feed workerSem_of_effect h (Function.update_self ..)), rfl⟩

/-- The event is not an exception of `close` before its last `try`. -/
def closesNormally : Event Request Ans JavaException (Response JavaException) → Bool
  | .call .logClosing a => a.isOk
  | .call .closeStatement a => a.isOk
  | _ => true

omit [DecidableEq κ] in
theorem closesTransactions_of {e} (h : closesNormally e = true) (s : Workers κ) (w : κ) :
    ClosesTransactions s (w, e) := by
  cases e with
  | call op a =>
    intro hleaves
    unfold LeavesOpen at hleaves
    split at hleaves
    · cases h
    · cases h
    · exact hleaves
  | _ => trivial

/-- If `close` comes to its end, the connection is replaced. -/
theorem allClean_afterCommit : ∃ is s, Run WorkerStep oneWorker is s ∧
    s.world.connections.items.length = 1 ∧ AllClean s := by
  obtain ⟨⟨es, p, world⟩, hr, he⟩ := Option.map_eq_some_iff.mp
    (show (duringCommit (.ok ()) 31).map (fun r => (r.2.2.connections.items.length,
      r.1.all closesNormally)) = some (1, true) by decide)
  obtain ⟨hlength, hall⟩ := Prod.mk.inj he
  obtain ⟨s, hrun, rfl⟩ := run_duringCommit hr
  have hnormal : Run (Restrict WorkerStep fun _ l => closesNormally l.2 = true) oneWorker _ s :=
    run_restrict_iff.mpr ⟨hrun, by simpa [closesNormally] using hall⟩
  have hcloses : Run (Restrict WorkerStep ClosesTransactions) oneWorker _ s :=
    hnormal.mono (P := fun _ => True) (fun _ _ _ _ _ => trivial)
      (fun s l _ _ h => ⟨h.1, closesTransactions_of h.2 s l.1⟩) trivial
  exact ⟨_, s, hrun, hlength, allClean_of_run afterInit_oneWorker hcloses⟩

/-- If the logger throws, the connection is pooled with its transaction. -/
theorem not_allClean_afterCommit : ¬ ∀ (poolSize : ℕ) (s₀ s : Workers Unit)
    (is : List (Label Unit)), AfterInit poolSize s₀ → Run WorkerStep s₀ is s → AllClean s := by
  intro hall
  obtain ⟨⟨es, p, world⟩, hr, he⟩ := Option.map_eq_some_iff.mp
    (show (duringCommit (.error (.runtime .other)) 11).map (fun r => r.2.2.connections.items) =
      some [{ Connection.opened with inTransaction := true }] by decide)
  obtain ⟨s, hrun, rfl⟩ := run_duringCommit hr
  have hclean := hall 1 oneWorker s _ afterInit_oneWorker hrun
    { Connection.opened with inTransaction := true } (by rw [he]; exact List.mem_cons_self)
  exact absurd hclean.2.2 Bool.true_eq_false.mp

end Mlmq.Server.OpenTransaction
