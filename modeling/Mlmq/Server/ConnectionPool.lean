import Mlmq.Server.Calls
import Mlmq.Lib.Queue

/-! # The connections of the workers

The handlers as threads that share the connection pool (`World`). A connection is a value that moves
between the pool and the variable of a handler, which does not use it after `returnConnection`.
`perform` is what an operation does with the pool and the variable; every statement may answer
anything or fail.

`conserved_iff`: a connection is lost exactly by a `returnConnection` that does not get a
replacement for a closed one. -/

namespace Mlmq.Server.ConnectionPool

open Mlmq.Dto Mlmq.Db.Schema Mlmq.Db.Dao Mlmq.Net.Requests Mlmq.Net.Responses
open Mlmq.Server.RequestProcessor Mlmq.Server.Calls Mlmq.Lib.Programs Mlmq.Lib.Transition
open Mlmq.Lib.Programs.Program
open Mlmq.Lib.Queue (BoundedQueue)

/-! ### Connections -/

/-- A `DbConnection`: its field `closed`, and whether the JDBC connection is closed and may have a
transaction in progress. -/
structure Connection where
  closed : Bool
  jdbcClosed : Bool
  inTransaction : Bool
deriving DecidableEq, Repr

/-- A new connection. -/
def Connection.opened : Connection := ⟨false, false, false⟩

/-- After a statement that has thrown or not. A `BEGIN` that throws may have begun a transaction, a
`COMMIT` that throws may have left it in progress. -/
def Connection.after (c : Connection) (threw : Bool) : Statement → Connection
  | .beginTransaction => { c with inTransaction := true }
  | .commitTransaction => if threw then c else { c with inTransaction := false }
  | _ => c

section Operations

variable (pool : BoundedQueue Connection) (own : Option Connection)

/-- The pool and the connection of the handler after an operation that answers; none if it does not
answer that. -/
def answered : (op : Op) → Ans op → Option (BoundedQueue Connection × Option Connection)
  | .take, _ => pool.poll.map fun taken => (taken.2, some taken.1)
  | .isClosed, closed => if own.map Connection.closed = some closed then some (pool, own) else none
  | .createConnection, _ => some (pool, some .opened)
  | .add, _ => do
    let connection ← own
    let pool' ← pool.add connection
    some (pool', none)
  | .closeJdbc, _ =>
    some (pool, own.map fun c => { c with jdbcClosed := true, inTransaction := false })
  | .setClosed, _ => some (pool, own.map fun c => { c with closed := true })
  | .execute stmt, _ => some (pool, own.map fun c => c.after false stmt)
  | _, _ => some (pool, own)

/-- The pool and the connection of the handler after an operation that throws; none if it does not
throw that. The handler has its connection until `returnConnection` is over, also if that ends with
an exception. -/
def threw : Op → JavaException → Option (BoundedQueue Connection × Option Connection)
  | .take, .interrupted => some (pool, own)
  | .warnClosed, .runtime _ => some (pool, none)
  | .createConnection, .sql _ => some (pool, none)
  | .createConnection, .runtime _ => some (pool, none)
  | .add, .runtime .illegalState => if pool.HasRoom then none else some (pool, none)
  | .execute stmt, .sql _ => some (pool, own.map fun c => c.after true stmt)
  | .closeStatement, .sql _ => some (pool, own)
  | .closeStatement, .runtime _ => some (pool, own)
  | .closeJdbc, .sql _ => some (pool, own)
  | .closeJdbc, .runtime _ => some (pool, own)
  | .step, .runtime _ => some (pool, own)
  | .logClosing, .runtime _ => some (pool, own)
  | _, _ => none

def perform (op : Op) :
    Except JavaException (Ans op) → Option (BoundedQueue Connection × Option Connection)
  | .ok a => answered pool own op a
  | .error e => threw pool own op e

end Operations

/-- What the operations do to the pool and one variable. -/
def poolSem : Semantics Ans JavaException (BoundedQueue Connection × Option Connection) :=
  fun s op a s' => perform s.1 s.2 op a = some s'

/-! ### The workers -/

/-- The pool, and the connection that the handler of each worker has. -/
structure World (κ : Type) where
  connections : BoundedQueue Connection
  connection : κ → Option Connection

variable {κ : Type} [DecidableEq κ]

/-- The operations as the worker `w` calls them. -/
def workerSem (w : κ) : Semantics Ans JavaException (World κ) := fun s op a s' =>
  ∃ pool own, perform s.connections (s.connection w) op a = some (pool, own) ∧
    s' = ⟨pool, Function.update s.connection w own⟩

abbrev Workers (κ : Type) : Type := State κ (World κ) Ans JavaException (Response JavaException)

abbrev Label (κ : Type) : Type := κ × Event Request Ans JavaException (Response JavaException)

/-- **The steps of the workers**, each of which processes one request after the other. -/
def WorkerStep : Workers κ → Label κ → Workers κ → Prop := Step process workerSem

/-- `init` has ended normally, and no worker has started. -/
def AfterInit (poolSize : ℕ) (s : Workers κ) : Prop :=
  (∀ w, s.thread w = none) ∧ (∀ w, s.world.connection w = none) ∧
    Runs poolSem (DbConnectionPool.init poolSize) (BoundedQueue.empty poolSize, none) (.ok ())
      (s.world.connections, none)

/-- The number of borrowed connections. -/
def borrowed [Fintype κ] (s : World κ) : ℕ :=
  (Finset.univ.filter fun w => (s.connection w).isSome).card

/-- **The pooled and the borrowed connections are `poolSize` many.** -/
def Conserved [Fintype κ] (poolSize : ℕ) (s : Workers κ) : Prop :=
  s.world.connections.items.length + borrowed s.world = poolSize

/-- The operation ends `returnConnection` without replacement for a closed connection. -/
def failsToReplace : (op : Op) → Except JavaException (Ans op) → Bool
  | .warnClosed, .error _ => true
  | .createConnection, .error _ => true
  | _, _ => false

/-- The step takes the branch `too many connections returned`. -/
def TooMany : Label κ → Prop
  | (_, .call .add (.error _)) => True
  | _ => False

/-- The step ends a `returnConnection` without replacement for a closed connection. -/
def LosesReplacement : Label κ → Prop
  | (_, .call op a) => failsToReplace op a
  | _ => False

/-! ### What an operation does -/

section Perform

variable {pool pool' : BoundedQueue Connection} {own own' : Option Connection} {op : Op}
  {a : Except JavaException (Ans op)}

/-- A local operation does nothing to the pool. -/
theorem perform_local (hop : IsLocal op) (h : perform pool own op a = some (pool', own')) :
    pool' = pool ∧ own'.isSome = own.isSome := by
  unfold perform at h
  split at h
  · unfold answered at h
    split at h
    all_goals first
      | exact hop.elim
      | (obtain ⟨rfl, rfl⟩ := Prod.mk.inj (Option.some.inj h)
         first | exact ⟨rfl, rfl⟩ | exact ⟨rfl, Option.isSome_map ..⟩)
  · unfold threw at h
    split at h
    all_goals first
      | exact hop.elim
      | (obtain ⟨rfl, rfl⟩ := Prod.mk.inj (Option.some.inj h)
         first | exact ⟨rfl, rfl⟩ | exact ⟨rfl, Option.isSome_map ..⟩)
      | cases h

theorem perform_take_ok {u : Unit} (h : perform pool own .take (.ok u) = some (pool', own')) :
    ∃ c, pool.poll = some (c, pool') ∧ own' = some c := by
  obtain ⟨⟨c, pool₁⟩, hpoll, he⟩ := Option.map_eq_some_iff.mp h
  obtain ⟨rfl, rfl⟩ := Prod.mk.inj he
  exact ⟨c, hpoll, rfl⟩

theorem perform_add_ok {u : Unit} (h : perform pool own .add (.ok u) = some (pool', own')) :
    ∃ c, own = some c ∧ pool.add c = some pool' ∧ own' = none := by
  obtain ⟨c, hc, h⟩ := Option.bind_eq_some_iff.mp h
  obtain ⟨pool₁, hadd, h⟩ := Option.bind_eq_some_iff.mp h
  obtain ⟨rfl, rfl⟩ := Prod.mk.inj (Option.some.inj h)
  exact ⟨c, hc, hadd, rfl⟩

/-- A `take` that throws takes nothing. -/
theorem perform_take_error {e : JavaException}
    (h : perform pool own .take (.error e) = some (pool', own')) : pool' = pool ∧ own' = own := by
  cases e with
  | interrupted =>
    obtain ⟨rfl, rfl⟩ := Prod.mk.inj (Option.some.inj h)
    exact ⟨rfl, rfl⟩
  | _ => cases h

theorem perform_warnClosed_error {e : JavaException}
    (h : perform pool own .warnClosed (.error e) = some (pool', own')) :
    pool' = pool ∧ own' = none := by
  cases e with
  | runtime e =>
    obtain ⟨rfl, rfl⟩ := Prod.mk.inj (Option.some.inj h)
    exact ⟨rfl, rfl⟩
  | _ => cases h

theorem perform_createConnection_error {e : JavaException}
    (h : perform pool own .createConnection (.error e) = some (pool', own')) :
    pool' = pool ∧ own' = none := by
  cases e with
  | sql message | runtime e =>
    obtain ⟨rfl, rfl⟩ := Prod.mk.inj (Option.some.inj h)
    exact ⟨rfl, rfl⟩
  | _ => cases h

/-- An `add` that throws has found the pool full. -/
theorem perform_add_error {e : JavaException}
    (h : perform pool own .add (.error e) = some (pool', own')) :
    ¬ pool.HasRoom ∧ pool' = pool ∧ own' = none := by
  cases e with
  | runtime e =>
    cases e with
    | illegalState =>
      obtain ⟨hfull, h⟩ := Option.ite_none_left_eq_some.mp h
      obtain ⟨rfl, rfl⟩ := Prod.mk.inj (Option.some.inj h)
      exact ⟨hfull, rfl, rfl⟩
    | _ => cases h
  | _ => cases h

end Perform

/-! ### The handlers, one at a time -/

/-- What an operation does as far as a handler sees: it finds `good` connections in the pool, and
`ok` restricts what the operations may do. -/
def viewSem (good : Connection → Prop)
    (ok : Option Connection → (op : Op) → Except JavaException (Ans op) → Prop) :
    Semantics Ans JavaException (Option Connection) := fun own op a own' =>
  ok own op a ∧ ∃ pool pool' : BoundedQueue Connection, (∀ c ∈ pool.items, good c) ∧
    perform pool own op a = some (pool', own')

/-- A handler takes a connection if it has none, and returns the one it has. -/
def HasConnection (own : Option Connection) : Op → Prop
  | .take => own = none
  | .isClosed | .warnClosed | .createConnection | .add => own.isSome
  | _ => True

section Handlers

variable {good : Connection → Prop}
  {ok : Option Connection → (op : Op) → Except JavaException (Ans op) → Prop}
  {own : Option Connection}

/-- A local program keeps whether the handler has a connection. -/
theorem wp_local {α : Type} {p : Java α} (hp : p.Only IsLocal)
    (hown : own.isSome) : wp (viewSem good ok) HasConnection p (fun _ own => own.isSome) own := by
  refine hp.wp ?_ ?_ hown
  · intro own op hop _
    cases op <;> trivial
  · rintro own op a own' hop hown ⟨-, pool, pool', -, h⟩
    rwa [(perform_local hop h).2]

/-- A connection if nothing was thrown, and none otherwise. -/
def Obtained {α : Type} : Except JavaException α → Option Connection → Prop
  | .ok _, own => own.isSome
  | .error _, own => own = none

theorem wp_getConnection : wp (viewSem good ok) HasConnection DbConnectionPool.getConnection
    Obtained none := by
  refine wp_catching (Q := Obtained) ⟨rfl, ?_⟩ (fun _ _ h => h) fun e own h => ?_
  · rintro (e | u) own ⟨-, pool, pool', -, h⟩
    · exact (perform_take_error h).2
    · obtain ⟨c, -, rfl⟩ := perform_take_ok h
      rfl
  · cases e <;> exact h

theorem wp_addConnection (hown : own.isSome) : wp (viewSem good ok) HasConnection
    DbConnectionPool.addConnection (fun _ own => own = none) own := by
  refine wp_catching (Q := fun _ own => own = none) ⟨hown, ?_⟩ (fun _ _ h => h) fun e own h => ?_
  · rintro (e | u) own ⟨-, pool, pool', -, h⟩
    · exact (perform_add_error h).2.2
    · obtain ⟨c, -, -, rfl⟩ := perform_add_ok h
      rfl
  · split <;> exact h

theorem wp_replaceConnection (hown : own.isSome) : wp (viewSem good ok) HasConnection
    DbConnectionPool.replaceConnection Obtained own := by
  refine wp_bind (Q := Obtained) ⟨hown, ?_⟩ (fun u own hown => ?_) fun _ _ h => h
  · rintro (e | u) own' ⟨-, pool, pool', -, h⟩
    · exact (perform_warnClosed_error h).2
    · obtain ⟨-, rfl⟩ := Prod.mk.inj (Option.some.inj h)
      exact hown
  · refine wp_catching (Q := Obtained) ⟨hown, ?_⟩ (fun _ _ h => h) fun e own h => ?_
    · rintro (e | u) own' ⟨-, pool, pool', -, h⟩
      · exact (perform_createConnection_error h).2
      · obtain ⟨-, rfl⟩ := Prod.mk.inj (Option.some.inj h)
        rfl
    · cases e <;> exact h

/-- **`returnConnection` ends without connection**, however it ends. -/
theorem wp_returnConnection (hown : own.isSome) : wp (viewSem good ok) HasConnection
    DbConnectionPool.returnConnection (fun _ own => own = none) own := by
  refine wp_bind (Q := fun r own => own.isSome ∧ r.isOk) ⟨hown, ?_⟩ (fun closed own h => ?_)
    fun e own h => absurd h.2 (by simp [Except.isOk, Except.toBool])
  · rintro (e | closed) own' ⟨-, pool, pool', -, h⟩
    · cases h
    · obtain ⟨-, h⟩ := Option.ite_none_right_eq_some.mp h
      obtain ⟨-, rfl⟩ := Prod.mk.inj (Option.some.inj h)
      exact ⟨hown, rfl⟩
  · split_ifs
    · exact wp_bind (wp_replaceConnection h.1) (fun _ _ h => wp_addConnection h) fun _ _ h => h
    · exact wp_addConnection h.1

/-- **A handler returns what it borrows.** -/
theorem wp_withConnection {α : Type} {failed : String → JavaException} {body : Java α}
    (hbody : body.Only IsLocal) : wp (viewSem good ok) HasConnection (withConnection failed body)
      (fun _ own => own = none) none := by
  refine wp_bind wp_getConnection (fun u own hown => ?_) fun _ _ h => h
  refine wp_andFinally _ (Q := fun _ own => own.isSome) (wp_catching (wp_local hbody hown)
    (fun _ _ h => h) fun e own h => ?_) (fun _ _ h => wp_returnConnection h) (fun _ _ h => h)
    fun _ _ _ h => h
  cases e with
  | sql message =>
    exact wp_bind (wp_local (closing_close.mono fun _ => IsClosing.isLocal) h) (fun _ _ h => h) fun _ _ h => h
  | _ => exact h

theorem wp_process (request : Request) : wp (viewSem good ok) HasConnection (process request)
    (fun _ own => own = none) none := by
  refine wp_bind (Q := fun _ own => own = none) ⟨trivial, ?_⟩ (fun clientQueue own h => ?_)
    fun _ _ h => h
  · rintro (e | clientQueue) own ⟨-, pool, pool', -, h⟩
    · cases h
    · obtain ⟨-, rfl⟩ := Prod.mk.inj (Option.some.inj h)
      rfl
  · subst h
    split_ifs
    · rfl
    · refine wp_bind (Q := fun _ own => own = none) ⟨trivial, ?_⟩ (fun _ own h => ?_) fun _ _ h => h
      · rintro (e | u) own ⟨-, pool, pool', -, h⟩
        · have hown := (perform_local (show IsLocal .step from trivial) h).2
          exact Option.isSome_eq_false_iff.mp hown |> Option.isNone_iff_eq_none.mp
        · obtain ⟨-, rfl⟩ := Prod.mk.inj (Option.some.inj h)
          rfl
      · subst h
        obtain ⟨failed, body, h, hbody⟩ := handler_local request
        rw [h]
        exact wp_withConnection hbody

end Handlers

/-! ### Counting -/

section Counting

variable {pool pool' : BoundedQueue Connection} {own own' : Option Connection} {op : Op}
  {a : Except JavaException (Ans op)}

/-- **What an operation does to the number of connections**: it keeps them, or fails to replace a
closed one. An `add` finds room if a borrowed connection has left it some. -/
theorem count_perform (hown : HasConnection own op) (hroom : own.isSome → pool.HasRoom)
    (h : perform pool own op a = some (pool', own')) :
    pool'.capacity = pool.capacity ∧ (op = .add → a.isOk) ∧
      pool'.items.length + own'.isSome.toNat + (failsToReplace op a).toNat =
        pool.items.length + own.isSome.toNat := by
  by_cases hop : IsLocal op
  · obtain ⟨rfl, hsome⟩ := perform_local hop h
    have hkeeps : failsToReplace op a = false := by
      cases op <;> first | rfl | exact hop.elim
    rw [hsome, hkeeps]
    exact ⟨rfl, fun hadd => absurd hop (by rw [hadd]; exact id), rfl⟩
  cases op with
  | take =>
    obtain rfl : own = none := hown
    rcases a with e | u
    · obtain ⟨rfl, rfl⟩ := perform_take_error h
      exact ⟨rfl, nofun, rfl⟩
    · obtain ⟨c, hpoll, rfl⟩ := perform_take_ok h
      obtain ⟨hcap, hitems⟩ := BoundedQueue.poll_eq_some_iff.mp hpoll
      refine ⟨hcap, nofun, ?_⟩
      rw [hitems]
      rfl
  | isClosed =>
    rcases a with e | closed
    · cases h
    · obtain ⟨-, h⟩ := Option.ite_none_right_eq_some.mp h
      obtain ⟨rfl, rfl⟩ := Prod.mk.inj (Option.some.inj h)
      exact ⟨rfl, nofun, rfl⟩
  | warnClosed =>
    rcases a with e | u
    · obtain ⟨rfl, rfl⟩ := perform_warnClosed_error h
      rw [show own.isSome = true from hown]
      exact ⟨rfl, nofun, rfl⟩
    · obtain ⟨rfl, rfl⟩ := Prod.mk.inj (Option.some.inj h)
      exact ⟨rfl, nofun, rfl⟩
  | createConnection =>
    rw [show own.isSome = true from hown]
    rcases a with e | u
    · obtain ⟨rfl, rfl⟩ := perform_createConnection_error h
      exact ⟨rfl, nofun, rfl⟩
    · obtain ⟨rfl, rfl⟩ := Prod.mk.inj (Option.some.inj h)
      exact ⟨rfl, nofun, rfl⟩
  | add =>
    rcases a with e | u
    · exact absurd (hroom hown) (perform_add_error h).1
    · obtain ⟨c, rfl, hadd, rfl⟩ := perform_add_ok h
      obtain ⟨-, hcap, hitems⟩ := BoundedQueue.add_eq_some_iff.mp hadd
      refine ⟨hcap, fun _ => rfl, ?_⟩
      rw [hitems, List.length_append]
      rfl
  | _ => exact absurd trivial hop

end Counting

/-- What a worker does to the number of borrowed connections. -/
theorem borrowed_update [Fintype κ] (s : World κ) (pool : BoundedQueue Connection) (w : κ)
    (own : Option Connection) :
    borrowed ⟨pool, Function.update s.connection w own⟩ + (s.connection w).isSome.toNat =
      borrowed s + own.isSome.toNat := by
  have hsum : ∀ t : World κ, borrowed t = (t.connection w).isSome.toNat +
      ∑ w' ∈ Finset.univ.erase w, (t.connection w').isSome.toNat := by
    intro t
    rw [Finset.add_sum_erase _ (fun w' => (t.connection w').isSome.toNat) (Finset.mem_univ w),
      borrowed, Finset.card_filter]
    exact Finset.sum_congr rfl fun w' _ => by cases t.connection w' <;> rfl
  have hrest : ∑ w' ∈ Finset.univ.erase w, (Function.update s.connection w own w').isSome.toNat =
      ∑ w' ∈ Finset.univ.erase w, (s.connection w').isSome.toNat := by
    refine Finset.sum_congr rfl fun w' hw' => ?_
    rw [Function.update_of_ne (Finset.ne_of_mem_erase hw')]
  rw [hsum, hsum s, hrest]
  simp only [Function.update_self]
  omega

/-! ### Runs -/

/-- Every worker is safe, and there are at most `poolSize` connections. -/
structure Inv [Fintype κ] (poolSize : ℕ) (s : Workers κ) : Prop where
  safe : Safe World.connection (viewSem (fun _ => True) fun _ _ _ => True) HasConnection
    (fun _ own => own = none) (fun own => own = none) s
  capacity : s.world.connections.capacity = poolSize
  le : s.world.connections.items.length + borrowed s.world ≤ poolSize

theorem Inv.safe_step [Fintype κ] {poolSize : ℕ} {s s' : Workers κ} {l : Label κ}
    (hs : Inv poolSize s) (h : WorkerStep s l s') : Safe World.connection
      (viewSem (fun _ => True) fun _ _ _ => True) HasConnection (fun _ own => own = none)
      (fun own => own = none) s' := by
  refine Safe.step (fun _ => True) Eq ?_ ?_ ?_ ?_ (fun _ _ h => h) trivial hs.safe h
  · rintro w s op a s' - - ⟨pool, own, hperform, rfl⟩
    refine ⟨trivial, s.connections, pool, fun _ _ => trivial, ?_⟩
    simpa only [Function.update_self] using hperform
  · rintro w w' s op a s' - - ⟨pool, own, -, rfl⟩ hne
    exact (Function.update_of_ne hne _ _).symm
  · rintro v v' o rfl h
    exact h
  · rintro request v rfl
    exact wp_process request

/-- **What a step does to the number of connections.** -/
theorem Inv.step [Fintype κ] {poolSize : ℕ} {s s' : Workers κ} {l : Label κ}
    (hs : Inv poolSize s) (h : WorkerStep s l s') :
    Inv poolSize s' ∧ ¬ TooMany l ∧
      (Conserved poolSize s → (Conserved poolSize s' ↔ ¬ LosesReplacement l)) := by
  have hsafe := hs.safe_step h
  have hle := hs.le
  unfold Conserved
  obtain ⟨w, e⟩ := l
  cases h with
  | start i h => exact ⟨⟨hsafe, hs.capacity, hle⟩, id, fun hc => ⟨fun _ => id, fun _ => hc⟩⟩
  | finish h => exact ⟨⟨hsafe, hs.capacity, hle⟩, id, fun hc => ⟨fun _ => id, fun _ => hc⟩⟩
  | @call _ op k a _ h hsem =>
    have hown := hs.safe.pre_call (.call h hsem : Step process workerSem s _ _)
    obtain ⟨pool, own, hperform, rfl⟩ := hsem
    have hborrowed := borrowed_update s.world pool w own
    have hroom : (s.world.connection w).isSome → s.world.connections.HasRoom := by
      intro hsome
      have hpos : 0 < borrowed s.world :=
        Finset.card_pos.mpr ⟨w, Finset.mem_filter.mpr ⟨Finset.mem_univ w, hsome⟩⟩
      have hcap := hs.capacity
      unfold BoundedQueue.HasRoom
      omega
    obtain ⟨hcap, hadd, hcount⟩ := count_perform hown hroom hperform
    refine ⟨⟨hsafe, hcap.trans hs.capacity, ?_⟩, ?_, ?_⟩
    · change pool.items.length +
        borrowed ⟨pool, Function.update s.world.connection w own⟩ ≤ poolSize
      omega
    · intro hmany
      unfold TooMany at hmany
      split at hmany
      · rename_i heq
        cases heq
        cases hadd rfl
      · exact hmany
    · intro hc
      change pool.items.length + borrowed ⟨pool, Function.update s.world.connection w own⟩ =
        poolSize ↔ ¬ failsToReplace op a = true
      cases hf : failsToReplace op a
      · rw [hf] at hcount
        simp only [Bool.toNat_false, Bool.false_eq_true, not_false_eq_true, iff_true] at hcount ⊢
        omega
      · rw [hf] at hcount
        simp only [Bool.toNat_true, not_true_eq_false, iff_false] at hcount ⊢
        omega

/-! ### The start -/

/-- The loop of `init` fills the pool. -/
theorem wp_fill (n : ℕ) (pool : BoundedQueue Connection) (own : Option Connection) :
    wp poolSem (fun _ _ => True) (DbConnectionPool.fill n)
      (fun r s => r = .ok () → s.1.capacity = pool.capacity ∧
        s.1.items = pool.items ++ List.replicate n .opened) (pool, own) := by
  induction n generalizing pool own with
  | zero => exact fun _ => ⟨rfl, (List.append_nil _).symm⟩
  | succ n ih =>
    refine wp_bind (Q := fun r s => s.1 = pool ∧ (r = .ok () → s.2 = some .opened)) ⟨trivial, ?_⟩
      (fun u s hs => ?_) fun e s _ => nofun
    · rintro (e | u) ⟨pool', own'⟩ h
      · exact ⟨(perform_createConnection_error h).1, nofun⟩
      · obtain ⟨rfl, rfl⟩ := Prod.mk.inj (Option.some.inj h)
        exact ⟨rfl, fun _ => rfl⟩
    · obtain ⟨pool₁, own₁⟩ := s
      obtain ⟨rfl, hown⟩ := hs
      obtain rfl : own₁ = some .opened := hown rfl
      refine wp_bind (Q := fun r s => r = .ok () → s.1.capacity = pool₁.capacity ∧
        s.1.items = pool₁.items ++ [.opened]) ⟨trivial, ?_⟩ (fun u s hs => ?_) fun e s _ => nofun
      · rintro (e | u) ⟨pool', own'⟩ h
        · exact nofun
        · obtain ⟨c, hc, hadd, -⟩ := perform_add_ok h
          obtain ⟨-, hcap, hitems⟩ := BoundedQueue.add_eq_some_iff.mp hadd
          obtain rfl := Option.some.inj hc
          exact fun _ => ⟨hcap, hitems⟩
      · obtain ⟨hcap, hitems⟩ := hs rfl
        refine wp_mono (fun r s hr hok => ?_) (ih s.1 s.2)
        obtain ⟨hcap', hitems'⟩ := hr hok
        refine ⟨hcap'.trans hcap, ?_⟩
        rw [hitems', hitems, List.append_assoc]
        rfl

omit [DecidableEq κ] in
/-- After `init` the pool holds `poolSize` new connections. -/
theorem AfterInit.pool {poolSize : ℕ} {s : Workers κ} (h : AfterInit poolSize s) :
    s.world.connections.capacity = poolSize ∧
      s.world.connections.items = List.replicate poolSize .opened := by
  have hinit : wp poolSem (fun _ _ => True) (DbConnectionPool.init poolSize)
      (fun r s => r = .ok () → s.1.capacity = poolSize ∧
        s.1.items = List.replicate poolSize .opened) (BoundedQueue.empty poolSize, none) := by
    refine wp_bind (Q := fun r s => r = .ok () → s = (BoundedQueue.empty poolSize, none))
      ⟨trivial, ?_⟩ (fun u s hs => ?_) fun e s _ => nofun
    · rintro (e | u) s hs hok
      · cases hok
      · exact (Option.some.inj hs).symm
    · rw [hs rfl]
      refine wp_catching (wp_fill _ _ _) (fun u s hs => hs) fun e s _ => ?_
      cases e <;> exact nofun
  exact hinit.sound h.2.2 rfl

omit [DecidableEq κ] in
theorem AfterInit.inv [Fintype κ] {poolSize : ℕ} {s : Workers κ} (h : AfterInit poolSize s) :
    Inv poolSize s ∧ Conserved poolSize s := by
  obtain ⟨hcap, hitems⟩ := h.pool
  have hborrowed : borrowed s.world = 0 := by
    rw [borrowed, Finset.card_eq_zero, Finset.filter_eq_empty_iff]
    intro w _
    rw [h.2.1 w]
    exact Bool.false_ne_true
  have hcount : Conserved poolSize s := by
    rw [Conserved, hborrowed, hitems, List.length_replicate, Nat.add_zero]
  refine ⟨⟨fun w => ?_, hcap, hcount.le⟩, hcount⟩
  rw [h.1 w]
  exact h.2.1 w

theorem workerSem_deterministic {w : κ} {s s' s'' : World κ} {op : Op}
    {a : Except JavaException (Ans op)} (h : workerSem w s op a s') (h' : workerSem w s op a s'') :
    s' = s'' := by
  obtain ⟨pool, own, hperform, rfl⟩ := h
  obtain ⟨pool', own', hperform', rfl⟩ := h'
  obtain ⟨rfl, rfl⟩ := Prod.mk.inj (Option.some.inj (hperform.symm.trans hperform'))
  rfl

theorem workerStep_deterministic {s s' s'' : Workers κ} {l : Label κ} (h : WorkerStep s l s')
    (h' : WorkerStep s l s'') : s' = s'' := by
  refine Step.deterministic (fun w s op a t t' => ?_) h h'
  exact workerSem_deterministic

/-- **The pool is conserved, and never too full, iff every closed connection is replaced.** -/
theorem conserved_iff [Fintype κ] {poolSize : ℕ} {s₀ s : Workers κ} {is : List (Label κ)}
    (h₀ : AfterInit poolSize s₀) (h : Run WorkerStep s₀ is s) :
    (Throughout WorkerStep (Conserved poolSize) s₀ is ∧ ∀ l ∈ is, ¬ TooMany l) ↔
      ∀ l ∈ is, ¬ LosesReplacement l := by
  obtain ⟨hinv, hcons⟩ := h₀.inv
  have hmany : ∀ l ∈ is, ¬ TooMany l := by
    clear h₀ hcons
    induction h with
    | nil s => exact fun l hl => absurd hl List.not_mem_nil
    | cons h _ ih =>
      obtain ⟨hinv', hl, -⟩ := hinv.step h
      exact List.forall_mem_cons.mpr ⟨hl, ih hinv'⟩
  have hiff : Throughout WorkerStep (Conserved poolSize) s₀ is ↔
      Run (Restrict WorkerStep fun _ l => ¬ LosesReplacement l) s₀ is s := by
    refine Run.throughout_iff (I := Inv poolSize) ?_ ?_ ?_ h hinv hcons
    · exact fun _ _ _ _ => workerStep_deterministic
    · exact fun _ _ _ hs h => (hs.step h).1
    · exact fun _ _ _ hs hc h => (hs.step h).2.2 hc
  rw [hiff, run_restrict_iff]
  exact ⟨fun hall => hall.1.2, fun hall => ⟨⟨h, hall⟩, hmany⟩⟩

/-! ### An outage -/

/-- The effect of an operation that the worker `w` calls. -/
def workerEffect (w : κ) (s : World κ) (op : Op) (a : Except JavaException (Ans op)) :
    Option (World κ) :=
  (perform s.connections (s.connection w) op a).map fun r =>
    ⟨r.1, Function.update s.connection w r.2⟩

theorem workerSem_of_effect {w : κ} (s : World κ) (op : Op) (a : Except JavaException (Ans op))
    (s' : World κ) (h : workerEffect w s op a = some s') : workerSem w s op a s' := by
  obtain ⟨r, hperform, rfl⟩ := Option.map_eq_some_iff.mp h
  exact ⟨r.1, r.2, hperform, rfl⟩

/-- A pool with one connection. -/
def onePool : BoundedQueue Connection := ⟨1, [.opened], le_rfl⟩

/-- One worker, which has not started. -/
def oneWorker : Workers Unit where
  world := ⟨onePool, fun _ => none⟩
  thread := fun _ => none

theorem afterInit_oneWorker : AfterInit 1 oneWorker :=
  ⟨fun _ => rfl, fun _ => rfl, .ok (), _, rfl, .ok (), _, rfl, .ok (), _, rfl, rfl, rfl⟩

/-- Every statement fails, and so does a new connection. -/
def outage (s : World Unit) : (op : Op) → Except JavaException (Ans op)
  | .getClientQueue => .ok (some ⟨1, none⟩)
  | .getClient => .ok (some ⟨1, none⟩)
  | .isClosed => .ok ((s.connection ()).any Connection.closed)
  | .execute _ => .error (.sql "connection lost")
  | .createConnection => .error (.sql "connection refused")
  | .step | .take | .warnClosed | .add | .logClosing | .closeStatement | .closeJdbc | .setClosed
  | .setClient _ | .setClientQueue _ => .ok ()

/-- The first `n` calls for a request during the outage. -/
def duringOutage (n : ℕ) : Option (List (Event Request Ans JavaException (Response JavaException)) ×
    Java (Response JavaException) × World Unit) :=
  feed Request outage (workerEffect ()) n (process (.lookupClient ⟨some "client"⟩)) oneWorker.world

theorem run_duringOutage {n : ℕ} {es p world}
    (h : duringOutage n = some (es, p, world)) :
    ∃ s, Run WorkerStep oneWorker (((), .start (.lookupClient ⟨some "client"⟩)) ::
      es.map fun e => ((), e)) s ∧ s.world = world :=
  ⟨_, .cons (.start _ rfl) (run_feed workerSem_of_effect h (Function.update_self ..)), rfl⟩

/-- The handler closes its connection, and everything is as it should be as long as
`returnConnection` has not tried to replace it. -/
theorem conserved_duringOutage : ∃ is s, Run WorkerStep oneWorker is s ∧ is.length = 28 ∧
    Throughout WorkerStep (Conserved 1) oneWorker is := by
  obtain ⟨⟨es, p, world⟩, hr, he⟩ := Option.map_eq_some_iff.mp
    (show (duringOutage 27).map (fun r => (r.1.length, r.1.all fun e => match e with
      | .call op a => !failsToReplace op a
      | _ => false)) = some (27, true) by decide)
  obtain ⟨hlength, hall⟩ := Prod.mk.inj he
  obtain ⟨s, hrun, -⟩ := run_duringOutage hr
  refine ⟨_, s, hrun, ?_, ((conserved_iff afterInit_oneWorker hrun).mpr ?_).1⟩
  · simpa using hlength
  · simp only [List.forall_mem_cons, List.forall_mem_map]
    refine ⟨id, fun e he => ?_⟩
    have h := List.all_eq_true.mp hall e he
    cases e with
    | call op a => simpa [LosesReplacement] using h
    | _ => exact id

/-- The pool is empty and nothing is borrowed after a request during an outage. -/
theorem not_conserved_afterOutage : ¬ ∀ (poolSize : ℕ) (s₀ s : Workers Unit) (is : List (Label Unit)),
    AfterInit poolSize s₀ → Run WorkerStep s₀ is s →
      Throughout WorkerStep (Conserved poolSize) s₀ is ∧ ∀ l ∈ is, ¬ TooMany l := by
  intro hall
  obtain ⟨⟨es, p, world⟩, hr, he⟩ := Option.map_eq_some_iff.mp
    (show (duringOutage 28).map (fun r => r.2.2.connections.items.length + borrowed r.2.2) =
      some 0 by decide)
  obtain ⟨s, hrun, hworld⟩ := run_duringOutage hr
  have hcons : s.world.connections.items.length + borrowed s.world = 1 :=
    (hall 1 oneWorker s _ afterInit_oneWorker hrun).1 _ s List.prefix_rfl hrun
  rw [hworld] at hcons
  exact absurd (hcons.symm.trans he) one_ne_zero

end Mlmq.Server.ConnectionPool
