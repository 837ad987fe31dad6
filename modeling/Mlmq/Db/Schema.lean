import Mlmq.Db.Table

/-! # The schema and the statements

The three tables with their sequences (`Database`), and the prepared statements of the data access
objects. `Executes db stmt r db'` is an execution of a statement that ends without error: its result
`r` and the database behind it. Which of the rows that match a `SELECT` comes first, which of the
first rows of an `ORDER BY`, and the time of an insert are open; `answer` is one possible execution.

A statement without execution fails: a value does not fit its column or cannot be sent, a row with
the name exists already, a row that is referred to does not, a sequence is at its end. -/

namespace Mlmq.Db.Schema

open Mlmq.Dto Mlmq.Db.Table

/-! ### Tables -/

structure ClientRow where
  id : Int32
  name : Option String
deriving DecidableEq, Repr

structure QueueRow where
  id : Int32
  name : Option String
  clientId : Option Int32
deriving DecidableEq, Repr

/-- The tables, and the next value of each sequence. -/
structure Database where
  clients : List ClientRow
  queues : List QueueRow
  messages : List Message
  clientSeq : ℕ
  queueSeq : ℕ
  messageSeq : ℕ
  contextSeq : ℕ
deriving DecidableEq, Repr

/-- The tables after `001_table_create.sql`. -/
def Database.empty : Database where
  clients := []
  queues := []
  messages := []
  clientSeq := 1
  queueSeq := 1
  messageSeq := 1
  contextSeq := 1

/-! ### Values -/

/-- The server refuses a text with the character 0. -/
def Sendable (text : Option String) : Prop := ∀ s ∈ text, Char.ofNat 0 ∉ s.toList

instance (text : Option String) : Decidable (Sendable text) :=
  inferInstanceAs (Decidable (∀ s ∈ text, Char.ofNat 0 ∉ s.toList))

/-- A text for a `VARCHAR(50)` column: spaces behind 50 characters are cut off, anything else there
is an error. -/
def toVarchar : Option String → Option (Option String)
  | none => some none
  | some s =>
    if (s.toList.drop 50).all (· = ' ') then some (some (String.ofList (s.toList.take 50)))
    else none

/-- What a `VARCHAR(50)` column stores of a parameter. -/
def storedName (name : Option String) : Option (Option String) :=
  if Sendable name then toVarchar name else none

/-- The value of a sequence for an `INTEGER` column. -/
def toId (n : ℕ) : Option Int32 := if n < 2 ^ 31 then some (Int32.ofNat n) else none

/-- The condition `name = ?`, which no row meets if either is null. -/
def NameIs (name columnName : Option String) : Prop := name ≠ none ∧ columnName = name

instance (name columnName : Option String) : Decidable (NameIs name columnName) :=
  inferInstanceAs (Decidable (_ ∧ _))

/-! ### Changes of the tables -/

namespace Database

variable (db : Database)

/-- `INSERT INTO client(name)`, with the new id. -/
def createClient (name : Option String) : Option (Int32 × Database) := do
  let stored ← storedName name
  let id ← toId db.clientSeq
  if ∃ row ∈ db.clients, NameIs stored row.name then none
  else some (id, { db with clients := db.clients ++ [⟨id, stored⟩], clientSeq := db.clientSeq + 1 })

/-- `INSERT INTO queue(client_id, name)`, with the new id. -/
def createQueue (clientId : Option Int32) (name : Option String) : Option (Int32 × Database) := do
  let stored ← storedName name
  let id ← toId db.queueSeq
  if (∃ row ∈ db.queues, NameIs stored row.name) ∨
      ∃ c ∈ clientId, ∀ row ∈ db.clients, row.id ≠ c then none
  else some (id,
    { db with queues := db.queues ++ [⟨id, stored, clientId⟩], queueSeq := db.queueSeq + 1 })

/-- `DELETE FROM queue WHERE id = ?`, with the messages in the queue. -/
def deleteQueue (id : Int64) : Database :=
  { db with
    queues := db.queues.filter fun row => row.id.toInt64 ≠ id
    messages := db.messages.filter fun m => m.queueId.toInt64 ≠ id }

/-- `INSERT INTO message`, at the time `sentAt`. -/
def insertMessage (args : Insert) (sentAt : ℕ) : Option Database := do
  let id ← toId db.messageSeq
  let m ← args.row id sentAt
  if (∃ row ∈ db.queues, row.id = m.queueId) ∧ ∃ row ∈ db.clients, row.id = m.clientSenderId then
    some { db with messages := db.messages ++ [m], messageSeq := db.messageSeq + 1 }
  else none

/-- `DELETE FROM message WHERE id = ?`. -/
def deleteMessage (id : Int64) : Database :=
  { db with messages := db.messages.filter fun m => m.id.toInt64 ≠ id }

/-- The queues that contain messages. -/
def queuesWithMessages : List Int32 := (db.messages.map Message.queueId).dedup

end Database

/-! ### Statements -/

/-- The prepared statements with their parameters. -/
inductive Statement
  | beginTransaction
  | commitTransaction
  | createClient (name : Option String)
  | clientByName (name : Option String)
  | createQueue (clientId : Option Int32) (name : Option String)
  | deleteQueue (id : Int64)
  | queueByClientId (clientId : Int64)
  | queueByName (name : Option String)
  | insertMessage (args : Insert)
  | peekMessage (args : PeekArgs)
  | peekMessageForUpdate (args : PeekArgs)
  | deleteMessage (id : Int64)
  | generateNewConversationContext
  | publicQueuesContainingMessages (limit : Int32)
  | numMsgPerQueue (queueId : Int64)
deriving DecidableEq, Repr

/-- What the code reads from the result. -/
abbrev Statement.Result : Statement → Type
  | .beginTransaction | .commitTransaction | .deleteQueue _ | .insertMessage _ => Unit
  | .createClient _ | .createQueue _ _ | .numMsgPerQueue _ => Int32
  | .clientByName _ => Option ClientRow
  | .queueByClientId _ | .queueByName _ => Option QueueRow
  | .peekMessage _ | .peekMessageForUpdate _ => Option Message
  | .deleteMessage _ => ℕ
  | .generateNewConversationContext => Int64
  | .publicQueuesContainingMessages _ => List Int32

/-- The first row of a result, in any order. -/
def Fetches {ρ : Type} (rows : List ρ) (P : ρ → Prop) : Option ρ → Prop
  | none => ∀ row ∈ rows, ¬ P row
  | some row => row ∈ rows ∧ P row

/-- The row that the stored procedures `peekMessage` and `dequeueMessage` choose. -/
def Peeks (args : PeekArgs) (messages : List Message) : Option Message → Prop
  | none => ∀ m ∈ messages, ¬ args.Selects m
  | some m => args.Picks messages.toFinset m

/-- **The executions of a statement**, outside of transactions. -/
def Executes (db : Database) : (stmt : Statement) → stmt.Result → Database → Prop
  | .beginTransaction, _, db' => db' = db
  | .commitTransaction, _, db' => db' = db
  | .createClient name, id, db' => db.createClient name = some (id, db')
  | .clientByName name, row, db' =>
    Sendable name ∧ Fetches db.clients (fun row => NameIs name row.name) row ∧ db' = db
  | .createQueue clientId name, id, db' => db.createQueue clientId name = some (id, db')
  | .deleteQueue id, _, db' => db' = db.deleteQueue id
  | .queueByClientId clientId, row, db' =>
    Fetches db.queues (fun row => row.clientId.map Int32.toInt64 = some clientId) row ∧ db' = db
  | .queueByName name, row, db' =>
    Sendable name ∧ Fetches db.queues (fun row => NameIs name row.name) row ∧ db' = db
  | .insertMessage args, _, db' => ∃ sentAt, db.insertMessage args sentAt = some db'
  | .peekMessage args, m, db' => Peeks args db.messages m ∧ db' = db
  | .peekMessageForUpdate args, m, db' => Peeks args db.messages m ∧ db' = db
  | .deleteMessage id, count, db' =>
    count = (db.messages.filter fun m => m.id.toInt64 = id).length ∧ db' = db.deleteMessage id
  | .generateNewConversationContext, context, db' =>
    db.contextSeq < 2 ^ 63 ∧ context = Int64.ofNat db.contextSeq ∧
      db' = { db with contextSeq := db.contextSeq + 1 }
  | .publicQueuesContainingMessages limit, queueIds, db' =>
    0 ≤ limit.toInt ∧ queueIds.Nodup ∧ queueIds ⊆ db.queuesWithMessages ∧
      queueIds.length = min limit.toInt.toNat db.queuesWithMessages.length ∧ db' = db
  | .numMsgPerQueue queueId, count, db' =>
    (db.messages.filter fun m => m.queueId.toInt64 = queueId).length < 2 ^ 31 ∧
      count = Int32.ofNat (db.messages.filter fun m => m.queueId.toInt64 = queueId).length ∧
      db' = db

/-- The statement fails. -/
def Fails (db : Database) (stmt : Statement) : Prop := ∀ r db', ¬ Executes db stmt r db'

/-! ### One execution -/

instance (args : PeekArgs) (m m' : Message) : Decidable (args.Precedes m m') :=
  inferInstanceAs (Decidable (if args.shouldOrderByPriority then m'.prio.toInt ≤ m.prio.toInt
    else m.sentAt ≤ m'.sentAt))

instance (args : PeekArgs) (rows : Finset Message) (m : Message) : Decidable (args.Picks rows m) :=
  inferInstanceAs (Decidable (_ ∧ _ ∧ _))

/-- The first of the rows that may be chosen. -/
def Database.peek (db : Database) (args : PeekArgs) : Option Message :=
  db.messages.find? fun m => args.Picks db.messages.toFinset m

/-- The execution that takes rows in the order of the table, and the number of a message for the
time of its insert; none if the statement fails. -/
def Database.answer (db : Database) : (stmt : Statement) → Option (stmt.Result × Database)
  | .beginTransaction => some ((), db)
  | .commitTransaction => some ((), db)
  | .createClient name => db.createClient name
  | .clientByName name =>
    if Sendable name then some (db.clients.find? fun row => NameIs name row.name, db) else none
  | .createQueue clientId name => db.createQueue clientId name
  | .deleteQueue id => some ((), db.deleteQueue id)
  | .queueByClientId clientId =>
    some (db.queues.find? fun row => row.clientId.map Int32.toInt64 = some clientId, db)
  | .queueByName name =>
    if Sendable name then some (db.queues.find? fun row => NameIs name row.name, db) else none
  | .insertMessage args => (db.insertMessage args db.messageSeq).map fun db' => ((), db')
  | .peekMessage args => some (db.peek args, db)
  | .peekMessageForUpdate args => some (db.peek args, db)
  | .deleteMessage id =>
    some ((db.messages.filter fun m => m.id.toInt64 = id).length, db.deleteMessage id)
  | .generateNewConversationContext =>
    if db.contextSeq < 2 ^ 63 then
      some (Int64.ofNat db.contextSeq, { db with contextSeq := db.contextSeq + 1 })
    else none
  | .publicQueuesContainingMessages limit =>
    if 0 ≤ limit.toInt then some (db.queuesWithMessages.take limit.toInt.toNat, db) else none
  | .numMsgPerQueue queueId =>
    if (db.messages.filter fun m => m.queueId.toInt64 = queueId).length < 2 ^ 31 then
      some (Int32.ofNat (db.messages.filter fun m => m.queueId.toInt64 = queueId).length, db)
    else none

theorem fetches_find {ρ : Type} (rows : List ρ) (P : ρ → Prop) [DecidablePred P] :
    Fetches rows P (rows.find? fun row => P row) := by
  cases h : rows.find? fun row => P row with
  | none => simpa [Fetches] using h
  | some row => exact ⟨List.mem_of_find?_eq_some h, by simpa using List.find?_some h⟩

theorem peeks_peek (db : Database) (args : PeekArgs) : Peeks args db.messages (db.peek args) := by
  have h := fetches_find db.messages fun m => args.Picks db.messages.toFinset m
  unfold Database.peek
  cases hm : db.messages.find? fun m => args.Picks db.messages.toFinset m with
  | some m =>
    rw [hm] at h
    exact h.2
  | none =>
    rw [hm] at h
    intro m hmem hsel
    obtain ⟨m', hpicks⟩ :=
      (args.exists_picks_iff db.messages.toFinset).mpr ⟨m, List.mem_toFinset.mpr hmem, hsel⟩
    exact h m' (List.mem_toFinset.mp hpicks.1) hpicks

theorem executes_answer {db db' : Database} {stmt : Statement} {r : stmt.Result}
    (h : db.answer stmt = some (r, db')) : Executes db stmt r db' := by
  cases stmt with
  | beginTransaction | commitTransaction | deleteQueue =>
    obtain ⟨-, rfl⟩ := Prod.mk.inj (Option.some.inj h)
    rfl
  | createClient | createQueue => exact h
  | clientByName name | queueByName name =>
    simp only [Database.answer, Option.ite_none_right_eq_some] at h
    obtain ⟨hs, hr⟩ := h
    obtain ⟨rfl, rfl⟩ := Prod.mk.inj (Option.some.inj hr)
    exact ⟨hs, fetches_find _ _, rfl⟩
  | queueByClientId clientId =>
    obtain ⟨rfl, rfl⟩ := Prod.mk.inj (Option.some.inj h)
    exact ⟨fetches_find _ _, rfl⟩
  | insertMessage args =>
    obtain ⟨db₁, hdb, he⟩ := Option.map_eq_some_iff.mp h
    obtain ⟨-, rfl⟩ := Prod.mk.inj he
    exact ⟨_, hdb⟩
  | peekMessage args | peekMessageForUpdate args =>
    obtain ⟨rfl, rfl⟩ := Prod.mk.inj (Option.some.inj h)
    exact ⟨peeks_peek _ args, rfl⟩
  | deleteMessage id =>
    obtain ⟨rfl, rfl⟩ := Prod.mk.inj (Option.some.inj h)
    exact ⟨rfl, rfl⟩
  | generateNewConversationContext | numMsgPerQueue queueId =>
    simp only [Database.answer, Option.ite_none_right_eq_some] at h
    obtain ⟨hlt, hr⟩ := h
    obtain ⟨rfl, rfl⟩ := Prod.mk.inj (Option.some.inj hr)
    exact ⟨hlt, rfl, rfl⟩
  | publicQueuesContainingMessages limit =>
    simp only [Database.answer, Option.ite_none_right_eq_some] at h
    obtain ⟨hlimit, hr⟩ := h
    obtain ⟨rfl, rfl⟩ := Prod.mk.inj (Option.some.inj hr)
    exact ⟨hlimit, (List.nodup_dedup _).sublist (List.take_sublist _ _), List.take_subset _ _,
      List.length_take .., rfl⟩

theorem row_time (args : Insert) (id : Int32) (t t' : ℕ) :
    args.row id t' = (args.row id t).map fun m => { m with sentAt := t' } := by
  simp only [Insert.row, Option.bind_eq_bind, Option.map_bind, Function.comp_def]
  rfl

/-- Whether a message can be inserted does not depend on the time. -/
theorem Database.insertMessage_eq_none {db : Database} {args : Insert} {t : ℕ} (t' : ℕ)
    (h : db.insertMessage args t = none) : db.insertMessage args t' = none := by
  simp only [Database.insertMessage, Option.bind_eq_bind, Option.bind_eq_none_iff] at h ⊢
  intro id hid m' hm'
  rw [row_time args id t t', Option.map_eq_some_iff] at hm'
  obtain ⟨m, hm, rfl⟩ := hm'
  simpa using h id hid m hm

theorem fails_of_answer {db : Database} {stmt : Statement} (h : db.answer stmt = none) :
    Fails db stmt := by
  intro r db' he
  cases stmt with
  | createClient | createQueue => exact Option.some_ne_none _ (he.symm.trans h)
  | clientByName name | queueByName name =>
    simp only [Database.answer, ite_eq_right_iff, reduceCtorEq, imp_false] at h
    exact h he.1
  | insertMessage args =>
    obtain ⟨t, ht⟩ := he
    rw [Database.insertMessage_eq_none t (Option.map_eq_none_iff.mp h)] at ht
    cases ht
  | generateNewConversationContext | numMsgPerQueue queueId
  | publicQueuesContainingMessages limit =>
    simp only [Database.answer, ite_eq_right_iff, reduceCtorEq, imp_false] at h
    exact h he.1
  | _ => cases h

/-! ### What a change of the tables does -/

/-- Different ids stay different as `long`s. -/
theorem toInt64_inj {a b : Int32} : a.toInt64 = b.toInt64 ↔ a = b := by
  refine ⟨fun h => Int32.toInt_inj.mp ?_, fun h => congrArg _ h⟩
  rw [← Int32.toInt_toInt64, h, Int32.toInt_toInt64]

theorem toInt32_toInt64 (a : Int32) : a.toInt64.toInt32 = a := by
  rw [← Int32.toInt_inj, Int64.toInt_toInt32, Int32.toInt_toInt64]
  exact Int32.toInt_bmod a

theorem eq_toInt32_iff {a : Int32} {l : Int64} :
    a.toInt64 = l ↔ l.toInt32.toInt64 = l ∧ a = l.toInt32 := by
  constructor
  · rintro rfl
    rw [toInt32_toInt64]
    exact ⟨rfl, rfl⟩
  · rintro ⟨hl, rfl⟩
    exact hl

theorem toInteger_eq_some {l : Int64} {id : Int32} : toInteger l = some id ↔ id.toInt64 = l := by
  unfold toInteger
  rw [Option.ite_none_right_eq_some, Option.some.injEq, @eq_toInt32_iff id l, eq_comm (b := id)]

theorem toSmallint_eq_some {p : Int32} {prio : Int16} :
    toSmallint p = some prio ↔ p.toInt16.toInt32 = p ∧ p.toInt16 = prio := by
  unfold toSmallint
  rw [Option.ite_none_right_eq_some, Option.some.injEq]

section Changes

variable {db db' : Database} {name : Option String} {clientId : Option Int32} {id : Int32}

theorem toInt_of_toId {n : ℕ} (h : toId n = some id) : id.toInt = n := by
  unfold toId at h
  split_ifs at h with hn
  obtain rfl := Option.some.inj h
  exact Int32.toInt_ofNat_of_lt hn

theorem lt_of_toId {n : ℕ} (h : toId n = some id) : n < 2 ^ 31 := by
  unfold toId at h
  split_ifs at h with hn
  exact hn

theorem createClient_eq_some : db.createClient name = some (id, db') ↔
    ∃ stored, storedName name = some stored ∧ toId db.clientSeq = some id ∧
      (∀ row ∈ db.clients, ¬ NameIs stored row.name) ∧
      db' = { db with clients := db.clients ++ [⟨id, stored⟩], clientSeq := db.clientSeq + 1 } := by
  simp only [Database.createClient, Option.bind_eq_bind, Option.bind_eq_some_iff,
    Option.ite_none_left_eq_some, Option.some.injEq, Prod.mk.injEq, not_exists, not_and]
  constructor
  · rintro ⟨stored, hstored, id', hid, hnew, rfl, rfl⟩
    exact ⟨stored, hstored, hid, hnew, rfl⟩
  · rintro ⟨stored, hstored, hid, hnew, rfl⟩
    exact ⟨stored, hstored, id, hid, hnew, rfl, rfl⟩

theorem createQueue_eq_some : db.createQueue clientId name = some (id, db') ↔
    ∃ stored, storedName name = some stored ∧ toId db.queueSeq = some id ∧
      (∀ row ∈ db.queues, ¬ NameIs stored row.name) ∧
      (∀ c ∈ clientId, ∃ row ∈ db.clients, row.id = c) ∧
      db' = { db with
        queues := db.queues ++ [⟨id, stored, clientId⟩], queueSeq := db.queueSeq + 1 } := by
  simp only [Database.createQueue, Option.bind_eq_bind, Option.bind_eq_some_iff,
    Option.ite_none_left_eq_some, Option.some.injEq, Prod.mk.injEq, not_or, not_exists, not_and,
    not_forall, not_not, ne_eq, exists_prop]
  constructor
  · rintro ⟨stored, hstored, id', hid, ⟨hnew, hclient⟩, rfl, rfl⟩
    exact ⟨stored, hstored, hid, hnew, hclient, rfl⟩
  · rintro ⟨stored, hstored, hid, hnew, hclient, rfl⟩
    exact ⟨stored, hstored, id, hid, ⟨hnew, hclient⟩, rfl, rfl⟩

theorem insertMessage_eq_some {args : Insert} {t : ℕ} : db.insertMessage args t = some db' ↔
    ∃ id m, toId db.messageSeq = some id ∧ args.row id t = some m ∧
      ((∃ row ∈ db.queues, row.id = m.queueId) ∧ ∃ row ∈ db.clients, row.id = m.clientSenderId) ∧
      db' = { db with messages := db.messages ++ [m], messageSeq := db.messageSeq + 1 } := by
  simp only [Database.insertMessage, Option.bind_eq_bind, Option.bind_eq_some_iff,
    Option.ite_none_right_eq_some, Option.some.injEq]
  constructor
  · rintro ⟨id, hid, m, hm, hrefs, rfl⟩
    exact ⟨id, m, hid, hm, hrefs, rfl⟩
  · rintro ⟨id, m, hid, hm, hrefs, rfl⟩
    exact ⟨id, hid, m, hm, hrefs, rfl⟩

end Changes

/-! ### What holds of the tables -/

/-- Messages with different ids below `n`. -/
structure Numbered (messages : List Message) (n : ℕ) : Prop where
  nodup : messages.Nodup
  ids : ∀ m ∈ messages, ∀ m' ∈ messages, m.id = m'.id → m = m'
  lt : ∀ m ∈ messages, m.id.toInt < n

theorem Numbered.mono {messages : List Message} {n n' : ℕ} (h : Numbered messages n)
    (hn : n ≤ n') : Numbered messages n' :=
  ⟨h.nodup, h.ids, fun m hm => (h.lt m hm).trans_le (Int.ofNat_le.mpr hn)⟩

theorem Numbered.filter {messages : List Message} {n : ℕ} (h : Numbered messages n)
    (p : Message → Bool) : Numbered (messages.filter p) n :=
  ⟨h.nodup.filter p, fun m hm m' hm' => h.ids m (List.mem_of_mem_filter hm) m'
    (List.mem_of_mem_filter hm'), fun m hm => h.lt m (List.mem_of_mem_filter hm)⟩

theorem Numbered.append {messages : List Message} {n : ℕ} {m : Message}
    (h : Numbered messages n) (hm : m.id.toInt = n) : Numbered (messages ++ [m]) (n + 1) := by
  have hne : ∀ m' ∈ messages, m'.id ≠ m.id := by
    intro m' hm' heq
    have hlt := h.lt m' hm'
    rw [heq, hm] at hlt
    exact lt_irrefl _ hlt
  refine ⟨?_, ?_, ?_⟩
  · rw [List.nodup_append]
    refine ⟨h.nodup, List.nodup_singleton m, ?_⟩
    rintro m' hm' m'' hm'' rfl
    exact hne m' hm' (by rw [List.mem_singleton.mp hm''])
  · intro m₁ h₁ m₂ h₂ heq
    rw [List.mem_append, List.mem_singleton] at h₁ h₂
    rcases h₁ with h₁ | rfl <;> rcases h₂ with h₂ | rfl
    · exact h.ids m₁ h₁ m₂ h₂ heq
    · exact absurd heq (hne m₁ h₁)
    · exact absurd heq.symm (hne m₂ h₂)
    · rfl
  · intro m' hm'
    rw [List.mem_append, List.mem_singleton] at hm'
    rcases hm' with hm' | rfl
    · have hlt := h.lt m' hm'
      push_cast
      omega
    · push_cast
      omega

/-- One message has the id of a message. -/
theorem length_of_key {messages : List Message} (hnodup : messages.Nodup)
    (hids : ∀ m ∈ messages, ∀ m' ∈ messages, m.id = m'.id → m = m') {m : Message}
    (hm : m ∈ messages) :
    (messages.filter fun m' => m'.id.toInt64 = m.id.toInt64).length = 1 := by
  have hperm : (messages.filter fun m' => m'.id.toInt64 = m.id.toInt64).Perm [m] := by
    refine (List.perm_ext_iff_of_nodup (hnodup.filter _) (List.nodup_singleton m)).mpr
      fun m' => ?_
    rw [List.mem_filter, List.mem_singleton, decide_eq_true_eq, toInt64_inj]
    constructor
    · rintro ⟨hm', hid⟩
      exact hids m' hm' m hm hid
    · rintro rfl
      exact ⟨hm, rfl⟩
  exact hperm.length_eq

/-- **Ids come from the sequences, the client of a queue exists, and names can be sent.** -/
structure Database.Valid (db : Database) : Prop where
  messages : Numbered db.messages db.messageSeq
  clientSeq : ∀ row ∈ db.clients, row.id.toInt < db.clientSeq
  owners : ∀ row ∈ db.queues, ∀ c ∈ row.clientId, ∃ client ∈ db.clients, client.id = c
  sendable : ∀ row ∈ db.clients, Sendable row.name

theorem valid_empty : Database.empty.Valid :=
  ⟨⟨List.nodup_nil, nofun, nofun⟩, nofun, nofun, nofun⟩

/-- What is stored can be sent. -/
theorem sendable_stored {name stored : Option String} (h : storedName name = some stored) :
    Sendable stored := by
  unfold storedName at h
  split_ifs at h with hs
  rcases name with _ | s
  · obtain rfl := Option.some.inj h
    exact nofun
  · obtain ⟨-, hcut⟩ := Option.ite_none_right_eq_some.mp h
    obtain rfl := Option.some.inj hcut
    rintro _ ⟨⟩ hzero
    rw [String.toList_ofList] at hzero
    exact hs s rfl (List.mem_of_mem_take hzero)

theorem Insert.id_row {args : Insert} {id : Int32} {t : ℕ} {m : Message}
    (h : args.row id t = some m) : m.id = id := by
  simp only [Insert.row, Option.bind_eq_bind, Option.bind_eq_some_iff] at h
  obtain ⟨q, -, c, -, p, -, x, -, hm⟩ := h
  obtain rfl := Option.some.inj hm
  rfl

section Executes

variable {db db' : Database} {stmt : Statement} {r : stmt.Result}

/-- Sequences grow. -/
theorem seqs_le (he : Executes db stmt r db') :
    db.messageSeq ≤ db'.messageSeq ∧ db.contextSeq ≤ db'.contextSeq := by
  cases stmt with
  | beginTransaction | commitTransaction | deleteQueue id =>
    obtain rfl := he
    exact ⟨le_rfl, le_rfl⟩
  | createClient name =>
    obtain ⟨stored, -, -, -, rfl⟩ := createClient_eq_some.mp he
    exact ⟨le_rfl, le_rfl⟩
  | createQueue clientId name =>
    obtain ⟨stored, -, -, -, -, rfl⟩ := createQueue_eq_some.mp he
    exact ⟨le_rfl, le_rfl⟩
  | insertMessage args =>
    obtain ⟨t, ht⟩ := he
    obtain ⟨id, m, -, -, -, rfl⟩ := insertMessage_eq_some.mp ht
    exact ⟨Nat.le_succ _, le_rfl⟩
  | clientByName name | queueByName name | numMsgPerQueue queueId =>
    obtain ⟨-, -, rfl⟩ := he
    exact ⟨le_rfl, le_rfl⟩
  | queueByClientId id | peekMessage args | peekMessageForUpdate args | deleteMessage id =>
    obtain ⟨-, rfl⟩ := he
    exact ⟨le_rfl, le_rfl⟩
  | generateNewConversationContext =>
    obtain ⟨-, -, rfl⟩ := he
    exact ⟨le_rfl, Nat.le_succ _⟩
  | publicQueuesContainingMessages limit =>
    obtain ⟨-, -, -, -, rfl⟩ := he
    exact ⟨le_rfl, le_rfl⟩

/-- A message has been there before, or is inserted. -/
theorem messages_executes {m : Message} (he : Executes db stmt r db') (hm : m ∈ db'.messages) :
    m ∈ db.messages ∨
      ∃ args id t, stmt = .insertMessage args ∧ Insert.row args id t = some m := by
  cases stmt with
  | insertMessage args =>
    obtain ⟨t, ht⟩ := he
    obtain ⟨id, m', -, hrow, -, rfl⟩ := insertMessage_eq_some.mp ht
    rcases List.mem_append.mp hm with hm | hm
    · exact .inl hm
    · obtain rfl := List.mem_singleton.mp hm
      exact .inr ⟨args, id, t, rfl, hrow⟩
  | deleteQueue id =>
    obtain rfl := he
    exact .inl (List.mem_of_mem_filter hm)
  | deleteMessage id =>
    obtain ⟨-, rfl⟩ := he
    exact .inl (List.mem_of_mem_filter hm)
  | beginTransaction | commitTransaction =>
    obtain rfl := he
    exact .inl hm
  | createClient name =>
    obtain ⟨stored, -, -, -, rfl⟩ := createClient_eq_some.mp he
    exact .inl hm
  | createQueue clientId name =>
    obtain ⟨stored, -, -, -, -, rfl⟩ := createQueue_eq_some.mp he
    exact .inl hm
  | clientByName name | queueByName name | generateNewConversationContext
  | numMsgPerQueue queueId =>
    obtain ⟨-, -, rfl⟩ := he
    exact .inl hm
  | queueByClientId id | peekMessage args | peekMessageForUpdate args =>
    obtain ⟨-, rfl⟩ := he
    exact .inl hm
  | publicQueuesContainingMessages limit =>
    obtain ⟨-, -, -, -, rfl⟩ := he
    exact .inl hm

/-- **Every statement keeps the tables valid.** -/
theorem Database.Valid.executes (h : db.Valid) (he : Executes db stmt r db') : db'.Valid := by
  cases stmt with
  | beginTransaction | commitTransaction =>
    obtain rfl := he
    exact h
  | deleteQueue id =>
    obtain rfl := he
    exact ⟨h.messages.filter _, h.clientSeq, fun row hrow =>
      h.owners row (List.mem_of_mem_filter hrow), h.sendable⟩
  | createClient name =>
    obtain ⟨stored, hstored, hid, -, rfl⟩ := createClient_eq_some.mp he
    refine ⟨h.messages, fun row hrow => ?_, fun row hrow c hc => ?_, fun row hrow => ?_⟩
    · rw [List.mem_append, List.mem_singleton] at hrow
      rcases hrow with hrow | rfl
      · have hlt := h.clientSeq row hrow
        push_cast
        omega
      · have heq := toInt_of_toId hid
        push_cast
        omega
    · obtain ⟨client, hclient, heq⟩ := h.owners row hrow c hc
      exact ⟨client, List.mem_append_left _ hclient, heq⟩
    · rw [List.mem_append, List.mem_singleton] at hrow
      rcases hrow with hrow | rfl
      · exact h.sendable row hrow
      · exact sendable_stored hstored
  | createQueue clientId name =>
    obtain ⟨stored, -, -, -, hclient, rfl⟩ := createQueue_eq_some.mp he
    refine ⟨h.messages, h.clientSeq, fun row hrow c hc => ?_, h.sendable⟩
    rw [List.mem_append, List.mem_singleton] at hrow
    rcases hrow with hrow | rfl
    · exact h.owners row hrow c hc
    · exact hclient c hc
  | insertMessage args =>
    obtain ⟨t, ht⟩ := he
    obtain ⟨id, m, hid, hm, -, rfl⟩ := insertMessage_eq_some.mp ht
    exact ⟨h.messages.append (by rw [Insert.id_row hm]; exact toInt_of_toId hid), h.clientSeq,
      h.owners, h.sendable⟩
  | clientByName name | queueByName name =>
    obtain ⟨-, -, rfl⟩ := he
    exact h
  | queueByClientId id | peekMessage args | peekMessageForUpdate args =>
    obtain ⟨-, rfl⟩ := he
    exact h
  | deleteMessage id =>
    obtain ⟨-, rfl⟩ := he
    exact ⟨h.messages.filter _, h.clientSeq, h.owners, h.sendable⟩
  | generateNewConversationContext | numMsgPerQueue queueId =>
    obtain ⟨-, -, rfl⟩ := he
    exact ⟨h.messages, h.clientSeq, h.owners, h.sendable⟩
  | publicQueuesContainingMessages limit =>
    obtain ⟨-, -, -, -, rfl⟩ := he
    exact h

end Executes

end Mlmq.Db.Schema
