import Mlmq.Server.Processing

/-! # Conversations of two clients

One client sends requests to the queue of another and gets the replies in its own queue. A request
gets a conversation context from a sequence, and its reply carries the same one. As long as nobody
else writes to the two queues, a message in the first one is the request of its context, and a
message in the second one a reply to it (`Good`); `asked` says which request has which context. -/

namespace Mlmq.Server.Conversations

open Mlmq.Dto Mlmq.Db.Table Mlmq.Db.Schema Mlmq.Db.Dao Mlmq.Net.Requests Mlmq.Net.Responses
open Mlmq.Server.RequestProcessor Mlmq.Server.Calls Mlmq.Server.Processing
open Mlmq.Lib.Programs Mlmq.Lib.Programs.Program

/-! ### Clients and their queues -/

/-- A client and one of its queues. -/
structure Member where
  name : String
  id : Int32
  queueId : Int32

/-- The client is known, and the queue is its own. -/
structure Belongs (db : Database) (member : Member) : Prop where
  known : ∃ row ∈ db.clients, row.name = some member.name
  named : ∀ row ∈ db.clients, row.name = some member.name → row.id = member.id
  seq : member.queueId.toInt < db.queueSeq
  owner : ∀ row ∈ db.queues, row.id = member.queueId → row.clientId = some member.id

section Belongs

variable {db db' : Database} {member : Member}

theorem Belongs.gap (h : Belongs db member) (hgap : Gap db db') : Belongs db' member where
  known := hgap.clients ▸ h.known
  named := hgap.clients ▸ h.named
  seq := h.seq.trans_le (Int.ofNat_le.mpr hgap.queueSeq)
  owner := hgap.queues ▸ h.owner

/-- **No statement takes the name or the queue of a client away.** -/
theorem Belongs.executes {stmt : Statement} {r : stmt.Result} (h : Belongs db member)
    (he : Executes db stmt r db') : Belongs db' member := by
  cases stmt with
  | createClient name =>
    obtain ⟨stored, -, -, hnew, rfl⟩ := createClient_eq_some.mp he
    obtain ⟨row, hrow, hname⟩ := h.known
    refine ⟨⟨row, List.mem_append_left _ hrow, hname⟩, fun row' hrow' hname' => ?_, h.seq, h.owner⟩
    rcases List.mem_append.mp hrow' with hrow' | hrow'
    · exact h.named row' hrow' hname'
    · obtain rfl := List.mem_singleton.mp hrow'
      obtain rfl : stored = some member.name := hname'
      exact absurd ⟨Option.some_ne_none _, hname⟩ (hnew row hrow)
  | createQueue clientId name =>
    obtain ⟨stored, -, hid, -, -, rfl⟩ := createQueue_eq_some.mp he
    have hseq := h.seq
    refine ⟨h.known, h.named, by push_cast; omega, fun row hrow heq => ?_⟩
    rcases List.mem_append.mp hrow with hrow | hrow
    · exact h.owner row hrow heq
    · obtain rfl := List.mem_singleton.mp hrow
      obtain rfl : r = member.queueId := heq
      have hnew := toInt_of_toId hid
      omega
  | deleteQueue id =>
    obtain rfl := he
    exact ⟨h.known, h.named, h.seq, fun row hrow => h.owner row (List.mem_of_mem_filter hrow)⟩
  | beginTransaction | commitTransaction =>
    obtain rfl := he
    exact h
  | insertMessage args =>
    obtain ⟨t, ht⟩ := he
    obtain ⟨id, m, -, -, -, rfl⟩ := insertMessage_eq_some.mp ht
    exact ⟨h.known, h.named, h.seq, h.owner⟩
  | clientByName name | queueByName name | numMsgPerQueue queueId =>
    obtain ⟨-, -, rfl⟩ := he
    exact h
  | generateNewConversationContext =>
    obtain ⟨-, -, rfl⟩ := he
    exact ⟨h.known, h.named, h.seq, h.owner⟩
  | queueByClientId id | peekMessage args | peekMessageForUpdate args =>
    obtain ⟨-, rfl⟩ := he
    exact h
  | deleteMessage id =>
    obtain ⟨-, rfl⟩ := he
    exact ⟨h.known, h.named, h.seq, h.owner⟩
  | publicQueuesContainingMessages limit =>
    obtain ⟨-, -, -, -, rfl⟩ := he
    exact h

end Belongs

/-- Both clients are known, and at least `n` contexts have been generated. -/
structure Settled (pair : Bool → Member) (n : ℕ) (db : Database) : Prop where
  belongs : ∀ r, Belongs db (pair r)
  seq : n ≤ db.contextSeq

section Settled

variable {pair : Bool → Member} {n : ℕ} {w w' : World} {op : Op}

theorem Settled.acts {r : Ans op} (h : Settled pair n w.db) (ha : Acts w op r w') :
    Settled pair n w'.db := by
  cases op with
  | execute stmt =>
    obtain ⟨db, he, rfl⟩ := ha
    rw [World.db_executed]
    exact ⟨fun r => (h.belongs r).executes he, h.seq.trans (seqs_le he).2⟩
  | getClient | getClientQueue =>
    obtain ⟨-, rfl⟩ := ha
    exact h
  | _ =>
    obtain rfl := ha
    exact h

theorem Settled.undone (h : Settled pair n w.db) (hu : Undone w op w') :
    Settled pair n w'.db := by
  unfold Undone at hu
  split_ifs at hu
  · subst hu
    exact ⟨fun r => ⟨(h.belongs r).known, (h.belongs r).named, (h.belongs r).seq,
      (h.belongs r).owner⟩, h.seq⟩
  · obtain ⟨db, hgap, rfl⟩ := hu
    exact ⟨fun r => (h.belongs r).gap hgap, h.seq.trans hgap.contextSeq⟩

theorem Settled.does {fault : Fault} {a : Except JavaException (Ans op)}
    (h : Settled pair n w.db) (hd : Does w op fault a w') : Settled pair n w'.db := by
  rcases hd.acts_or_undone with ⟨r, ha⟩ | hu
  · exact h.acts ha
  · exact h.undone hu

/-- A message has been there before, or is inserted. -/
theorem messages_acts {r : Ans op} {m : Message} (ha : Acts w op r w')
    (hm : m ∈ w'.db.messages) : m ∈ w.db.messages ∨
      ∃ args id t, op = .execute (.insertMessage args) ∧ args.row id t = some m := by
  cases op with
  | execute stmt =>
    obtain ⟨db, he, rfl⟩ := ha
    rw [World.db_executed] at hm
    obtain hm | ⟨args, id, t, rfl, hrow⟩ := messages_executes he hm
    · exact .inl hm
    · exact .inr ⟨args, id, t, rfl, hrow⟩
  | getClient | getClientQueue =>
    obtain ⟨-, rfl⟩ := ha
    exact .inl hm
  | _ =>
    obtain rfl := ha
    exact .inl hm

/-- A rollback restores what it would have restored before, or the messages as they are now. -/
theorem saved_acts {r : Ans op} {messages : List Message} (ha : Acts w op r w')
    (hm : messages ∈ w'.saved) : messages = w.db.messages ∨ messages ∈ w.saved := by
  cases op with
  | execute stmt =>
    obtain ⟨db, he, rfl⟩ := ha
    cases stmt with
    | beginTransaction =>
      obtain rfl := he
      exact .inl (Option.some.inj hm).symm
    | commitTransaction => cases hm
    | _ => exact .inr hm
  | getClient | getClientQueue =>
    obtain ⟨-, rfl⟩ := ha
    exact .inr hm
  | _ =>
    obtain rfl := ha
    exact .inr hm

end Settled

/-! ### Messages -/

/-- Which contents reply to which. -/
abbrev Reply : Type := List UInt8 → List UInt8 → Prop

/-- The message has the conversation context `k`. -/
def HasContext (m : Message) (k : ℕ) : Prop := ∃ x : Int32, m.context = some x ∧ x.toInt = k

/-- **A message of the conversation.** In the queue of the responder it is the request of its
context, in that of the requester a reply to it. -/
structure Fine (reply : Reply) (pair : Bool → Member) (asked : ℕ → List UInt8) (n : ℕ)
    (m : Message) : Prop where
  request : m.queueId = (pair false).queueId →
    ∃ k < n, HasContext m k ∧ m.content = some (asked k)
  response : m.queueId = (pair true).queueId →
    ∃ k < n, HasContext m k ∧ ∃ content, m.content = some content ∧ reply (asked k) content

/-- More contexts have been given to requests. -/
structure Grows (asked : ℕ → List UInt8) (n : ℕ) (asked' : ℕ → List UInt8) (n' : ℕ) : Prop where
  le : n ≤ n'
  eq : ∀ k < n, asked' k = asked k

theorem Grows.refl (asked : ℕ → List UInt8) (n : ℕ) : Grows asked n asked n :=
  ⟨le_rfl, fun _ _ => rfl⟩

theorem Grows.update (asked : ℕ → List UInt8) {n k : ℕ} (hk : n ≤ k) (content : List UInt8) :
    Grows asked n (Function.update asked k content) (k + 1) :=
  ⟨by omega, fun k' hk' => Function.update_of_ne (by omega) ..⟩

section Messages

variable {reply : Reply} {pair : Bool → Member} {asked asked' : ℕ → List UInt8} {n n' : ℕ}

theorem Fine.grows {m : Message} (h : Fine reply pair asked n m) (hg : Grows asked n asked' n') :
    Fine reply pair asked' n' m where
  request hm := by
    obtain ⟨k, hk, hcontext, hcontent⟩ := h.request hm
    exact ⟨k, hk.trans_le hg.le, hcontext, by rw [hg.eq k hk]; exact hcontent⟩
  response hm := by
    obtain ⟨k, hk, hcontext, content, hcontent, hreply⟩ := h.response hm
    exact ⟨k, hk.trans_le hg.le, hcontext, content, hcontent, by rw [hg.eq k hk]; exact hreply⟩

/-- Operations that insert no message. -/
def NoInsert (op : Op) : Prop := ∀ args, op ≠ .execute (.insertMessage args)

variable {w w' : World} {op : Op}

/-- All messages belong to the conversation, also those that a rollback restores. -/
structure Good (reply : Reply) (pair : Bool → Member) (asked : ℕ → List UInt8) (n : ℕ)
    (w : World) : Prop where
  settled : Settled pair n w.db
  messages : ∀ m ∈ w.db.messages, Fine reply pair asked n m
  saved : ∀ messages ∈ w.saved, ∀ m ∈ messages, Fine reply pair asked n m

theorem Good.acts {r : Ans op} (h : Good reply pair asked n w)
    (hop : ∀ args, op = .execute (.insertMessage args) →
      ∀ id t m, args.row id t = some m → Fine reply pair asked n m)
    (ha : Acts w op r w') : Good reply pair asked n w' := by
  refine ⟨h.settled.acts ha, fun m hm => ?_, fun messages hmessages m hm => ?_⟩
  · rcases messages_acts ha hm with hm | ⟨args, id, t, hargs, hrow⟩
    · exact h.messages m hm
    · exact hop args hargs id t m hrow
  · rcases saved_acts ha hmessages with rfl | hmessages
    · exact h.messages m hm
    · exact h.saved messages hmessages m hm

theorem Good.undone (h : Good reply pair asked n w) (hu : Undone w op w') :
    Good reply pair asked n w' := by
  have hsettled := h.settled.undone hu
  unfold Undone at hu
  split_ifs at hu
  · subst hu
    exact ⟨hsettled, World.rolledBack_messages h.messages h.saved, nofun⟩
  · obtain ⟨db, hgap, rfl⟩ := hu
    exact ⟨hsettled, by rw [hgap.messages]; exact h.messages, h.saved⟩

/-- **Every operation keeps the conversation**, if a message that it inserts belongs to it. -/
theorem Good.does {fault : Fault} {a : Except JavaException (Ans op)}
    (h : Good reply pair asked n w)
    (hop : ∀ args, op = .execute (.insertMessage args) →
      ∀ id t m, args.row id t = some m → Fine reply pair asked n m)
    (hd : Does w op fault a w') : Good reply pair asked n w' := by
  rcases hd.acts_or_undone with ⟨r, ha⟩ | hu
  · exact h.acts hop ha
  · exact h.undone hu

theorem Good.grows (h : Good reply pair asked n w) (hg : Grows asked n asked' n')
    (hseq : n' ≤ w.db.contextSeq) : Good reply pair asked' n' w :=
  ⟨⟨h.settled.belongs, hseq⟩, fun m hm => (h.messages m hm).grows hg,
    fun messages hmessages m hm => (h.saved messages hmessages m hm).grows hg⟩

end Messages

/-! ### Programs -/

/-- The semantics with all faults. -/
abbrev anySem : Semantics Ans JavaException World := dbSem fun _ _ _ => True

variable {reply : Reply} {pair : Bool → Member} {asked : ℕ → List UInt8} {n : ℕ} {w : World}
  {α : Type}

/-- What a program ends with when contexts may have been given to requests. -/
def Served (reply : Reply) (pair : Bool → Member) (asked : ℕ → List UInt8) (n : ℕ)
    (R : (ℕ → List UInt8) → ℕ → α → Prop) (r : Except JavaException α) (w : World) : Prop :=
  ∃ asked' n', Grows asked n asked' n' ∧ Good reply pair asked' n' w ∧
    ∀ x, r = .ok x → R asked' n' x

theorem Good.served {R : (ℕ → List UInt8) → ℕ → α → Prop} (h : Good reply pair asked n w)
    {r : Except JavaException α} (hr : ∀ x, r = .ok x → R asked n x) :
    Served reply pair asked n R r w :=
  ⟨asked, n, .refl asked n, h, hr⟩

theorem Good.keeps {op : Op} {a : Except JavaException (Ans op)} {w' : World}
    (h : Good reply pair asked n w) (hop : NoInsert op) (hcall : anySem w op a w') :
    Good reply pair asked n w' := by
  obtain ⟨fault, -, hd⟩ := hcall
  exact h.does (fun args heq => absurd heq (hop args)) hd

theorem robust_good {C : Except JavaException α → Prop} (hC : ∀ e, C (.error e)) :
    Robust anySem NoInsert (Good reply pair asked n)
      (fun r w => Good reply pair asked n w ∧ C r) where
  state _ _ _ _ hop hw hcall := hw.keeps hop hcall
  result _ _ _ _ _ hop hr hcall := ⟨hr.1.keeps hop hcall, hr.2⟩
  thrown e _ hw := ⟨hw, hC e⟩
  replaced _ e _ hr := ⟨hr.1, hC e⟩

theorem robust_served {R : (ℕ → List UInt8) → ℕ → α → Prop} :
    Robust anySem NoInsert (Good reply pair asked n) (Served reply pair asked n R) where
  state _ _ _ _ hop hw hcall := hw.keeps hop hcall
  result r s op a s' hop hr hcall := by
    obtain ⟨asked', n', hg, hw, hx⟩ := hr
    exact ⟨asked', n', hg, hw.keeps hop hcall, hx⟩
  thrown e _ hw := hw.served nofun
  replaced r e s hr := by
    obtain ⟨asked', n', hg, hw, -⟩ := hr
    exact ⟨asked', n', hg, hw, nofun⟩

theorem wp_good {p : Java α} (hp : p.Only NoInsert) (h : Good reply pair asked n w) :
    wp anySem anyOp p (fun _ w => Good reply pair asked n w) w :=
  hp.wp (fun _ _ _ _ => trivial) (fun _ _ _ _ hop hw hcall => hw.keeps hop hcall) h

/-- A statement that inserts no message. -/
theorem wp_execute_good {stmt : Statement} {C : Except JavaException stmt.Result → Prop}
    (h : Good reply pair asked n w) (hstmt : ∀ args, stmt ≠ .insertMessage args)
    (hC : ∀ e, C (.error e)) (hok : ∀ r db, Executes w.db stmt r db → C (.ok r)) :
    wp anySem anyOp (execute stmt) (fun r w => Good reply pair asked n w ∧ C r) w := by
  refine ⟨trivial, fun a w' hcall => ?_⟩
  refine ⟨h.keeps (fun args heq => hstmt args (Op.execute.inj heq)) hcall, ?_⟩
  obtain ⟨fault, -, hd⟩ := hcall
  rcases a with e | r
  · exact hC e
  · cases fault with
    | none =>
      obtain ⟨db, he, -⟩ := hd
      exact hok r db he
    | before | after => exact hd.elim

/-! ### Lookups -/

theorem noInsert_step : NoInsert .step := nofun

theorem noInsert_timed {p : Java α} (h : p.Only NoInsert) : (timed p).Only NoInsert :=
  only_timed noInsert_step h

theorem noInsert_getQueueByClientId (clientId : Int64) :
    (QueueDao.getQueueByClientId clientId).Only NoInsert :=
  noInsert_timed (only_bind (only_perform nofun) fun _ => only_pure _)

theorem noInsert_clientAndQueue (name : Option String) :
    (clientAndQueue name).Only NoInsert := by
  have hcreate : ∀ clientId, (QueueDao.createClientQueue clientId name).Only NoInsert := fun _ =>
    noInsert_timed (only_bind (only_perform nofun) fun _ => only_pure _)
  refine only_bind (noInsert_timed (only_bind (only_perform nofun) fun _ => only_pure _))
    fun clientId => ?_
  cases clientId with
  | none =>
    exact only_bind (noInsert_timed (only_perform nofun)) fun _ =>
      only_bind (hcreate _) fun _ => only_pure _
  | some clientId =>
    refine only_bind (noInsert_getQueueByClientId _) fun queue => ?_
    cases queue with
    | none => trivial
    | some queue => exact only_bind (only_perform nofun) fun _ => only_pure _

theorem noInsert_registration (request : RegistrationRequest) :
    (registration request).Only NoInsert :=
  only_bind (noInsert_clientAndQueue _) fun _ => only_bind (only_perform nofun) fun _ =>
    only_bind (only_perform nofun) fun _ => only_pure _

/-- The client of a pair is found under its name. -/
theorem wp_getClientId (h : Good reply pair asked n w) (name : Option String) :
    wp anySem anyOp (ClientDao.getClientId name) (fun x w => Good reply pair asked n w ∧
      ∀ id r, x = .ok (some id) → name = some (pair r).name → id = (pair r).id) w := by
  refine (robust_good fun _ => nofun).wp_timed (fun _ _ => trivial) noInsert_step (fun w h => ?_) h
  refine wp_bind (Q := fun x w => Good reply pair asked n w ∧ ∀ row r, x = .ok (some row) →
    name = some (pair r).name → row.id = (pair r).id)
    (wp_execute_good h (by rintro _ ⟨⟩) (fun _ => nofun) fun row db he => ?_) (fun row w hrow => ?_)
    fun e w hrow => ⟨hrow.1, nofun⟩
  · rintro row r heq rfl
    obtain rfl := Except.ok.inj heq
    obtain ⟨-, ⟨hmem, -, hname⟩, -⟩ := he
    exact (h.settled.belongs r).named row hmem hname
  · refine ⟨hrow.1, fun id r heq hname => ?_⟩
    obtain ⟨row, rfl, rfl⟩ := Option.map_eq_some_iff.mp (Except.ok.inj heq)
    exact hrow.2 row r rfl hname

/-- The queue of one client of a pair is not the one of the other. -/
theorem wp_getQueueByClientId (hne : ∀ r, (pair r).id ≠ (pair !r).id)
    (h : Good reply pair asked n w) (r : Bool) :
    wp anySem anyOp (QueueDao.getQueueByClientId (pair r).id.toInt64)
      (fun x w => Good reply pair asked n w ∧ ∀ queue, x = .ok (some queue) →
        ∃ id : Int32, queue.id = id.toInt64 ∧ id ≠ (pair !r).queueId) w := by
  refine (robust_good fun _ => nofun).wp_timed (fun _ _ => trivial) noInsert_step (fun w h => ?_) h
  refine wp_bind (Q := fun x w => Good reply pair asked n w ∧ ∀ row, x = .ok (some row) →
    row.id ≠ (pair !r).queueId)
    (wp_execute_good h (by rintro _ ⟨⟩) (fun _ => nofun) fun row db he => ?_) (fun row w hrow => ?_)
    fun e w hrow => ⟨hrow.1, nofun⟩
  · rintro row heq hid
    obtain rfl := Except.ok.inj heq
    obtain ⟨⟨hmem, howner⟩, -⟩ := he
    rw [(h.settled.belongs !r).owner row hmem hid] at howner
    exact hne r (toInt64_inj.mp (Option.some.inj howner)).symm
  · refine ⟨hrow.1, fun queue heq => ?_⟩
    obtain ⟨row, rfl, rfl⟩ := Option.map_eq_some_iff.mp (Except.ok.inj heq)
    exact ⟨row.id, rfl, hrow.2 row rfl⟩

/-! ### Messages to a client -/

/-- The conversation context of a request. -/
def IsContext (context : Option Int64) (k : ℕ) : Prop :=
  ∃ x : Int32, context = some x.toInt64 ∧ x.toInt = k

theorem wp_insertMessage {args : Insert} (h : Good reply pair asked n w)
    (hfine : ∀ id t m, args.row id t = some m → Fine reply pair asked n m) :
    wp anySem anyOp (MessageDao.insertMessage args) (fun x w => Good reply pair asked n w ∧
      ∀ u, x = .ok u → ∃ id t m, args.row id t = some m) w := by
  refine (robust_good fun _ => nofun).wp_timed (fun _ _ => trivial) noInsert_step (fun w h => ?_) h
  refine ⟨trivial, ?_⟩
  rintro a w' ⟨fault, -, hd⟩
  refine ⟨h.does (fun args' heq => ?_) hd, ?_⟩
  · obtain rfl := Statement.insertMessage.inj (Op.execute.inj heq)
    exact hfine
  · rintro u rfl
    cases fault with
    | none =>
      obtain ⟨db, ⟨t, ht⟩, -⟩ := hd
      obtain ⟨id, m, -, hm, -⟩ := insertMessage_eq_some.mp ht
      exact ⟨id, t, m, hm⟩
    | before | after => exact hd.elim

theorem Insert.row_fields {args : Insert} {id : Int32} {t : ℕ} {m : Message}
    (h : args.row id t = some m) : m.queueId.toInt64 = args.queueId ∧ m.content = args.content ∧
      toNullableInteger args.context = some m.context := by
  simp only [Insert.row, Option.bind_eq_bind, Option.bind_eq_some_iff] at h
  obtain ⟨q, hq, c, -, p, -, x, hx, hm⟩ := h
  obtain rfl := Option.some.inj hm
  exact ⟨toInteger_eq_some.mp hq, rfl, hx⟩

/-- The message has the context of its insert. -/
theorem context_row {args : Insert} {id : Int32} {t : ℕ} {m : Message} {context : Int64} {k : ℕ}
    (h : args.row id t = some m) (hcontext : args.context = some context)
    (hk : context.toInt = k) : HasContext m k ∧ IsContext (some context) k := by
  have hx := (Insert.row_fields h).2.2
  rw [hcontext] at hx
  obtain ⟨x, hinteger, hm⟩ := Option.map_eq_some_iff.mp hx
  obtain rfl := toInteger_eq_some.mp hinteger
  rw [Int32.toInt_toInt64] at hk
  exact ⟨⟨x, hm.symm, hk⟩, x, rfl, hk⟩

/-- A request to the responder. -/
structure IsRequest (pair : Bool → Member) (request : SendClientMessageRequest) : Prop where
  clientId : request.clientId = (pair false).id.toInt64
  conversation : request.conversation = true
  context : request.conversationContext = none
  content : request.content.isSome

/-- A reply to the requester. -/
structure IsReply (reply : Reply) (pair : Bool → Member) (asked : ℕ → List UInt8) (n : ℕ)
    (request : SendClientMessageRequest) : Prop where
  clientId : request.clientId = (pair true).id.toInt64
  answers : ∃ k < n, IsContext request.conversationContext k ∧
    ∃ content, request.content = some content ∧ reply (asked k) content

/-- What the client is told about the context of its request. -/
def Told (request : SendClientMessageRequest) (asked : ℕ → List UInt8) (n : ℕ)
    (context : Option Int64) : Prop :=
  ∃ k < n, IsContext context k ∧ request.content = some (asked k)

theorem wp_conversationContext {request : SendClientMessageRequest}
    (hrequest : IsRequest pair request) (content : List UInt8) (h : Good reply pair asked n w) :
    wp anySem anyOp (conversationContext request)
      (Served reply pair asked n fun asked' n' context => ∃ k < n', ∃ generated : Int64,
        context = some generated ∧ generated.toInt = k ∧ asked' k = content) w := by
  unfold conversationContext
  rw [hrequest.conversation, hrequest.context, Option.isNone_none, Bool.and_self, if_pos rfl]
  refine wp_bind (Q := Served reply pair asked n fun asked' n' generated => ∃ k < n',
    Int64.toInt generated = k ∧ asked' k = content) (robust_served.wp_timed (fun _ _ => trivial)
    noInsert_step (fun w h => ?_) h) (fun generated w hw => ?_) fun e w hw => ?_
  · refine ⟨trivial, fun a w' hcall => ?_⟩
    have hgood := h.keeps (by rintro _ ⟨⟩) hcall
    obtain ⟨fault, -, hd⟩ := hcall
    rcases a with e | generated
    · exact hgood.served nofun
    · cases fault with
      | none =>
        obtain ⟨db, ⟨hlt, rfl, rfl⟩, rfl⟩ := hd
        have hg := Grows.update asked h.settled.seq content
        refine ⟨_, _, hg, hgood.grows hg le_rfl, ?_⟩
        rintro _ ⟨⟩
        exact ⟨w.db.contextSeq, Nat.lt_succ_self _, Int64.toInt_ofNat_of_lt hlt,
          Function.update_self ..⟩
      | before | after => exact hd.elim
  · obtain ⟨asked', n', hg, hw, hk⟩ := hw
    refine ⟨asked', n', hg, hw, ?_⟩
    rintro _ ⟨⟩
    obtain ⟨k, hk, hgenerated, hasked⟩ := hk generated rfl
    exact ⟨k, hk, generated, rfl, hgenerated, hasked⟩
  · obtain ⟨asked', n', hg, hw, -⟩ := hw
    exact ⟨asked', n', hg, hw, nofun⟩

/-- The message that is inserted with a context, for some sender. -/
def Inserted (request : SendClientMessageRequest) (queue : QueueDto) (context : Option Int64)
    (m : Message) : Prop :=
  ∃ clientId id t,
    Insert.row ⟨queue.id, clientId, request.content, request.prio, context⟩ id t = some m

/-- **A message to a client**, whose context is one of `C`. -/
theorem wp_sendToQueue {request : SendClientMessageRequest} {queue : QueueDto}
    {C : (ℕ → List UInt8) → ℕ → Option Int64 → Prop}
    {R : (ℕ → List UInt8) → ℕ → Response JavaException → Prop}
    (hcontext : wp anySem anyOp (conversationContext request) (Served reply pair asked n C) w)
    (hfine : ∀ asked' n' context m, C asked' n' context → Inserted request queue context m →
      Fine reply pair asked' n' m)
    (hR : ∀ asked' n' context m, C asked' n' context → Inserted request queue context m →
      R asked' n' (.sendClientMessage { conversationContext := context })) :
    wp anySem anyOp (sendToQueue request queue) (Served reply pair asked n R) w := by
  refine wp_bind hcontext (fun context w hw => ?_) fun e w hw => ?_
  · obtain ⟨asked', n', hg, h, hC⟩ := hw
    replace hC := hC context rfl
    refine wp_bind (wp_good (only_perform (by rintro _ ⟨⟩)) h) (fun client w h => ?_)
      fun e w h => ⟨asked', n', hg, h, nofun⟩
    cases client with
    | none => exact ⟨asked', n', hg, h, nofun⟩
    | some client =>
      refine wp_bind (wp_insertMessage h fun id t m hm =>
        hfine _ _ _ m hC ⟨client.id, id, t, hm⟩) (fun u w h => ?_)
        fun e w h => ⟨asked', n', hg, h.1, nofun⟩
      refine ⟨asked', n', hg, h.1, ?_⟩
      rintro _ ⟨⟩
      obtain ⟨id, t, m, hm⟩ := h.2 u rfl
      exact hR _ _ _ m hC ⟨client.id, id, t, hm⟩
  · obtain ⟨asked', n', hg, h, -⟩ := hw
    exact ⟨asked', n', hg, h, nofun⟩

theorem wp_sendRequest (hne : ∀ r, (pair r).id ≠ (pair !r).id)
    {request : SendClientMessageRequest} (hrequest : IsRequest pair request)
    (h : Good reply pair asked n w) :
    wp anySem anyOp (sendClientMessage request) (Served reply pair asked n fun asked' n' x =>
      ∃ context, x = .sendClientMessage { conversationContext := context } ∧
        Told request asked' n' context) w := by
  obtain ⟨content, hcontent⟩ := Option.isSome_iff_exists.mp hrequest.content
  unfold sendClientMessage
  rw [hrequest.clientId]
  refine wp_bind (wp_getQueueByClientId hne h false) (fun queue w h => ?_)
    fun e w h => h.1.served nofun
  cases queue with
  | none => exact h.1.served nofun
  | some queue =>
    obtain ⟨queueId, hqueue, hother⟩ := h.2 queue rfl
    refine wp_sendToQueue (wp_conversationContext hrequest content h.1) ?_ ?_
    · rintro asked' n' _ m ⟨k, hk, generated, rfl, hgenerated, hasked⟩ ⟨clientId, id, t, hm⟩
      obtain ⟨hqueueId, hmcontent, -⟩ := Insert.row_fields hm
      refine ⟨fun _ => ⟨k, hk, (context_row hm rfl hgenerated).1, ?_⟩, fun hrequester => ?_⟩
      · rw [hmcontent, hasked]
        exact hcontent
      · rw [hrequester, hqueue] at hqueueId
        exact absurd (toInt64_inj.mp hqueueId).symm hother
    · rintro asked' n' _ m ⟨k, hk, generated, rfl, hgenerated, hasked⟩ ⟨clientId, id, t, hm⟩
      refine ⟨_, rfl, k, hk, (context_row hm rfl hgenerated).2, ?_⟩
      rw [hcontent, hasked]

theorem wp_sendReply (hne : ∀ r, (pair r).id ≠ (pair !r).id)
    {request : SendClientMessageRequest} (hrequest : IsReply reply pair asked n request)
    (h : Good reply pair asked n w) :
    wp anySem anyOp (sendClientMessage request)
      (Served reply pair asked n fun _ _ _ => True) w := by
  obtain ⟨k, hk, ⟨x, hcontext, hx⟩, content, hcontent, hreply⟩ := hrequest.answers
  unfold sendClientMessage
  rw [hrequest.clientId]
  refine wp_bind (wp_getQueueByClientId hne h true) (fun queue w h => ?_)
    fun e w h => h.1.served nofun
  cases queue with
  | none => exact h.1.served nofun
  | some queue =>
    obtain ⟨queueId, hqueue, hother⟩ := h.2 queue rfl
    have hgiven : wp anySem anyOp (conversationContext request)
        (Served reply pair asked n fun asked' n' context => asked' k = asked k ∧ n ≤ n' ∧
          context = some x.toInt64) w := by
      unfold conversationContext
      rw [hcontext, Option.isNone_some, Bool.and_false, if_neg Bool.false_ne_true]
      exact h.1.served fun _ hx => ⟨rfl, le_rfl, (Except.ok.inj hx).symm⟩
    refine wp_sendToQueue hgiven ?_ fun _ _ _ _ _ _ => trivial
    rintro asked' n' _ m ⟨hasked, hn, rfl⟩ ⟨clientId, id, t, hm⟩
    obtain ⟨hqueueId, hmcontent, -⟩ := Insert.row_fields hm
    refine ⟨fun hresponder => ?_, fun _ => ⟨k, hk.trans_le hn,
      (context_row hm rfl (by rw [Int32.toInt_toInt64]; exact hx)).1, content,
      hmcontent.trans hcontent, by rw [hasked]; exact hreply⟩⟩
    rw [hresponder, hqueue] at hqueueId
    exact absurd (toInt64_inj.mp hqueueId).symm hother

/-! ### Messages from the queue -/

/-- A message that the query selects, out of the conversation. -/
def Received (reply : Reply) (pair : Bool → Member) (asked : ℕ → List UInt8) (n : ℕ)
    (queryInfo : Option MessageQueryInfoDto) (dto : MessageDto) : Prop :=
  ∃ q ∈ queryInfo, ∃ m, dto = Message.toDto m ∧ (peekArgs q).Selects m ∧ Fine reply pair asked n m

theorem wp_dequeueMessage {queryInfo : Option MessageQueryInfoDto}
    (h : Good reply pair asked n w) :
    wp anySem anyOp (MessageDao.dequeueMessage queryInfo) (fun r w => Good reply pair asked n w ∧
      ∀ dto, r = .ok (some dto) → Received reply pair asked n queryInfo dto) w := by
  have hrobust : Robust anySem NoInsert (Good reply pair asked n) (fun r w =>
      Good reply pair asked n w ∧ ∀ dto, r = .ok (some dto) →
        Received reply pair asked n queryInfo dto) := robust_good fun _ => nofun
  have hpeek : ∀ w, Good reply pair asked n w → wp anySem anyOp
      (MessageDao.peek (fun args => execute (.peekMessageForUpdate args)) queryInfo)
      (fun r w => Good reply pair asked n w ∧ ∀ dto, r = .ok (some dto) →
        Received reply pair asked n queryInfo dto) w := by
    intro w h
    cases queryInfo with
    | none => exact ⟨h, nofun⟩
    | some q =>
      refine wp_bind (Q := fun r w => Good reply pair asked n w ∧ ∀ m, r = .ok (some m) →
        (peekArgs q).Selects m ∧ Fine reply pair asked n m)
        (wp_execute_good h (by rintro _ ⟨⟩) (fun _ => nofun) fun r db he => ?_)
        (fun m w hm => ?_) fun e w hm => ⟨hm.1, nofun⟩
      · rintro m heq
        obtain rfl := Except.ok.inj heq
        obtain ⟨hpicks, -⟩ := he
        exact ⟨hpicks.2.1, h.messages m (List.mem_toFinset.mp hpicks.1)⟩
      · refine wp_bind (wp_good (only_perform noInsert_step) hm.1) (fun _ w h => ⟨h, ?_⟩)
          fun e w h => ⟨h, nofun⟩
        intro dto heq
        obtain ⟨m, rfl, rfl⟩ := Option.map_eq_some_iff.mp (Except.ok.inj heq)
        exact ⟨q, rfl, m, rfl, hm.2 m rfl⟩
  refine wp_bind (wp_good (only_perform noInsert_step) h) (fun _ w h => ?_)
    fun e w h => ⟨h, nofun⟩
  refine wp_andFinally (fun r _ w => Good reply pair asked n w ∧ ∀ dto, r = .ok (some dto) →
    Received reply pair asked n queryInfo dto) (Q := fun r w => Good reply pair asked n w ∧
    ∀ dto, r = .ok (some dto) → Received reply pair asked n queryInfo dto) ?_ (fun r w hr =>
    hrobust.keeps (fun _ _ => trivial) (only_bind (only_perform (by rintro _ ⟨⟩)) fun _ =>
      only_perform noInsert_step) hr) (fun _ _ hr => hr) fun r e w hr => hrobust.replaced r e w hr
  refine wp_bind (wp_good (only_perform (by rintro _ ⟨⟩)) h) (fun _ w h => ?_)
    fun e w h => ⟨h, nofun⟩
  refine wp_bind (hpeek w h) (fun message w hm => ?_) fun e w hm => ⟨hm.1, nofun⟩
  cases message with
  | none => exact ⟨hm.1, nofun⟩
  | some dto =>
    refine wp_bind (wp_good (only_perform (by rintro _ ⟨⟩)) hm.1) (fun result w h => ?_)
      fun e w h => ⟨h, nofun⟩
    split_ifs
    · exact ⟨h, hm.2⟩
    · exact ⟨h, nofun⟩

/-! ### Requests -/

/-- The requests of the two clients. -/
def Allowed (reply : Reply) (pair : Bool → Member) (asked : ℕ → List UInt8) (n : ℕ) :
    Request → Prop
  | .sendClientMessage request => IsRequest pair request ∨ IsReply reply pair asked n request
  | .dequeueMessage _ | .lookupClient _ | .registration _ => True
  | _ => False

theorem Allowed.grows {asked' : ℕ → List UInt8} {n' : ℕ} {request : Request}
    (h : Allowed reply pair asked n request) (hg : Grows asked n asked' n') :
    Allowed reply pair asked' n' request := by
  cases request with
  | sendClientMessage request =>
    refine Or.imp_right (fun hreply => ⟨hreply.clientId, ?_⟩) h
    obtain ⟨k, hk, hcontext, content, hcontent, hreply⟩ := hreply.answers
    exact ⟨k, hk.trans_le hg.le, hcontext, content, hcontent, by rw [hg.eq k hk]; exact hreply⟩
  | _ => exact h

/-- **What the responses say**: the context of a request, a message of the conversation, the id of
the partner. -/
def Answers (reply : Reply) (pair : Bool → Member) (asked : ℕ → List UInt8) (n : ℕ) :
    Request → Response JavaException → Prop
  | .sendClientMessage request, .sendClientMessage response =>
    IsRequest pair request → Told request asked n response.conversationContext
  | .dequeueMessage request, .message response => ∀ dto ∈ response.messageDto,
    Received reply pair asked n request.messageQueryInfo dto
  | .lookupClient request, .client response => ∀ dto ∈ response.client, ∀ r,
    request.clientName = some (pair r).name → dto.id = (pair r).id.toInt64
  | _, _ => True

theorem Answers.grows {asked' : ℕ → List UInt8} {n' : ℕ} {request : Request}
    {response : Response JavaException} (h : Answers reply pair asked n request response)
    (hg : Grows asked n asked' n') : Answers reply pair asked' n' request response := by
  cases request with
  | sendClientMessage request =>
    cases response with
    | sendClientMessage response =>
      intro hrequest
      obtain ⟨k, hk, hcontext, hcontent⟩ := h hrequest
      exact ⟨k, hk.trans_le hg.le, hcontext, by rw [hg.eq k hk]; exact hcontent⟩
    | _ => trivial
  | dequeueMessage request =>
    cases response with
    | message response =>
      intro dto hdto
      obtain ⟨q, hq, m, hm, hsel, hfine⟩ := h dto hdto
      exact ⟨q, hq, m, hm, hsel, hfine.grows hg⟩
    | _ => trivial
  | lookupClient request =>
    cases response with
    | client response => exact h
    | _ => trivial
  | _ => trivial

theorem noInsert_closing {op : Op} (h : IsClosing op) : NoInsert op := by
  rintro args rfl
  exact h

theorem noInsert_pooling {op : Op} (h : IsPooling op) : NoInsert op := by
  rintro args rfl
  exact h

/-- What a handler ends with is what its body ends with. -/
theorem wp_body {failed : String → JavaException} {body : Java (Response JavaException)}
    {request : Request} (h : Good reply pair asked n w)
    (hbody : ∀ w, Good reply pair asked n w → wp anySem anyOp body
      (Served reply pair asked n fun asked' n' x => Answers reply pair asked' n' request x) w) :
    wp anySem anyOp (withConnection failed body)
      (Served reply pair asked n fun asked' n' x => Answers reply pair asked' n' request x) w :=
  robust_served.wp_withConnection (fun _ _ => trivial) (fun _ => noInsert_closing)
    (fun _ => noInsert_pooling) hbody h

theorem wp_handler (hne : ∀ r, (pair r).id ≠ (pair !r).id) {request : Request}
    (hallowed : Allowed reply pair asked n request) (h : Good reply pair asked n w) :
    wp anySem anyOp (handler request)
      (Served reply pair asked n fun asked' n' x => Answers reply pair asked' n' request x) w := by
  cases request with
  | sendClientMessage request =>
    refine wp_body h fun w h => ?_
    rcases hallowed with hrequest | hreply
    · refine wp_mono ?_ (wp_sendRequest hne hrequest h)
      rintro r w ⟨asked', n', hg, h, hx⟩
      refine ⟨asked', n', hg, h, fun x hr => ?_⟩
      obtain ⟨context, rfl, htold⟩ := hx x hr
      exact fun _ => htold
    · have hnot : ¬ IsRequest pair request := fun hrequest =>
        hne true (toInt64_inj.mp (hreply.clientId.symm.trans hrequest.clientId))
      refine wp_mono ?_ (wp_sendReply hne hreply h)
      rintro r w ⟨asked', n', hg, h, -⟩
      refine ⟨asked', n', hg, h, fun x _ => ?_⟩
      cases x with
      | sendClientMessage response => exact fun hrequest => absurd hrequest hnot
      | _ => trivial
  | dequeueMessage request =>
    refine wp_body h fun w h => wp_bind (wp_dequeueMessage h) (fun message w hm => ?_)
      fun e w hm => hm.1.served nofun
    refine hm.1.served ?_
    rintro _ ⟨⟩ dto hdto
    exact hm.2 dto (congrArg _ hdto)
  | lookupClient request =>
    refine wp_body h fun w h => wp_bind (wp_getClientId h request.clientName)
      (fun clientId w hid => ?_) fun e w hid => hid.1.served nofun
    refine hid.1.served ?_
    rintro _ ⟨⟩ dto hdto r hname
    obtain ⟨id, rfl, rfl⟩ := Option.map_eq_some_iff.mp hdto
    rw [← hid.2 id r rfl hname]
  | registration request =>
    refine wp_body h fun w h => ?_
    refine wp_mono (fun r w hw => hw.served fun x _ => ?_) (wp_good (noInsert_registration request) h)
    cases x <;> trivial
  | _ => exact hallowed.elim

/-- **The requests of the two clients keep the conversation**, and are answered accordingly. -/
theorem wp_process (hne : ∀ r, (pair r).id ≠ (pair !r).id) {request : Request}
    (hallowed : Allowed reply pair asked n request) (h : Good reply pair asked n w) :
    wp anySem anyOp (process request)
      (Served reply pair asked n fun asked' n' x => Answers reply pair asked' n' request x) w := by
  refine wp_bind (wp_good (only_perform (by rintro _ ⟨⟩)) h) (fun clientQueue w h => ?_)
    fun e w h => h.served nofun
  split_ifs
  · exact h.served nofun
  · exact wp_bind (wp_good (only_perform noInsert_step) h) (fun _ w h => wp_handler hne hallowed h)
      fun e w h => h.served nofun

/-- Any request keeps the clients and their queues. -/
theorem Settled.runs {p : Java α} {r : Except JavaException α} {w' : World}
    (h : Settled pair n w.db) (hrun : Runs anySem p w r w') : Settled pair n w'.db := by
  have hwp : wp anySem anyOp p (fun _ w => Settled pair n w.db) w :=
    (only_true p).wp (fun _ _ _ _ => trivial) (fun _ _ _ _ _ hw ⟨_, _, hd⟩ => hw.does hd) h
  exact hwp.sound hrun

end Mlmq.Server.Conversations
