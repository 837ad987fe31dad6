import Mlmq.Server.Processing

/-! # Messages to a client

Nothing in a peek or a dequeue asks whose queue a message is in. So a message in the queue of
another client is returned, and removed, as soon as it comes first among the messages that match
the query, and only then (`private_iff`). -/

namespace Mlmq.Server.Privacy

open Mlmq.Dto Mlmq.Db.Table Mlmq.Db.Schema Mlmq.Db.Dao Mlmq.Net.Requests Mlmq.Net.Responses
open Mlmq.Server.RequestProcessor Mlmq.Server.Calls Mlmq.Server.Processing
open Mlmq.Lib.Programs Mlmq.Lib.Transition Mlmq.Lib.Programs.Program

variable {η : Type} [DecidableEq η]

/-! ### The property -/

/-- The message is in the queue of a client other than the one of the context. -/
def Foreign (db : Database) (context : ClientApplicationContext) (m : Message) : Prop :=
  ∃ row ∈ db.queues, row.id = m.queueId ∧
    ∃ clientId ∈ row.clientId, ∀ client ∈ context.client, clientId.toInt64 ≠ client.id

/-- The query of a peek or of a dequeue. -/
def queryOf : Request → Option (Option MessageQueryInfoDto)
  | .peekMessage request => some request.messageQueryInfo
  | .dequeueMessage request => some request.messageQueryInfo
  | _ => none

/-- **The request leaves the messages to other clients alone**: it neither returns nor removes
one. -/
def Private (s : State η) (h : η) (r : Except JavaException (Response JavaException))
    (s' : State η) : Prop :=
  ∀ m ∈ s.db.messages, Foreign s.db (s.context h) m →
    (∀ response dto, r = .ok (.message response) → response.messageDto = some dto →
      dto.id ≠ m.id.toInt64) ∧ m ∈ s'.db.messages

/-! ### The condition -/

/-- Before every message to another client that a query matches comes another one that it
matches. -/
def Shielded (db : Database) (context : ClientApplicationContext)
    (queryInfo : Option MessageQueryInfoDto) : Prop :=
  ∀ q ∈ queryInfo, ∀ m ∈ db.messages, Foreign db context m → (peekArgs q).Selects m →
    ∃ m' ∈ db.messages, (peekArgs q).Selects m' ∧ ¬ (peekArgs q).Precedes m m'

/-! ### Messages that stay -/

/-- Operations that neither insert nor delete messages. -/
def Stays : Op → Prop
  | .execute (.deleteQueue _) | .execute (.insertMessage _) | .execute (.deleteMessage _) => False
  | _ => True

/-- `P` holds of the messages, and of those that a rollback restores. -/
def Holds (P : List Message → Prop) (w : World) : Prop :=
  P w.db.messages ∧ ∀ messages ∈ w.saved, P messages

section Holds

variable {P : List Message → Prop} {w w' : World} {op : Op}

theorem Holds.acts {r : Ans op} (h : Holds P w) (hop : Stays op) (ha : Acts w op r w') :
    Holds P w' := by
  cases op with
  | execute stmt =>
    obtain ⟨db, he, rfl⟩ := ha
    cases stmt with
    | deleteQueue | insertMessage | deleteMessage => exact hop.elim
    | beginTransaction =>
      obtain rfl := he
      refine ⟨h.1, ?_⟩
      rintro messages ⟨⟩
      exact h.1
    | commitTransaction =>
      obtain rfl := he
      exact ⟨h.1, nofun⟩
    | createClient name =>
      obtain ⟨stored, -, -, -, rfl⟩ := createClient_eq_some.mp he
      exact h
    | createQueue clientId name =>
      obtain ⟨stored, -, -, -, -, rfl⟩ := createQueue_eq_some.mp he
      exact h
    | clientByName name | queueByName name | generateNewConversationContext
    | numMsgPerQueue queueId =>
      obtain ⟨-, -, rfl⟩ := he
      exact h
    | queueByClientId id | peekMessage args | peekMessageForUpdate args =>
      obtain ⟨-, rfl⟩ := he
      exact h
    | publicQueuesContainingMessages limit =>
      obtain ⟨-, -, -, -, rfl⟩ := he
      exact h
  | getClient | getClientQueue =>
    obtain ⟨-, rfl⟩ := ha
    exact h
  | _ =>
    obtain rfl := ha
    exact h

theorem Holds.undone (h : Holds P w) (hu : Undone w op w') : Holds P w' := by
  unfold Undone at hu
  split_ifs at hu
  · subst hu
    exact ⟨World.rolledBack_messages h.1 h.2, nofun⟩
  · obtain ⟨db, hgap, rfl⟩ := hu
    exact ⟨by rw [hgap.messages]; exact h.1, h.2⟩

/-- **Other operations than inserts and deletes of messages keep `P`**, also when they fail. -/
theorem Holds.does {fault : Fault} {a : Except JavaException (Ans op)} (h : Holds P w)
    (hop : Stays op) (hd : Does w op fault a w') : Holds P w' := by
  rcases hd.acts_or_undone with ⟨r, ha⟩ | hu
  · exact h.acts hop ha
  · exact h.undone hu

/-- A delete keeps what the deletion of that row keeps. -/
theorem Holds.deleteMessage {id : Int64} {fault : Fault} {a : Except JavaException ℕ}
    (h : Holds P w) (hP : P w.db.messages → P (w.db.messages.filter fun m => m.id.toInt64 ≠ id))
    (hd : Does w (.execute (.deleteMessage id)) fault a w') : Holds P w' := by
  have hacts : ∀ r, Acts w (.execute (.deleteMessage id)) r w' → Holds P w' := by
    rintro r ⟨db, ⟨-, rfl⟩, rfl⟩
    exact ⟨hP h.1, h.2⟩
  rcases hd.acts_or_undone with ⟨r, ha⟩ | hu
  · exact hacts r ha
  · exact h.undone hu

end Holds

/-! ### What a query chooses -/

abbrev anySem : Semantics Ans JavaException World := dbSem fun _ _ _ => True

theorem wp_stays {α : Type} {p : Java α} {P : List Message → Prop} {w : World}
    (hp : p.Only Stays) (h : Holds P w) : wp anySem anyOp p (fun _ w => Holds P w) w := by
  refine hp.wp (fun _ _ _ _ => trivial) ?_ h
  rintro w op a w' hop hw ⟨fault, -, hd⟩
  exact hw.does hop hd

section Queries

variable {ms : List Message} {queryInfo : Option MessageQueryInfoDto} {w : World}

/-- A row that is returned has been chosen among `ms`. -/
def Chosen (ms : List Message) (args : PeekArgs) (r : Except JavaException (Option Message)) :
    Prop :=
  ∀ m, r = .ok (some m) → args.Picks ms.toFinset m

/-- A message that is returned has been chosen among `ms`. -/
def Picked (ms : List Message) (queryInfo : Option MessageQueryInfoDto)
    (r : Except JavaException (Option MessageDto)) : Prop :=
  ∀ dto, r = .ok (some dto) →
    ∃ q ∈ queryInfo, ∃ m, dto = m.toDto ∧ (peekArgs q).Picks ms.toFinset m

theorem wp_peekMessage (args : PeekArgs) (h : Holds (· = ms) w) :
    wp anySem anyOp (execute (.peekMessage args))
      (fun r w => Holds (· = ms) w ∧ Chosen ms args r) w := by
  refine ⟨trivial, ?_⟩
  rintro a w' ⟨fault, -, hd⟩
  refine ⟨h.does (show Stays (.execute (.peekMessage args)) from trivial) hd, ?_⟩
  rintro m rfl
  cases fault with
  | none =>
    obtain ⟨db, ⟨hpeeks, rfl⟩, rfl⟩ := hd
    rw [← h.1]
    exact hpeeks
  | before | after => exact hd.elim

theorem wp_peekMessageForUpdate (args : PeekArgs) (h : Holds (· = ms) w) :
    wp anySem anyOp (execute (.peekMessageForUpdate args))
      (fun r w => Holds (· = ms) w ∧ Chosen ms args r) w := by
  refine ⟨trivial, ?_⟩
  rintro a w' ⟨fault, -, hd⟩
  refine ⟨h.does (show Stays (.execute (.peekMessageForUpdate args)) from trivial) hd, ?_⟩
  rintro m rfl
  cases fault with
  | none =>
    obtain ⟨db, ⟨hpeeks, rfl⟩, rfl⟩ := hd
    rw [← h.1]
    exact hpeeks
  | before | after => exact hd.elim

theorem wp_peek {stmt : PeekArgs → Java (Option Message)}
    (hstmt : ∀ args w, Holds (· = ms) w →
      wp anySem anyOp (stmt args) (fun r w => Holds (· = ms) w ∧ Chosen ms args r) w)
    (h : Holds (· = ms) w) :
    wp anySem anyOp (MessageDao.peek stmt queryInfo)
      (fun r w => Holds (· = ms) w ∧ Picked ms queryInfo r) w := by
  cases queryInfo with
  | none => exact ⟨h, nofun⟩
  | some q =>
    refine wp_bind (hstmt _ w h) (fun m w h => ?_) fun e w h => ⟨h.1, nofun⟩
    refine wp_bind (wp_stays (only_perform trivial) h.1) (fun _ w hw => ⟨hw, ?_⟩)
      fun e w hw => ⟨hw, nofun⟩
    intro dto hdto
    obtain ⟨m, rfl, rfl⟩ := Option.map_eq_some_iff.mp (Except.ok.inj hdto)
    exact ⟨q, rfl, m, rfl, h.2 m rfl⟩

/-! ### The messages of others -/

variable (F : Message → Prop)

/-- The messages of others are still there. -/
def Keeps (ms messages : List Message) : Prop := ∀ m ∈ ms, F m → m ∈ messages

/-- No message of another is returned. -/
def Clean (ms : List Message) (r : Except JavaException (Option MessageDto)) : Prop :=
  ∀ dto, r = .ok (some dto) → ∀ m ∈ ms, F m → dto.id ≠ m.id.toInt64

variable {F}

theorem Holds.keeps (h : Holds (· = ms) w) : Holds (Keeps F ms) w :=
  ⟨fun _ hm _ => h.1 ▸ hm, fun messages hmessages _ hm _ => h.2 messages hmessages ▸ hm⟩

theorem Picked.clean {r : Except JavaException (Option MessageDto)}
    (hids : ∀ m ∈ ms, ∀ m' ∈ ms, m.id = m'.id → m = m')
    (hpick : ∀ q ∈ queryInfo, ∀ m, (peekArgs q).Picks ms.toFinset m → ¬ F m)
    (h : Picked ms queryInfo r) : Clean F ms r := by
  intro dto hdto m' hm' hforeign heq
  obtain ⟨q, hq, m, rfl, hpicks⟩ := h dto hdto
  obtain rfl := hids m (List.mem_toFinset.mp hpicks.1) m' hm' (toInt64_inj.mp heq)
  exact hpick q hq m hpicks hforeign

/-- Other operations than inserts and deletes of messages leave everything alone. -/
theorem robust_stays {α : Type} {C : Except JavaException α → Prop} (hC : ∀ e, C (.error e)) :
    Robust anySem Stays (Holds (· = ms)) (fun r w => Holds (Keeps F ms) w ∧ C r) where
  state _ _ _ _ hop hw := fun ⟨_, _, hd⟩ => hw.does hop hd
  result _ _ _ _ _ hop hr := fun ⟨_, _, hd⟩ => ⟨hr.1.does hop hd, hr.2⟩
  thrown e _ hw := ⟨hw.keeps, hC e⟩
  replaced _ e _ hr := ⟨hr.1, hC e⟩

variable (hids : ∀ m ∈ ms, ∀ m' ∈ ms, m.id = m'.id → m = m')
  (hpick : ∀ q ∈ queryInfo, ∀ m, (peekArgs q).Picks ms.toFinset m → ¬ F m)

include hids hpick in
theorem wp_dequeue (h : Holds (· = ms) w) :
    wp anySem anyOp (MessageDao.dequeue queryInfo)
      (fun r w => Holds (Keeps F ms) w ∧ Clean F ms r) w := by
  refine wp_bind (wp_stays (only_perform trivial) h) (fun _ w h => ?_)
    fun e w h => ⟨h.keeps, nofun⟩
  refine wp_bind (wp_peek (fun args _ => wp_peekMessageForUpdate args) h) (fun message w h => ?_)
    fun e w h => ⟨h.1.keeps, nofun⟩
  cases message with
  | none => exact ⟨h.1.keeps, nofun⟩
  | some dto =>
    have hclean := h.2.clean hids hpick
    have hdelete : wp anySem anyOp (execute (.deleteMessage dto.id))
        (fun _ w => Holds (Keeps F ms) w) w := by
      refine ⟨trivial, ?_⟩
      rintro a w' ⟨fault, -, hd⟩
      refine h.1.keeps.deleteMessage (fun hkeeps m hm hforeign => ?_) hd
      exact List.mem_filter.mpr ⟨hkeeps m hm hforeign,
        decide_eq_true fun heq => hclean dto rfl m hm hforeign heq.symm⟩
    refine wp_bind hdelete (fun result w h => ?_) fun e w h => ⟨h, nofun⟩
    split_ifs
    · exact ⟨h, hclean⟩
    · exact ⟨h, nofun⟩

include hids hpick in
theorem wp_dequeueMessage (h : Holds (· = ms) w) :
    wp anySem anyOp (MessageDao.dequeueMessage queryInfo)
      (fun r w => Holds (Keeps F ms) w ∧ Clean F ms r) w := by
  refine wp_bind (wp_stays (only_perform trivial) h) (fun _ w h => ?_)
    fun e w h => ⟨h.keeps, nofun⟩
  refine wp_andFinally (fun r _ w => Holds (Keeps F ms) w ∧ Clean F ms r)
    (wp_dequeue hids hpick h) (fun r w h => ?_) (fun _ _ h => h) fun _ _ _ h => ⟨h.1, nofun⟩
  exact wp_mono (fun _ w hw => ⟨hw, h.2⟩) (wp_stays (only_bind (only_perform trivial)
    fun _ => only_perform trivial) h.1)

include hids hpick in
theorem wp_peekMessageDao (h : Holds (· = ms) w) :
    wp anySem anyOp (MessageDao.peekMessage queryInfo)
      (fun r w => Holds (Keeps F ms) w ∧ Clean F ms r) w := by
  refine (robust_stays fun _ => nofun).wp_timed (fun _ _ => trivial) trivial (fun w h => ?_) h
  refine wp_mono (fun r w hr => ?_) (wp_peek (fun args _ => wp_peekMessage args) h)
  exact ⟨hr.1.keeps, hr.2.clean hids hpick⟩

end Queries

/-! ### Requests -/

theorem stays_of_closing {op : Op} (h : IsClosing op) : Stays op := by
  cases op <;> trivial

theorem stays_of_pooling {op : Op} (h : IsPooling op) : Stays op := by
  cases op <;> trivial

section Requests

variable {ms : List Message} {w : World} {F : Message → Prop}

/-- No response with a message of another. -/
def CleanResponse (F : Message → Prop) (ms : List Message) (x : Response JavaException) : Prop :=
  ∀ response dto, x = .message response → response.messageDto = some dto →
    ∀ m ∈ ms, F m → dto.id ≠ m.id.toInt64

theorem wp_body {dao : Java (Option MessageDto)}
    (hdao : wp anySem anyOp dao (fun r w => Holds (Keeps F ms) w ∧ Clean F ms r) w) :
    wp anySem anyOp (dao >>= fun messageDto => pure (.message { messageDto } : Response JavaException))
      (fun r w => Holds (Keeps F ms) w ∧ ∀ x, r = .ok x → CleanResponse F ms x) w := by
  refine wp_bind hdao (fun message w h => ⟨h.1, ?_⟩) fun e w h => ⟨h.1, nofun⟩
  rintro x hx response dto rfl hdto
  obtain rfl := Response.message.inj (Except.ok.inj hx)
  obtain rfl : message = some dto := hdto
  exact h.2 dto rfl

/-- **A peek or a dequeue that chooses no message of another leaves those messages alone.** -/
theorem wp_handler {request : Request} {queryInfo : Option MessageQueryInfoDto}
    (hrequest : queryOf request = some queryInfo)
    (hids : ∀ m ∈ ms, ∀ m' ∈ ms, m.id = m'.id → m = m')
    (hpick : ∀ q ∈ queryInfo, ∀ m, (peekArgs q).Picks ms.toFinset m → ¬ F m)
    (h : Holds (· = ms) w) :
    wp anySem anyOp (handler request)
      (fun r w => Holds (Keeps F ms) w ∧ ∀ x, r = .ok x → CleanResponse F ms x) w := by
  have hwith : ∀ body : Java (Response JavaException), (∀ w, Holds (· = ms) w →
      wp anySem anyOp body (fun r w => Holds (Keeps F ms) w ∧
        ∀ x, r = .ok x → CleanResponse F ms x) w) →
      wp anySem anyOp (withConnection mlmqException body) (fun r w => Holds (Keeps F ms) w ∧
        ∀ x, r = .ok x → CleanResponse F ms x) w := fun body hbody =>
    (robust_stays fun _ => nofun).wp_withConnection (fun _ _ => trivial)
      (fun _ => stays_of_closing) (fun _ => stays_of_pooling) hbody h
  cases request with
  | peekMessage request =>
    obtain rfl := Option.some.inj hrequest
    exact hwith _ fun w h => wp_body (wp_peekMessageDao hids hpick h)
  | dequeueMessage request =>
    obtain rfl := Option.some.inj hrequest
    exact hwith _ fun w h => wp_body (wp_dequeueMessage hids hpick h)
  | _ => cases hrequest

theorem wp_process {request : Request} {queryInfo : Option MessageQueryInfoDto}
    (hrequest : queryOf request = some queryInfo)
    (hids : ∀ m ∈ ms, ∀ m' ∈ ms, m.id = m'.id → m = m')
    (hpick : ∀ q ∈ queryInfo, ∀ m, (peekArgs q).Picks ms.toFinset m → ¬ F m)
    (h : Holds (· = ms) w) :
    wp anySem anyOp (process request)
      (fun r w => Holds (Keeps F ms) w ∧ ∀ x, r = .ok x → CleanResponse F ms x) w := by
  refine wp_bind (wp_stays (only_perform trivial) h) (fun clientQueue w h => ?_)
    fun e w h => ⟨h.keeps, nofun⟩
  split_ifs
  · exact ⟨h.keeps, nofun⟩
  · exact wp_bind (wp_stays (only_perform trivial) h) (fun _ w h => wp_handler hrequest hids hpick h)
      fun e w h => ⟨h.keeps, nofun⟩

/-- A message that a query may choose is returned in some execution without faults. -/
theorem runs_picked {request : Request} {q : MessageQueryInfoDto} {queue : QueueDto} {m : Message}
    (hrequest : queryOf request = some (some q)) (hqueue : w.context.clientQueue = some queue)
    (hnumbered : Numbered w.db.messages w.db.messageSeq)
    (hpicks : (peekArgs q).Picks w.db.messages.toFinset m) :
    ∃ w', Runs anySem (process request) w (.ok (.message { messageDto := some m.toDto })) w' := by
  have hok : ∀ (w : World) (op : Op), (fun _ _ _ => True : World → Op → Fault → Prop) w op .none :=
    fun _ _ => trivial
  have hstep : ∀ w, Runs anySem (invoke .step) w (.ok ()) w := fun _ => runs_invoke hok rfl
  cases request with
  | peekMessage request =>
    obtain ⟨queryInfo⟩ := request
    obtain rfl : queryInfo = some q := Option.some.inj hrequest
    have hselect : Runs anySem (execute (.peekMessage (peekArgs q))) w (.ok (some m)) w :=
      runs_invoke hok ⟨w.db, ⟨hpicks, rfl⟩, rfl⟩
    have hpeek : Runs anySem (MessageDao.peekMessage (some q)) w (.ok (some m.toDto)) w :=
      runs_timed hok (.bind hselect (.bind (hstep w) ⟨rfl, rfl⟩))
    exact ⟨w, runs_process hok hqueue (runs_withConnection hok (.bind hpeek ⟨rfl, rfl⟩))⟩
  | dequeueMessage request =>
    obtain ⟨queryInfo⟩ := request
    obtain rfl : queryInfo = some q := Option.some.inj hrequest
    have hm : m ∈ w.db.messages := List.mem_toFinset.mp hpicks.1
    have hdelete : ∀ w' : World, w'.db = w.db → Runs anySem (execute (.deleteMessage m.toDto.id)) w'
        (.ok 1) { w' with db := w.db.deleteMessage m.toDto.id } := by
      intro w' hdb
      exact runs_invoke hok ⟨_, ⟨by rw [hdb]; exact
        (length_of_key hnumbered.nodup hnumbered.ids hm).symm, rfl⟩, by rw [hdb]; rfl⟩
    have hbegin : Runs anySem (execute .beginTransaction) w (.ok ())
        ⟨w.db, some w.db.messages, w.context⟩ := runs_invoke hok ⟨w.db, rfl, rfl⟩
    have hselect : ∀ w' : World, w'.db = w.db →
        Runs anySem (execute (.peekMessageForUpdate (peekArgs q))) w' (.ok (some m)) w' := by
      intro w' hdb
      exact runs_invoke hok ⟨w'.db, ⟨by rw [hdb]; exact hpicks, rfl⟩, rfl⟩
    have hdequeue : Runs anySem (MessageDao.dequeue (some q)) w (.ok (some m.toDto))
        ⟨w.db.deleteMessage m.toDto.id, some w.db.messages, w.context⟩ := by
      refine .bind hbegin (.bind (.bind (hselect _ rfl) (.bind (hstep _) ⟨rfl, rfl⟩))
        (.bind (hdelete _ rfl) ?_))
      rw [if_pos rfl]
      exact ⟨rfl, rfl⟩
    have hcommit : Runs anySem (execute .commitTransaction)
        ⟨w.db.deleteMessage m.toDto.id, some w.db.messages, w.context⟩ (.ok ())
        ⟨w.db.deleteMessage m.toDto.id, none, w.context⟩ := runs_invoke hok ⟨_, rfl, rfl⟩
    have hdao : Runs anySem (MessageDao.dequeueMessage (some q)) w (.ok (some m.toDto))
        ⟨w.db.deleteMessage m.toDto.id, none, w.context⟩ :=
      .bind (hstep w) (.andFinally hdequeue (.bind hcommit (hstep _)))
    exact ⟨_, runs_process hok hqueue (runs_withConnection hok (.bind hdao ⟨rfl, rfl⟩))⟩
  | _ => cases hrequest

end Requests

/-! ### The result -/

/-- **A peek or a dequeue of a registered connection leaves the messages to other clients alone iff
none of them may come first among the messages that its query matches.** -/
theorem private_iff {s : State η} (hs : Reached s) (h : η) (request : Request)
    (queryInfo : Option MessageQueryInfoDto) (hrequest : queryOf request = some queryInfo)
    (hregistered : (s.context h).clientQueue.isSome) :
    (∀ r s', RequestStep (fun _ _ _ => True) s (h, request, r) s' → Private s h r s') ↔
      Shielded s.db (s.context h) queryInfo := by
  obtain ⟨queue, hqueue⟩ := Option.isSome_iff_exists.mp hregistered
  have hnumbered := hs.valid.messages
  constructor
  · rintro hprivate q rfl m hm hforeign hsel
    by_contra hnot
    have hpicks : (peekArgs q).Picks s.db.messages.toFinset m := by
      refine ⟨List.mem_toFinset.mpr hm, hsel, fun m' hm' hsel' => ?_⟩
      by_contra hbefore
      exact hnot ⟨m', List.mem_toFinset.mp hm', hsel', hbefore⟩
    obtain ⟨w', hrun⟩ := runs_picked (w := s.world h) hrequest hqueue hnumbered hpicks
    exact (hprivate _ _ ⟨w', hrun, rfl⟩ m hm hforeign).1 _ _ rfl rfl rfl
  · rintro hshielded r s' ⟨w', hrun, rfl⟩ m hm hforeign
    have hpick : ∀ q ∈ queryInfo, ∀ m, (peekArgs q).Picks s.db.messages.toFinset m →
        ¬ Foreign s.db (s.context h) m := by
      intro q hq m hpicks hf
      obtain ⟨m', hm', hsel', hbefore⟩ :=
        hshielded q hq m (List.mem_toFinset.mp hpicks.1) hf hpicks.2.1
      exact hbefore (hpicks.2.2 m' (List.mem_toFinset.mpr hm') hsel')
    have hstart : Holds (· = s.db.messages) (s.world h) :=
      ⟨rfl, fun messages hmessages => absurd hmessages (Option.not_mem_none _)⟩
    have hend := (wp_process hrequest hnumbered.ids hpick hstart).sound hrun
    exact ⟨fun response dto hr hdto => hend.2 _ hr response dto rfl hdto m hm hforeign,
      hend.1.1 m hm hforeign⟩

/-- A query without filters. -/
def queryAll : MessageQueryInfoDto where
  queue := none
  sender := none
  shouldOrderByPriority := false
  conversationContext := none

/-- The first connection registers as `a`, the second as `b`, and `a` sends a message to `b`. -/
def afterSend : State Bool :=
  let s := ((State.init : State Bool).process false (.registration ⟨some "a"⟩)).2
  let s := (s.process true (.registration ⟨some "b"⟩)).2
  (s.process false (.sendClientMessage
    { clientId := 2, content := some [7], prio := 0, conversation := false,
      conversationContext := none })).2

/-- The message to `b`. -/
def toB : Message := ⟨1, 2, 1, some [7], 0, 1, none⟩

theorem reached_process {s : State η} (hs : Reached s) (h : η) (request : Request) :
    Reached (s.process h request).2 :=
  hs.next (step_process (fun _ _ => trivial) s h request)

theorem reached_afterSend : Reached afterSend :=
  reached_process (reached_process (reached_process (.of_init rfl) _ _) _ _) _ _

/-- A peek of `b` gets the message, which is its own. -/
theorem private_receiver : (afterSend.context true).clientQueue.isSome ∧
    ∀ r s', RequestStep (fun _ _ _ => True) afterSend (true, .peekMessage ⟨some queryAll⟩, r) s' →
      Private afterSend true r s' := by
  refine ⟨by decide, (private_iff reached_afterSend true (.peekMessage ⟨some queryAll⟩) _ rfl
    (by decide)).mpr ?_⟩
  rintro q ⟨⟩ m hm ⟨row, hrow, hid, clientId, howner, hother⟩
  have hmessage : afterSend.db.messages = [toB] := by decide
  have hqueues : afterSend.db.queues = [⟨1, some "a", some 1⟩, ⟨2, some "b", some 2⟩] := by decide
  have hclient : (afterSend.context true).client = some ⟨2, some "b"⟩ := by decide
  rw [hmessage, List.mem_singleton] at hm
  rw [hqueues] at hrow
  subst hm
  rcases List.mem_pair.mp hrow with rfl | rfl
  · exact absurd hid (by decide)
  · obtain rfl := Option.mem_some_iff.mp howner
    exact absurd rfl (hother _ hclient)

/-- A peek of `a` gets the message to `b`. -/
theorem not_private_sender : ¬ ∀ (s : State Bool) (h : Bool) (request : Request)
    (queryInfo : Option MessageQueryInfoDto), Reached s → queryOf request = some queryInfo →
    (s.context h).clientQueue.isSome → ∀ r s',
      RequestStep (fun _ _ _ => True) s (h, request, r) s' → Private s h r s' := by
  intro hall
  have hmessage : (afterSend.world false).db.messages = [toB] := by decide
  have hpicks : (peekArgs queryAll).Picks (afterSend.world false).db.messages.toFinset toB := by
    rw [hmessage]
    refine ⟨List.mem_toFinset.mpr List.mem_cons_self, ⟨nofun, nofun, nofun⟩, fun m hm _ => ?_⟩
    obtain rfl := List.mem_singleton.mp (List.mem_toFinset.mp hm)
    exact le_refl toB.sentAt
  have hquery : queryOf (.peekMessage ⟨some queryAll⟩) = some (some queryAll) := rfl
  have hqueue : (afterSend.world false).context.clientQueue = some ⟨1, none⟩ := by decide
  obtain ⟨w, hrun⟩ := runs_picked hquery hqueue reached_afterSend.valid.messages hpicks
  have hforeign : Foreign afterSend.db (afterSend.context false) toB := by
    refine ⟨⟨2, some "b", some 2⟩, by decide, rfl, 2, rfl, ?_⟩
    have hclient : (afterSend.context false).client = some ⟨1, some "a"⟩ := by decide
    rw [hclient]
    rintro client ⟨⟩
    decide
  have hprivate := hall afterSend false (.peekMessage ⟨some queryAll⟩) _ reached_afterSend rfl
    (by decide) _ _ ⟨w, hrun, rfl⟩ toB (by decide) hforeign
  exact hprivate.1 _ toB.toDto rfl rfl rfl

end Mlmq.Server.Privacy
