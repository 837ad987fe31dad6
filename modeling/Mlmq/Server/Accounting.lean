import Mlmq.Lib.Ledger
import Mlmq.Lib.Tables
import Mlmq.Server.Privacy
import Mlmq.Server.Queries

/-! # The ledger of the messages

What a request enters into the table of messages, and which messages leave it (`Books`), whatever
throws. A send enters a copy for the queue ids up to one that fails; only a deletion of their queue
and a dequeue let messages go. A dequeue returns the message that it takes, unless it ends with an
exception: then the message is lost if its transaction has been committed all the same.

`every_message_accounted`: in every run of requests the ledger balances, so a message that has been
stored is stored still, or has been returned once, or has left with its queue, or is the one that a
failed dequeue has lost. -/

namespace Mlmq.Server.Accounting

open Mlmq.Dto Mlmq.Db.Table Mlmq.Db.Schema Mlmq.Db.Dao Mlmq.Net.Requests Mlmq.Net.Responses
open Mlmq.Server.RequestProcessor Mlmq.Server.Calls Mlmq.Server.Processing
open Mlmq.Server.Privacy (Stays Holds Picked Chosen anySem)
open Mlmq.Lib.Programs Mlmq.Lib.Transition Mlmq.Lib.Programs.Program
open Mlmq.Lib.Ledger (Store Entry total exists_ledger)
open Mlmq.Lib.Tables (exists_of_forall₂)

variable {η : Type}

/-! ### What a request enters, and what leaves -/

/-- What a request ends with. -/
abbrev Outcome : Type := Except JavaException (Response JavaException)

/-- The message that a send stores for a queue id. -/
structure IsLetter (request : SendMessageRequest) (queueId : Option Int64) (m : Message) :
    Prop where
  queue : queueId = some m.queueId.toInt64
  content : m.content = request.content
  prio : m.prio.toInt32 = request.prio
  context : m.context = none

/-- The message that is sent to a client. -/
structure IsPersonal (request : SendClientMessageRequest) (m : Message) : Prop where
  content : m.content = request.content
  prio : m.prio.toInt32 = request.prio

/-- **What a request enters.** -/
def Enters (request : Request) (outcome : Outcome) (new : List Message) : Prop :=
  match request with
  | .sendMessage request => ∃ queueIds, queueIds <+: request.queueIds ∧
      List.Forall₂ (IsLetter request) queueIds new ∧ (outcome.isOk → queueIds = request.queueIds)
  | .sendClientMessage request => (∀ m ∈ new, IsPersonal request m) ∧ new.length ≤ 1 ∧
      ∀ response, outcome = .ok response → ∃ m, new = [m] ∧ response =
        .sendClientMessage { conversationContext := m.context.map Int32.toInt64 }
  | _ => new = []

/-- **What leaves in a request.** A dequeue that answers returns the message. -/
def Leaves (request : Request) (outcome : Outcome) (gone : List Message) : Prop :=
  match request with
  | .deleteQueue request => ∀ m ∈ gone, ∃ queue ∈ request.queue, m.queueId.toInt64 = queue.id
  | .dequeueMessage request => gone.length ≤ 1 ∧
      (∀ m ∈ gone, ∃ q ∈ request.messageQueryInfo, (peekArgs q).Selects m) ∧
      ∀ response, outcome = .ok response → ∃ messageDto : Option MessageDto,
        response = .message { messageDto } ∧ gone.map Message.toDto = messageDto.toList
  | _ => gone = []

/-- **The entry of a request.** `lossless` excludes that a dequeue loses a message. -/
structure Books (lossless : Prop) (l : η × Request × Outcome) (e : Entry Message) : Prop where
  enters : Enters l.2.1 l.2.2 e.entered
  leaves : Leaves l.2.1 l.2.2 e.left
  loses : lossless → ∀ request x, l.2 = (.dequeueMessage request, .error x) → e.left = []

/-- The table of messages. -/
def messageStore : Store Database Message where
  items := Database.messages
  key m := m.id.toInt
  next db := db.messageSeq

theorem keyed_of_valid {db : Database} (h : db.Valid) : messageStore.Keyed db where
  nodup := by
    refine (List.nodup_map_iff_inj_on h.messages.nodup).mpr fun m hm m' hm' heq => ?_
    exact h.messages.ids m hm m' hm' (Int32.toInt_inj.mp heq)
  lt := h.messages.lt

/-! ### Operations that leave the messages alone -/

/-- Operations that change neither the messages nor the transaction. -/
def Mild : Op → Prop
  | .execute .beginTransaction | .execute .commitTransaction => False
  | op => Stays op

/-- The messages and the transaction are the same. -/
structure Same (w w' : World) : Prop where
  messages : w'.db.messages = w.db.messages
  saved : w'.saved = w.saved
  seq : w.db.messageSeq ≤ w'.db.messageSeq

theorem Mild.stays {op : Op} (h : Mild op) : Stays op := by
  unfold Mild at h
  split at h
  · exact h.elim
  · exact h.elim
  · exact h

theorem mild_of_closing {op : Op} (h : IsClosing op) : Mild op := by
  cases op <;> trivial

theorem mild_of_pooling {op : Op} (h : IsPooling op) : Mild op := by
  cases op <;> trivial

/-- An operation that is executed never takes a value back from the sequence of the messages. -/
theorem seq_acts {w w' : World} {op : Op} {r : Ans op} (ha : Acts w op r w') :
    w.db.messageSeq ≤ w'.db.messageSeq := by
  cases op with
  | execute stmt =>
    obtain ⟨db, he, rfl⟩ := ha
    rw [World.db_executed]
    exact (seqs_le he).1
  | getClient | getClientQueue =>
    obtain ⟨-, rfl⟩ := ha
    exact le_rfl
  | _ =>
    obtain rfl := ha
    exact le_rfl

theorem seq_undone {w w' : World} {op : Op} (hu : Undone w op w') :
    w.db.messageSeq ≤ w'.db.messageSeq := by
  unfold Undone at hu
  split_ifs at hu
  · subst hu
    exact le_rfl
  · obtain ⟨db, hgap, rfl⟩ := hu
    exact hgap.messageSeq

theorem seq_does {w w' : World} {op : Op} {fault : Fault} {a : Except JavaException (Ans op)}
    (hd : Does w op fault a w') : w.db.messageSeq ≤ w'.db.messageSeq := by
  rcases hd.acts_or_undone with ⟨r, ha⟩ | hu
  · exact seq_acts ha
  · exact seq_undone hu

theorem saved_acts {w w' : World} {op : Op} {r : Ans op} (hop : Mild op) (ha : Acts w op r w') :
    w'.saved = w.saved := by
  cases op with
  | execute stmt =>
    obtain ⟨db, -, rfl⟩ := ha
    cases stmt <;> first | rfl | exact hop.elim
  | getClient | getClientQueue =>
    obtain ⟨-, rfl⟩ := ha
    rfl
  | _ =>
    obtain rfl := ha
    rfl

/-- **A mild operation changes nothing that the ledger sees**, also when it throws. -/
theorem Mild.same {w w' : World} {op : Op} {fault : Fault} {a : Except JavaException (Ans op)}
    (hop : Mild op) (hd : Does w op fault a w') : Same w w' := by
  rcases hd.acts_or_undone with ⟨r, ha⟩ | hu
  · -- the messages that are stored now serve for those that a rollback would restore
    have hholds : Holds (· = w.db.messages) { w with saved := none } := ⟨rfl, nofun⟩
    refine ⟨?_, saved_acts hop ha, seq_acts ha⟩
    cases op with
    | execute stmt =>
      obtain ⟨db, he, rfl⟩ := ha
      rw [World.db_executed]
      have hacts : Acts { w with saved := none } (.execute stmt) r
          (({ w with saved := none } : World).executed stmt db) := ⟨db, he, rfl⟩
      exact (World.db_executed _ stmt db) ▸ (hholds.acts hop.stays hacts).1
    | getClient | getClientQueue =>
      obtain ⟨-, rfl⟩ := ha
      rfl
    | _ =>
      obtain rfl := ha
      rfl
  · have hcommit : op ≠ .execute .commitTransaction := by
      rintro rfl
      exact hop
    rw [Undone, if_neg hcommit] at hu
    obtain ⟨db, hgap, rfl⟩ := hu
    exact ⟨hgap.messages, rfl, hgap.messageSeq⟩

/-- The messages have moved from `db`, and there is no transaction. -/
structure Moved (db : Database) (e : Entry Message) (w : World) : Prop where
  moves : messageStore.Moves db e w.db
  saved : w.saved = none

section Moved

variable {db : Database} {e e' : Entry Message} {w w' : World}

theorem Moved.then (h : Moved db e w) (hmoves : messageStore.Moves w.db e' w'.db)
    (hsaved : w'.saved = w.saved) :
    Moved db ⟨e.entered ++ e'.entered, e.left ++ e'.left⟩ w' :=
  ⟨h.moves.trans hmoves, hsaved.trans h.saved⟩

theorem Same.moves (h : Same w w') : messageStore.Moves w.db ⟨[], []⟩ w'.db :=
  .of_perm (.of_eq h.messages.symm) (Int.ofNat_le.mpr h.seq)

theorem Moved.same (h : Moved db e w) (hsame : Same w w') : Moved db e w' := by
  have hmoved := h.then hsame.moves hsame.saved
  rwa [List.append_nil, List.append_nil] at hmoved

theorem moved_start (db : Database) (context : ClientApplicationContext) :
    Moved db ⟨[], []⟩ ⟨db, none, context⟩ :=
  ⟨.of_perm (.refl _) le_rfl, rfl⟩

end Moved

/-! ### Programs -/

section Programs

variable {α : Type} {db : Database} {w : World} {p : Java α}
  {C : Except JavaException α → Entry Message → Prop}

/-- What a program ends with, and how the messages have moved. -/
def Ledgered (db : Database) (C : Except JavaException α → Entry Message → Prop)
    (r : Except JavaException α) (w : World) : Prop :=
  ∃ e, Moved db e w ∧ C r e

theorem wp_mild {I : World → Prop} (hI : ∀ w w', Same w w' → I w → I w') (hp : p.Only Mild)
    (h : I w) : wp anySem anyOp p (fun _ w => I w) w :=
  hp.wp (fun _ _ _ _ => trivial)
    (fun w _ _ w' hop hw ⟨_, _, hd⟩ => hI w w' (hop.same hd) hw) h

/-- Mild operations keep every entry, and an exception may replace what a program has ended with. -/
theorem robust_mild (hnone : ∀ x, C (.error x) ⟨[], []⟩)
    (hreplaced : ∀ r x e, C r e → C (.error x) e) :
    Robust anySem Mild (Moved db ⟨[], []⟩) (Ledgered db C) where
  state _ _ _ _ hop hw := fun ⟨_, _, hd⟩ => hw.same (hop.same hd)
  result _ _ _ _ _ hop := fun ⟨e, hw, hr⟩ ⟨_, _, hd⟩ => ⟨e, hw.same (hop.same hd), hr⟩
  thrown x _ hw := ⟨_, hw, hnone x⟩
  replaced r x _ := fun ⟨e, hw, hr⟩ => ⟨e, hw, hreplaced r x e hr⟩

/-- A mild program books nothing. -/
theorem wp_mild_ledgered (hp : p.Only Mild) (hC : ∀ r, C r ⟨[], []⟩) (h : Moved db ⟨[], []⟩ w) :
    wp anySem anyOp p (Ledgered db C) w :=
  wp_mono (fun r _ hw => ⟨_, hw, hC r⟩) (wp_mild (fun _ _ hsame hw => hw.same hsame) hp h)

/-- A value that is computed in the end. -/
theorem wp_ledgered_bind {β : Type} {f : α → Java β}
    {C' : Except JavaException β → Entry Message → Prop}
    (hp : wp anySem anyOp p (Ledgered db C) w)
    (hok : ∀ a e w, C (.ok a) e → Moved db e w → wp anySem anyOp (f a) (Ledgered db C') w)
    (herr : ∀ x e, C (.error x) e → C' (.error x) e) :
    wp anySem anyOp (p >>= f) (Ledgered db C') w :=
  wp_bind hp (fun a w ⟨e, hw, hr⟩ => hok a e w hr hw) fun x _ ⟨e, hw, hr⟩ => ⟨e, hw, herr x e hr⟩

end Programs

/-! ### Handlers that leave the messages alone -/

theorem mild_getClientId (name : Option String) : (ClientDao.getClientId name).Only Mild :=
  only_timed trivial (only_bind (only_perform trivial) fun _ => only_pure _)

theorem mild_getQueueByClientId (clientId : Int64) :
    (QueueDao.getQueueByClientId clientId).Only Mild :=
  only_timed trivial (only_bind (only_perform trivial) fun _ => only_pure _)

theorem mild_getQueueByName (name : Option String) : (QueueDao.getQueueByName name).Only Mild :=
  only_timed trivial (only_bind (only_perform trivial) fun _ => only_pure _)

theorem mild_createClientQueue (clientId : Option Int32) (name : Option String) :
    (QueueDao.createClientQueue clientId name).Only Mild :=
  only_timed trivial (only_bind (only_perform trivial) fun _ => only_pure _)

theorem mild_clientAndQueue (name : Option String) : (clientAndQueue name).Only Mild := by
  refine only_bind (mild_getClientId name) fun clientId => ?_
  cases clientId with
  | none =>
    exact only_bind (only_timed trivial (only_perform trivial)) fun _ =>
      only_bind (mild_createClientQueue _ name) fun _ => only_pure _
  | some clientId =>
    refine only_bind (mild_getQueueByClientId _) fun queue => ?_
    cases queue with
    | none => trivial
    | some queue => exact only_bind (only_perform trivial) fun _ => only_pure _

theorem mild_createQueue (request : CreateQueueRequest) :
    (RequestProcessor.createQueue request).Only Mild := by
  refine only_bind (mild_getQueueByName _) fun queue => ?_
  cases queue with
  | none => exact only_bind (mild_createClientQueue _ _) fun _ => only_pure _
  | some queue => trivial

theorem mild_lookupQueue (request : LookupQueueRequest) : (lookupQueue request).Only Mild := by
  unfold lookupQueue
  cases request.clientId with
  | none => exact only_bind (mild_getQueueByName _) fun _ => only_pure _
  | some clientId => exact only_bind (mild_getQueueByClientId _) fun _ => only_pure _

theorem mild_queuesWithPendingMessages (request : QueuesWithPendingMessagesRequest) :
    (queuesWithPendingMessages request).Only Mild := by
  refine only_bind (only_timed trivial (only_bind (only_perform trivial) fun _ => only_pure _))
    fun queues => only_bind (only_perform trivial) fun clientQueue => ?_
  cases clientQueue with
  | none => trivial
  | some clientQueue =>
    exact only_bind (only_timed trivial (only_perform trivial)) fun _ => only_pure _

/-! ### Sends -/

section Sends

variable {db : Database} {e : Entry Message} {w w' : World}

/-- What a row has of the parameters. -/
theorem fields_row {args : Insert} {id : Int32} {t : ℕ} {m : Message}
    (h : args.row id t = some m) : m.queueId.toInt64 = args.queueId ∧ m.content = args.content ∧
      m.prio.toInt32 = args.prio ∧ m.context.map Int32.toInt64 = args.context := by
  simp only [Insert.row, Option.bind_eq_bind, Option.bind_eq_some_iff] at h
  obtain ⟨q, hq, c, -, p, hp, x, hx, hm⟩ := h
  obtain rfl := Option.some.inj hm
  rw [toSmallint_eq_some] at hp
  obtain ⟨hfits, rfl⟩ := hp
  refine ⟨toInteger_eq_some.mp hq, rfl, hfits, ?_⟩
  cases hcontext : args.context with
  | none =>
    rw [hcontext] at hx
    obtain rfl := Option.some.inj hx
    rfl
  | some l =>
    rw [hcontext] at hx
    obtain ⟨id', hid, rfl⟩ := Option.map_eq_some_iff.mp hx
    exact congrArg some (toInteger_eq_some.mp hid)

/-- **An insert** enters its row, or throws and changes nothing. -/
theorem does_insert {args : Insert} {fault : Fault} {a : Except JavaException Unit}
    (h : Moved db e w) (hd : Does w (.execute (.insertMessage args)) fault a w') :
    (∃ id t m, args.row id t = some m ∧ Moved db ⟨e.entered ++ [m], e.left⟩ w') ∨
      (∃ x, a = .error x) ∧ Moved db e w' := by
  have hacts : ∀ r, Acts w (.execute (.insertMessage args)) r w' →
      ∃ id t m, args.row id t = some m ∧ Moved db ⟨e.entered ++ [m], e.left⟩ w' := by
    rintro r ⟨db', ⟨t, ht⟩, rfl⟩
    obtain ⟨id, m, hid, hrow, -, rfl⟩ := insertMessage_eq_some.mp ht
    have hkey : m.id.toInt = w.db.messageSeq := by rw [Insert.id_row hrow, toInt_of_toId hid]
    refine ⟨id, t, m, hrow, ?_⟩
    set db₁ : Database := { w.db with
      messages := w.db.messages ++ [m], messageSeq := w.db.messageSeq + 1 }
    have hmoves : messageStore.Moves w.db ⟨[m], []⟩ db₁ := by
      refine .enter (.refl _) hkey.ge ?_
      show m.id.toInt < ((w.db.messageSeq + 1 : ℕ) : ℤ)
      omega
    have hsaved : ({ w with db := db₁ } : World).saved = w.saved := rfl
    have hmoved := h.then hmoves hsaved
    rwa [List.append_nil] at hmoved
  have hundone : Undone w (.execute (.insertMessage args)) w' → Moved db e w' := by
    intro hu
    rw [Undone, if_neg (by simp)] at hu
    obtain ⟨db', hgap, rfl⟩ := hu
    exact h.same ⟨hgap.messages, rfl, hgap.messageSeq⟩
  rcases a with x | r
  · rcases hd.acts_or_undone with ⟨r, ha⟩ | hu
    · exact .inl (hacts r ha)
    · exact .inr ⟨⟨x, rfl⟩, hundone hu⟩
  · cases fault with
    | none => exact .inl (hacts r hd)
    | before | after => exact hd.elim

/-- Copies for these queue ids have been entered. -/
def Sent (db : Database) (request : SendMessageRequest) (queueIds : List (Option Int64))
    (w : World) : Prop :=
  ∃ new, Moved db ⟨new, []⟩ w ∧ List.Forall₂ (IsLetter request) queueIds new

/-- **The loop of a send** enters a copy for each queue id, up to one that fails. -/
theorem wp_insertAll {request : SendMessageRequest} {sent queueIds : List (Option Int64)}
    (h : Sent db request sent w) :
    wp anySem anyOp (MessageDao.insertAll request queueIds) (fun r w => ∃ more, more <+: queueIds ∧
      Sent db request (sent ++ more) w ∧ (r.isOk → more = queueIds)) w := by
  have hnone : ∀ {queueIds : List (Option Int64)} {sent w}, Sent db request sent w →
      ∃ more, more <+: queueIds ∧ Sent db request (sent ++ more) w ∧ (false → more = queueIds) := by
    intro queueIds sent w h
    exact ⟨[], List.nil_prefix, by rwa [List.append_nil], nofun⟩
  induction queueIds generalizing sent w with
  | nil => exact ⟨[], List.nil_prefix, by rwa [List.append_nil], fun _ => rfl⟩
  | cons queueId queueIds ih =>
    cases queueId with
    | none => exact hnone h
    | some queueId =>
      refine wp_bind (wp_mild (fun w w' hsame => fun ⟨new, hw, hnew⟩ => ⟨new, hw.same hsame, hnew⟩)
        (only_perform trivial) h) (fun client w h => ?_) fun x w h => hnone h
      cases client with
      | none => exact hnone h
      | some client =>
        obtain ⟨new, hw, hnew⟩ := h
        refine wp_bind (Q := fun r w => Sent db request (sent ++ [some queueId]) w ∨
          (∃ x, r = .error x) ∧ Sent db request sent w) ⟨trivial, ?_⟩ (fun u w h => ?_)
          fun x w h => ?_
        · rintro a w' ⟨fault, -, hd⟩
          rcases does_insert hw hd with ⟨id, t, m, hrow, hmoved⟩ | ⟨hx, hmoved⟩
          · obtain ⟨hqueue, hcontent, hprio, hcontext⟩ := fields_row hrow
            exact .inl ⟨new ++ [m], hmoved, List.rel_append hnew (.cons ⟨congrArg some hqueue.symm,
              hcontent, hprio, Option.map_eq_none_iff.mp hcontext⟩ .nil)⟩
          · exact .inr ⟨hx, new, hmoved, hnew⟩
        · rcases h with h | ⟨⟨x, hx⟩, -⟩
          · refine wp_mono (fun r w => ?_) (ih h)
            rintro ⟨more, hpre, hsent, hall⟩
            rw [List.append_assoc] at hsent
            exact ⟨some queueId :: more, List.cons_prefix_cons.mpr ⟨rfl, hpre⟩, hsent,
              fun hr => congrArg _ (hall hr)⟩
          · cases hx
        · rcases h with h | ⟨-, h⟩
          · exact ⟨[some queueId], List.cons_prefix_cons.mpr ⟨rfl, List.nil_prefix⟩, h, nofun⟩
          · exact hnone h

/-- What a handler ends with, and the entry of its request. -/
def Booked (request : Request) (r : Outcome) (e : Entry Message) : Prop :=
  Enters request r e.entered ∧ Leaves request r e.left

theorem booked_nothing (request : Request) (x : JavaException) :
    Booked request (.error x) ⟨[], []⟩ := by
  cases request with
  | sendMessage request => exact ⟨⟨[], List.nil_prefix, .nil, nofun⟩, rfl⟩
  | sendClientMessage request => exact ⟨⟨nofun, Nat.zero_le _, nofun⟩, rfl⟩
  | deleteQueue request => exact ⟨rfl, nofun⟩
  | dequeueMessage request => exact ⟨rfl, Nat.zero_le _, nofun, nofun⟩
  | _ => exact ⟨rfl, rfl⟩

/-- An exception may come behind everything else. -/
theorem Booked.replaced {request : Request} {r : Outcome} {e : Entry Message} (x : JavaException)
    (h : Booked request r e) : Booked request (.error x) e := by
  obtain ⟨henters, hleaves⟩ := h
  cases request with
  | sendMessage request =>
    obtain ⟨queueIds, hpre, hall, -⟩ := henters
    exact ⟨⟨queueIds, hpre, hall, nofun⟩, hleaves⟩
  | sendClientMessage request => exact ⟨⟨henters.1, henters.2.1, nofun⟩, hleaves⟩
  | dequeueMessage request => exact ⟨henters, hleaves.1, hleaves.2.1, nofun⟩
  | _ => exact ⟨henters, hleaves⟩

theorem robust_booked (request : Request) :
    Robust anySem Mild (Moved db ⟨[], []⟩) (Ledgered db (Booked request)) :=
  robust_mild (booked_nothing request) fun _ x _ h => h.replaced x

theorem wp_sendMessage (request : SendMessageRequest) (h : Moved db ⟨[], []⟩ w) :
    wp anySem anyOp (sendMessage request) (Ledgered db (Booked (.sendMessage request))) w := by
  let C : Except JavaException Unit → Entry Message → Prop := fun r e => e.left = [] ∧
    ∃ queueIds, queueIds <+: request.queueIds ∧ List.Forall₂ (IsLetter request) queueIds e.entered ∧
      (r.isOk → queueIds = request.queueIds)
  have hrobust : Robust anySem Mild (Moved db ⟨[], []⟩) (Ledgered db C) := by
    refine robust_mild (fun x => ⟨rfl, [], List.nil_prefix, .nil, nofun⟩) ?_
    rintro r x e ⟨hleft, queueIds, hpre, hall, -⟩
    exact ⟨hleft, queueIds, hpre, hall, nofun⟩
  have hloop : wp anySem anyOp (MessageDao.insertMessages request) (Ledgered db C) w := by
    refine hrobust.wp_timed (fun _ _ => trivial) trivial (fun w hw => ?_) h
    refine wp_mono (fun r w => ?_) (wp_insertAll ⟨[], hw, .nil⟩)
    rintro ⟨queueIds, hpre, ⟨new, hmoved, hall⟩, hr⟩
    exact ⟨⟨new, []⟩, hmoved, rfl, queueIds, hpre, hall, hr⟩
  refine wp_ledgered_bind hloop (fun u e w hr hw => ?_) fun x e hr => ?_
  · obtain ⟨hleft, queueIds, hpre, hall, hall'⟩ := hr
    exact ⟨e, hw, ⟨queueIds, hpre, hall, fun _ => hall' rfl⟩, hleft⟩
  · obtain ⟨hleft, queueIds, hpre, hall, -⟩ := hr
    exact ⟨⟨queueIds, hpre, hall, nofun⟩, hleft⟩

end Sends

/-! ### A message to a client -/

section Personal

variable {db : Database} {w : World}

theorem mild_conversationContext (request : SendClientMessageRequest) :
    (conversationContext request).Only Mild := by
  unfold conversationContext
  split_ifs
  · exact only_bind (only_timed trivial (only_perform trivial)) fun _ => only_pure _
  · exact only_pure _

/-- The insert of a message with these parameters. -/
theorem wp_insertMessage (args : Insert) (h : Moved db ⟨[], []⟩ w) :
    wp anySem anyOp (MessageDao.insertMessage args) (Ledgered db fun r e => e.left = [] ∧
      e.entered.length ≤ 1 ∧ (∀ m ∈ e.entered, ∃ id t, args.row id t = some m) ∧
      (r.isOk → e.entered ≠ [])) w := by
  have hrobust : Robust anySem Mild (Moved db ⟨[], []⟩)
      (Ledgered db fun (r : Except JavaException Unit) e => e.left = [] ∧ e.entered.length ≤ 1 ∧
        (∀ m ∈ e.entered, ∃ id t, args.row id t = some m) ∧ (r.isOk → e.entered ≠ [])) :=
    robust_mild (fun x => ⟨rfl, Nat.zero_le _, nofun, nofun⟩)
      fun r x e h => ⟨h.1, h.2.1, h.2.2.1, nofun⟩
  refine hrobust.wp_timed (fun _ _ => trivial) trivial (fun w hw => ⟨trivial, ?_⟩) h
  rintro a w' ⟨fault, -, hd⟩
  rcases does_insert hw hd with ⟨id, t, m, hrow, hmoved⟩ | ⟨⟨x, rfl⟩, hmoved⟩
  · refine ⟨_, hmoved, rfl, le_rfl, fun m' hm' => ?_, fun _ => List.cons_ne_nil _ _⟩
    obtain rfl := List.mem_singleton.mp hm'
    exact ⟨id, t, hrow⟩
  · exact ⟨_, hmoved, rfl, Nat.zero_le _, nofun, nofun⟩

theorem wp_sendClientMessage (request : SendClientMessageRequest) (h : Moved db ⟨[], []⟩ w) :
    wp anySem anyOp (sendClientMessage request)
      (Ledgered db (Booked (.sendClientMessage request))) w := by
  have hkeep : ∀ w w', Same w w' → Moved db ⟨[], []⟩ w → Moved db ⟨[], []⟩ w' :=
    fun _ _ hsame hw => hw.same hsame
  have hthrown : ∀ (x : JavaException) w, Moved db ⟨[], []⟩ w →
      Ledgered db (Booked (.sendClientMessage request)) (.error x) w :=
    fun x w hw => ⟨_, hw, booked_nothing _ x⟩
  refine wp_bind (wp_mild hkeep (mild_getQueueByClientId _) h) (fun queue w h => ?_) hthrown
  cases queue with
  | none => exact hthrown _ w h
  | some queue =>
    refine wp_bind (wp_mild hkeep (mild_conversationContext request) h) (fun context w h => ?_)
      hthrown
    refine wp_bind (wp_mild hkeep (only_perform trivial) h) (fun client w h => ?_) hthrown
    cases client with
    | none => exact hthrown _ w h
    | some client =>
      have hpersonal : ∀ {e : Entry Message}, (∀ m ∈ e.entered, ∃ id t, Insert.row
          { queueId := queue.id, clientId := client.id, content := request.content,
            prio := request.prio, context } id t = some m) →
          ∀ m ∈ e.entered, IsPersonal request m := by
        intro e hrows m hm
        obtain ⟨id, t, hrow⟩ := hrows m hm
        obtain ⟨-, hcontent, hprio, -⟩ := fields_row hrow
        exact ⟨hcontent, hprio⟩
      refine wp_ledgered_bind (wp_insertMessage _ h) (fun u e w hr hw => ?_) fun x e hr => ?_
      · obtain ⟨hleft, hlength, hrows, hne⟩ := hr
        have hone : e.entered.length = 1 :=
          le_antisymm hlength (List.length_pos_iff.mpr (hne rfl))
        obtain ⟨m, hm⟩ := List.length_eq_one_iff.mp hone
        refine ⟨e, hw, ⟨hpersonal hrows, hlength, ?_⟩, hleft⟩
        rintro response ⟨⟩
        obtain ⟨id, t, hrow⟩ := hrows m (by rw [hm]; exact List.mem_singleton_self m)
        obtain ⟨-, -, -, hcontext⟩ := fields_row hrow
        exact ⟨m, hm, by rw [hcontext]⟩
      · obtain ⟨hleft, hlength, hrows, -⟩ := hr
        exact ⟨⟨hpersonal hrows, hlength, nofun⟩, hleft⟩

end Personal

/-! ### A deletion -/

section Delete

variable {db : Database} {e : Entry Message} {w w' : World}

theorem wp_deleteQueue (request : DeleteQueueRequest) (h : Moved db ⟨[], []⟩ w) :
    wp anySem anyOp (RequestProcessor.deleteQueue request)
      (Ledgered db (Booked (.deleteQueue request))) w := by
  unfold RequestProcessor.deleteQueue
  cases hqueue : request.queue with
  | none => exact ⟨_, h, booked_nothing _ _⟩
  | some queue =>
    have hrobust : Robust anySem Mild (Moved db ⟨[], []⟩)
        (Ledgered db fun (_ : Except JavaException Unit) e =>
          e.entered = [] ∧ ∀ m ∈ e.left, m.queueId.toInt64 = queue.id) :=
      robust_mild (fun _ => ⟨rfl, nofun⟩) fun _ _ _ h => h
    have hdelete : wp anySem anyOp (QueueDao.deleteQueue queue.id) (Ledgered db fun _ e =>
        e.entered = [] ∧ ∀ m ∈ e.left, m.queueId.toInt64 = queue.id) w := by
      refine hrobust.wp_timed (fun _ _ => trivial) trivial (fun w hw => ⟨trivial, ?_⟩) h
      rintro a w' ⟨fault, -, hd⟩
      rcases hd.acts_or_undone with ⟨r, db', rfl, rfl⟩ | hu
      · refine ⟨_, ⟨hw.moves.trans (.leave rfl le_rfl), hw.saved⟩, rfl, fun m hm => ?_⟩
        obtain ⟨-, hm⟩ := List.mem_filter.mp hm
        simpa using hm
      · rw [Undone, if_neg (by simp)] at hu
        obtain ⟨db', hgap, rfl⟩ := hu
        exact ⟨_, hw.same ⟨hgap.messages, rfl, hgap.messageSeq⟩, rfl, nofun⟩
    have hleaves : ∀ {e : Entry Message}, (∀ m ∈ e.left, m.queueId.toInt64 = queue.id) →
        ∀ m ∈ e.left, ∃ queue ∈ request.queue, m.queueId.toInt64 = queue.id :=
      fun h m hm => ⟨queue, hqueue, h m hm⟩
    exact wp_ledgered_bind hdelete (fun _ e w hr hw => ⟨e, hw, hr.1, hleaves hr.2⟩)
      fun _ e hr => ⟨hr.1, hleaves hr.2⟩

end Delete

/-! ### A dequeue -/

section Dequeue

variable {ms : List Message} {queryInfo : Option MessageQueryInfoDto} {w w' : World}

/-- The messages without this one. -/
def without (ms : List Message) (m : Message) : List Message :=
  ms.filter fun m' => m'.id.toInt64 ≠ m.id.toInt64

/-- The message has been removed, and it is the one that is returned. -/
def Taken (ms : List Message) (queryInfo : Option MessageQueryInfoDto)
    (r : Except JavaException (Option MessageDto)) (w : World) : Prop :=
  ∃ q ∈ queryInfo, ∃ m, (peekArgs q).Picks ms.toFinset m ∧ w.db.messages = without ms m ∧
    ∀ dto, r = .ok dto → dto = some m.toDto

/-- No message has been removed, and none is returned. -/
def Untouched (ms : List Message) (r : Except JavaException (Option MessageDto)) (w : World) :
    Prop :=
  w.db.messages = ms ∧ ∀ dto, r = .ok dto → dto = none

/-- What the `try` block of a dequeue ends with. A rollback restores all messages. -/
def Tried (ms : List Message) (queryInfo : Option MessageQueryInfoDto)
    (r : Except JavaException (Option MessageDto)) (w : World) : Prop :=
  (Untouched ms r w ∨ Taken ms queryInfo r w) ∧ ∀ messages ∈ w.saved, messages = ms

theorem tried_of_holds (h : Holds (· = ms) w) (x : JavaException) :
    Tried ms queryInfo (.error x) w :=
  ⟨.inl ⟨h.1, nofun⟩, h.2⟩

theorem wp_dequeue (h : Holds (· = ms) w) :
    wp anySem anyOp (MessageDao.dequeue queryInfo) (Tried ms queryInfo) w := by
  refine wp_bind (Privacy.wp_stays (only_perform trivial) h) (fun _ w h => ?_)
    fun x w h => tried_of_holds h x
  refine wp_bind (Privacy.wp_peek (fun args _ => Privacy.wp_peekMessageForUpdate args) h)
    (fun message w h => ?_) fun x w h => tried_of_holds h.1 x
  obtain ⟨h, hpicked⟩ := h
  cases message with
  | none => exact ⟨.inl ⟨h.1, fun dto hdto => (Except.ok.inj hdto).symm⟩, h.2⟩
  | some dto =>
    obtain ⟨q, hq, m, rfl, hpicks⟩ := hpicked dto rfl
    have hdelete : wp anySem anyOp (execute (.deleteMessage m.toDto.id)) (fun r w =>
        ((∃ x, r = .error x) ∧ w.db.messages = ms ∨ w.db.messages = without ms m) ∧
          ∀ messages ∈ w.saved, messages = ms) w := by
      refine ⟨trivial, ?_⟩
      rintro a w' ⟨fault, -, hd⟩
      have hacts : ∀ r, Acts w (.execute (.deleteMessage m.toDto.id)) r w' →
          w'.db.messages = without ms m ∧ ∀ messages ∈ w'.saved, messages = ms := by
        rintro r ⟨db, ⟨-, rfl⟩, rfl⟩
        refine ⟨?_, h.2⟩
        rw [World.db_executed, ← h.1]
        rfl
      rcases a with x | r
      · rcases hd.acts_or_undone with ⟨r, ha⟩ | hu
        · exact ⟨.inr (hacts r ha).1, (hacts r ha).2⟩
        · have hundone := h.undone hu
          exact ⟨.inl ⟨⟨x, rfl⟩, hundone.1⟩, hundone.2⟩
      · cases fault with
        | none => exact ⟨.inr (hacts r hd).1, (hacts r hd).2⟩
        | before | after => exact hd.elim
    have htaken : ∀ {r : Except JavaException (Option MessageDto)} {w : World},
        w.db.messages = without ms m → (∀ dto, r = .ok dto → dto = some m.toDto) →
        Taken ms queryInfo r w := fun hmessages hr => ⟨q, hq, m, hpicks, hmessages, hr⟩
    refine wp_bind hdelete (fun result w h => ?_) fun x w h => ⟨?_, h.2⟩
    · have hmessages : w.db.messages = without ms m :=
        h.1.resolve_left fun hx => nomatch hx.1.choose_spec
      split_ifs
      · exact ⟨.inr (htaken hmessages fun dto hdto => (Except.ok.inj hdto).symm), h.2⟩
      · exact ⟨.inr (htaken hmessages nofun), h.2⟩
    · rcases h.1 with ⟨-, hmessages⟩ | hmessages
      · exact .inl ⟨hmessages, nofun⟩
      · exact .inr (htaken hmessages nofun)

/-- What a dequeue ends with. -/
def Dequeued (ms : List Message) (queryInfo : Option MessageQueryInfoDto)
    (r : Except JavaException (Option MessageDto)) (w : World) : Prop :=
  (Untouched ms r w ∨ Taken ms queryInfo r w) ∧ w.saved = none

theorem Dequeued.replaced {r : Except JavaException (Option MessageDto)} (x : JavaException)
    (h : Dequeued ms queryInfo r w) : Dequeued ms queryInfo (.error x) w := by
  obtain ⟨h | ⟨q, hq, m, hpicks, hmessages, -⟩, hsaved⟩ := h
  · exact ⟨.inl ⟨h.1, nofun⟩, hsaved⟩
  · exact ⟨.inr ⟨q, hq, m, hpicks, hmessages, nofun⟩, hsaved⟩

theorem Dequeued.same {r : Except JavaException (Option MessageDto)} (hsame : Same w w')
    (h : Dequeued ms queryInfo r w) : Dequeued ms queryInfo r w' := by
  obtain ⟨h | ⟨q, hq, m, hpicks, hmessages, hr⟩, hsaved⟩ := h
  · exact ⟨.inl ⟨hsame.messages.trans h.1, h.2⟩, hsame.saved.trans hsaved⟩
  · exact ⟨.inr ⟨q, hq, m, hpicks, hsame.messages.trans hmessages, hr⟩, hsame.saved.trans hsaved⟩

/-- **The `COMMIT`** ends the transaction. If it throws, the deletion may have been undone. -/
theorem wp_commit {r : Except JavaException (Option MessageDto)} (h : Tried ms queryInfo r w) :
    wp anySem anyOp (execute .commitTransaction)
      (fun a w => Dequeued ms queryInfo (a.bind fun _ => r) w) w := by
  refine ⟨trivial, ?_⟩
  rintro a w' ⟨fault, -, hd⟩
  have hacts : ∀ u, Acts w (.execute .commitTransaction) u w' → Dequeued ms queryInfo r w' := by
    rintro u ⟨db, rfl, rfl⟩
    exact ⟨h.1, rfl⟩
  rcases a with x | u
  · rcases hd.acts_or_undone with ⟨u, ha⟩ | hu
    · exact (hacts u ha).replaced x
    · rw [Undone, if_pos rfl] at hu
      subst hu
      have hstored : w.db.messages = ms ∨
          ∃ q ∈ queryInfo, ∃ m, (peekArgs q).Picks ms.toFinset m ∧ w.db.messages = without ms m := by
        rcases h.1 with hmessages | ⟨q, hq, m, hpicks, hmessages, -⟩
        · exact .inl hmessages.1
        · exact .inr ⟨q, hq, m, hpicks, hmessages⟩
      have hmessages := World.rolledBack_messages (P := fun messages => messages = ms ∨
        ∃ q ∈ queryInfo, ∃ m, (peekArgs q).Picks ms.toFinset m ∧ messages = without ms m)
        hstored fun messages hm => .inl (h.2 messages hm)
      have hthrown : ∀ {dto : Option MessageDto} {P : Prop},
          (.error x : Except JavaException (Option MessageDto)) = .ok dto → P := by
        rintro dto P ⟨⟩
      refine ⟨hmessages.imp (fun heq => ⟨heq, fun _ => hthrown⟩) ?_, rfl⟩
      rintro ⟨q, hq, m, hpicks, heq⟩
      exact ⟨q, hq, m, hpicks, heq, fun _ => hthrown⟩
  · cases fault with
    | none => exact hacts u hd
    | before | after => exact hd.elim

/-- The messages are those of the start, and there is no transaction. -/
def Idle (ms : List Message) (w : World) : Prop := w.db.messages = ms ∧ w.saved = none

theorem Idle.holds (h : Idle ms w) : Holds (· = ms) w :=
  ⟨h.1, fun _ hm => absurd (h.2 ▸ hm) (Option.not_mem_none _)⟩

theorem Idle.dequeued (h : Idle ms w) (x : JavaException) : Dequeued ms queryInfo (.error x) w :=
  ⟨.inl ⟨h.1, nofun⟩, h.2⟩

theorem Idle.same (hsame : Same w w') (h : Idle ms w) : Idle ms w' :=
  ⟨hsame.messages.trans h.1, hsame.saved.trans h.2⟩

theorem wp_dequeueMessage (h : Idle ms w) :
    wp anySem anyOp (MessageDao.dequeueMessage queryInfo) (Dequeued ms queryInfo) w := by
  refine wp_bind (wp_mild (fun _ _ => Idle.same) (only_perform trivial) h) (fun _ w h => ?_)
    fun x w h => h.dequeued x
  refine wp_andFinally (fun r a w => Dequeued ms queryInfo (a.bind fun _ => r) w)
    (wp_dequeue h.holds) (fun r w hr => ?_) (fun _ _ h => h) fun _ _ _ h => h
  refine wp_bind (wp_commit hr) (fun u w hw => ?_) fun x w hw => hw
  refine wp_mono (fun a w hw => ?_)
    (wp_mild (fun _ _ => Dequeued.same) (only_perform trivial) hw)
  cases a with
  | ok u => exact hw
  | error x => exact hw.replaced x

end Dequeue

/-! ### Requests -/

section Requests

variable {db : Database} {w w' : World}

/-- The response to a dequeue. -/
abbrev answered (r : Except JavaException (Option MessageDto)) : Outcome :=
  r.map fun messageDto => .message { messageDto }

/-- Different ids: nothing else leaves with the message of a dequeue. -/
theorem gone_of_without (h : db.Valid) {m : Message} (hm : m ∈ db.messages) :
    (db.messages.filter fun m' => !decide (m'.id.toInt64 ≠ m.id.toInt64)) = [m] := by
  have hlength := length_of_key h.messages.nodup h.messages.ids hm
  have hfilter : (db.messages.filter fun m' => !decide (m'.id.toInt64 ≠ m.id.toInt64)) =
      db.messages.filter fun m' => m'.id.toInt64 = m.id.toInt64 :=
    List.filter_congr fun m' _ => by simp
  rw [hfilter]
  obtain ⟨m', hm'⟩ := List.length_eq_one_iff.mp hlength
  have hmem : m ∈ db.messages.filter fun m' => m'.id.toInt64 = m.id.toInt64 :=
    List.mem_filter.mpr ⟨hm, decide_eq_true rfl⟩
  rw [hm'] at hmem ⊢
  rw [List.mem_singleton.mp hmem]

/-- **The entry of a dequeue.** -/
theorem Dequeued.ledgered {request : DequeueMessageRequest} (hvalid : db.Valid)
    {r : Except JavaException (Option MessageDto)}
    (h : Dequeued db.messages request.messageQueryInfo r w)
    (hseq : db.messageSeq ≤ w.db.messageSeq) :
    Ledgered db (Booked (.dequeueMessage request)) (answered r) w := by
  obtain ⟨⟨hmessages, hr⟩ | ⟨q, hq, m, hpicks, hmessages, hr⟩, hsaved⟩ := h
  · have hsame : Same ⟨db, none, w.context⟩ w := ⟨hmessages, hsaved, hseq⟩
    refine ⟨_, (moved_start db w.context).same hsame, rfl, Nat.zero_le _, nofun, ?_⟩
    intro response hresponse
    rcases r with x | dto
    · cases hresponse
    · obtain rfl := hr dto rfl
      exact ⟨none, (Except.ok.inj hresponse).symm, rfl⟩
  · have hm : m ∈ db.messages := List.mem_toFinset.mp hpicks.1
    have hmoves : messageStore.Moves db ⟨[], [m]⟩ w.db := by
      rw [← gone_of_without hvalid hm]
      exact .leave hmessages (Int.ofNat_le.mpr hseq)
    refine ⟨_, ⟨hmoves, hsaved⟩, rfl, le_rfl, fun m' hm' => ?_, fun response hresponse => ?_⟩
    · obtain rfl := List.mem_singleton.mp hm'
      exact ⟨q, hq, hpicks.2.1⟩
    · rcases r with x | dto
      · cases hresponse
      · obtain rfl := hr dto rfl
        exact ⟨some m.toDto, (Except.ok.inj hresponse).symm, rfl⟩

theorem wp_dequeueRequest (request : DequeueMessageRequest) (h : Idle db.messages w) :
    wp anySem anyOp (handler (.dequeueMessage request)) (fun r w => ∃ r₀,
      r = answered r₀ ∧ Dequeued db.messages request.messageQueryInfo r₀ w) w := by
  have hrobust : Robust anySem Mild (Idle db.messages) (fun (r : Outcome) w => ∃ r₀,
      r = answered r₀ ∧ Dequeued db.messages request.messageQueryInfo r₀ w) := by
    refine ⟨fun _ _ _ _ hop hw ⟨_, _, hd⟩ => hw.same (hop.same hd),
      fun r _ _ _ _ hop ⟨r₀, hr, hw⟩ ⟨_, _, hd⟩ => ⟨r₀, hr, hw.same (hop.same hd)⟩,
      fun x _ hw => ⟨.error x, rfl, hw.dequeued x⟩,
      fun _ x _ ⟨_, _, hw⟩ => ⟨.error x, rfl, hw.replaced x⟩⟩
  refine hrobust.wp_withConnection (fun _ _ => trivial) (fun _ => mild_of_closing)
    (fun _ => mild_of_pooling) (fun w hw => ?_) h
  exact wp_bind (wp_dequeueMessage hw) (fun dto w h => ⟨.ok dto, rfl, h⟩)
    fun x w h => ⟨.error x, rfl, h⟩

/-- **The entry of any other request.** -/
theorem wp_otherRequest {request : Request} (hrequest : ∀ r, request ≠ .dequeueMessage r)
    (h : Moved db ⟨[], []⟩ w) :
    wp anySem anyOp (handler request) (Ledgered db (Booked request)) w := by
  have hwith : ∀ (failed : String → JavaException) (body : Java (Response JavaException)),
      (∀ w, Moved db ⟨[], []⟩ w → wp anySem anyOp body (Ledgered db (Booked request)) w) →
      wp anySem anyOp (withConnection failed body) (Ledgered db (Booked request)) w :=
    fun failed body hbody => (robust_booked request).wp_withConnection (fun _ _ => trivial)
      (fun _ => mild_of_closing) (fun _ => mild_of_pooling) hbody h
  cases request with
  | dequeueMessage r => exact absurd rfl (hrequest r)
  | sendMessage r => exact hwith _ _ fun w hw => wp_sendMessage r hw
  | sendClientMessage r => exact hwith _ _ fun w hw => wp_sendClientMessage r hw
  | deleteQueue r => exact hwith _ _ fun w hw => wp_deleteQueue r hw
  | createQueue r =>
    exact hwith _ _ fun w hw => wp_mild_ledgered (mild_createQueue r) (fun _ => ⟨rfl, rfl⟩) hw
  | lookupQueue r =>
    exact hwith _ _ fun w hw => wp_mild_ledgered (mild_lookupQueue r) (fun _ => ⟨rfl, rfl⟩) hw
  | lookupClient r =>
    exact hwith _ _ fun w hw => wp_mild_ledgered
      (only_bind (mild_getClientId _) fun _ => only_pure _) (fun _ => ⟨rfl, rfl⟩) hw
  | queuesWithPendingMessages r =>
    exact hwith _ _ fun w hw =>
      wp_mild_ledgered (mild_queuesWithPendingMessages r) (fun _ => ⟨rfl, rfl⟩) hw
  | registration r =>
    exact hwith _ _ fun w hw => wp_mild_ledgered (only_bind (mild_clientAndQueue _) fun _ =>
      only_bind (only_perform trivial) fun _ => only_bind (only_perform trivial) fun _ =>
        only_pure _) (fun _ => ⟨rfl, rfl⟩) hw
  | peekMessage r =>
    exact hwith _ _ fun w hw => wp_mild_ledgered (only_bind (only_timed trivial
      (only_peek trivial (fun _ => only_perform trivial) _)) fun _ => only_pure _)
      (fun _ => ⟨rfl, rfl⟩) hw

/-- Before its handler, a request does nothing that the ledger sees. -/
theorem wp_process {request : Request} {I : World → Prop} {Q : Outcome → World → Prop}
    (hI : ∀ w w', Same w w' → I w → I w') (hthrown : ∀ x w, I w → Q (.error x) w)
    (hhandler : ∀ w, I w → wp anySem anyOp (handler request) Q w) (h : I w) :
    wp anySem anyOp (process request) Q w := by
  refine wp_bind (wp_mild hI (only_perform trivial) h) (fun clientQueue w h => ?_) hthrown
  split_ifs
  · exact hthrown _ w h
  · exact wp_bind (wp_mild hI (only_perform trivial) h) (fun _ w h => hhandler w h) hthrown

/-- The sequence of the messages only goes on. -/
theorem seq_runs {α : Type} {p : Java α} {r : Except JavaException α}
    (hrun : Runs anySem p w r w') : w.db.messageSeq ≤ w'.db.messageSeq := by
  have hwp : wp anySem (fun _ _ => True) p (fun _ w' => w.db.messageSeq ≤ w'.db.messageSeq) w := by
    refine (only_true p).wp (fun _ _ _ _ => trivial) ?_ le_rfl
    rintro w₁ op a w₂ - hle ⟨fault, -, hd⟩
    exact hle.trans (seq_does hd)
  exact hwp.sound hrun

/-- **Every request has an entry**, whatever throws. -/
theorem ledgered_of_runs {request : Request} {context : ClientApplicationContext} {r : Outcome}
    (hvalid : db.Valid) (hrun : Runs anySem (process request) ⟨db, none, context⟩ r w) :
    Ledgered db (Booked request) r w := by
  by_cases hrequest : ∃ r, request = .dequeueMessage r
  · obtain ⟨request, rfl⟩ := hrequest
    have hidle : Idle db.messages ⟨db, none, context⟩ := ⟨rfl, rfl⟩
    obtain ⟨r₀, rfl, hdequeued⟩ := (wp_process (fun _ _ => Idle.same)
      (fun x _ h => ⟨.error x, rfl, h.dequeued x⟩) (fun _ => wp_dequeueRequest request)
      hidle).sound hrun
    exact hdequeued.ledgered hvalid (seq_runs hrun)
  · have hother : ∀ r, request ≠ .dequeueMessage r := fun r heq => hrequest ⟨r, heq⟩
    exact (wp_process (fun _ _ hsame h => h.same hsame)
      (fun x _ h => ⟨_, h, booked_nothing request x⟩) (fun _ => wp_otherRequest hother)
      (moved_start db context)).sound hrun

end Requests

/-! ### Runs -/

theorem stays_noQuery : (process (.dequeueMessage ⟨none⟩)).Only Stays := by
  have htry : (MessageDao.dequeue none).Only Stays := ⟨trivial, fun a => by cases a <;> trivial⟩
  have hdao : (MessageDao.dequeueMessage none).Only Stays :=
    only_bind (only_perform trivial) fun _ => only_andFinally htry
      (only_bind (only_perform trivial) fun _ => only_perform trivial)
  refine only_bind (only_perform trivial) fun clientQueue => ?_
  split_ifs
  · trivial
  · exact only_bind (only_perform trivial) fun _ => only_withConnection
      (fun _ => Privacy.stays_of_closing) (fun _ => Privacy.stays_of_pooling)
      (only_bind hdao fun _ => only_pure _)

/-- **A dequeue without faults loses nothing.** -/
theorem reliable_loses_nothing {db : Database} {context : ClientApplicationContext} {w : World}
    {request : DequeueMessageRequest} {x : JavaException} (hvalid : db.Valid)
    (hrun : Runs (dbSem Reliable) (process (.dequeueMessage request)) ⟨db, none, context⟩
      (.error x) w) : w.db.messages = db.messages := by
  obtain ⟨queryInfo⟩ := request
  cases queryInfo with
  | none =>
    have hany : Runs anySem (process (.dequeueMessage ⟨none⟩)) ⟨db, none, context⟩ (.error x) w :=
      hrun.mono fun _ _ _ _ ⟨fault, _, hd⟩ => ⟨fault, trivial, hd⟩
    have hholds : Holds (· = db.messages) ⟨db, none, context⟩ :=
      ⟨rfl, fun _ hm => absurd hm (Option.not_mem_none _)⟩
    exact ((Privacy.wp_stays stays_noQuery hholds).sound hany).1
  | some q =>
    by_cases hregistered : context.clientQueue.isNone && !Request.isRegistration
        (.dequeueMessage ⟨some q⟩)
    · have hget : wp (dbSem Reliable) anyOp (invoke .getClientQueue)
          (fun r w' => r = .ok context.clientQueue ∧ w'.db = db) ⟨db, none, context⟩ := by
        refine ⟨trivial, fun a w' hcall => ?_⟩
        obtain ⟨queue, rfl, rfl, rfl⟩ := Reliable.acts hcall nofun
        exact ⟨rfl, rfl⟩
      have hprocess : wp (dbSem Reliable) anyOp (process (.dequeueMessage ⟨some q⟩))
          (fun _ w' => w'.db = db) ⟨db, none, context⟩ := by
        refine wp_bind hget (fun clientQueue w' h => ?_) fun _ _ h => h.2
        obtain rfl := Except.ok.inj h.1
        rw [if_pos hregistered]
        exact h.2
      rw [hprocess.sound hrun]
    · have hkey : (db.messages.map Message.id).Nodup :=
        (List.nodup_map_iff_inj_on hvalid.messages.nodup).mpr hvalid.messages.ids
      have hhandler : wp (dbSem Reliable) anyOp (handler (.dequeueMessage ⟨some q⟩))
          (fun r _ => ∃ response, r = .ok response) ⟨db, none, context⟩ := by
        refine Calls.wp_withConnection smooth_reliable (fun _ _ _ => trivial)
          (wp_bind (Queries.wp_dequeueMessage hkey) (fun dto w' h => ?_) fun x w' h => ?_)
        · exact ⟨nofun, _, rfl⟩
        · obtain ⟨m, hm, -⟩ := h
          cases hm
      obtain ⟨response, hresponse⟩ := (Processing.wp_process (Bool.eq_false_iff.mpr hregistered)
        hhandler).sound hrun
      cases hresponse

/-- **A request of a run.** -/
theorem books_of_step [DecidableEq η] {ok : World → Op → Fault → Prop} {s s' : State η}
    {l : η × Request × Outcome} (hvalid : s.db.Valid) (h : RequestStep ok s l s') :
    ∃ e, Books (ok = Reliable) l e ∧ messageStore.Moves s.db e s'.db := by
  obtain ⟨w, hrun, rfl⟩ := h
  have hany : Runs anySem (process l.2.1) (s.world l.1) l.2.2 w :=
    hrun.mono fun _ _ _ _ ⟨fault, _, hd⟩ => ⟨fault, trivial, hd⟩
  obtain ⟨e, hmoved, henters, hleaves⟩ := ledgered_of_runs hvalid hany
  refine ⟨e, ⟨henters, hleaves, ?_⟩, hmoved.moves⟩
  rintro rfl request x hl
  rw [hl] at hrun henters
  have hmessages := reliable_loses_nothing hvalid hrun
  have hlength := hmoved.moves.perm.length_eq
  rw [show e.entered = [] from henters, List.append_nil, List.length_append] at hlength
  have hsame : (messageStore.items w.db).length = (messageStore.items s.db).length :=
    congrArg List.length hmessages
  exact List.length_eq_zero_iff.mp (by omega)

/-- The messages that have been returned to dequeues. -/
def returned (ls : List (η × Request × Outcome)) : List MessageDto :=
  ls.filterMap fun l => match l.2 with
    | (.dequeueMessage _, .ok (.message response)) => response.messageDto
    | _ => none

/-- What is returned has left. -/
theorem returned_sublist {lossless : Prop} {ls : List (η × Request × Outcome)}
    {ledger : List (Entry Message)} (h : List.Forall₂ (Books lossless) ls ledger) :
    (returned ls).Sublist ((total ledger).left.map Message.toDto) := by
  induction h with
  | nil => exact .refl _
  | @cons l e ls ledger hbooks _ ih =>
    have hleft : (total (e :: ledger)).left = e.left ++ (total ledger).left := List.flatMap_cons
    rw [hleft, List.map_append, returned, List.filterMap_cons]
    split
    · exact ih.trans (List.sublist_append_right _ _)
    · rename_i dto hdto
      split at hdto
      · rename_i request response hl
        have hleaves := hbooks.leaves
        rw [hl] at hleaves
        obtain ⟨-, -, hresponse⟩ := hleaves
        obtain ⟨messageDto, heq, hgone⟩ := hresponse _ rfl
        obtain rfl := Response.message.inj heq
        obtain rfl : messageDto = some dto := hdto
        rw [hgone]
        exact ih.cons_cons dto
      · cases hdto

/-- **No message is returned to two dequeues.** -/
theorem returned_nodup {lossless : Prop} {ls : List (η × Request × Outcome)}
    {ledger : List (Entry Message)} {db db' : Database} (hs : messageStore.Keyed db)
    (hall : List.Forall₂ (Books lossless) ls ledger)
    (h : messageStore.Moves db (total ledger) db') :
    ((returned ls).map MessageDto.id).Nodup := by
  have hkeys := (h.perm.map messageStore.key).nodup_iff.mp (h.keys_nodup hs)
  rw [List.map_append] at hkeys
  have hids : (((total ledger).left.map Message.toDto).map MessageDto.id).Nodup := by
    rw [List.map_map]
    refine (List.nodup_map_iff_inj_on (hkeys.of_append_right.of_map _)).mpr ?_
    intro m hm m' hm' heq
    have hid : m.id = m'.id := toInt64_inj.mp heq
    exact List.inj_on_of_nodup_map hkeys.of_append_right hm hm' (congrArg Int32.toInt hid)
  exact hids.sublist ((returned_sublist hall).map _)

/-- The ledger of a run. -/
theorem exists_books [DecidableEq η] {ok : World → Op → Fault → Prop} {s : State η}
    {ls : List (η × Request × Outcome)} (h : Run (RequestStep ok) State.init ls s) :
    ∃ ledger, List.Forall₂ (Books (ok = Reliable)) ls ledger ∧
      messageStore.Moves Database.empty (total ledger) s.db := by
  obtain ⟨ledger, hall, hmoves⟩ := exists_ledger (S := messageStore.comap State.db)
    (I := fun s => s.db.Valid) (fun _ _ _ => RequestStep.valid) (fun s l s' hvalid hstep => by
      obtain ⟨e, hbooks, hmoves⟩ := books_of_step hvalid hstep
      exact ⟨e, hbooks, messageStore.moves_comap_iff.mpr hmoves⟩) h valid_empty
  exact ⟨ledger, hall, messageStore.moves_comap_iff.mp hmoves⟩

/-- The request sends this message. -/
def Sends (request : Request) (m : Message) : Prop :=
  match request with
  | .sendMessage request => ∃ queueId ∈ request.queueIds, IsLetter request queueId m
  | .sendClientMessage request => IsPersonal request m
  | _ => False

/-- A message that is entered is sent. -/
theorem Enters.sends {request : Request} {outcome : Outcome} {new : List Message} {m : Message}
    (h : Enters request outcome new) (hm : m ∈ new) : Sends request m := by
  cases request with
  | sendMessage request =>
    obtain ⟨queueIds, hpre, hall, -⟩ := h
    obtain ⟨queueId, hqueueId, hletter⟩ := exists_of_forall₂ hall hm
    exact ⟨queueId, hpre.subset hqueueId, hletter⟩
  | sendClientMessage request => exact h.1 m hm
  | _ =>
    obtain rfl : new = [] := h
    exact absurd hm List.not_mem_nil

/-- **What is returned has been sent.** -/
theorem sent_of_returned [DecidableEq η] {ok : World → Op → Fault → Prop} {s : State η}
    {ls : List (η × Request × Outcome)} (h : Run (RequestStep ok) State.init ls s)
    {dto : MessageDto} (hdto : dto ∈ returned ls) :
    ∃ l ∈ ls, ∃ m, Sends l.2.1 m ∧ dto = m.toDto := by
  obtain ⟨ledger, hall, hmoves⟩ := exists_books h
  obtain ⟨m, hm, rfl⟩ := List.mem_map.mp ((returned_sublist hall).subset hdto)
  -- it has left, so it has been entered
  have hentered : m ∈ (total ledger).entered :=
    hmoves.perm.mem_iff.mpr (List.mem_append_right _ hm)
  obtain ⟨e, he, hme⟩ := List.mem_flatMap.mp hentered
  obtain ⟨l, hl, hbooks⟩ := exists_of_forall₂ hall he
  exact ⟨l, hl, m, hbooks.enters.sends hme, rfl⟩

/-- **What is returned is not stored any more.** -/
theorem not_stored_of_returned [DecidableEq η] {ok : World → Op → Fault → Prop} {s : State η}
    {ls : List (η × Request × Outcome)} (h : Run (RequestStep ok) State.init ls s)
    {dto : MessageDto} (hdto : dto ∈ returned ls) :
    ∀ m ∈ s.db.messages, m.id.toInt64 ≠ dto.id := by
  obtain ⟨ledger, hall, hmoves⟩ := exists_books h
  obtain ⟨m', hm', rfl⟩ := List.mem_map.mp ((returned_sublist hall).subset hdto)
  have hkeys := (hmoves.perm.map messageStore.key).nodup_iff.mp
    (hmoves.keys_nodup (keyed_of_valid valid_empty))
  rw [List.map_append] at hkeys
  intro m hm heq
  have hid : m.id.toInt = m'.id.toInt := congrArg Int32.toInt (toInt64_inj.mp heq)
  have hleft : m.id.toInt ∈ (total ledger).left.map messageStore.key :=
    List.mem_map.mpr ⟨m', hm', hid.symm⟩
  exact (List.nodup_append'.mp hkeys).2.2 (List.mem_map.mpr ⟨m, hm, rfl⟩) hleft

/-- **Every message is accounted for.** In every run of requests, with any faults, what has been
entered is what is stored and what has left, no id occurs twice, and no message is returned
twice. -/
theorem every_message_accounted [DecidableEq η] {ok : World → Op → Fault → Prop} {s : State η}
    {ls : List (η × Request × Outcome)} (h : Run (RequestStep ok) State.init ls s) :
    ∃ ledger, List.Forall₂ (Books (ok = Reliable)) ls ledger ∧
      (total ledger).entered.Perm (s.db.messages ++ (total ledger).left) ∧
      ((total ledger).entered.map Message.id).Nodup ∧ ((returned ls).map MessageDto.id).Nodup := by
  obtain ⟨ledger, hall, hdb⟩ := exists_books h
  refine ⟨ledger, hall, hdb.perm, ?_, returned_nodup (keyed_of_valid valid_empty) hall hdb⟩
  have hkeys : ((total ledger).entered.map fun m => m.id.toInt).Nodup :=
    hdb.keys_nodup (keyed_of_valid valid_empty)
  rw [show (fun m : Message => m.id.toInt) = Int32.toInt ∘ Message.id from rfl,
    ← List.map_map] at hkeys
  exact hkeys.of_map _

/-- A message for the second client. -/
def toSecond : Request := .sendClientMessage
  { clientId := 2
    content := some [7]
    prio := 0
    conversation := false
    conversationContext := none }

/-- A message that is sent to another client and dequeued by it. -/
theorem every_message_accounted_dequeued :
    ∃ (ls : List (Bool × Request × Outcome)) (s : State Bool),
      Run (RequestStep Reliable) State.init ls s ∧
        (returned ls).map MessageDto.content = [some [7]] ∧
        ∃ ledger, List.Forall₂ (Books (Reliable = Reliable)) ls ledger ∧
          (total ledger).entered.Perm (s.db.messages ++ (total ledger).left) ∧
          ((total ledger).entered.map Message.id).Nodup ∧
          ((returned ls).map MessageDto.id).Nodup := by
  have hstep : ∀ (s : State Bool) h request, RequestStep Reliable s
      (h, request, (s.process h request).1) (s.process h request).2 :=
    step_process fun _ _ => rfl
  have hrun := (Run.single (hstep State.init false (.registration ⟨some "a"⟩))).append
    ((Run.single (hstep _ true (.registration ⟨some "b"⟩))).append
      ((Run.single (hstep _ false toSecond)).append
        (.single (hstep _ true (.dequeueMessage ⟨some Privacy.queryAll⟩)))))
  exact ⟨_, _, hrun, by decide, every_message_accounted hrun⟩

end Mlmq.Server.Accounting
