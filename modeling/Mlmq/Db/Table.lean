import Mlmq.Net.Requests
import Mlmq.Net.Responses

/-! # The table `message`

The rows as the schema stores them, the values of an insert (`Insert`) and the row they make if
every value fits its column (`Insert.row`), the arguments of the stored procedures (`PeekArgs`) with
the row they choose (`Picks`), and the `MessageDto` that `MessageDao` fills from a row. -/

namespace Mlmq.Db.Table

open Mlmq.Dto Mlmq.Net.Requests

/-! ### Rows -/

/-- A row. `sentAt` is the time of day in microseconds: the column is `time without time zone`. -/
structure Message where
  id : Int32
  queueId : Int32
  clientSenderId : Int32
  content : Option (List UInt8)
  prio : Int16
  sentAt : ℕ
  context : Option Int32
deriving DecidableEq, Repr

/-- What `peekMessage` reads from the result set. -/
def Message.toDto (m : Message) : MessageDto where
  id := m.id.toInt64
  queue := some { id := m.queueId.toInt64, name := none }
  content := m.content
  prio := m.prio.toInt32
  sender := some { id := m.clientSenderId.toInt64, name := none }
  conversationContext := m.context

/-! ### Inserts -/

/-- A `long` for an `INTEGER` column; out of range is an error. -/
def toInteger (l : Int64) : Option Int32 := if l.toInt32.toInt64 = l then some l.toInt32 else none

/-- An `int` for a `SMALLINT` column; out of range is an error. -/
def toSmallint (p : Int32) : Option Int16 := if p.toInt16.toInt32 = p then some p.toInt16 else none

/-- A nullable `long` for an `INTEGER` column. -/
def toNullableInteger : Option Int64 → Option (Option Int32)
  | none => some none
  | some l => (toInteger l).map some

/-- The parameters of `INSERT INTO message`. -/
structure Insert where
  queueId : Int64
  clientId : Int64
  content : Option (List UInt8)
  prio : Int32
  context : Option Int64
deriving DecidableEq, Repr

/-- The new row, with the id of the sequence and the time of the insert. -/
def Insert.row (args : Insert) (id : Int32) (sentAt : ℕ) : Option Message := do
  let queueId ← toInteger args.queueId
  let clientSenderId ← toInteger args.clientId
  let prio ← toSmallint args.prio
  let context ← toNullableInteger args.context
  return { id, queueId, clientSenderId, content := args.content, prio, sentAt, context }

/-- `insertMessage(request, clientContext)`: one insert for each queue id, up to a null. -/
def insertMessages (request : SendMessageRequest) (clientId : Int64) : List Insert :=
  go request.queueIds
where
  go : List (Option Int64) → List Insert
    | some queueId :: ids =>
      { queueId, clientId, content := request.content, prio := request.prio, context := none } ::
        go ids
    | _ => []

/-- `insertMessage` for a `SendClientMessageRequest`, as `processSendClientMessageRequest` calls it.
`generated` is the next conversation context. -/
def insertClientMessage (request : SendClientMessageRequest) (queueId clientId generated : Int64) :
    Insert where
  queueId := queueId
  clientId := clientId
  content := request.content
  prio := request.prio
  context := if request.conversation && request.conversationContext.isNone then some generated
    else request.conversationContext

theorem isSome_toNullableInteger {o : Option Int64} {o' : Option Int32}
    (h : toNullableInteger o = some o') : o'.isSome = o.isSome := by
  cases o with
  | none =>
    obtain rfl := Option.some.inj h
    rfl
  | some l =>
    obtain ⟨i, -, rfl⟩ := Option.map_eq_some_iff.mp h
    rfl

/-- The row of an insert has the content of the insert, and a context iff the insert has one. -/
theorem Insert.row_eq_some {args : Insert} {id : Int32} {sentAt : ℕ} {m : Message}
    (h : args.row id sentAt = some m) :
    m.content = args.content ∧ m.context.isSome = args.context.isSome := by
  simp only [Insert.row, Option.bind_eq_bind, Option.bind_eq_some_iff] at h
  obtain ⟨q, -, c, -, p, -, x, hx, hm⟩ := h
  obtain rfl := Option.some.inj hm
  exact ⟨rfl, isSome_toNullableInteger hx⟩

/-- Every value fits its column. -/
def Insert.Storable (args : Insert) : Prop :=
  (toInteger args.queueId).isSome ∧ (toInteger args.clientId).isSome ∧
    (toSmallint args.prio).isSome ∧ (toNullableInteger args.context).isSome

instance (args : Insert) : Decidable args.Storable := inferInstanceAs (Decidable (_ ∧ _ ∧ _ ∧ _))

/-- The insert makes a row iff every value fits its column. -/
theorem Insert.row_isSome_iff (args : Insert) (id : Int32) (sentAt : ℕ) :
    (∃ m, args.row id sentAt = some m) ↔ args.Storable := by
  unfold Insert.Storable
  simp only [Insert.row, Option.bind_eq_bind, Option.bind_eq_some_iff, Option.isSome_iff_exists]
  constructor
  · rintro ⟨m, q, hq, c, hc, p, hp, x, hx, -⟩
    exact ⟨⟨q, hq⟩, ⟨c, hc⟩, ⟨p, hp⟩, ⟨x, hx⟩⟩
  · rintro ⟨⟨q, hq⟩, ⟨c, hc⟩, ⟨p, hp⟩, ⟨x, hx⟩⟩
    exact ⟨_, q, hq, c, hc, p, hp, x, hx, rfl⟩

/-! ### Queries -/

/-- The arguments of the stored procedures `peekMessage` and `dequeueMessage`. -/
structure PeekArgs where
  queueId : Option Int32
  clientId : Option Int32
  shouldOrderByPriority : Bool
  ctx : Option Int32
deriving DecidableEq, Repr

/-- The arguments that `MessageDao` sets: ids are cut to `int`. -/
def peekArgs (queryInfo : MessageQueryInfoDto) : PeekArgs where
  queueId := queryInfo.queue.map fun queue => queue.id.toInt32
  clientId := queryInfo.sender.map fun sender => sender.id.toInt32
  shouldOrderByPriority := queryInfo.shouldOrderByPriority
  ctx := queryInfo.conversationContext

/-- The `WHERE` clause. -/
def PeekArgs.Selects (args : PeekArgs) (m : Message) : Prop :=
  (∀ queueId ∈ args.queueId, m.queueId = queueId) ∧
    (∀ clientId ∈ args.clientId, m.clientSenderId = clientId) ∧
    ∀ ctx ∈ args.ctx, m.context = some ctx

-- The default instance of a condition on the members of an option tries every `int`.
instance (args : PeekArgs) (m : Message) : Decidable (args.Selects m) :=
  @instDecidableAnd _ _ (Option.decidableForallMem _)
    (@instDecidableAnd _ _ (Option.decidableForallMem _) (Option.decidableForallMem _))

/-- The `ORDER BY` clause: `m` may come before `m'`. -/
def PeekArgs.Precedes (args : PeekArgs) (m m' : Message) : Prop :=
  if args.shouldOrderByPriority then m'.prio.toInt ≤ m.prio.toInt else m.sentAt ≤ m'.sentAt

/-- The first row of the result, `LIMIT 1`. -/
def PeekArgs.Picks (args : PeekArgs) (rows : Finset Message) (m : Message) : Prop :=
  m ∈ rows ∧ args.Selects m ∧ ∀ m' ∈ rows, args.Selects m' → args.Precedes m m'

/-- A row is chosen iff a row is selected. -/
theorem PeekArgs.exists_picks_iff (args : PeekArgs) (rows : Finset Message) :
    (∃ m, args.Picks rows m) ↔ ∃ m ∈ rows, args.Selects m := by
  constructor
  · rintro ⟨m, hm, hsel, -⟩
    exact ⟨m, hm, hsel⟩
  · rintro ⟨m₀, hm₀, hsel₀⟩
    have hne : (rows.filter args.Selects).Nonempty := ⟨m₀, Finset.mem_filter.mpr ⟨hm₀, hsel₀⟩⟩
    have hmin : ∃ m ∈ rows.filter args.Selects, ∀ m' ∈ rows.filter args.Selects,
        args.Precedes m m' := by
      unfold PeekArgs.Precedes
      split_ifs
      · exact Finset.exists_max_image _ (fun m => m.prio.toInt) hne
      · exact Finset.exists_min_image _ (fun m => m.sentAt) hne
    obtain ⟨m, hm, hfirst⟩ := hmin
    obtain ⟨hrow, hsel⟩ := Finset.mem_filter.mp hm
    exact ⟨m, hrow, hsel, fun m' hm' hsel' => hfirst m' (Finset.mem_filter.mpr ⟨hm', hsel'⟩)⟩

end Mlmq.Db.Table
