import Mlmq.Lib.Allocations
import Mlmq.Server.Worker

/-! # Length fields and memory

`getString` and `getByteArray` allocate an array as long as the length field says before they look
whether the buffer has so many bytes. The decoders here are those of `Requests` with their
allocations, and each reads as the one there does.

An array that is longer than the virtual machine can allocate raises an `OutOfMemoryError`, which is
no `Exception`: it passes the `catch` of `Worker.run` and ends the thread. So a worker survives a
buffer iff no length field in it says more than the bytes behind it (`harmless_iff`). -/

namespace Mlmq.Server.MalformedLengths

open Mlmq.Dto Mlmq.Lib Mlmq.Lib.BigEndian Mlmq.Lib.Format Mlmq.Lib.Nio Mlmq.Lib.Cursor
open Mlmq.Lib.Codecs Mlmq.Lib.Allocations Mlmq.Net Mlmq.Net.Requests Mlmq.Util
open Mlmq.Net.Factory (requestTypMap lookup_requestTypMap reads_rethrow)
open Mlmq.Server.Connection (WorkerTask)
open Mlmq.Net.Responses (Response)
open Mlmq.Lib.Queue (BoundedQueue)
open Mlmq.Lib.Utf8 (newString)
open Mlmq.Util.ByteBufferUtil (ObjectStream optCodec trueByte implements_string implements_array
  booleanCodec implements_opt implements_boolean implements_putLong implements_putInteger)

variable {α κ ε : Type}

/-! ### Decoders with their allocations -/

/-- A length field that is not negative, and an array of that length. -/
def getNullable (f : List UInt8 → α) : Decoder (Option α) := do
  let size ← read getInt
  if 0 ≤ size.toInt then
    newByteArray size.toInt.toNat
    let data ← read (getArray size.toInt.toNat)
    return some (f data)
  else
    return none

def getString : Decoder (Option String) := getNullable newString

def getByteArray : Decoder (Option (List UInt8)) := getNullable id

def deserializeNullable (obj : Decoder α) : Decoder (Option α) := do
  let b ← read getByte
  if b = trueByte then
    let a ← obj
    return some a
  else
    return none

def deserializeClient : Decoder ClientDto := do
  let id ← read Nio.getLong
  let name ← getString
  return { id, name }

def deserializeQueue : Decoder QueueDto := do
  let id ← read Nio.getLong
  let name ← getString
  return { id, name }

def deserializeMessageQueryInfo : Decoder MessageQueryInfoDto := do
  let queue ← deserializeNullable deserializeQueue
  let sender ← deserializeNullable deserializeClient
  let shouldOrderByPriority ← read ByteBufferUtil.getBoolean
  let conversationContext ← read ByteBufferUtil.getInteger
  return { queue, sender, shouldOrderByPriority, conversationContext }

/-- `newInstance()` and `deserialize` on it. -/
def deserializeFields : RequestClass → Decoder Request
  | .createQueue => do
    let queueName ← getString
    return .createQueue { queueName }
  | .deleteQueue => do
    let queue ← deserializeNullable deserializeQueue
    return .deleteQueue { queue }
  | .dequeueMessage => do
    let messageQueryInfo ← deserializeNullable deserializeMessageQueryInfo
    return .dequeueMessage { messageQueryInfo }
  | .peekMessage => do
    let messageQueryInfo ← deserializeNullable deserializeMessageQueryInfo
    return .peekMessage { messageQueryInfo }
  | .queuesWithPendingMessages => do
    let maxNumQueues ← read getInt
    return .queuesWithPendingMessages { maxNumQueues }
  | .registration => do
    let clientName ← getString
    return .registration { clientName }
  | .sendClientMessage => do
    let clientId ← read Nio.getLong
    let prio ← read getInt
    let conversation ← read ByteBufferUtil.getBoolean
    let conversationContext ← read ByteBufferUtil.getLong
    let content ← getByteArray
    return .sendClientMessage { clientId, prio, conversation, conversationContext, content }
  | .sendMessage => do
    let queueIds ← read (readCounted ByteBufferUtil.getLong)
    let content ← getByteArray
    let prio ← read getInt
    return .sendMessage { queueIds, content, prio }
  | .lookupQueue => do
    let queueName ← getString
    let clientId ← read ByteBufferUtil.getLong
    return .lookupQueue { queueName, clientId }
  | .lookupClient => do
    let clientName ← getString
    return .lookupClient { clientName }

/-- `d`, whose exceptions are wrapped. -/
def rethrow (message : String) (d : Decoder α) : Decoder α := fun t =>
  match d t with
  | .ok a t' => .ok a t'
  | .error e t' => .error (.runtime message e) t'

/-- The type id, the class it stands for, and the fields. -/
def deserializeTyped (message : Int32 → Option κ → String) (typMap : List (Int32 × κ))
    (deserialize : κ → Decoder α) : Decoder α := do
  let type ← rethrow (message 0 none) (read getInt)
  match typMap.lookup type with
  | none => throw (.runtime (message type none) .nullPointer)
  | some clazz => rethrow (message type (some clazz)) (deserialize clazz)

def deserializeRequest : Decoder Request :=
  deserializeTyped (fun requestType requestClass => "Error while deserializing Request Type [" ++
    toString requestType.toInt ++ "] Class[" ++ (requestClass.elim "null" RequestClass.name) ++ "]")
    requestTypMap deserializeFields

/-! ### Where they allocate -/

/-- A nullable array is allocated at its own length field. -/
theorem allocates_getNullable (f : List UInt8 → α) :
    Allocates (getNullable f) (do
      let size ← getInt
      if 0 ≤ size.toInt then
        let data ← getArray size.toInt.toNat
        return some (f data)
      else
        return none) 1 := by
  intro b log
  have hget : ∀ v b₁, getInt b = .ok v b₁ ↔ intBytes v <+: b.rest ∧ b₁ = b.skip 4 := by
    intro v b₁
    rw [reads_getInt.ok_iff]
    constructor
    · rintro ⟨_, rfl, hpre, rfl⟩
      exact ⟨hpre, by rw [length_intBytes]⟩
    · rintro ⟨hpre, rfl⟩
      exact ⟨_, rfl, hpre, by rw [length_intBytes]⟩
  have hat : ∀ x, At 1 b x ↔ ∃ v : Int32, 0 ≤ v.toInt ∧ intBytes v <+: b.rest ∧
      x = ⟨v.toInt.toNat, b.remaining - 4⟩ := by
    intro x
    simp [At, Language.mem_one]
  cases h : getInt b with
  | error e b₁ =>
    refine ⟨[], ?_, fun x => iff_of_false List.not_mem_nil ?_⟩
    · rw [bind_of_error h, List.append_nil]
      exact read_bind_of_error h log
    · rw [hat]
      rintro ⟨v, -, hpre, -⟩
      rw [(hget v _).mpr ⟨hpre, rfl⟩] at h
      cases h
  | ok v b₁ =>
    obtain ⟨hpre, rfl⟩ := (hget v b₁).mp h
    have hunique : ∀ v', intBytes v' <+: b.rest → v' = v := fun v' hpre' =>
      intBytes_injective (List.IsPrefix.eq_of_length
        (List.prefix_of_prefix_length_le hpre' hpre (by simp)) (by simp))
    have hle := prefix_length_le hpre
    rw [length_intBytes] at hle
    have hrun := read_bind_of_ok h log (k := fun size => if 0 ≤ size.toInt then do
      newByteArray size.toInt.toNat
      let data ← Allocations.read (getArray size.toInt.toNat)
      return some (f data) else return none)
    by_cases hv : 0 ≤ v.toInt
    · refine ⟨[⟨v.toInt.toNat, b.remaining - 4⟩], ?_, fun x => ?_⟩
      · refine hrun.trans ?_
        rw [bind_of_ok h, if_pos hv, if_pos hv, read_map (getArray _), ← ByteBuffer.remaining_skip hle]
        rfl
      · rw [List.mem_singleton, hat]
        constructor
        · rintro rfl
          exact ⟨v, hv, hpre, rfl⟩
        · rintro ⟨v', -, hpre', rfl⟩
          rw [hunique v' hpre']
    · refine ⟨[], ?_, fun x => iff_of_false List.not_mem_nil ?_⟩
      · refine hrun.trans ?_
        rw [bind_of_ok h, if_neg hv, if_neg hv, List.append_nil]
        rfl
      · rw [hat]
        rintro ⟨v', hv', hpre', -⟩
        rw [hunique v' hpre'] at hv'
        exact hv hv'

theorem allocates_getString : Allocates getString ByteBufferUtil.getString 1 :=
  allocates_getNullable newString

theorem allocates_getByteArray : Allocates getByteArray ByteBufferUtil.getByteArray 1 :=
  allocates_getNullable id

/-- A nullable object allocates behind its flag. -/
theorem allocates_deserializeNullable {d : Decoder α} {m : Io α} {A : Language UInt8}
    {W : α → Language UInt8} (hd : Allocates d m A) (hm : Reads m W) :
    Allocates (deserializeNullable d) (ByteBufferUtil.deserialize m) ({[trueByte]} * A) := by
  refine ((allocates_read getByte).bind reads_getByte fun b =>
    (hd.map some hm).ite (allocates_pure none)).congr ?_
  rw [zero_add]
  ext bs
  constructor
  · rintro ⟨b, h⟩
    by_cases hb : b = trueByte
    · simpa only [hb, if_true] using h
    · simp only [if_neg hb, mul_zero] at h
      exact absurd h (Language.notMem_zero bs)
  · intro h
    exact ⟨trueByte, by simpa only [if_true] using h⟩

/-! ### The DTOs -/

/-- In front of the length field of a `ClientDto` or a `QueueDto` stands its id. -/
def dtoLengths : Language UInt8 := anyWord Codec.long.wire

theorem allocates_deserializeClient : Allocates deserializeClient ClientDto.deserialize dtoLengths :=
  ((allocates_read Nio.getLong).seq reads_getLong fun id =>
    allocates_getString.map (ClientDto.mk id) implements_string.reads).congr
    (by rw [zero_add, mul_one]; rfl)

theorem allocates_deserializeQueue : Allocates deserializeQueue QueueDto.deserialize dtoLengths :=
  ((allocates_read Nio.getLong).seq reads_getLong fun id =>
    allocates_getString.map (QueueDto.mk id) implements_string.reads).congr
    (by rw [zero_add, mul_one]; rfl)

/-- A `MessageQueryInfoDto` has two length fields, if it has a queue and a sender. -/
def queryInfoLengths : Language UInt8 :=
  {[trueByte]} * dtoLengths + anyWord (optCodec QueueDto.codec).wire * ({[trueByte]} * dtoLengths)

theorem allocates_deserializeMessageQueryInfo : Allocates deserializeMessageQueryInfo
    MessageQueryInfoDto.deserialize queryInfoLengths :=
  ((allocates_deserializeNullable allocates_deserializeQueue QueueDto.implements.reads).seq
    (implements_opt QueueDto.implements).reads fun queue =>
  (allocates_deserializeNullable allocates_deserializeClient ClientDto.implements.reads).seq
    (implements_opt ClientDto.implements).reads fun sender =>
  (allocates_read ByteBufferUtil.getBoolean).seq implements_boolean.reads fun order =>
  (allocates_read ByteBufferUtil.getInteger).map (MessageQueryInfoDto.mk queue sender order)
    implements_putInteger.reads).congr (by simp only [mul_zero, add_zero]; rfl)

/-! ### The requests -/

/-- The words in front of the length fields of a class. -/
def lengthFields : RequestClass → Language UInt8
  | .createQueue => 1
  | .deleteQueue => {[trueByte]} * dtoLengths
  | .dequeueMessage => {[trueByte]} * queryInfoLengths
  | .peekMessage => {[trueByte]} * queryInfoLengths
  | .queuesWithPendingMessages => 0
  | .registration => 1
  | .sendClientMessage => anyWord Codec.long.wire * (anyWord Codec.int.wire *
      (anyWord booleanCodec.wire * anyWord (optCodec Codec.long).wire))
  | .sendMessage => anyWord ((optCodec Codec.long).counted SendMessageRequest.optLong_pos).wire
  | .lookupQueue => 1
  | .lookupClient => 1

/-- The fields of a class are read as `deserialize` reads them, with an array at every length
field. -/
theorem allocates_deserializeFields (clazz : RequestClass) :
    Allocates (deserializeFields clazz) clazz.deserialize (lengthFields clazz) := by
  cases clazz with
  | createQueue =>
    simp only [RequestClass.deserialize, CreateQueueRequest.deserialize, bind_assoc, pure_bind]
    exact allocates_getString.map (fun queueName => Request.createQueue ⟨queueName⟩) implements_string.reads
  | deleteQueue =>
    simp only [RequestClass.deserialize, DeleteQueueRequest.deserialize, bind_assoc, pure_bind]
    exact (allocates_deserializeNullable allocates_deserializeQueue QueueDto.implements.reads).map
      (fun queue => Request.deleteQueue ⟨queue⟩) (implements_opt QueueDto.implements).reads
  | dequeueMessage =>
    simp only [RequestClass.deserialize, DequeueMessageRequest.deserialize, bind_assoc, pure_bind]
    exact (allocates_deserializeNullable allocates_deserializeMessageQueryInfo
      MessageQueryInfoDto.implements.reads).map
      (fun info => Request.dequeueMessage ⟨info⟩) (implements_opt MessageQueryInfoDto.implements).reads
  | peekMessage =>
    simp only [RequestClass.deserialize, PeekMessageRequest.deserialize, bind_assoc, pure_bind]
    exact (allocates_deserializeNullable allocates_deserializeMessageQueryInfo
      MessageQueryInfoDto.implements.reads).map
      (fun info => Request.peekMessage ⟨info⟩) (implements_opt MessageQueryInfoDto.implements).reads
  | queuesWithPendingMessages =>
    simp only [RequestClass.deserialize, QueuesWithPendingMessagesRequest.deserialize, bind_assoc, pure_bind]
    exact (allocates_read getInt).map (fun num => Request.queuesWithPendingMessages ⟨num⟩) reads_getInt
  | registration =>
    simp only [RequestClass.deserialize, RegistrationRequest.deserialize, bind_assoc, pure_bind]
    exact allocates_getString.map (fun name => Request.registration ⟨name⟩) implements_string.reads
  | sendClientMessage =>
    simp only [RequestClass.deserialize, SendClientMessageRequest.deserialize, bind_assoc, pure_bind]
    exact ((allocates_read Nio.getLong).seq reads_getLong fun clientId =>
      (allocates_read getInt).seq reads_getInt fun prio =>
      (allocates_read ByteBufferUtil.getBoolean).seq implements_boolean.reads fun conversation =>
      (allocates_read ByteBufferUtil.getLong).seq implements_putLong.reads fun context =>
      allocates_getByteArray.map
        (fun content => Request.sendClientMessage ⟨clientId, prio, conversation, context, content⟩)
        implements_array.reads).congr (by simp only [zero_add, mul_one]; rfl)
  | sendMessage =>
    simp only [RequestClass.deserialize, SendMessageRequest.deserialize, bind_assoc, pure_bind]
    exact ((allocates_read (readCounted ByteBufferUtil.getLong)).seq
      (implements_counted implements_putLong SendMessageRequest.optLong_pos).reads fun queueIds =>
      allocates_getByteArray.seq implements_array.reads fun content =>
      (allocates_read getInt).map (fun prio => Request.sendMessage ⟨queueIds, content, prio⟩)
        reads_getInt).congr (by simp only [zero_add, mul_zero, add_zero, mul_one]; rfl)
  | lookupQueue =>
    simp only [RequestClass.deserialize, LookupQueueRequest.deserialize, bind_assoc, pure_bind]
    exact (allocates_getString.seq implements_string.reads fun queueName =>
      (allocates_read ByteBufferUtil.getLong).map
        (fun clientId => Request.lookupQueue ⟨clientId, queueName⟩) implements_putLong.reads).congr
      (by rw [mul_zero, add_zero]; rfl)
  | lookupClient =>
    simp only [RequestClass.deserialize, LookupClientRequest.deserialize, bind_assoc, pure_bind]
    exact allocates_getString.map (fun name => Request.lookupClient ⟨name⟩) implements_string.reads

theorem allocates_rethrow {message : String} {d : Decoder α} {m : Io α} {A : Language UInt8}
    (h : Allocates d m A) : Allocates (rethrow message d) (Factory.rethrow message m) A := by
  intro b log
  obtain ⟨new, hrun, hnew⟩ := h b log
  refine ⟨new, ?_, hnew⟩
  unfold rethrow Factory.rethrow
  rw [hrun]
  cases m b <;> rfl

/-- The type id of a class, and what stands in front of one of its length fields. -/
def requestLengths : Language UInt8 :=
  {bs | ∃ clazz : RequestClass, bs ∈ {intBytes clazz.serialVersionUID.toInt32} * lengthFields clazz}

theorem allocates_deserializeTyped (message : Int32 → Option RequestClass → String) :
    Allocates (deserializeTyped message requestTypMap deserializeFields)
      (Factory.deserializeTyped message requestTypMap RequestClass.deserialize) requestLengths := by
  refine ((allocates_rethrow (allocates_read getInt)).bind
    (B := fun type => {bs | ∃ clazz, requestTypMap.lookup type = some clazz ∧
      bs ∈ lengthFields clazz}) (reads_rethrow reads_getInt) fun type => ?_).congr ?_
  · cases h : requestTypMap.lookup type with
    | none =>
      refine (allocates_read (throw _)).congr ?_
      ext bs
      refine iff_of_false (Language.notMem_zero bs) ?_
      rintro ⟨clazz, hclazz, -⟩
      cases hclazz
    | some clazz =>
      refine (allocates_rethrow (allocates_deserializeFields clazz)).congr ?_
      ext bs
      constructor
      · exact fun h => ⟨clazz, rfl, h⟩
      · rintro ⟨_, ⟨⟩, h⟩
        exact h
  rw [zero_add]
  ext bs
  constructor
  · rintro ⟨type, h⟩
    obtain ⟨u, rfl, v, ⟨clazz, hclazz, hv⟩, rfl⟩ := Language.mem_mul.mp h
    rw [← (lookup_requestTypMap type clazz).mp hclazz]
    exact ⟨clazz, Language.append_mem_mul rfl hv⟩
  · rintro ⟨clazz, h⟩
    obtain ⟨u, rfl, v, hv, rfl⟩ := Language.mem_mul.mp h
    exact ⟨_, Language.append_mem_mul rfl ⟨clazz, (lookup_requestTypMap _ _).mpr rfl, hv⟩⟩

/-- **Where `deserializeRequest` allocates an array.** -/
theorem allocates_deserializeRequest :
    Allocates deserializeRequest Factory.deserializeRequest requestLengths :=
  allocates_deserializeTyped _

/-- A request that cannot be read ends in a `RuntimeException`. -/
theorem error_deserializeRequest {b b' : ByteBuffer} {e : Throwable}
    (h : Factory.deserializeRequest b = .error e b') : ∃ message cause, e = .runtime message cause := by
  have hwrapped : ∀ {β : Type} {message : String} {m : Io β} {b b' : ByteBuffer} {e : Throwable},
      Factory.rethrow message m b = .error e b' → ∃ message cause, e = .runtime message cause := by
    intro β message m b b' e h
    unfold Factory.rethrow at h
    cases hm : m b with
    | ok a b₁ =>
      rw [hm] at h
      cases h
    | error e₁ b₁ =>
      rw [hm] at h
      cases h
      exact ⟨_, _, rfl⟩
  rcases bind_error_iff.mp h with h | ⟨type, b₁, -, h⟩
  · exact hwrapped h
  · cases hlookup : requestTypMap.lookup type with
    | none =>
      simp only [hlookup] at h
      cases h
      exact ⟨_, _, rfl⟩
    | some clazz =>
      simp only [hlookup] at h
      exact hwrapped h

/-! ### Workers that survive -/

/-- One round of `Worker.run` on a machine whose arrays have at most `maxLength` bytes, or `none` if
an `OutOfMemoryError` ends the thread. -/
def run (maxLength : ℕ) (stream : ObjectStream ε) (processor : Request → Except ε (Response ε))
    (responseQueue : BoundedQueue (WorkerTask κ ByteBuffer)) (task : WorkerTask κ ByteBuffer) :
    Option (BoundedQueue (WorkerTask κ ByteBuffer)) :=
  if ∀ rawRequest ∈ task.requestBuffer, ∀ x ∈ allocations deserializeRequest rawRequest,
      x.length ≤ maxLength then
    some (Worker.run stream processor responseQueue task)
  else
    none

variable (κ) in
/-- **The request cannot kill a worker**: no array is longer than the bytes that remain, the worker
goes on if only an array of the size of the request can be allocated, and what `deserializeRequest`
throws is an exception. -/
structure Harmless (stream : ObjectStream ε) (processor : Request → Except ε (Response ε))
    (rawRequest : ByteBuffer) : Prop where
  bounded : ∀ x ∈ allocations deserializeRequest rawRequest, x.length ≤ x.remaining
  survives : ∀ maxLength, rawRequest.remaining ≤ maxLength → ∀ responseQueue, ∀ clientContext : κ,
    (run maxLength stream processor responseQueue (WorkerTask.new clientContext rawRequest)).isSome
  caught : ∀ e b, Factory.deserializeRequest rawRequest = .error e b →
    ∃ message cause, e = .runtime message cause

variable {stream : ObjectStream ε} {processor : Request → Except ε (Response ε)}
  {rawRequest : ByteBuffer}

/-- **A request cannot kill a worker iff no length field in it says more than the bytes behind it.**
-/
theorem harmless_iff : Harmless κ stream processor rawRequest ↔
    ∀ u ∈ requestLengths, ∀ v : Int32, u ++ intBytes v <+: rawRequest.rest →
      u.length + 4 + v.toInt ≤ rawRequest.remaining := by
  have hmem := fun x => allocates_deserializeRequest.mem_allocations (b := rawRequest) (x := x)
  constructor
  · intro h u hu v hpre
    have hle := prefix_length_le hpre
    rw [List.length_append, length_intBytes] at hle
    by_cases hv : 0 ≤ v.toInt
    · have hx := h.bounded _ ((hmem _).mpr ⟨u, hu, v, hv, hpre, rfl⟩)
      simp only at hx
      omega
    · omega
  · intro h
    have hbounded : ∀ x ∈ allocations deserializeRequest rawRequest,
        x.length ≤ x.remaining ∧ x.remaining ≤ rawRequest.remaining := by
      intro x hx
      obtain ⟨u, hu, v, hv, hpre, rfl⟩ := (hmem x).mp hx
      have hle := h u hu v hpre
      simp only
      omega
    refine ⟨fun x hx => (hbounded x hx).1, fun maxLength hmax queue clientContext => ?_,
      fun e b => error_deserializeRequest⟩
    have hall : ∀ raw ∈ (WorkerTask.new clientContext rawRequest).requestBuffer,
        ∀ x ∈ allocations deserializeRequest raw, x.length ≤ maxLength := by
      intro raw hraw x hx
      obtain rfl := Option.some.inj hraw
      exact (hbounded x hx).1.trans ((hbounded x hx).2.trans hmax)
    unfold run
    rw [if_pos hall]
    rfl

/-- A `RegistrationRequest` of eight bytes, whose name is said to have 2³¹ - 1 bytes. -/
def hostileRequest : ByteBuffer where
  bytes := intBytes RequestClass.registration.serialVersionUID.toInt32 ++ intBytes 0x7fffffff
  position := 0
  limit := 8
  position_le := by decide
  limit_le := by decide
  capacity_lt := by decide

/-- A worker that may allocate a gigabyte is dead after eight bytes. -/
theorem hostileRequest_kills :
    ¬ Harmless Unit RoundTrip.nullStream (fun _ => .ok (.sendMessage {})) hostileRequest ∧
      run (2 ^ 30) RoundTrip.nullStream (fun _ => .ok (.sendMessage {})) (BoundedQueue.empty 1)
        (WorkerTask.new () hostileRequest) = none := by
  have hmem : ⟨0x7fffffff, 0⟩ ∈ allocations deserializeRequest hostileRequest :=
    allocates_deserializeRequest.mem_allocations.mpr
      ⟨_, ⟨.registration, Language.append_mem_mul rfl rfl⟩, 0x7fffffff, by decide, by decide, rfl⟩
  refine ⟨fun h => absurd (h.bounded _ hmem) (by decide), if_neg fun h => ?_⟩
  exact absurd (h hostileRequest rfl _ hmem) (by decide)

end Mlmq.Server.MalformedLengths
