import Mlmq.Dto

/-! # The responses

The nine response classes with their fields, `serialize` and `deserialize`. `Response` is an object
of one of them; an `ExceptionResponse` holds an exception of the type `ε`, which Java object
serialisation (`ObjectStream`) stores. It is the only response that may have no bytes
(`Response.fieldBytes`): the object stream may refuse the exception. -/

namespace Mlmq.Net.Responses

open Mlmq.Dto Mlmq.Lib Mlmq.Lib.BigEndian Mlmq.Lib.Format Mlmq.Lib.Nio Mlmq.Lib.Cursor
open Mlmq.Lib.Codecs Mlmq.Util
open Mlmq.Util.ByteBufferUtil (Obj ObjectStream arrayBytes objectWire optCodec booleanCodec
  implements_opt implements_boolean implements_putLong)

variable {ε : Type}

/-! ### Classes with one field or none -/

structure ClientResponse where
  client : Option ClientDto
deriving DecidableEq, Repr

namespace ClientResponse

def serialize (response : ClientResponse) : Io Unit :=
  ByteBufferUtil.serialize ClientDto.serialize response.client

def deserialize : Io ClientResponse := do
  let client ← ByteBufferUtil.deserialize ClientDto.deserialize
  return { client }

theorem implements : Implements serialize deserialize ((optCodec ClientDto.codec).comap client) :=
  (implements_opt ClientDto.implements).wrap fun ⟨_⟩ _ => by simp

end ClientResponse

structure QueueResponse where
  queue : Option QueueDto
deriving DecidableEq, Repr

namespace QueueResponse

def serialize (response : QueueResponse) : Io Unit :=
  ByteBufferUtil.serialize QueueDto.serialize response.queue

def deserialize : Io QueueResponse := do
  let queue ← ByteBufferUtil.deserialize QueueDto.deserialize
  return { queue }

theorem implements : Implements serialize deserialize ((optCodec QueueDto.codec).comap queue) :=
  (implements_opt QueueDto.implements).wrap fun ⟨_⟩ _ => by simp

end QueueResponse

structure DeleteQueueResponse where
deriving DecidableEq, Repr

namespace DeleteQueueResponse

def serialize (_ : DeleteQueueResponse) : Io Unit := pure ()

def deserialize : Io DeleteQueueResponse := return {}

theorem implements : Implements serialize deserialize Codec.empty :=
  implements_empty _ fun _ => rfl

end DeleteQueueResponse

structure MessageResponse where
  messageDto : Option MessageDto
deriving DecidableEq, Repr

namespace MessageResponse

def serialize (response : MessageResponse) : Io Unit :=
  ByteBufferUtil.serialize MessageDto.serialize response.messageDto

def deserialize : Io MessageResponse := do
  let messageDto ← ByteBufferUtil.deserialize MessageDto.deserialize
  return { messageDto }

theorem implements : Implements serialize deserialize ((optCodec MessageDto.codec).comap messageDto) :=
  (implements_opt MessageDto.implements).wrap fun ⟨_⟩ _ => by simp

end MessageResponse

structure SendClientMessageResponse where
  conversationContext : Option Int64
deriving DecidableEq, Repr

namespace SendClientMessageResponse

def serialize (response : SendClientMessageResponse) : Io Unit :=
  ByteBufferUtil.putLong response.conversationContext

def deserialize : Io SendClientMessageResponse := do
  let conversationContext ← ByteBufferUtil.getLong
  return { conversationContext }

theorem implements : Implements serialize deserialize
    ((optCodec Codec.long).comap conversationContext) :=
  implements_putLong.wrap fun ⟨_⟩ _ => by simp

end SendClientMessageResponse

structure SendMessageResponse where
deriving DecidableEq, Repr

namespace SendMessageResponse

def serialize (_ : SendMessageResponse) : Io Unit := pure ()

def deserialize : Io SendMessageResponse := return {}

theorem implements : Implements serialize deserialize Codec.empty :=
  implements_empty _ fun _ => rfl

end SendMessageResponse

/-! ### `ExceptionResponse` -/

structure ExceptionResponse (ε : Type) where
  exception : Option ε
deriving DecidableEq, Repr

namespace ExceptionResponse

/-- The reference as an object. -/
def obj (response : ExceptionResponse ε) : Obj ε :=
  match response.exception with
  | none => .null
  | some ex => .exception ex

def serialize (stream : ObjectStream ε) (response : ExceptionResponse ε) : Io Unit :=
  ByteBufferUtil.serializeAny stream response.obj

/-- The cast to `Exception` lets `null` pass. -/
def deserialize (stream : ObjectStream ε) : Io (ExceptionResponse ε) := do
  let obj ← ByteBufferUtil.deserializeAny stream
  match obj with
  | .null => return { exception := none }
  | .exception ex => return { exception := some ex }
  | .other => throw .classCast

/-- The bytes of the exception, unless the object stream refuses it. -/
def bytes (stream : ObjectStream ε) (response : ExceptionResponse ε) : Option (List UInt8) :=
  match stream.writeObject response.obj with
  | .ok data => some (arrayBytes data)
  | .error _ => none

theorem bytes_eq_some {stream : ObjectStream ε} {response : ExceptionResponse ε} {bs : List UInt8}
    (h : response.bytes stream = some bs) :
    ∃ data, stream.writeObject response.obj = .ok data ∧ bs = arrayBytes data := by
  unfold bytes at h
  split at h
  · rename_i data hdata
    exact ⟨data, hdata, (Option.some.inj h).symm⟩
  · cases h

theorem bytes_eq_none {stream : ObjectStream ε} {response : ExceptionResponse ε}
    (h : response.bytes stream = none) : ∃ e, stream.writeObject response.obj = .error e := by
  unfold bytes at h
  split at h
  · cases h
  · rename_i e he
    exact ⟨e, he⟩

theorem reads (stream : ObjectStream ε) :
    Reads (deserialize stream) fun response => objectWire stream response.obj := by
  have hk : ∀ obj : Obj ε, Reads
      (match obj with
        | .null => return { exception := none }
        | .exception ex => return { exception := some ex }
        | .other => throw .classCast)
      fun response : ExceptionResponse ε => guarded (response.obj = obj) 1 := by
    rintro (_ | ex | _)
    · refine (Reads.pure _).congr fun response => ?_
      rcases response with ⟨_ | ex⟩ <;> simp [obj]
    · refine (Reads.pure _).congr fun response => ?_
      rcases response with ⟨_ | ex'⟩ <;> simp [obj]
    · refine (Reads.throw _).congr fun response => ?_
      rcases response with ⟨_ | ex⟩ <;> (ext bs; simp [obj, Language.notMem_zero])
  refine ((ByteBufferUtil.reads_deserializeAny stream).bind hk).congr fun response => ?_
  ext bs
  constructor
  · rintro ⟨_, h⟩
    obtain ⟨u, hu, v, ⟨rfl, rfl⟩, rfl⟩ := Language.mem_mul.mp h
    rwa [List.append_nil]
  · intro h
    exact ⟨response.obj, Language.mem_mul.mpr ⟨bs, h, [], ⟨rfl, rfl⟩, List.append_nil bs⟩⟩

end ExceptionResponse

/-! ### Classes with more fields -/

structure QueuesWithPendingMessagesResponse where
  queues : List (Option QueueDto)
  numMessagesInMyQueue : Int32
deriving DecidableEq, Repr

namespace QueuesWithPendingMessagesResponse

def serialize (response : QueuesWithPendingMessagesResponse) : Io Unit := do
  putInt response.numMessagesInMyQueue
  writeCounted (ByteBufferUtil.serialize QueueDto.serialize) response.queues

def deserialize : Io QueuesWithPendingMessagesResponse := do
  let numMessagesInMyQueue ← getInt
  let queues ← readCounted (ByteBufferUtil.deserialize QueueDto.deserialize)
  return { queues, numMessagesInMyQueue }

theorem optQueue_pos : ∀ queue : Option QueueDto, 0 < ((optCodec QueueDto.codec).enc queue).length
  | none => Nat.zero_lt_one
  | some _ => Nat.succ_pos _

def codec : Codec QueuesWithPendingMessagesResponse :=
  (Codec.int.comap numMessagesInMyQueue).append <|
    ((optCodec QueueDto.codec).counted optQueue_pos).comap queues

theorem implements : Implements serialize deserialize codec where
  writes response :=
    (implements_int.writes response.numMessagesInMyQueue).seq <|
      (implements_counted (implements_opt QueueDto.implements) optQueue_pos).writes response.queues
  reads := by
    refine (Reads.field (P := fun _ => True) numMessagesInMyQueue reads_getInt fun n =>
      Reads.last queues (implements_counted (implements_opt QueueDto.implements)
        optQueue_pos).reads (f := fun q => ⟨q, n⟩) ?_).congr fun _ => guarded_true
    rintro ⟨q', n'⟩ q
    simp [and_comm]

end QueuesWithPendingMessagesResponse

structure RegistrationResponse where
  clientDto : Option ClientDto
  isNewClient : Bool
deriving DecidableEq, Repr

namespace RegistrationResponse

def serialize (response : RegistrationResponse) : Io Unit := do
  ByteBufferUtil.serialize ClientDto.serialize response.clientDto
  ByteBufferUtil.putBoolean response.isNewClient

def deserialize : Io RegistrationResponse := do
  let clientDto ← ByteBufferUtil.deserialize ClientDto.deserialize
  let isNewClient ← ByteBufferUtil.getBoolean
  return { clientDto, isNewClient }

def codec : Codec RegistrationResponse :=
  ((optCodec ClientDto.codec).comap clientDto).append (booleanCodec.comap isNewClient)

theorem implements : Implements serialize deserialize codec where
  writes response :=
    ((implements_opt ClientDto.implements).writes response.clientDto).seq
      (implements_boolean.writes response.isNewClient)
  reads := by
    refine (Reads.field (P := fun _ => True) clientDto (implements_opt ClientDto.implements).reads
      fun c => Reads.last isNewClient implements_boolean.reads (f := fun n => ⟨c, n⟩) ?_).congr
        fun _ => guarded_true
    rintro ⟨c', n'⟩ n
    simp

end RegistrationResponse

/-! ### The interface `Response` -/

/-- The response classes, in the order in which the factory registers them. -/
inductive ResponseClass
  | client
  | queue
  | deleteQueue
  | exception
  | message
  | queuesWithPendingMessages
  | registration
  | sendClientMessage
  | sendMessage
deriving DecidableEq, Repr

/-- An object of a response class. -/
inductive Response (ε : Type)
  | client (response : ClientResponse)
  | queue (response : QueueResponse)
  | deleteQueue (response : DeleteQueueResponse)
  | exception (response : ExceptionResponse ε)
  | message (response : MessageResponse)
  | queuesWithPendingMessages (response : QueuesWithPendingMessagesResponse)
  | registration (response : RegistrationResponse)
  | sendClientMessage (response : SendClientMessageResponse)
  | sendMessage (response : SendMessageResponse)
deriving DecidableEq, Repr

namespace ResponseClass

def serialVersionUID : ResponseClass → Int64
  | client => 1333054714047954400
  | queue => 1533054714047954400
  | deleteQueue => -9129773578776412298
  | exception => 5159033818555051347
  | message => 1267869959385529197
  | queuesWithPendingMessages => 4798365845603757482
  | registration => -3027176762048543256
  | sendClientMessage => 6873497715742459652
  | sendMessage => 1441841603203307110

/-- `Class.toString()`. -/
def name : ResponseClass → String
  | client => "class ch.ethz.mlmq.net.response.ClientResponse"
  | queue => "class ch.ethz.mlmq.net.response.QueueResponse"
  | deleteQueue => "class ch.ethz.mlmq.net.response.DeleteQueueResponse"
  | exception => "class ch.ethz.mlmq.net.response.ExceptionResponse"
  | message => "class ch.ethz.mlmq.net.response.MessageResponse"
  | queuesWithPendingMessages =>
    "class ch.ethz.mlmq.net.response.QueuesWithPendingMessagesResponse"
  | registration => "class ch.ethz.mlmq.net.response.RegistrationResponse"
  | sendClientMessage => "class ch.ethz.mlmq.net.response.SendClientMessageResponse"
  | sendMessage => "class ch.ethz.mlmq.net.response.SendMessageResponse"

/-- `newInstance()` and `deserialize` on it. -/
def deserialize (stream : ObjectStream ε) : ResponseClass → Io (Response ε)
  | client => do
    let response ← ClientResponse.deserialize
    return .client response
  | queue => do
    let response ← QueueResponse.deserialize
    return .queue response
  | deleteQueue => do
    let response ← DeleteQueueResponse.deserialize
    return .deleteQueue response
  | exception => do
    let response ← ExceptionResponse.deserialize stream
    return .exception response
  | message => do
    let response ← MessageResponse.deserialize
    return .message response
  | queuesWithPendingMessages => do
    let response ← QueuesWithPendingMessagesResponse.deserialize
    return .queuesWithPendingMessages response
  | registration => do
    let response ← RegistrationResponse.deserialize
    return .registration response
  | sendClientMessage => do
    let response ← SendClientMessageResponse.deserialize
    return .sendClientMessage response
  | sendMessage => do
    let response ← SendMessageResponse.deserialize
    return .sendMessage response

end ResponseClass

namespace Response

def getClass : Response ε → ResponseClass
  | client _ => .client
  | queue _ => .queue
  | deleteQueue _ => .deleteQueue
  | exception _ => .exception
  | message _ => .message
  | queuesWithPendingMessages _ => .queuesWithPendingMessages
  | registration _ => .registration
  | sendClientMessage _ => .sendClientMessage
  | sendMessage _ => .sendMessage

def getTypeId (response : Response ε) : Int32 := response.getClass.serialVersionUID.toInt32

def serialize (stream : ObjectStream ε) : Response ε → Io Unit
  | client response => response.serialize
  | queue response => response.serialize
  | deleteQueue response => response.serialize
  | exception response => ExceptionResponse.serialize stream response
  | message response => response.serialize
  | queuesWithPendingMessages response => response.serialize
  | registration response => response.serialize
  | sendClientMessage response => response.serialize
  | sendMessage response => response.serialize

/-! ### The format of all responses -/

/-- The bytes of the fields, if there are any. -/
def fieldBytes (stream : ObjectStream ε) : Response ε → Option (List UInt8)
  | client response => some ((optCodec ClientDto.codec).enc response.client)
  | queue response => some ((optCodec QueueDto.codec).enc response.queue)
  | deleteQueue response => some (Codec.empty.enc response)
  | exception response => response.bytes stream
  | message response => some ((optCodec MessageDto.codec).enc response.messageDto)
  | queuesWithPendingMessages response => some (QueuesWithPendingMessagesResponse.codec.enc response)
  | registration response => some (RegistrationResponse.codec.enc response)
  | sendClientMessage response => some ((optCodec Codec.long).enc response.conversationContext)
  | sendMessage response => some (Codec.empty.enc response)

/-- The words that stand for the fields. -/
def fieldWire (stream : ObjectStream ε) : Response ε → Language UInt8
  | client response => (optCodec ClientDto.codec).wire response.client
  | queue response => (optCodec QueueDto.codec).wire response.queue
  | deleteQueue response => Codec.empty.wire response
  | exception response => objectWire stream response.obj
  | message response => (optCodec MessageDto.codec).wire response.messageDto
  | queuesWithPendingMessages response => QueuesWithPendingMessagesResponse.codec.wire response
  | registration response => RegistrationResponse.codec.wire response
  | sendClientMessage response => (optCodec Codec.long).wire response.conversationContext
  | sendMessage response => Codec.empty.wire response

/-- What is written belongs to the format. -/
theorem fieldBytes_mem {stream : ObjectStream ε} (hstream : stream.RoundTrips)
    {response : Response ε} {bs : List UInt8} (h : fieldBytes stream response = some bs)
    (hlt : bs.length < 2 ^ 31) : bs ∈ fieldWire stream response := by
  cases response with
  | exception response =>
    obtain ⟨data, hdata, rfl⟩ := ExceptionResponse.bytes_eq_some h
    rw [ByteBufferUtil.length_arrayBytes] at hlt
    exact ⟨data, hstream _ _ hdata, by omega, rfl⟩
  | _ =>
    obtain rfl := Option.some.inj h
    exact Codec.enc_mem _ _ hlt

theorem writes_serialize {stream : ObjectStream ε} {response : Response ε} {bs : List UInt8}
    (h : fieldBytes stream response = some bs) : Writes (response.serialize stream) bs := by
  cases response with
  | client r =>
    obtain rfl := Option.some.inj h
    exact ClientResponse.implements.writes r
  | queue r =>
    obtain rfl := Option.some.inj h
    exact QueueResponse.implements.writes r
  | deleteQueue r =>
    obtain rfl := Option.some.inj h
    exact DeleteQueueResponse.implements.writes r
  | exception r =>
    obtain ⟨data, hdata, rfl⟩ := ExceptionResponse.bytes_eq_some h
    exact ByteBufferUtil.writes_serializeAny hdata
  | message r =>
    obtain rfl := Option.some.inj h
    exact MessageResponse.implements.writes r
  | queuesWithPendingMessages r =>
    obtain rfl := Option.some.inj h
    exact QueuesWithPendingMessagesResponse.implements.writes r
  | registration r =>
    obtain rfl := Option.some.inj h
    exact RegistrationResponse.implements.writes r
  | sendClientMessage r =>
    obtain rfl := Option.some.inj h
    exact SendClientMessageResponse.implements.writes r
  | sendMessage r =>
    obtain rfl := Option.some.inj h
    exact SendMessageResponse.implements.writes r

/-- A response without bytes: `serialize` throws before it writes. -/
theorem serialize_of_none {stream : ObjectStream ε} {response : Response ε}
    (h : fieldBytes stream response = none) (b : ByteBuffer) :
    ∃ e, response.serialize stream b = .error e b := by
  cases response with
  | exception response =>
    obtain ⟨e, he⟩ := ExceptionResponse.bytes_eq_none h
    exact ⟨_, ByteBufferUtil.serializeAny_of_error he b⟩
  | _ => cases h

/-- `deserialize` on a new instance of a class reads the fields of an object of that class. -/
theorem reads_deserialize (stream : ObjectStream ε) (clazz : ResponseClass) :
    Reads (clazz.deserialize stream) fun r : Response ε =>
      guarded (r.getClass = clazz) (fieldWire stream r) := by
  cases clazz with
  | client =>
    refine ClientResponse.implements.reads.object (fun _ => ⟨rfl, rfl⟩) fun r h => ?_
    cases r <;> cases h
    exact ⟨_, rfl⟩
  | queue =>
    refine QueueResponse.implements.reads.object (fun _ => ⟨rfl, rfl⟩) fun r h => ?_
    cases r <;> cases h
    exact ⟨_, rfl⟩
  | deleteQueue =>
    refine DeleteQueueResponse.implements.reads.object (fun _ => ⟨rfl, rfl⟩) fun r h => ?_
    cases r <;> cases h
    exact ⟨_, rfl⟩
  | exception =>
    refine (ExceptionResponse.reads stream).object (fun _ => ⟨rfl, rfl⟩) fun r h => ?_
    cases r <;> cases h
    exact ⟨_, rfl⟩
  | message =>
    refine MessageResponse.implements.reads.object (fun _ => ⟨rfl, rfl⟩) fun r h => ?_
    cases r <;> cases h
    exact ⟨_, rfl⟩
  | queuesWithPendingMessages =>
    refine QueuesWithPendingMessagesResponse.implements.reads.object (fun _ => ⟨rfl, rfl⟩) fun r h => ?_
    cases r <;> cases h
    exact ⟨_, rfl⟩
  | registration =>
    refine RegistrationResponse.implements.reads.object (fun _ => ⟨rfl, rfl⟩) fun r h => ?_
    cases r <;> cases h
    exact ⟨_, rfl⟩
  | sendClientMessage =>
    refine SendClientMessageResponse.implements.reads.object (fun _ => ⟨rfl, rfl⟩) fun r h => ?_
    cases r <;> cases h
    exact ⟨_, rfl⟩
  | sendMessage =>
    refine SendMessageResponse.implements.reads.object (fun _ => ⟨rfl, rfl⟩) fun r h => ?_
    cases r <;> cases h
    exact ⟨_, rfl⟩

end Response

end Mlmq.Net.Responses
