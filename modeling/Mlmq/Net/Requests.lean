import Mlmq.Dto

/-! # The requests

The ten request classes with their fields, `serialize` and `deserialize`, each with the codec it
implements. `Request` is an object of one of them and `RequestClass` the class; the payload of a
request is its type id, the serial version uid cut to an `int`, and the fields behind it. -/

namespace Mlmq.Net.Requests

open Mlmq.Dto Mlmq.Lib Mlmq.Lib.BigEndian Mlmq.Lib.Format Mlmq.Lib.Nio Mlmq.Lib.Cursor
open Mlmq.Lib.Codecs Mlmq.Util
open Mlmq.Util.ByteBufferUtil (stringCodec arrayCodec optCodec booleanCodec implements_string
  implements_array implements_opt implements_boolean implements_putLong)

/-! ### Classes with one field -/

structure CreateQueueRequest where
  queueName : Option String
deriving DecidableEq, Repr

namespace CreateQueueRequest

def serialize (request : CreateQueueRequest) : Io Unit :=
  ByteBufferUtil.putString request.queueName

def deserialize : Io CreateQueueRequest := do
  let queueName ← ByteBufferUtil.getString
  return { queueName }

theorem implements : Implements serialize deserialize (stringCodec.comap queueName) :=
  implements_string.wrap fun ⟨_⟩ _ => by simp

end CreateQueueRequest

structure DeleteQueueRequest where
  queue : Option QueueDto
deriving DecidableEq, Repr

namespace DeleteQueueRequest

def serialize (request : DeleteQueueRequest) : Io Unit :=
  ByteBufferUtil.serialize QueueDto.serialize request.queue

def deserialize : Io DeleteQueueRequest := do
  let queue ← ByteBufferUtil.deserialize QueueDto.deserialize
  return { queue }

theorem implements : Implements serialize deserialize ((optCodec QueueDto.codec).comap queue) :=
  (implements_opt QueueDto.implements).wrap fun ⟨_⟩ _ => by simp

end DeleteQueueRequest

structure DequeueMessageRequest where
  messageQueryInfo : Option MessageQueryInfoDto
deriving DecidableEq, Repr

namespace DequeueMessageRequest

def serialize (request : DequeueMessageRequest) : Io Unit :=
  ByteBufferUtil.serialize MessageQueryInfoDto.serialize request.messageQueryInfo

def deserialize : Io DequeueMessageRequest := do
  let messageQueryInfo ← ByteBufferUtil.deserialize MessageQueryInfoDto.deserialize
  return { messageQueryInfo }

theorem implements : Implements serialize deserialize
    ((optCodec MessageQueryInfoDto.codec).comap messageQueryInfo) :=
  (implements_opt MessageQueryInfoDto.implements).wrap fun ⟨_⟩ _ => by simp

end DequeueMessageRequest

structure PeekMessageRequest where
  messageQueryInfo : Option MessageQueryInfoDto
deriving DecidableEq, Repr

namespace PeekMessageRequest

def serialize (request : PeekMessageRequest) : Io Unit :=
  ByteBufferUtil.serialize MessageQueryInfoDto.serialize request.messageQueryInfo

def deserialize : Io PeekMessageRequest := do
  let messageQueryInfo ← ByteBufferUtil.deserialize MessageQueryInfoDto.deserialize
  return { messageQueryInfo }

theorem implements : Implements serialize deserialize
    ((optCodec MessageQueryInfoDto.codec).comap messageQueryInfo) :=
  (implements_opt MessageQueryInfoDto.implements).wrap fun ⟨_⟩ _ => by simp

end PeekMessageRequest

structure QueuesWithPendingMessagesRequest where
  maxNumQueues : Int32
deriving DecidableEq, Repr

namespace QueuesWithPendingMessagesRequest

def serialize (request : QueuesWithPendingMessagesRequest) : Io Unit :=
  putInt request.maxNumQueues

def deserialize : Io QueuesWithPendingMessagesRequest := do
  let maxNumQueues ← getInt
  return { maxNumQueues }

theorem implements : Implements serialize deserialize (Codec.int.comap maxNumQueues) :=
  implements_int.wrap fun ⟨_⟩ _ => by simp

end QueuesWithPendingMessagesRequest

structure RegistrationRequest where
  clientName : Option String
deriving DecidableEq, Repr

namespace RegistrationRequest

def serialize (request : RegistrationRequest) : Io Unit :=
  ByteBufferUtil.putString request.clientName

def deserialize : Io RegistrationRequest := do
  let clientName ← ByteBufferUtil.getString
  return { clientName }

theorem implements : Implements serialize deserialize (stringCodec.comap clientName) :=
  implements_string.wrap fun ⟨_⟩ _ => by simp

end RegistrationRequest

structure LookupClientRequest where
  clientName : Option String
deriving DecidableEq, Repr

namespace LookupClientRequest

def serialize (request : LookupClientRequest) : Io Unit :=
  ByteBufferUtil.putString request.clientName

def deserialize : Io LookupClientRequest := do
  let clientName ← ByteBufferUtil.getString
  return { clientName }

theorem implements : Implements serialize deserialize (stringCodec.comap clientName) :=
  implements_string.wrap fun ⟨_⟩ _ => by simp

end LookupClientRequest

/-! ### `SendClientMessageRequest` -/

structure SendClientMessageRequest where
  clientId : Int64
  prio : Int32
  conversation : Bool
  conversationContext : Option Int64
  content : Option (List UInt8)
deriving DecidableEq, Repr

namespace SendClientMessageRequest

def serialize (request : SendClientMessageRequest) : Io Unit := do
  Nio.putLong request.clientId
  putInt request.prio
  ByteBufferUtil.putBoolean request.conversation
  ByteBufferUtil.putLong request.conversationContext
  ByteBufferUtil.putByteArray request.content

def deserialize : Io SendClientMessageRequest := do
  let clientId ← Nio.getLong
  let prio ← getInt
  let conversation ← ByteBufferUtil.getBoolean
  let conversationContext ← ByteBufferUtil.getLong
  let content ← ByteBufferUtil.getByteArray
  return { clientId, prio, conversation, conversationContext, content }

def codec : Codec SendClientMessageRequest :=
  (Codec.long.comap clientId).append <| (Codec.int.comap prio).append <|
    (booleanCodec.comap conversation).append <|
    ((optCodec Codec.long).comap conversationContext).append <| arrayCodec.comap content

theorem implements : Implements serialize deserialize codec where
  writes request :=
    (implements_long.writes request.clientId).seq <| (implements_int.writes request.prio).seq <|
      (implements_boolean.writes request.conversation).seq <|
      (implements_putLong.writes request.conversationContext).seq <|
      implements_array.writes request.content
  reads := by
    refine (Reads.field (P := fun _ => True) clientId reads_getLong fun i =>
      Reads.field prio reads_getInt fun p =>
      Reads.field conversation implements_boolean.reads fun o =>
      Reads.field conversationContext implements_putLong.reads fun x =>
      Reads.last content implements_array.reads (f := fun c => ⟨i, p, o, x, c⟩) ?_).congr
        fun _ => guarded_true
    rintro ⟨i', p', o', x', c'⟩ c
    simp [and_assoc]

end SendClientMessageRequest

/-! ### `SendMessageRequest` -/

structure SendMessageRequest where
  queueIds : List (Option Int64)
  content : Option (List UInt8)
  prio : Int32
deriving DecidableEq, Repr

namespace SendMessageRequest

def serialize (request : SendMessageRequest) : Io Unit := do
  writeCounted ByteBufferUtil.putLong request.queueIds
  ByteBufferUtil.putByteArray request.content
  putInt request.prio

def deserialize : Io SendMessageRequest := do
  let queueIds ← readCounted ByteBufferUtil.getLong
  let content ← ByteBufferUtil.getByteArray
  let prio ← getInt
  return { queueIds, content, prio }

theorem optLong_pos : ∀ id : Option Int64, 0 < ((optCodec Codec.long).enc id).length
  | none => Nat.zero_lt_one
  | some _ => Nat.succ_pos _

def codec : Codec SendMessageRequest :=
  (((optCodec Codec.long).counted optLong_pos).comap queueIds).append <|
    (arrayCodec.comap content).append <| Codec.int.comap prio

theorem implements : Implements serialize deserialize codec where
  writes request :=
    ((implements_counted implements_putLong optLong_pos).writes request.queueIds).seq <|
      (implements_array.writes request.content).seq <| implements_int.writes request.prio
  reads := by
    refine (Reads.field (P := fun _ => True) queueIds
      (implements_counted implements_putLong optLong_pos).reads fun q =>
      Reads.field content implements_array.reads fun c =>
      Reads.last prio reads_getInt (f := fun p => ⟨q, c, p⟩) ?_).congr fun _ => guarded_true
    rintro ⟨q', c', p'⟩ p
    simp [and_assoc]

end SendMessageRequest

/-! ### `LookupQueueRequest` -/

structure LookupQueueRequest where
  clientId : Option Int64
  queueName : Option String
deriving DecidableEq, Repr

namespace LookupQueueRequest

def serialize (request : LookupQueueRequest) : Io Unit := do
  ByteBufferUtil.putString request.queueName
  ByteBufferUtil.putLong request.clientId

def deserialize : Io LookupQueueRequest := do
  let queueName ← ByteBufferUtil.getString
  let clientId ← ByteBufferUtil.getLong
  return { queueName, clientId }

def codec : Codec LookupQueueRequest :=
  (stringCodec.comap queueName).append ((optCodec Codec.long).comap clientId)

theorem implements : Implements serialize deserialize codec where
  writes request :=
    (implements_string.writes request.queueName).seq (implements_putLong.writes request.clientId)
  reads := by
    refine (Reads.field (P := fun _ => True) queueName implements_string.reads fun n =>
      Reads.last clientId implements_putLong.reads (f := fun i => ⟨i, n⟩) ?_).congr
        fun _ => guarded_true
    rintro ⟨i', n'⟩ i
    simp [and_comm]

end LookupQueueRequest

/-! ### The interface `Request` -/

/-- The request classes, in the order in which the factory registers them. -/
inductive RequestClass
  | createQueue
  | deleteQueue
  | dequeueMessage
  | peekMessage
  | queuesWithPendingMessages
  | registration
  | sendClientMessage
  | sendMessage
  | lookupQueue
  | lookupClient
deriving DecidableEq, Repr

/-- An object of a request class. -/
inductive Request
  | createQueue (request : CreateQueueRequest)
  | deleteQueue (request : DeleteQueueRequest)
  | dequeueMessage (request : DequeueMessageRequest)
  | peekMessage (request : PeekMessageRequest)
  | queuesWithPendingMessages (request : QueuesWithPendingMessagesRequest)
  | registration (request : RegistrationRequest)
  | sendClientMessage (request : SendClientMessageRequest)
  | sendMessage (request : SendMessageRequest)
  | lookupQueue (request : LookupQueueRequest)
  | lookupClient (request : LookupClientRequest)
deriving DecidableEq, Repr

namespace RequestClass

def serialVersionUID : RequestClass → Int64
  | createQueue => 5493920307572674123
  | deleteQueue => -689440274911871604
  | dequeueMessage => -4034153593869631817
  | peekMessage => 5535263002144596601
  | queuesWithPendingMessages => -4299769935652705291
  | registration => 7742122658910533817
  | sendClientMessage => 5365826671308061202
  | sendMessage => -8471979592749732204
  | lookupQueue => -7648694499744635352
  | lookupClient => -7648694499744635353

/-- `Class.toString()`. -/
def name : RequestClass → String
  | createQueue => "class ch.ethz.mlmq.net.request.CreateQueueRequest"
  | deleteQueue => "class ch.ethz.mlmq.net.request.DeleteQueueRequest"
  | dequeueMessage => "class ch.ethz.mlmq.net.request.DequeueMessageRequest"
  | peekMessage => "class ch.ethz.mlmq.net.request.PeekMessageRequest"
  | queuesWithPendingMessages =>
    "class ch.ethz.mlmq.net.request.QueuesWithPendingMessagesRequest"
  | registration => "class ch.ethz.mlmq.net.request.RegistrationRequest"
  | sendClientMessage => "class ch.ethz.mlmq.net.request.SendClientMessageRequest"
  | sendMessage => "class ch.ethz.mlmq.net.request.SendMessageRequest"
  | lookupQueue => "class ch.ethz.mlmq.net.request.LookupQueueRequest"
  | lookupClient => "class ch.ethz.mlmq.net.request.LookupClientRequest"

/-- `newInstance()` and `deserialize` on it. -/
def deserialize : RequestClass → Io Request
  | createQueue => do
    let request ← CreateQueueRequest.deserialize
    return .createQueue request
  | deleteQueue => do
    let request ← DeleteQueueRequest.deserialize
    return .deleteQueue request
  | dequeueMessage => do
    let request ← DequeueMessageRequest.deserialize
    return .dequeueMessage request
  | peekMessage => do
    let request ← PeekMessageRequest.deserialize
    return .peekMessage request
  | queuesWithPendingMessages => do
    let request ← QueuesWithPendingMessagesRequest.deserialize
    return .queuesWithPendingMessages request
  | registration => do
    let request ← RegistrationRequest.deserialize
    return .registration request
  | sendClientMessage => do
    let request ← SendClientMessageRequest.deserialize
    return .sendClientMessage request
  | sendMessage => do
    let request ← SendMessageRequest.deserialize
    return .sendMessage request
  | lookupQueue => do
    let request ← LookupQueueRequest.deserialize
    return .lookupQueue request
  | lookupClient => do
    let request ← LookupClientRequest.deserialize
    return .lookupClient request

end RequestClass

namespace Request

def getClass : Request → RequestClass
  | createQueue _ => .createQueue
  | deleteQueue _ => .deleteQueue
  | dequeueMessage _ => .dequeueMessage
  | peekMessage _ => .peekMessage
  | queuesWithPendingMessages _ => .queuesWithPendingMessages
  | registration _ => .registration
  | sendClientMessage _ => .sendClientMessage
  | sendMessage _ => .sendMessage
  | lookupQueue _ => .lookupQueue
  | lookupClient _ => .lookupClient

def getTypeId (request : Request) : Int32 := request.getClass.serialVersionUID.toInt32

def serialize : Request → Io Unit
  | createQueue request => request.serialize
  | deleteQueue request => request.serialize
  | dequeueMessage request => request.serialize
  | peekMessage request => request.serialize
  | queuesWithPendingMessages request => request.serialize
  | registration request => request.serialize
  | sendClientMessage request => request.serialize
  | sendMessage request => request.serialize
  | lookupQueue request => request.serialize
  | lookupClient request => request.serialize

/-! ### The codec of all requests -/

/-- The codec of the fields. -/
def fields : Codec Request where
  enc
    | createQueue request => stringCodec.enc request.queueName
    | deleteQueue request => (optCodec QueueDto.codec).enc request.queue
    | dequeueMessage request => (optCodec MessageQueryInfoDto.codec).enc request.messageQueryInfo
    | peekMessage request => (optCodec MessageQueryInfoDto.codec).enc request.messageQueryInfo
    | queuesWithPendingMessages request => Codec.int.enc request.maxNumQueues
    | registration request => stringCodec.enc request.clientName
    | sendClientMessage request => SendClientMessageRequest.codec.enc request
    | sendMessage request => SendMessageRequest.codec.enc request
    | lookupQueue request => LookupQueueRequest.codec.enc request
    | lookupClient request => stringCodec.enc request.clientName
  wire
    | createQueue request => stringCodec.wire request.queueName
    | deleteQueue request => (optCodec QueueDto.codec).wire request.queue
    | dequeueMessage request => (optCodec MessageQueryInfoDto.codec).wire request.messageQueryInfo
    | peekMessage request => (optCodec MessageQueryInfoDto.codec).wire request.messageQueryInfo
    | queuesWithPendingMessages request => Codec.int.wire request.maxNumQueues
    | registration request => stringCodec.wire request.clientName
    | sendClientMessage request => SendClientMessageRequest.codec.wire request
    | sendMessage request => SendMessageRequest.codec.wire request
    | lookupQueue request => LookupQueueRequest.codec.wire request
    | lookupClient request => stringCodec.wire request.clientName
  prefixFree request := by cases request <;> exact Codec.prefixFree _ _
  enc_mem request h := by cases request <;> exact Codec.enc_mem _ _ h

theorem writes_serialize (request : Request) : Writes request.serialize (fields.enc request) := by
  cases request with
  | createQueue r => exact CreateQueueRequest.implements.writes r
  | deleteQueue r => exact DeleteQueueRequest.implements.writes r
  | dequeueMessage r => exact DequeueMessageRequest.implements.writes r
  | peekMessage r => exact PeekMessageRequest.implements.writes r
  | queuesWithPendingMessages r => exact QueuesWithPendingMessagesRequest.implements.writes r
  | registration r => exact RegistrationRequest.implements.writes r
  | sendClientMessage r => exact SendClientMessageRequest.implements.writes r
  | sendMessage r => exact SendMessageRequest.implements.writes r
  | lookupQueue r => exact LookupQueueRequest.implements.writes r
  | lookupClient r => exact LookupClientRequest.implements.writes r

/-- `deserialize` on a new instance of a class reads the fields of an object of that class. -/
theorem reads_deserialize (clazz : RequestClass) :
    Reads clazz.deserialize fun r => guarded (r.getClass = clazz) (fields.wire r) := by
  cases clazz with
  | createQueue =>
    refine CreateQueueRequest.implements.reads.object (fun _ => ⟨rfl, rfl⟩) fun r h => ?_
    cases r <;> cases h
    exact ⟨_, rfl⟩
  | deleteQueue =>
    refine DeleteQueueRequest.implements.reads.object (fun _ => ⟨rfl, rfl⟩) fun r h => ?_
    cases r <;> cases h
    exact ⟨_, rfl⟩
  | dequeueMessage =>
    refine DequeueMessageRequest.implements.reads.object (fun _ => ⟨rfl, rfl⟩) fun r h => ?_
    cases r <;> cases h
    exact ⟨_, rfl⟩
  | peekMessage =>
    refine PeekMessageRequest.implements.reads.object (fun _ => ⟨rfl, rfl⟩) fun r h => ?_
    cases r <;> cases h
    exact ⟨_, rfl⟩
  | queuesWithPendingMessages =>
    refine QueuesWithPendingMessagesRequest.implements.reads.object (fun _ => ⟨rfl, rfl⟩) fun r h => ?_
    cases r <;> cases h
    exact ⟨_, rfl⟩
  | registration =>
    refine RegistrationRequest.implements.reads.object (fun _ => ⟨rfl, rfl⟩) fun r h => ?_
    cases r <;> cases h
    exact ⟨_, rfl⟩
  | sendClientMessage =>
    refine SendClientMessageRequest.implements.reads.object (fun _ => ⟨rfl, rfl⟩) fun r h => ?_
    cases r <;> cases h
    exact ⟨_, rfl⟩
  | sendMessage =>
    refine SendMessageRequest.implements.reads.object (fun _ => ⟨rfl, rfl⟩) fun r h => ?_
    cases r <;> cases h
    exact ⟨_, rfl⟩
  | lookupQueue =>
    refine LookupQueueRequest.implements.reads.object (fun _ => ⟨rfl, rfl⟩) fun r h => ?_
    cases r <;> cases h
    exact ⟨_, rfl⟩
  | lookupClient =>
    refine LookupClientRequest.implements.reads.object (fun _ => ⟨rfl, rfl⟩) fun r h => ?_
    cases r <;> cases h
    exact ⟨_, rfl⟩

end Request

end Mlmq.Net.Requests
