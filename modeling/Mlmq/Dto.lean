import Mlmq.Util.ByteBufferUtil

/-! # The data transfer objects

`ClientDto`, `QueueDto`, `MessageDto` and `MessageQueryInfoDto` with their `serialize` and
`deserialize`. Each implements the codec that puts its fields in a row, in the order of the source.
-/

namespace Mlmq.Dto

open Mlmq.Lib Mlmq.Lib.Format Mlmq.Lib.Nio Mlmq.Lib.Cursor Mlmq.Lib.Codecs Mlmq.Util
open Mlmq.Util.ByteBufferUtil (stringCodec arrayCodec optCodec booleanCodec implements_string
  implements_array implements_opt implements_boolean implements_putInteger)

/-! ### `ClientDto` -/

structure ClientDto where
  id : Int64
  name : Option String
deriving DecidableEq, Repr

namespace ClientDto

def serialize (client : ClientDto) : Io Unit := do
  Nio.putLong client.id
  ByteBufferUtil.putString client.name

def deserialize : Io ClientDto := do
  let id ← Nio.getLong
  let name ← ByteBufferUtil.getString
  return { id, name }

/-- The codec of `ClientDto`. -/
def codec : Codec ClientDto := (Codec.long.comap id).append (stringCodec.comap name)

theorem implements : Implements serialize deserialize codec where
  writes client := (implements_long.writes client.id).seq (implements_string.writes client.name)
  reads := by
    refine (Reads.field (P := fun _ => True) id reads_getLong fun i =>
      Reads.last name implements_string.reads (f := fun n => ⟨i, n⟩) ?_).congr fun _ => guarded_true
    rintro ⟨i', n'⟩ n
    simp

end ClientDto

/-! ### `QueueDto` -/

structure QueueDto where
  id : Int64
  name : Option String
deriving DecidableEq, Repr

namespace QueueDto

def serialize (queue : QueueDto) : Io Unit := do
  Nio.putLong queue.id
  ByteBufferUtil.putString queue.name

def deserialize : Io QueueDto := do
  let id ← Nio.getLong
  let name ← ByteBufferUtil.getString
  return { id, name }

/-- The codec of `QueueDto`. -/
def codec : Codec QueueDto := (Codec.long.comap id).append (stringCodec.comap name)

theorem implements : Implements serialize deserialize codec where
  writes queue := (implements_long.writes queue.id).seq (implements_string.writes queue.name)
  reads := by
    refine (Reads.field (P := fun _ => True) id reads_getLong fun i =>
      Reads.last name implements_string.reads (f := fun n => ⟨i, n⟩) ?_).congr fun _ => guarded_true
    rintro ⟨i', n'⟩ n
    simp

end QueueDto

/-! ### `MessageDto` -/

structure MessageDto where
  id : Int64
  queue : Option QueueDto
  content : Option (List UInt8)
  prio : Int32
  sender : Option ClientDto
  conversationContext : Option Int32
deriving DecidableEq, Repr

namespace MessageDto

def serialize (message : MessageDto) : Io Unit := do
  Nio.putLong message.id
  ByteBufferUtil.serialize QueueDto.serialize message.queue
  ByteBufferUtil.putByteArray message.content
  putInt message.prio
  ByteBufferUtil.serialize ClientDto.serialize message.sender
  ByteBufferUtil.putInteger message.conversationContext

def deserialize : Io MessageDto := do
  let id ← Nio.getLong
  let queue ← ByteBufferUtil.deserialize QueueDto.deserialize
  let content ← ByteBufferUtil.getByteArray
  let prio ← getInt
  let sender ← ByteBufferUtil.deserialize ClientDto.deserialize
  let conversationContext ← ByteBufferUtil.getInteger
  return { id, queue, content, prio, sender, conversationContext }

/-- The codec of `MessageDto`. -/
def codec : Codec MessageDto :=
  (Codec.long.comap id).append <| ((optCodec QueueDto.codec).comap queue).append <|
    (arrayCodec.comap content).append <| (Codec.int.comap prio).append <|
    ((optCodec ClientDto.codec).comap sender).append <|
    (optCodec Codec.int).comap conversationContext

theorem implements : Implements serialize deserialize codec where
  writes message :=
    (implements_long.writes message.id).seq <|
      ((implements_opt QueueDto.implements).writes message.queue).seq <|
      (implements_array.writes message.content).seq <| (implements_int.writes message.prio).seq <|
      ((implements_opt ClientDto.implements).writes message.sender).seq <|
      implements_putInteger.writes message.conversationContext
  reads := by
    refine (Reads.field (P := fun _ => True) id reads_getLong fun i =>
      Reads.field queue (implements_opt QueueDto.implements).reads fun q =>
      Reads.field content implements_array.reads fun c =>
      Reads.field prio reads_getInt fun p =>
      Reads.field sender (implements_opt ClientDto.implements).reads fun s =>
      Reads.last conversationContext implements_putInteger.reads
        (f := fun x => ⟨i, q, c, p, s, x⟩) ?_).congr fun _ => guarded_true
    rintro ⟨i', q', c', p', s', x'⟩ x
    simp [and_assoc]

end MessageDto

/-! ### `MessageQueryInfoDto` -/

structure MessageQueryInfoDto where
  queue : Option QueueDto
  sender : Option ClientDto
  shouldOrderByPriority : Bool
  conversationContext : Option Int32
deriving DecidableEq, Repr

namespace MessageQueryInfoDto

def serialize (query : MessageQueryInfoDto) : Io Unit := do
  ByteBufferUtil.serialize QueueDto.serialize query.queue
  ByteBufferUtil.serialize ClientDto.serialize query.sender
  ByteBufferUtil.putBoolean query.shouldOrderByPriority
  ByteBufferUtil.putInteger query.conversationContext

def deserialize : Io MessageQueryInfoDto := do
  let queue ← ByteBufferUtil.deserialize QueueDto.deserialize
  let sender ← ByteBufferUtil.deserialize ClientDto.deserialize
  let shouldOrderByPriority ← ByteBufferUtil.getBoolean
  let conversationContext ← ByteBufferUtil.getInteger
  return { queue, sender, shouldOrderByPriority, conversationContext }

/-- The codec of `MessageQueryInfoDto`. -/
def codec : Codec MessageQueryInfoDto :=
  ((optCodec QueueDto.codec).comap queue).append <|
    ((optCodec ClientDto.codec).comap sender).append <|
    (booleanCodec.comap shouldOrderByPriority).append <|
    (optCodec Codec.int).comap conversationContext

theorem implements : Implements serialize deserialize codec where
  writes query :=
    ((implements_opt QueueDto.implements).writes query.queue).seq <|
      ((implements_opt ClientDto.implements).writes query.sender).seq <|
      (implements_boolean.writes query.shouldOrderByPriority).seq <|
      implements_putInteger.writes query.conversationContext
  reads := by
    refine (Reads.field (P := fun _ => True) queue (implements_opt QueueDto.implements).reads fun q =>
      Reads.field sender (implements_opt ClientDto.implements).reads fun s =>
      Reads.field shouldOrderByPriority implements_boolean.reads fun o =>
      Reads.last conversationContext implements_putInteger.reads
        (f := fun x => ⟨q, s, o, x⟩) ?_).congr fun _ => guarded_true
    rintro ⟨q', s', o', x'⟩ x
    simp [and_assoc]

end MessageQueryInfoDto

end Mlmq.Dto
