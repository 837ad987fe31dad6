import Mlmq.Db.Table
import Mlmq.Net.RoundTrip

/-! # The sizes of the frames that carry a content

A `SendMessageRequest` for one queue has 29 bytes around the content, a `SendClientMessageRequest`
26, or 34 with a conversation context. The `MessageResponse` for the stored message has 52, or 56
with a context. So a content may fit into the request and not into the response: between the two
sizes lies a band of lengths that can be sent and never received (`sendable_receivable_iff`). -/

namespace Mlmq.Server.FrameSize

open Mlmq.Dto Mlmq.Net Mlmq.Lib.BigEndian Mlmq.Lib.Nio Mlmq.Lib.Codecs
open Mlmq.Net.Requests Mlmq.Net.Responses Mlmq.Net.Factory
open Mlmq.Db.Table
open Mlmq.Util.ByteBufferUtil (ObjectStream arrayCodec stringCodec optCodec booleanCodec trueByte
  arrayBytes length_arrayBytes)

variable {ε : Type}

/-- `Protocol.CLIENT_IO_BUFFER_CAPACITY`. -/
def clientIoBufferCapacity : ℕ := 4000

/-- The frame fits the broker's buffers, of `maxMessageSize` bytes, and the client's `ioBuffer`. -/
def Fits (maxMessageSize : ℕ) (payload : List UInt8) : Prop :=
  (frame payload).length ≤ maxMessageSize ∧ (frame payload).length ≤ clientIoBufferCapacity

/-- The number of content bytes; a null content has none. -/
def contentLength (content : Option (List UInt8)) : ℕ := (content.getD []).length

/-- The message is in the table because of this request. -/
def Sent (request : SendMessageRequest) (m : Message) : Prop :=
  ∃ clientId id sentAt, ∃ args ∈ insertMessages request clientId, args.row id sentAt = some m

/-- The message is in the table because of this request. -/
def SentToClient (request : SendClientMessageRequest) (m : Message) : Prop :=
  ∃ queueId clientId generated id sentAt,
    (insertClientMessage request queueId clientId generated).row id sentAt = some m

/-- The response that `peekMessage` or `dequeueMessage` builds for the message fits. -/
def Receivable (stream : ObjectStream ε) (maxMessageSize : ℕ) (m : Message) : Prop :=
  ∀ payload, responseBytes stream (.message ⟨some m.toDto⟩) = some payload →
    Fits maxMessageSize payload

/-! ### Sizes -/

theorem fits_iff {maxMessageSize : ℕ} {payload : List UInt8} :
    Fits maxMessageSize payload ↔ 4 + payload.length ≤ min maxMessageSize clientIoBufferCapacity := by
  unfold Fits
  rw [length_frame, le_min_iff]

theorem length_array (content : Option (List UInt8)) :
    (arrayCodec.enc content).length = 4 + contentLength content := by
  cases content with
  | none => exact length_intBytes _
  | some data => exact length_arrayBytes data

theorem length_sendMessage {request : SendMessageRequest} {queueId : Int64}
    (h : request.queueIds = [some queueId]) :
    (requestPayload.enc (.sendMessage request)).length = 25 + contentLength request.content := by
  have hp : requestPayload.enc (.sendMessage request) =
      intBytes (Request.sendMessage request).getTypeId ++ ((intBytes
        (Int32.ofNat request.queueIds.length) ++ request.queueIds.flatMap (optCodec Codec.long).enc) ++
        (arrayCodec.enc request.content ++ intBytes request.prio)) := rfl
  have hids : (request.queueIds.flatMap (optCodec Codec.long).enc).length = 9 := by
    rw [h]
    rfl
  simp only [hp, List.length_append, length_intBytes, length_array, hids]
  omega

theorem length_sendClientMessage (request : SendClientMessageRequest) :
    (requestPayload.enc (.sendClientMessage request)).length =
      (if request.conversationContext.isSome then 30 else 22) + contentLength request.content := by
  have hp : requestPayload.enc (.sendClientMessage request) =
      intBytes (Request.sendClientMessage request).getTypeId ++ (longBytes request.clientId ++
        (intBytes request.prio ++ (booleanCodec.enc request.conversation ++
        ((optCodec Codec.long).enc request.conversationContext ++
          arrayCodec.enc request.content)))) := rfl
  have hflag : (booleanCodec.enc request.conversation).length = 1 := by
    cases request.conversation <;> rfl
  have hctx : ((optCodec Codec.long).enc request.conversationContext).length =
      if request.conversationContext.isSome then 9 else 1 := by
    cases request.conversationContext <;> rfl
  simp only [hp, List.length_append, length_intBytes, length_longBytes, length_array, hflag, hctx]
  split_ifs <;> omega

/-- The payload of the `MessageResponse` for a stored message. -/
theorem messageResponse_bytes (stream : ObjectStream ε) (m : Message) :
    ∃ payload, responseBytes stream (.message ⟨some m.toDto⟩) = some payload ∧
      payload.length = (if m.context.isSome then 52 else 48) + contentLength m.content := by
  refine ⟨intBytes (Response.message (ε := ε) ⟨some m.toDto⟩).getTypeId ++ (trueByte ::
    (longBytes m.toDto.id ++ ((optCodec QueueDto.codec).enc m.toDto.queue ++
      (arrayCodec.enc m.content ++ (intBytes m.toDto.prio ++
        ((optCodec ClientDto.codec).enc m.toDto.sender ++ (optCodec Codec.int).enc m.context)))))),
    rfl, ?_⟩
  have hqueue : ((optCodec QueueDto.codec).enc m.toDto.queue).length = 13 := rfl
  have hsender : ((optCodec ClientDto.codec).enc m.toDto.sender).length = 13 := rfl
  have hctx : ((optCodec Codec.int).enc m.context).length = if m.context.isSome then 5 else 1 := by
    cases m.context <;> rfl
  simp only [List.length_append, List.length_cons, length_intBytes, length_longBytes, length_array,
    hqueue, hsender, hctx]
  split_ifs <;> omega

theorem receivable_iff (stream : ObjectStream ε) (maxMessageSize : ℕ) (m : Message) :
    Receivable stream maxMessageSize m ↔
      (if m.context.isSome then 56 else 52) + contentLength m.content ≤
        min maxMessageSize clientIoBufferCapacity := by
  obtain ⟨payload, hp, hlen⟩ := messageResponse_bytes stream m
  have hsize : (if m.context.isSome then 56 else 52) + contentLength m.content =
      4 + payload.length := by
    rw [hlen]
    split_ifs <;> omega
  rw [hsize, ← fits_iff]
  constructor
  · exact fun h => h payload hp
  · intro h payload' hp'
    rw [hp] at hp'
    obtain rfl := Option.some.inj hp'
    exact h

/-! ### What a request stores -/

theorem Sent.eq {request : SendMessageRequest} {m : Message} (h : Sent request m) :
    m.content = request.content ∧ m.context = none := by
  obtain ⟨clientId, id, sentAt, args, hargs, hrow⟩ := h
  obtain ⟨h1, h2⟩ := args.row_eq_some hrow
  have hgo : ∀ ids, args ∈ insertMessages.go request clientId ids →
      args.content = request.content ∧ args.context = none := by
    intro ids hmem
    induction ids with
    | nil => cases hmem
    | cons o ids ih =>
      cases o with
      | none => cases hmem
      | some queueId =>
        rcases List.mem_cons.mp hmem with rfl | hmem
        · exact ⟨rfl, rfl⟩
        · exact ih hmem
  obtain ⟨hcontent, hcontext⟩ := hgo _ hargs
  rw [hcontext] at h2
  exact ⟨h1.trans hcontent, Option.isSome_eq_false_iff.mp h2 |> Option.isNone_iff_eq_none.mp⟩

theorem exists_sent_iff {request : SendMessageRequest} {queueId : Int64}
    (h : request.queueIds = [some queueId]) :
    (∃ m, Sent request m) ↔ (toInteger queueId).isSome ∧ (toSmallint request.prio).isSome := by
  have hins : ∀ clientId, insertMessages request clientId =
      [⟨queueId, clientId, request.content, request.prio, none⟩] := by
    intro clientId
    rw [insertMessages, h]
    rfl
  constructor
  · rintro ⟨m, clientId, id, sentAt, args, hargs, hrow⟩
    obtain ⟨hq, -, hp, -⟩ := (args.row_isSome_iff id sentAt).mp ⟨m, hrow⟩
    rw [hins, List.mem_singleton] at hargs
    subst hargs
    exact ⟨hq, hp⟩
  · rintro ⟨hq, hp⟩
    obtain ⟨m, hm⟩ := (Insert.row_isSome_iff ⟨queueId, 0, request.content, request.prio, none⟩ 0 0).mpr
      ⟨hq, rfl, hp, rfl⟩
    exact ⟨m, 0, 0, 0, _, by rw [hins]; exact List.mem_singleton_self _, hm⟩

/-- A client message has a context iff the request has one or asks for one. -/
def hasContext (request : SendClientMessageRequest) : Bool :=
  request.conversation || request.conversationContext.isSome

theorem SentToClient.eq {request : SendClientMessageRequest} {m : Message}
    (h : SentToClient request m) :
    m.content = request.content ∧ m.context.isSome = hasContext request := by
  obtain ⟨queueId, clientId, generated, id, sentAt, hrow⟩ := h
  obtain ⟨h1, h2⟩ := Insert.row_eq_some hrow
  refine ⟨h1, h2.trans ?_⟩
  unfold insertClientMessage hasContext
  cases request.conversation <;> cases request.conversationContext <;> rfl

theorem exists_sentToClient_iff (request : SendClientMessageRequest) :
    (∃ m, SentToClient request m) ↔ (toSmallint request.prio).isSome ∧
      (toNullableInteger request.conversationContext).isSome := by
  constructor
  · rintro ⟨m, queueId, clientId, generated, id, sentAt, hrow⟩
    obtain ⟨-, -, hp, hc⟩ := (Insert.row_isSome_iff _ _ _).mp ⟨m, hrow⟩
    refine ⟨hp, ?_⟩
    unfold insertClientMessage at hc
    cases hctx : request.conversationContext with
    | none => rfl
    | some context => simpa [hctx] using hc
  · rintro ⟨hp, hc⟩
    have hctx : (toNullableInteger (insertClientMessage request 0 0 0).context).isSome := by
      unfold insertClientMessage
      cases hctx : request.conversationContext with
      | none => cases request.conversation <;> rfl
      | some context => simpa [hctx] using hc
    obtain ⟨m, hm⟩ := (Insert.row_isSome_iff (insertClientMessage request 0 0 0) 0 0).mpr
      ⟨rfl, rfl, hp, hctx⟩
    exact ⟨m, 0, 0, 0, 0, 0, hm⟩

/-! ### Sending and receiving -/

/-- If the request fits, the responses for its messages fit. -/
def SendReceivable (stream : ObjectStream ε) (maxMessageSize : ℕ) (request : SendMessageRequest) :
    Prop :=
  Fits maxMessageSize (requestPayload.enc (.sendMessage request)) →
    ∀ m, Sent request m → Receivable stream maxMessageSize m

/-- If the request fits, the responses for its messages fit. -/
def SendClientReceivable (stream : ObjectStream ε) (maxMessageSize : ℕ)
    (request : SendClientMessageRequest) : Prop :=
  Fits maxMessageSize (requestPayload.enc (.sendClientMessage request)) →
    ∀ m, SentToClient request m → Receivable stream maxMessageSize m

/-- A statement about all messages of one size. -/
theorem imp_forall_iff {M : Type} {S R : M → Prop} {A c : Prop} (hR : ∀ m, S m → (R m ↔ c)) :
    (A → ∀ m, S m → R m) ↔ ¬ A ∨ ¬ (∃ m, S m) ∨ c := by
  constructor
  · intro h
    by_cases hA : A
    · by_cases hS : ∃ m, S m
      · obtain ⟨m, hm⟩ := hS
        exact Or.inr (Or.inr ((hR m hm).mp (h hA m hm)))
      · exact Or.inr (Or.inl hS)
    · exact Or.inl hA
  · rintro (h | h | h) hA m hm
    · exact absurd hA h
    · exact absurd ⟨m, hm⟩ h
    · exact (hR m hm).mpr h

theorem sendReceivable_iff (stream : ObjectStream ε) (maxMessageSize : ℕ) (queueId : Int64)
    (content : Option (List UInt8)) (prio : Int32) :
    SendReceivable stream maxMessageSize ⟨[some queueId], content, prio⟩ ↔
      min maxMessageSize clientIoBufferCapacity < 29 + contentLength content ∨
        ¬ ((toInteger queueId).isSome ∧ (toSmallint prio).isSome) ∨
        52 + contentLength content ≤ min maxMessageSize clientIoBufferCapacity := by
  have hids : (⟨[some queueId], content, prio⟩ : SendMessageRequest).queueIds = [some queueId] := rfl
  have hfits : Fits maxMessageSize
      (requestPayload.enc (.sendMessage ⟨[some queueId], content, prio⟩)) ↔
        29 + contentLength content ≤ min maxMessageSize clientIoBufferCapacity := by
    rw [fits_iff, length_sendMessage hids, ← Nat.add_assoc]
  rw [SendReceivable, ← exists_sent_iff hids, ← not_le, hfits]
  refine imp_forall_iff fun m hm => ?_
  obtain ⟨hcontent, hcontext⟩ := hm.eq
  rw [receivable_iff, hcontent, hcontext]
  rfl

theorem sendClientReceivable_iff (stream : ObjectStream ε) (maxMessageSize : ℕ)
    (request : SendClientMessageRequest) :
    SendClientReceivable stream maxMessageSize request ↔
      min maxMessageSize clientIoBufferCapacity <
          (if request.conversationContext.isSome then 34 else 26) +
            contentLength request.content ∨
        ¬ ((toSmallint request.prio).isSome ∧
          (toNullableInteger request.conversationContext).isSome) ∨
        (if hasContext request then 56 else 52) + contentLength request.content ≤
          min maxMessageSize clientIoBufferCapacity := by
  have hfits : Fits maxMessageSize (requestPayload.enc (.sendClientMessage request)) ↔
      (if request.conversationContext.isSome then 34 else 26) + contentLength request.content ≤
        min maxMessageSize clientIoBufferCapacity := by
    rw [fits_iff, length_sendClientMessage, ← Nat.add_assoc]
    split_ifs <;> rfl
  rw [SendClientReceivable, ← exists_sentToClient_iff, ← not_le, hfits]
  refine imp_forall_iff fun m hm => ?_
  obtain ⟨hcontent, hcontext⟩ := hm.eq
  rw [receivable_iff, hcontent, hcontext]

/-- **What is sent can be received iff** the request is too large, or a value does not fit its
column, or the content leaves room for the response. -/
theorem sendable_receivable_iff (stream : ObjectStream ε) (maxMessageSize : ℕ) :
    (∀ (queueId : Int64) (content : Option (List UInt8)) (prio : Int32),
      SendReceivable stream maxMessageSize ⟨[some queueId], content, prio⟩ ↔
        min maxMessageSize clientIoBufferCapacity < 29 + contentLength content ∨
          ¬ ((toInteger queueId).isSome ∧ (toSmallint prio).isSome) ∨
          52 + contentLength content ≤ min maxMessageSize clientIoBufferCapacity) ∧
    ∀ request : SendClientMessageRequest,
      SendClientReceivable stream maxMessageSize request ↔
        min maxMessageSize clientIoBufferCapacity <
            (if request.conversationContext.isSome then 34 else 26) +
              contentLength request.content ∨
          ¬ ((toSmallint request.prio).isSome ∧
            (toNullableInteger request.conversationContext).isSome) ∨
          (if hasContext request then 56 else 52) + contentLength request.content ≤
            min maxMessageSize clientIoBufferCapacity :=
  ⟨sendReceivable_iff stream maxMessageSize, sendClientReceivable_iff stream maxMessageSize⟩

/-- A content of 2000 bytes can be sent to a broker with buffers of 2048 bytes, and not received. -/
theorem not_sendable_receivable : ¬ ∀ maxMessageSize : ℕ,
    (∀ (queueId : Int64) (content : Option (List UInt8)) (prio : Int32),
      SendReceivable RoundTrip.nullStream maxMessageSize ⟨[some queueId], content, prio⟩) ∧
    ∀ request : SendClientMessageRequest,
      SendClientReceivable RoundTrip.nullStream maxMessageSize request := by
  intro h
  have hsend := (h 2048).1 1 (some (List.replicate 2000 0)) 0
  rw [sendReceivable_iff] at hsend
  have hc : contentLength (some (List.replicate 2000 0)) = 2000 := List.length_replicate
  have hmin : min 2048 clientIoBufferCapacity = 2048 := rfl
  rw [hc, hmin] at hsend
  rcases hsend with hlarge | hcolumn | hroom
  · omega
  · exact hcolumn ⟨rfl, rfl⟩
  · omega

end Mlmq.Server.FrameSize
