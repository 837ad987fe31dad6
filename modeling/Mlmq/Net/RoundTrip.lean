import Mlmq.Net.Factory

/-! # The round trip of the wire format

`Framed get a b b'` says what a frame for `a`, written between the positions of `b` and `b'`, is:
nothing else has changed, the length field holds the number of bytes behind it, and `get` started
behind the length field returns `a` and stops where the frame ends. Both writers of the factory
leave such a frame whenever they return (`serialize_deserialize`), and they return iff the frame has
room. -/

namespace Mlmq.Net.RoundTrip

open Mlmq.Lib Mlmq.Lib.BigEndian Mlmq.Lib.Format Mlmq.Lib.Nio Mlmq.Lib.Cursor Mlmq.Lib.Codecs
open Mlmq.Net.Requests Mlmq.Net.Responses Mlmq.Net.Factory
open Mlmq.Util.ByteBufferUtil (Obj ObjectStream)

variable {α ε : Type}

/-- **A frame for `a`** from the position of `b` to the position of `b'`. -/
structure Framed (get : Io α) (a : α) (b b' : ByteBuffer) : Prop where
  position_le : b.position + 4 ≤ b'.position
  limit_eq : b'.limit = b.limit
  outside : ∀ i, i < b.position ∨ b'.position ≤ i → b'.bytes[i]? = b.bytes[i]?
  length_field : (intOf ((b'.bytes.drop b.position).take 4)).toInt =
    (b'.position : ℤ) - b.position - 4
  read : ∀ c : ByteBuffer, c.bytes = b'.bytes → c.position = b.position + 4 →
    b'.position ≤ c.limit → ∃ c', get c = .ok a c' ∧ c'.position = b'.position ∧
      c'.bytes = c.bytes ∧ c'.limit = c.limit

/-- The payload stands behind the length field. -/
theorem payload_prefix_rest {payload : List UInt8} {b c : ByteBuffer}
    (hroom : (frame payload).length ≤ b.remaining) (hbytes : c.bytes = (b.write (frame payload)).bytes)
    (hpos : c.position = b.position + 4) (hlim : b.position + (frame payload).length ≤ c.limit) :
    payload <+: c.rest := by
  have hframe := ByteBuffer.take_drop_write hroom
  have hpay : (c.bytes.drop c.position).take payload.length = payload := by
    have h := congrArg (List.drop 4) hframe
    have h4 : (frame payload).drop 4 = payload := List.drop_left' (length_intBytes _)
    rw [List.drop_take, List.drop_drop, length_frame, h4, Nat.add_sub_cancel_left] at h
    rw [hbytes, hpos]
    exact h
  rw [length_frame] at hlim
  rw [ByteBuffer.rest, List.drop_take, ← hpay]
  exact List.take_prefix_take_left (by omega)

/-- **A written word of a format is a frame** for the reader of the format. -/
theorem framed_write {get : Io α} {W : α → Language UInt8} (hget : Reads get W) {a : α}
    {payload : List UInt8} (ha : payload ∈ W a) {b : ByteBuffer}
    (hroom : (frame payload).length ≤ b.remaining) :
    Framed get a b (b.write (frame payload)) where
  position_le := by
    rw [ByteBuffer.position_write hroom, length_frame]
    omega
  limit_eq := rfl
  outside i hi := by
    rw [ByteBuffer.position_write hroom] at hi
    rcases hi with hi | hi
    · exact ByteBuffer.getElem?_write_of_lt hroom hi
    · exact ByteBuffer.getElem?_write_of_le hroom hi
  length_field := by
    have hlt := b.capacity_lt
    have hlim := b.limit_le
    have hlen := hroom
    rw [length_frame, ByteBuffer.remaining] at hlen
    have h4 : ((b.write (frame payload)).bytes.drop b.position).take 4 =
        intBytes (Int32.ofNat payload.length) := by
      have h := congrArg (List.take 4) (ByteBuffer.take_drop_write hroom)
      rw [List.take_take, length_frame, min_eq_left (by omega)] at h
      rw [h, frame, List.take_left' (length_intBytes _)]
    rw [h4, intOf_intBytes, toInt_ofNat (by omega), ByteBuffer.position_write hroom, length_frame]
    omega
  read c hbytes hpos hlim := by
    rw [ByteBuffer.position_write hroom] at hlim ⊢
    have hpre := payload_prefix_rest hroom hbytes hpos hlim
    refine ⟨c.skip payload.length, (hget.ok_iff _ _ _).mpr ⟨payload, ha, hpre, rfl⟩, ?_, rfl, rfl⟩
    rw [ByteBuffer.position_skip (prefix_length_le hpre), hpos, length_frame]
    omega

theorem lt_of_fits {payload : List UInt8} {b : ByteBuffer}
    (hroom : (frame payload).length ≤ b.remaining) : payload.length < 2 ^ 31 := by
  have h1 := b.capacity_lt
  have h2 := b.limit_le
  rw [length_frame, ByteBuffer.remaining] at hroom
  omega

/-- A request is written iff its frame fits. -/
theorem serializeRequestWithHeader_isOk_iff (request : Request) (b : ByteBuffer) :
    (∃ b', serializeRequestWithHeader request b = .ok () b') ↔
      (frame (requestPayload.enc request)).length ≤ b.remaining := by
  constructor
  · rintro ⟨b', h⟩
    by_contra hroom
    obtain ⟨e, b₁, he⟩ := serializeRequestWithHeader_of_lt (not_le.mp hroom)
    rw [he] at h
    cases h
  · exact fun hroom => ⟨_, serializeRequestWithHeader_ok hroom⟩

/-- A response is written iff it can be serialised and its frame fits. -/
theorem serializeResponseWithHeader_isOk_iff (stream : ObjectStream ε) (response : Response ε)
    (b : ByteBuffer) :
    (∃ b', serializeResponseWithHeader stream response b = .ok () b') ↔
      ∃ payload, responseBytes stream response = some payload ∧
        (frame payload).length ≤ b.remaining := by
  constructor
  · rintro ⟨b', h⟩
    cases hp : responseBytes stream response with
    | none =>
      obtain ⟨e, b₁, he⟩ := serializeResponseWithHeader_of_none hp b
      rw [he] at h
      cases h
    | some payload =>
      refine ⟨payload, rfl, ?_⟩
      by_contra hroom
      obtain ⟨e, b₁, he⟩ := serializeResponseWithHeader_of_lt hp (not_le.mp hroom)
      rw [he] at h
      cases h
  · rintro ⟨payload, hp, hroom⟩
    exact ⟨_, serializeResponseWithHeader_ok hp hroom⟩

theorem framed_request {request : Request} {b b' : ByteBuffer}
    (h : serializeRequestWithHeader request b = .ok () b') :
    Framed deserializeRequest request b b' := by
  have hroom := (serializeRequestWithHeader_isOk_iff request b).mp ⟨b', h⟩
  rw [serializeRequestWithHeader_ok hroom] at h
  obtain rfl := (EStateM.Result.ok.inj h).2
  exact framed_write reads_deserializeRequest (requestPayload.enc_mem request (lt_of_fits hroom))
    hroom

theorem framed_response {stream : ObjectStream ε} (hstream : stream.RoundTrips)
    {response : Response ε} {b b' : ByteBuffer}
    (h : serializeResponseWithHeader stream response b = .ok () b') :
    Framed (deserializeResponse stream) response b b' := by
  obtain ⟨payload, hp, hroom⟩ := (serializeResponseWithHeader_isOk_iff stream response b).mp ⟨b', h⟩
  rw [serializeResponseWithHeader_ok hp hroom] at h
  obtain rfl := (EStateM.Result.ok.inj h).2
  exact framed_write (reads_deserializeResponse stream)
    (responseBytes_mem hstream hp (lt_of_fits hroom)) hroom

/-- **The wire codec round trip.** Every request whose frame fits is written, every response that
can be serialised and whose frame fits is written, and what is written is a frame for the same
object. -/
theorem serialize_deserialize {stream : ObjectStream ε} (hstream : stream.RoundTrips)
    (b : ByteBuffer) :
    (∀ request, (frame (requestPayload.enc request)).length ≤ b.remaining →
      ∃ b', serializeRequestWithHeader request b = .ok () b') ∧
    (∀ request b', serializeRequestWithHeader request b = .ok () b' →
      Framed deserializeRequest request b b') ∧
    (∀ response payload, responseBytes stream response = some payload →
      (frame payload).length ≤ b.remaining →
        ∃ b', serializeResponseWithHeader stream response b = .ok () b') ∧
    ∀ response b', serializeResponseWithHeader stream response b = .ok () b' →
      Framed (deserializeResponse stream) response b b' := by
  refine ⟨fun request hroom => ?_, fun request b' h => framed_request h,
    fun response payload hp hroom => ?_, fun response b' h => framed_response hstream h⟩
  · exact (serializeRequestWithHeader_isOk_iff request b).mpr hroom
  · exact (serializeResponseWithHeader_isOk_iff stream response b).mpr ⟨payload, hp, hroom⟩

/-- Java object serialisation where no exception object exists: `null` is five bytes. -/
def nullStream : ObjectStream Empty where
  writeObject
    | .null => .ok [0xAC, 0xED, 0x00, 0x05, 0x70]
    | _ => .error .notSerializable
  readObject data :=
    if data = [0xAC, 0xED, 0x00, 0x05, 0x70] then .ok .null else .error .streamCorrupted
  toString _ := "null"

theorem nullStream_roundTrips : nullStream.RoundTrips := by
  rintro (_ | ⟨⟨⟩⟩ | _) data h
  · cases h
    rfl
  · cases h

/-- A message of two bytes for two queues, one of them without an id. -/
def sendTwo : Request := .sendMessage ⟨[some 7, none], some [1, 2], 5⟩

/-- The message that comes back, with its queue and a sender without a name. -/
def oneMessage : Response Empty :=
  .message ⟨some ⟨3, some ⟨7, some "q"⟩, some [1, 2], 5, some ⟨1, none⟩, some 4⟩⟩

/-- Both are written behind what the buffer already holds, and read again. -/
theorem serialize_deserialize_oneMessage :
    let b := (ByteBuffer.allocate 128 (by decide)).skip 20
    (∃ b', serializeRequestWithHeader sendTwo b = .ok () b' ∧
      Framed deserializeRequest sendTwo b b') ∧
    ∃ b', serializeResponseWithHeader nullStream oneMessage b = .ok () b' ∧
      Framed (deserializeResponse nullStream) oneMessage b b' := by
  intro b
  obtain ⟨hsend, hrequest, hrespond, hresponse⟩ := serialize_deserialize nullStream_roundTrips b
  obtain ⟨b', h⟩ := hsend sendTwo (by decide)
  obtain ⟨b'', h'⟩ := hrespond oneMessage _ rfl (by decide)
  exact ⟨⟨b', h, hrequest _ _ h⟩, b'', h', hresponse _ _ h'⟩

end Mlmq.Net.RoundTrip
