import Mlmq.Client.ClientConnection

/-! # Responses in pieces

However the socket cuts the frame of a response, the loop of `submitRequest` waits for the last
piece, does not read behind it, and returns the response with an empty buffer
(`submitRequest_reassembles`). -/

namespace Mlmq.Client.ResponseReassembly

open Mlmq.Lib.BigEndian Mlmq.Lib.Nio Mlmq.Lib.Cursor Mlmq.Net.Requests Mlmq.Net.Responses
open Mlmq.Net.Factory Mlmq.Net.RoundTrip Mlmq.Server.Connection
open Mlmq.Server.FrameSize (clientIoBufferCapacity)
open Mlmq.Server.Reassembly (Holds)
open Mlmq.Util.ByteBufferUtil (ObjectStream)
open Mlmq.Client.ClientConnection

variable {ε : Type} {stream : ObjectStream ε} {b : ByteBuffer} {payload w : List UInt8}

/-! ### The length field of a frame -/

theorem intOf_take_frame (hw : w <+: frame payload) (h4 : 4 ≤ w.length) :
    intOf (w.take 4) = Int32.ofNat payload.length := by
  have htake : w.take 4 = (frame payload).take 4 := by
    obtain ⟨v, hv⟩ := hw
    rw [← hv, List.take_append_of_le_length h4]
  rw [htake, frame, List.take_left' (length_intBytes _), intOf_intBytes]

/-- The end of the frame, as the program computes it. -/
theorem toInt_end (hfit : (frame payload).length ≤ clientIoBufferCapacity) :
    (Int32.ofNat lenghFieldLenght + Int32.ofNat payload.length).toInt =
      (frame payload).length := by
  have hcapacity : clientIoBufferCapacity = 4000 := rfl
  have hlength : lenghFieldLenght = 4 := rfl
  rw [length_frame] at hfit ⊢
  have hsum : Int32.ofNat lenghFieldLenght + Int32.ofNat payload.length =
      Int32.ofNat (4 + payload.length) := by
    rw [hlength]
    exact (Int32.ofNat_add ..).symm
  rw [hsum, toInt_ofNat (by omega)]

/-- **The response has arrived with the last byte of its frame**, not before. -/
theorem arrived_iff_whole (hfit : (frame payload).length ≤ clientIoBufferCapacity)
    (hw : w <+: frame payload) : Arrived w ↔ w = frame payload := by
  have hend := toInt_end hfit
  have hle := hw.length_le
  constructor
  · rintro ⟨h4, -, hlength⟩
    rw [intOf_take_frame hw h4, hend] at hlength
    exact hw.eq_of_length (by omega)
  · rintro rfl
    have h4 : 4 ≤ (frame payload).length := by
      rw [length_frame]
      omega
    have hfield := intOf_take_frame hw h4
    have hcapacity : clientIoBufferCapacity = 4000 := rfl
    have hlt : payload.length < 2 ^ 31 := by
      rw [length_frame] at hfit
      omega
    refine ⟨h4, fun hminus => ?_, ?_⟩
    · have hnat := toInt_ofNat hlt
      rw [← hfield, hminus] at hnat
      have hneg : (-1 : Int32).toInt = -1 := rfl
      omega
    · rw [hfield, hend]

/-! ### The loop -/

/-- A piece that fits is read as a whole. -/
theorem take_piece {chunk rest : List UInt8} {n : ℕ} (h : (w ++ (chunk ++ rest)).length ≤ n) :
    chunk.take (n - w.length) = chunk := by
  rw [List.length_append, List.length_append] at h
  exact List.take_of_length_le (by omega)

/-- **The loop waits as long as a piece is missing.** -/
theorem awaitResponse_waits (hfit : (frame payload).length ≤ clientIoBufferCapacity)
    {chunks : List (List UInt8)} (hb : Holds b w)
    (hcapacity : b.bytes.length = clientIoBufferCapacity) (hw : w ++ chunks.flatten <+: frame payload)
    (hmissing : w ++ chunks.flatten ≠ frame payload) :
    ∃ b', awaitResponse stream (lengthField w) (chunks.map some) b = .ok none b' := by
  induction chunks generalizing b w with
  | nil => exact ⟨b, rfl⟩
  | cons chunk chunks ih =>
    rw [List.flatten_cons] at hw hmissing
    have hstart : w ++ chunk <+: frame payload :=
      List.IsPrefix.trans ⟨chunks.flatten, by rw [List.append_assoc]⟩ hw
    have hnot : ¬ Arrived (w ++ chunk) := by
      rw [arrived_iff_whole hfit hstart]
      intro hall
      have hnil : chunks.flatten = [] := by
        rw [← List.append_assoc, hall] at hw
        exact List.append_right_eq_self.mp
          (hw.eq_of_length_le (by rw [List.length_append]; omega))
      rw [hnil, List.append_nil, hall] at hmissing
      exact hmissing rfl
    have hbefore : ¬ Arrived w := by
      rw [arrived_iff_whole hfit (List.IsPrefix.trans (List.prefix_append ..) hstart)]
      rintro rfl
      exact hmissing ((List.prefix_append ..).eq_of_length_le hw.length_le).symm
    obtain ⟨b', hholds, hcapacity', heq⟩ :=
      awaitResponse_cons stream chunk (chunks.map some) hb hcapacity hbefore
    rw [take_piece (hw.length_le.trans hfit), if_neg hnot] at heq
    rw [take_piece (hw.length_le.trans hfit)] at hholds
    rw [List.map_cons, heq]
    refine ih hholds hcapacity' ?_ ?_
    · rwa [List.append_assoc]
    · rwa [List.append_assoc]

/-- **The loop decodes behind the last piece**, whatever comes then. -/
theorem awaitResponse_decodes (hfit : (frame payload).length ≤ clientIoBufferCapacity)
    {chunks : List (List UInt8)} (hne : ∀ chunk ∈ chunks, chunk ≠ [])
    (more : List (Option (List UInt8))) (hb : Holds b w)
    (hcapacity : b.bytes.length = clientIoBufferCapacity) (hchunks : chunks ≠ [])
    (hw : w ++ chunks.flatten = frame payload) :
    ∃ b', Holds b' (frame payload) ∧ b'.bytes.length = clientIoBufferCapacity ∧
      awaitResponse stream (lengthField w) (chunks.map some ++ more) b = decode stream b' := by
  induction chunks generalizing b w with
  | nil => exact absurd rfl hchunks
  | cons chunk chunks ih =>
    rw [List.flatten_cons] at hw
    have hfull : (w ++ (chunk ++ chunks.flatten)).length ≤ clientIoBufferCapacity := by
      rw [hw]
      exact hfit
    have hstart : w ++ chunk <+: frame payload := ⟨chunks.flatten, by rw [List.append_assoc, hw]⟩
    have hbefore : ¬ Arrived w := by
      rw [arrived_iff_whole hfit (List.IsPrefix.trans (List.prefix_append ..) hstart)]
      rintro rfl
      have hnil := List.append_right_eq_self.mp hw
      exact hne chunk List.mem_cons_self (List.append_eq_nil_iff.mp hnil).1
    obtain ⟨b', hholds, hcapacity', heq⟩ :=
      awaitResponse_cons stream chunk (chunks.map some ++ more) hb hcapacity hbefore
    rw [take_piece hfull] at heq hholds
    rw [List.map_cons, List.cons_append, heq]
    cases chunks with
    | nil =>
      rw [List.flatten_nil, List.append_nil] at hw
      rw [if_pos ((arrived_iff_whole hfit hstart).mpr hw), ← hw]
      exact ⟨b', hholds, hcapacity', rfl⟩
    | cons chunk' chunks =>
      have hnot : ¬ Arrived (w ++ chunk) := by
        rw [arrived_iff_whole hfit hstart]
        intro hall
        rw [← List.append_assoc, hall] at hw
        have hnil := List.append_right_eq_self.mp hw
        rw [List.flatten_cons] at hnil
        exact hne chunk' (List.mem_cons_of_mem _ List.mem_cons_self)
          (List.append_eq_nil_iff.mp hnil).1
      rw [if_neg hnot]
      exact ih (fun chunk hmem => hne chunk (List.mem_cons_of_mem _ hmem)) hholds hcapacity'
        (List.cons_ne_nil _ _) (by rw [List.append_assoc]; exact hw)

/-- A frame is decoded, and the buffer is empty. -/
theorem decode_frame {response : Response ε} (hb : Holds b (frame payload))
    (hmem : payload ∈ responseWire stream response) :
    ∃ b', decode stream b = .ok (some response) b' ∧ Cleared b' ∧
      b'.bytes.length = b.bytes.length := by
  have h4 : 4 ≤ (frame payload).length := by
    rw [length_frame]
    omega
  have hdrop : (frame payload).drop 4 = payload := List.drop_left' (length_intBytes _)
  obtain ⟨v, hint, hrest, -⟩ := getInt_flip hb h4
  have hread : deserializeResponse stream (b.flip.skip 4) =
      .ok response ((b.flip.skip 4).skip payload.length) :=
    ((reads_deserializeResponse stream).ok_iff _ _ _).mpr
      ⟨payload, hmem, by rw [hrest, hdrop], rfl⟩
  have hflip : ClientConnection.flip b = .ok () b.flip := rfl
  have hdecode : decode stream b =
      .ok (some response) ((b.flip.skip 4).skip payload.length).compact := by
    unfold decode
    rw [bind_of_ok hflip, bind_of_ok hint, bind_of_ok hread]
    rfl
  obtain ⟨hiff, hsize⟩ := cleared_decode_iff stream hb h4
  have hcleared := hiff.mpr ⟨response, by rwa [hdrop]⟩
  have hlength := hsize hcleared
  rw [hdecode] at hcleared hlength
  exact ⟨_, hdecode, hcleared, hlength⟩

/-! ### The result -/

/-- The bytes between the positions of two buffers. -/
def writtenBetween (c c' : ByteBuffer) : List UInt8 :=
  (c'.bytes.drop c.position).take (c'.position - c.position)

/-- What is written is the frame of the response. -/
theorem writtenBetween_eq {response : Response ε} {c c' : ByteBuffer}
    (h : serializeResponseWithHeader stream response c = .ok () c') :
    ∃ payload, responseBytes stream response = some payload ∧ payload.length < 2 ^ 31 ∧
      writtenBetween c c' = frame payload := by
  obtain ⟨payload, hp, hroom⟩ := (serializeResponseWithHeader_isOk_iff stream response c).mp ⟨c', h⟩
  rw [serializeResponseWithHeader_ok hp hroom] at h
  obtain rfl := (EStateM.Result.ok.inj h).2
  refine ⟨payload, hp, lt_of_fits hroom, ?_⟩
  unfold writtenBetween
  rw [ByteBuffer.position_write hroom, Nat.add_sub_cancel_left]
  exact ByteBuffer.take_drop_write hroom

/-- **The client reassembles a response from any pieces**: the loop waits as long as a piece is
missing, ends with the last one, and leaves an empty buffer; `submitRequest` returns the
response. -/
theorem submitRequest_reassembles (hstream : stream.RoundTrips) {response : Response ε}
    {c c' : ByteBuffer} (hwritten : serializeResponseWithHeader stream response c = .ok () c')
    (hfit : (writtenBetween c c').length ≤ clientIoBufferCapacity) {chunks : List (List UInt8)}
    (hchunks : chunks.flatten = writtenBetween c c') (hne : ∀ chunk ∈ chunks, chunk ≠ [])
    (hb : Cleared b) (hcapacity : b.bytes.length = clientIoBufferCapacity) :
    (∀ k < chunks.length,
      ∃ b', awaitResponse stream (-1) ((chunks.take k).map some) b = .ok none b') ∧
    (∀ more, ∃ b', awaitResponse stream (-1) (chunks.map some ++ more) b =
      .ok (some response) b' ∧ Cleared b' ∧ b'.bytes.length = clientIoBufferCapacity) ∧
    ∀ (request : Request) more,
      (frame (requestPayload.enc request)).length ≤ clientIoBufferCapacity →
        ∃ b', submitRequest stream ⟨request, chunks.map some ++ more⟩ b =
          ⟨frame (requestPayload.enc request), .ok (some response), b'⟩ ∧ Cleared b' ∧
            b'.bytes.length = clientIoBufferCapacity := by
  obtain ⟨payload, hp, hlt, hframe⟩ := writtenBetween_eq hwritten
  rw [hframe] at hchunks hfit
  have hmem := responseBytes_mem hstream hp hlt
  have hsome : chunks ≠ [] := by
    rintro rfl
    have hlength := congrArg List.length hchunks
    rw [List.flatten_nil, length_frame, List.length_nil] at hlength
    omega
  have hreturns : ∀ {b : ByteBuffer} (more : List (Option (List UInt8))), Cleared b →
      b.bytes.length = clientIoBufferCapacity →
      ∃ b', awaitResponse stream (-1) (chunks.map some ++ more) b = .ok (some response) b' ∧
        Cleared b' ∧ b'.bytes.length = clientIoBufferCapacity := by
    intro b more hb hcapacity
    obtain ⟨b₁, hholds, hcapacity₁, heq⟩ := awaitResponse_decodes hfit hne more
      (cleared_iff_holds.mp hb) hcapacity hsome hchunks
    obtain ⟨b', hdecode, hcleared, hlength⟩ := decode_frame hholds hmem
    exact ⟨b', heq.trans hdecode, hcleared, hlength.trans hcapacity₁⟩
  refine ⟨fun k hk => ?_, fun more => hreturns more hb hcapacity, fun request more hrequest => ?_⟩
  · -- the pieces behind the first `k` are not empty
    have hcut : (chunks.take k).flatten ++ (chunks.drop k).flatten = frame payload := by
      rw [← List.flatten_append, List.take_append_drop, hchunks]
    refine awaitResponse_waits hfit (cleared_iff_holds.mp hb) hcapacity ⟨_, hcut⟩ fun hall => ?_
    rw [List.nil_append] at hall
    rw [hall] at hcut
    have hnil := List.append_right_eq_self.mp hcut
    have hpiece : chunks[k] ∈ chunks.drop k := by
      rw [List.drop_eq_getElem_cons hk]
      exact List.mem_cons_self
    exact hne _ (List.getElem_mem hk) (List.flatten_eq_nil_iff.mp hnil _ hpiece)
  · obtain ⟨b₁, hwrite, hcleared₁, hcapacity₁⟩ :=
      writeToSocket_of_le request hb (hcapacity ▸ hrequest)
    obtain ⟨b', hawait, hcleared, hlength⟩ := hreturns more hcleared₁ (hcapacity₁.trans hcapacity)
    refine ⟨b', ?_, hcleared, hlength⟩
    simp only [submitRequest, hwrite, hawait]

/-- The frame of a `SendMessageResponse` in two pieces. -/
theorem submitRequest_reassembles_twoPieces : ∃ b',
    awaitResponse nullStream (-1) [some (responseFrame.take 3)] openedBuffer = .ok none b' ∧
    ∃ b', submitRequest nullStream ⟨.queuesWithPendingMessages ⟨1⟩,
      [some (responseFrame.take 3), some (responseFrame.drop 3)]⟩ openedBuffer =
        ⟨frame (requestPayload.enc (.queuesWithPendingMessages ⟨1⟩)),
          .ok (some (.sendMessage {})), b'⟩ := by
  have hbytes : responseBytes nullStream (.sendMessage {}) =
      some (intBytes ResponseClass.sendMessage.serialVersionUID.toInt32) := rfl
  obtain ⟨c', hwritten⟩ := (serializeResponseWithHeader_isOk_iff nullStream (.sendMessage {})
    (ByteBuffer.allocate 64 (by decide))).mpr ⟨_, hbytes, by decide⟩
  obtain ⟨payload, hp, -, hframe⟩ := writtenBetween_eq hwritten
  obtain rfl := Option.some.inj (hbytes.symm.trans hp)
  obtain ⟨hwaits, -, hreturns⟩ := submitRequest_reassembles nullStream_roundTrips hwritten
    (by rw [hframe]; decide)
    (show [responseFrame.take 3, responseFrame.drop 3].flatten = _ by rw [hframe]; rfl)
    (by decide) cleared_openedBuffer List.length_replicate
  obtain ⟨b₁, h₁⟩ := hwaits 1 (by decide)
  obtain ⟨b₂, h₂, -⟩ := hreturns (.queuesWithPendingMessages ⟨1⟩) [] (by decide)
  exact ⟨b₁, h₁, b₂, h₂⟩

end Mlmq.Client.ResponseReassembly
