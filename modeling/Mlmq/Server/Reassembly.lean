import Mlmq.Server.Connection

/-! # Reassembly of request frames

`selectRead` on one connection: the socket delivers a chunk of bytes, and if the receive buffer then
holds a whole frame, it is swapped for a buffer of the pool and handed to the workers in a task.
Between two reads anything may happen to the request queue and to the pool, so each read comes with
the queue and the pooled buffer it finds (`Arrival`).

`hasReceivedMessage` leaves the position behind the length field. After a read that brings a part of
the payload, but not all of it, the next chunk is stored over that part, and the buffer never holds
the frame (`Stuck`). So the frame is handed on iff its payload comes with the last read
(`selectRead_reassembles_iff`). -/

namespace Mlmq.Server.Reassembly

open Mlmq.Lib.BigEndian Mlmq.Lib.Nio Mlmq.Net.Factory Mlmq.Server.Connection
open Mlmq.Lib.Queue (BoundedQueue)

variable {κ : Type} {payload w : List UInt8} {b : ByteBuffer}

/-! ### One read -/

/-- What one call of `selectRead` finds. -/
structure Arrival (κ : Type) where
  chunk : List UInt8
  pooledBuffer : ByteBuffer
  requestQueue : BoundedQueue (WorkerTask κ ByteBuffer)

/-- The request queue with a task for the message, if it takes one. -/
def onMessage (client : ConnectedClient κ ByteBuffer) (messageBuffer : ByteBuffer)
    (requestQueue : BoundedQueue (WorkerTask κ ByteBuffer)) :
    BoundedQueue (WorkerTask κ ByteBuffer) :=
  match requestQueue.add (WorkerTask.new client.clientApplicationContext messageBuffer) with
  | some requestQueue' => requestQueue'
  | none => requestQueue

/-- The connection and the request queue after a read. -/
def selectRead (client : ConnectedClient κ ByteBuffer) (arrival : Arrival κ) :
    ConnectedClient κ ByteBuffer × BoundedQueue (WorkerTask κ ByteBuffer) :=
  match receive arrival.chunk client.rxBuffer with
  | .ok true rxBuffer =>
    let replacementBuffer := arrival.pooledBuffer.clear
    let (messageBuffer, client) := { client with rxBuffer }.swapRxBuffer replacementBuffer
    (client, onMessage client messageBuffer arrival.requestQueue)
  | .ok false rxBuffer => ({ client with rxBuffer }, arrival.requestQueue)
  | .error _ rxBuffer => ({ client with rxBuffer }, arrival.requestQueue)

/-- The request queue after each of a series of reads. -/
def selectReads (client : ConnectedClient κ ByteBuffer) :
    List (Arrival κ) → List (BoundedQueue (WorkerTask κ ByteBuffer))
  | [] => []
  | arrival :: arrivals =>
    (selectRead client arrival).2 :: selectReads (selectRead client arrival).1 arrivals

/-- **The frame is handed on as it should**: the reads `before` enqueue nothing, and `last` enqueues
one task, whose buffer holds the frame and stands at its payload. -/
def Reassembles (payload : List UInt8) (client : ConnectedClient κ ByteBuffer)
    (before : List (Arrival κ)) (last : Arrival κ) : Prop :=
  ∃ messageBuffer : ByteBuffer,
    (selectReads client (before ++ [last])).map BoundedQueue.items =
      before.map (fun arrival => arrival.requestQueue.items) ++
        [last.requestQueue.items ++
          [WorkerTask.new client.clientApplicationContext messageBuffer]] ∧
      frame payload <+: messageBuffer.bytes ∧ messageBuffer.position = lenghFieldLenght

/-- The connection after a read that leaves the frame incomplete. -/
def next (client : ConnectedClient κ ByteBuffer) (arrival : Arrival κ) :
    ConnectedClient κ ByteBuffer :=
  { client with rxBuffer := afterTest (client.rxBuffer.write arrival.chunk) }

theorem selectRead_of_incomplete {client : ConnectedClient κ ByteBuffer} {arrival : Arrival κ}
    (h : ¬ Complete (client.rxBuffer.write arrival.chunk)) :
    selectRead client arrival = (next client arrival, arrival.requestQueue) := by
  unfold selectRead
  rw [receive_eq, decide_eq_false h]
  rfl

theorem selectRead_of_complete {client : ConnectedClient κ ByteBuffer} {arrival : Arrival κ}
    (h : Complete (client.rxBuffer.write arrival.chunk)) :
    (selectRead client arrival).2 =
      onMessage client (afterTest (client.rxBuffer.write arrival.chunk)) arrival.requestQueue := by
  unfold selectRead
  rw [receive_eq, decide_eq_true h]
  rfl

theorem client_of_complete {client : ConnectedClient κ ByteBuffer} {arrival : Arrival κ}
    (h : Complete (client.rxBuffer.write arrival.chunk)) :
    (selectRead client arrival).1 =
      { client with rxBuffer := arrival.pooledBuffer.clear } := by
  unfold selectRead
  rw [receive_eq, decide_eq_true h]
  rfl

/-! ### What the buffer holds between reads -/

/-- The buffer stands behind the bytes `w` and is open up to its capacity. -/
structure Holds (b : ByteBuffer) (w : List UInt8) : Prop where
  limit : b.limit = b.bytes.length
  position : b.position = w.length
  bytes : w <+: b.bytes

/-- The buffer stands behind a length field that says `n`. -/
structure Stuck (b : ByteBuffer) (n : ℕ) : Prop where
  limit : b.limit = b.bytes.length
  position : b.position = 4
  header : header b = n

theorem holds_clear (b : ByteBuffer) : Holds b.clear [] := ⟨rfl, rfl, List.nil_prefix⟩

theorem Holds.write (h : Holds b w) {chunk : List UInt8}
    (hfit : w.length + chunk.length ≤ b.bytes.length) : Holds (b.write chunk) (w ++ chunk) := by
  have hroom : chunk.length ≤ b.remaining := by
    rw [ByteBuffer.remaining, h.limit, h.position]
    omega
  refine ⟨?_, ?_, ?_⟩
  · rw [ByteBuffer.limit_write, ByteBuffer.capacity_write, h.limit]
  · rw [ByteBuffer.position_write hroom, h.position, List.length_append]
  · have htake : b.bytes.take w.length = w := (List.prefix_iff_eq_take.mp h.bytes).symm
    rw [ByteBuffer.bytes_write hroom, h.position, htake]
    exact List.prefix_append _ _

/-- A part of a frame that has the length field says how long the payload is. -/
theorem Holds.header (h : Holds b w) (hw : w <+: frame payload) (h4 : 4 ≤ w.length)
    (hlen : payload.length < 2 ^ 31) : header b = payload.length := by
  have h1 : b.bytes.take 4 = w.take 4 := by
    obtain ⟨t, ht⟩ := h.bytes
    rw [← ht, List.take_append_of_le_length h4]
  have h2 : w.take 4 = intBytes (Int32.ofNat payload.length) := by
    obtain ⟨t, ht⟩ := hw
    have h3 := congrArg (List.take 4) ht
    rw [List.take_append_of_le_length h4] at h3
    rw [h3, frame]
    exact List.take_left' (length_intBytes _)
  unfold Connection.header
  rw [h1, h2, intOf_intBytes, toInt_ofNat hlen]

/-- The length field alone, or a part of it, waits for more. -/
theorem Holds.afterTest (h : Holds b w) (h4 : w.length ≤ 4) : Holds (afterTest b) w := by
  refine ⟨?_, ?_, ?_⟩
  · rw [limit_afterTest, bytes_afterTest, h.limit]
  · rw [position_afterTest, h.position]
    omega
  · rw [bytes_afterTest]
    exact h.bytes

theorem Holds.stuck (h : Holds b w) (hw : w <+: frame payload) (h4 : 4 ≤ w.length)
    (hlen : payload.length < 2 ^ 31) : Stuck (Connection.afterTest b) payload.length := by
  refine ⟨?_, ?_, ?_⟩
  · rw [limit_afterTest, bytes_afterTest, h.limit]
  · rw [position_afterTest, h.position]
    omega
  · have := h.header hw h4 hlen
    unfold Connection.header at this ⊢
    rwa [bytes_afterTest]

/-- A proper part of a frame is not complete. -/
theorem Holds.incomplete (h : Holds b w) (hw : w <+: frame payload)
    (hlt : w.length < (frame payload).length) (hlen : payload.length < 2 ^ 31) :
    ¬ Complete b := by
  rintro ⟨h4, hle⟩
  rw [h.position] at h4 hle
  rw [h.header hw h4 hlen] at hle
  rw [length_frame] at hlt
  omega

theorem Holds.complete (h : Holds b (frame payload)) (hlen : payload.length < 2 ^ 31) :
    Complete b := by
  have h4 : 4 ≤ (frame payload).length := by
    rw [length_frame]
    omega
  refine ⟨by rw [h.position]; exact h4, ?_⟩
  rw [h.header (List.prefix_refl _) h4 hlen, h.position, length_frame]
  omega

/-- **Stuck is for ever**: a chunk shorter than the payload is stored behind the length field and
leaves the buffer as stuck as it was. -/
theorem Stuck.write {n : ℕ} (h : Stuck b n) {chunk : List UInt8} (hlt : chunk.length < n)
    (hfit : 4 + n ≤ b.bytes.length) :
    ¬ Complete (b.write chunk) ∧ Stuck (Connection.afterTest (b.write chunk)) n := by
  have hroom : chunk.length ≤ b.remaining := by
    rw [ByteBuffer.remaining, h.limit, h.position]
    omega
  have hposition : (b.write chunk).position = 4 + chunk.length := by
    rw [ByteBuffer.position_write hroom, h.position]
  have htake : (b.write chunk).bytes.take 4 = b.bytes.take 4 := by
    have hlen : (b.bytes.take 4).length = 4 := by
      rw [List.length_take]
      omega
    rw [ByteBuffer.bytes_write hroom, h.position, List.append_assoc]
    exact List.take_left' hlen
  have hheader : Connection.header (b.write chunk) = n := by
    rw [Connection.header, htake]
    exact h.header
  refine ⟨?_, ?_, ?_, ?_⟩
  · rintro ⟨-, hle⟩
    rw [hheader, hposition] at hle
    omega
  · rw [limit_afterTest, bytes_afterTest, ByteBuffer.limit_write, ByteBuffer.capacity_write, h.limit]
  · rw [position_afterTest, hposition]
    omega
  · rw [Connection.header, bytes_afterTest]
    exact hheader

/-! ### Series of reads -/

/-- The bytes of a series of reads. -/
def received (arrivals : List (Arrival κ)) : List UInt8 := arrivals.flatMap Arrival.chunk

/-- A stuck buffer hands on nothing while fewer bytes come than the payload has. -/
theorem selectReads_of_stuck {n : ℕ} : ∀ {arrivals : List (Arrival κ)}
    {client : ConnectedClient κ ByteBuffer}, Stuck client.rxBuffer n →
    4 + n ≤ client.rxBuffer.bytes.length → (received arrivals).length < n →
    selectReads client arrivals = arrivals.map Arrival.requestQueue
  | [], _, _, _, _ => rfl
  | arrival :: arrivals, client, h, hfit, hlt => by
    unfold received at hlt
    rw [List.flatMap_cons, List.length_append] at hlt
    obtain ⟨hinc, hstuck⟩ := h.write (show arrival.chunk.length < n by omega) hfit
    rw [selectReads, selectRead_of_incomplete hinc, List.map_cons]
    have hnext : Stuck (next client arrival).rxBuffer n := hstuck
    have hcap : 4 + n ≤ (next client arrival).rxBuffer.bytes.length := by
      unfold next
      rwa [bytes_afterTest, ByteBuffer.capacity_write]
    have hrest : (received arrivals).length < n := by
      unfold received
      omega
    exact congrArg (arrival.requestQueue :: ·) (selectReads_of_stuck hnext hcap hrest)

/-- **The reads before the last one.** A buffer that holds a proper part `w` of the frame, at most
the length field, gets the chunks of `before`, and the frame ends with `last`. -/
theorem selectReads_of_holds (hlen : payload.length < 2 ^ 31) {last : Arrival κ}
    (hlast : last.chunk ≠ []) : ∀ {before : List (Arrival κ)}
    {client : ConnectedClient κ ByteBuffer} {w : List UInt8}, Holds client.rxBuffer w →
    (frame payload).length ≤ client.rxBuffer.bytes.length → w.length ≤ 4 →
    w ++ received before ++ last.chunk = frame payload →
    ∃ queue, selectReads client (before ++ [last]) =
        before.map Arrival.requestQueue ++ [queue] ∧
      if (w ++ received before).length ≤ 4 then
        ∃ messageBuffer, queue = onMessage client messageBuffer last.requestQueue ∧
          frame payload <+: messageBuffer.bytes ∧ messageBuffer.position = lenghFieldLenght
      else queue = last.requestQueue
  | [], client, w, h, hfit, h4, hframe => by
    unfold received at hframe
    rw [List.flatMap_nil, List.append_nil] at hframe
    have hfull := congrArg List.length hframe
    rw [List.length_append] at hfull
    have hwrite : Holds (client.rxBuffer.write last.chunk) (frame payload) :=
      hframe ▸ h.write (by omega)
    have hcomplete := hwrite.complete hlen
    refine ⟨_, by rw [List.nil_append, selectReads, selectReads, List.map_nil, List.nil_append], ?_⟩
    rw [if_pos (by simpa [received] using h4), selectRead_of_complete hcomplete]
    refine ⟨_, rfl, ?_, ?_⟩
    · rw [bytes_afterTest]
      exact hwrite.bytes
    · rw [position_afterTest, hwrite.position, length_frame]
      unfold lenghFieldLenght
      omega
  | arrival :: before, client, w, h, hfit, h4, hframe => by
    have hcons : w ++ received (arrival :: before) = w ++ arrival.chunk ++ received before := by
      unfold received
      rw [List.flatMap_cons, List.append_assoc]
    rw [hcons] at hframe ⊢
    have hpre : w ++ arrival.chunk <+: frame payload :=
      ⟨received before ++ last.chunk, by rw [← List.append_assoc, hframe]⟩
    have hpos := List.length_pos_of_ne_nil hlast
    have hfull := congrArg List.length hframe
    simp only [List.length_append] at hfull
    have hwrite : Holds (client.rxBuffer.write arrival.chunk) (w ++ arrival.chunk) :=
      h.write (by omega)
    have hinc : ¬ Complete (client.rxBuffer.write arrival.chunk) :=
      hwrite.incomplete hpre (by rw [List.length_append]; omega) hlen
    have hcap : (frame payload).length ≤ (next client arrival).rxBuffer.bytes.length := by
      unfold next
      rwa [bytes_afterTest, ByteBuffer.capacity_write]
    rw [List.cons_append, selectReads, selectRead_of_incomplete hinc, List.map_cons]
    by_cases hsmall : (w ++ arrival.chunk).length ≤ 4
    · -- still within the length field
      have hnext : Holds (next client arrival).rxBuffer (w ++ arrival.chunk) :=
        hwrite.afterTest hsmall
      obtain ⟨queue, hqueue, hq⟩ := selectReads_of_holds hlen hlast hnext hcap hsmall hframe
      exact ⟨queue, congrArg (arrival.requestQueue :: ·) hqueue, hq⟩
    · -- a part of the payload: the position goes back behind the length field
      have hnext : Stuck (next client arrival).rxBuffer payload.length :=
        hwrite.stuck hpre (by omega) hlen
      have hrest : (received (before ++ [last])).length < payload.length := by
        rw [length_frame] at hfull
        rw [List.length_append] at hsmall
        unfold received at hfull ⊢
        rw [List.flatMap_append, List.flatMap_singleton, List.length_append]
        omega
      have hqueue := selectReads_of_stuck hnext (by rwa [length_frame] at hcap) hrest
      rw [List.map_append, List.map_singleton] at hqueue
      refine ⟨last.requestQueue, congrArg (arrival.requestQueue :: ·) hqueue, ?_⟩
      rw [if_neg (by rw [List.length_append]; omega)]

/-- **A frame is handed on iff its payload comes with the last read**, and the request queue then
has room for it. -/
theorem selectRead_reassembles_iff {pooledBuffer : ByteBuffer}
    (hfit : (frame payload).length ≤ pooledBuffer.capacity)
    {client : ConnectedClient κ ByteBuffer} (hrx : client.rxBuffer = pooledBuffer.clear)
    {before : List (Arrival κ)} {last : Arrival κ} (hlast : last.chunk ≠ [])
    (hframe : received before ++ last.chunk = frame payload) :
    Reassembles payload client before last ↔
      (received before).length ≤ 4 ∧ last.requestQueue.HasRoom := by
  have hlen : payload.length < 2 ^ 31 := by
    have := pooledBuffer.capacity_lt
    rw [length_frame, ByteBuffer.capacity] at hfit
    omega
  have hclear : Holds client.rxBuffer [] := hrx ▸ holds_clear pooledBuffer
  obtain ⟨queue, hqueue, hq⟩ := selectReads_of_holds hlen hlast hclear (by rwa [hrx])
    (Nat.zero_le 4) hframe
  rw [List.nil_append] at hq
  have hitems : ∀ items : List (WorkerTask κ ByteBuffer),
      (selectReads client (before ++ [last])).map BoundedQueue.items =
        before.map (fun arrival => arrival.requestQueue.items) ++ [items] ↔ queue.items = items := by
    intro items
    have hbefore : (before.map Arrival.requestQueue).map BoundedQueue.items =
        before.map fun arrival => arrival.requestQueue.items := List.map_map
    rw [hqueue, List.map_append, hbefore, List.map_singleton, List.append_cancel_left_eq,
      List.singleton_inj]
  unfold Reassembles
  simp only [hitems]
  by_cases h4 : (received before).length ≤ 4
  · rw [if_pos h4] at hq
    obtain ⟨messageBuffer, rfl, hpre, hposition⟩ := hq
    unfold onMessage
    cases hadd : last.requestQueue.add
        (WorkerTask.new client.clientApplicationContext messageBuffer) with
    | some queue =>
      obtain ⟨hroom, -, hnew⟩ := BoundedQueue.add_eq_some_iff.mp hadd
      exact ⟨fun _ => ⟨h4, hroom⟩, fun _ => ⟨messageBuffer, hnew, hpre, hposition⟩⟩
    | none =>
      refine ⟨fun h => ?_, fun h => absurd h.2 (BoundedQueue.add_eq_none_iff.mp hadd)⟩
      obtain ⟨_, hsame, -⟩ := h
      simp at hsame
  · rw [if_neg h4] at hq
    subst hq
    refine ⟨fun h => ?_, fun h => absurd h.1 h4⟩
    obtain ⟨_, hsame, -⟩ := h
    simp at hsame

/-! ### Examples -/

/-- A connection whose receive buffer has just been taken from the pool. -/
def freshClient : ConnectedClient Unit ByteBuffer where
  clientApplicationContext := ()
  rxBuffer := (ByteBuffer.allocate 16 (by decide)).clear
  txBuffer := none
  selectionKey := ⟨true, false⟩

/-- A read that finds an empty request queue. -/
def arrival (chunk : List UInt8) : Arrival Unit where
  chunk
  pooledBuffer := ByteBuffer.allocate 16 (by decide)
  requestQueue := .empty 1

/-- A frame that is cut inside its length field is handed on. -/
theorem selectRead_reassembles_cut :
    Reassembles [0xaa, 0xbb] freshClient [arrival [0], arrival [0, 0]] (arrival [2, 0xaa, 0xbb]) :=
  (selectRead_reassembles_iff (show _ ≤ (ByteBuffer.allocate 16 (by decide)).capacity by decide) rfl
    (by decide) (by decide)).mpr ⟨by decide, by decide⟩

/-- Six bytes, of which the first five come with the first read and the last with the second. -/
theorem not_reassembles_split :
    received [arrival [0, 0, 0, 2, 0xaa]] ++ (arrival [0xbb]).chunk = frame [0xaa, 0xbb] ∧
      (frame [0xaa, 0xbb]).length ≤ freshClient.rxBuffer.capacity ∧
      (arrival [0xbb]).requestQueue.HasRoom ∧
      ¬ Reassembles [0xaa, 0xbb] freshClient [arrival [0, 0, 0, 2, 0xaa]] (arrival [0xbb]) := by
  refine ⟨by decide, by decide, by decide, ?_⟩
  rintro ⟨messageBuffer, h, -⟩
  have hclear : Holds freshClient.rxBuffer [] := holds_clear _
  have hframe : [] ++ received [arrival [0, 0, 0, 2, 0xaa]] ++ (arrival [0xbb]).chunk =
      frame [0xaa, 0xbb] := by decide
  obtain ⟨queue, hqueue, hq⟩ := selectReads_of_holds (by decide) (by decide) hclear (by decide)
    (by decide) hframe
  rw [if_neg (by decide)] at hq
  rw [hqueue, hq] at h
  simp [arrival, BoundedQueue.empty] at h

end Mlmq.Server.Reassembly
