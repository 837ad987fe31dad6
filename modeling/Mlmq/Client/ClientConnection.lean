import Mlmq.Server.FrameSize
import Mlmq.Server.Reassembly

/-! # The connection of a client

`submitRequest` encodes the request into `ioBuffer`, writes it to the socket, receives into the same
buffer and decodes the response from it. A call that ends with an exception leaves the buffer as it
is at that point, and a call that returns leaves the bytes in it that the decoder has not read. The
next call encodes behind them and writes all of it.

So the calls are independent of each other iff every call but the last has a request that fits the
buffer and receives just the response (`submitRequests_independent_iff`). -/

namespace Mlmq.Client.ClientConnection

open Mlmq.Lib.BigEndian Mlmq.Lib.Nio Mlmq.Lib.Cursor Mlmq.Net.Requests Mlmq.Net.Responses
open Mlmq.Net.Factory Mlmq.Net.RoundTrip Mlmq.Server.Connection
open Mlmq.Server.FrameSize (clientIoBufferCapacity)
open Mlmq.Server.Reassembly (Holds holds_clear)
open Mlmq.Util.ByteBufferUtil (ObjectStream)

variable {ε : Type} {stream : ObjectStream ε} {b b' : ByteBuffer} {request : Request}

/-! ### The functions of the source -/

def flip : Io Unit := fun b => .ok () b.flip

def clear : Io Unit := fun b => .ok () b.clear

def compact : Io Unit := fun b => .ok () b.compact

/-- `getInt(0)` of a buffer with four bytes before its position. -/
def getFirstInt : Io Int32 := fun b => .ok (intOf (b.bytes.take 4)) b

/-- `clientSocket.write(ioBuffer)`: the socket blocks until it has taken all bytes. -/
def socketWrite : Io (List UInt8) := fun b => .ok b.rest (b.skip b.remaining)

/-- `clientSocket.read(ioBuffer)` when these bytes have arrived. -/
def socketRead (chunk : List UInt8) : Io ℕ := fun b =>
  .ok (min chunk.length b.remaining) (b.write chunk)

/-- The bytes that are written for the request. -/
def writeToSocket (request : Request) : Io (List UInt8) := do
  serializeRequestWithHeader request
  flip
  let bytes ← socketWrite
  clear
  return bytes

/-- `responseLenght` after a read, which is `-1` as long as the field has not been read. -/
def readResponseLenght (responseLenght : Int32) (position : ℕ) : Io Int32 :=
  if lenghFieldLenght ≤ position ∧ responseLenght = -1 then getFirstInt else pure responseLenght

/-- The loop of `submitRequest`, for what the socket delivers read by read: some bytes, or the end
of the stream. It returns nothing if it still waits after that. -/
def awaitResponse (stream : ObjectStream ε) (responseLenght : Int32) :
    List (Option (List UInt8)) → Io (Option (Response ε))
  | [] => return none
  | none :: _ => throw .io
  | some chunk :: reads => do
    let numBytes ← socketRead chunk
    let position ← position
    let responseLenght ← readResponseLenght responseLenght position
    if (Int32.ofNat lenghFieldLenght + responseLenght).toInt ≤ position ∧ responseLenght ≠ -1 then
      flip
      let _ ← getInt
      let response ← deserializeResponse stream
      compact
      if numBytes ≤ 0 then throw .io else return some response
    else awaitResponse stream responseLenght reads

/-- A call of `submitRequest`, and what the socket delivers during it. -/
structure Call where
  request : Request
  reads : List (Option (List UInt8))

/-- What a call has written, how it has ended (it may still be waiting), and what it leaves. -/
structure Ended (ε : Type) where
  written : List UInt8
  outcome : Except Throwable (Option (Response ε))
  ioBuffer : ByteBuffer

/-- Whether the call still waits for its response. -/
def Ended.waits (x : Ended ε) : Bool :=
  match x.outcome with
  | .ok none => true
  | _ => false

def submitRequest (stream : ObjectStream ε) (call : Call) (ioBuffer : ByteBuffer) : Ended ε :=
  match writeToSocket call.request ioBuffer with
  | .error e ioBuffer => ⟨[], .error e, ioBuffer⟩
  | .ok written ioBuffer =>
    match awaitResponse stream (-1) call.reads ioBuffer with
    | .error e ioBuffer => ⟨written, .error e, ioBuffer⟩
    | .ok response ioBuffer => ⟨written, .ok response, ioBuffer⟩

/-- The calls of a sequence, each with the buffer it finds. -/
def starts (stream : ObjectStream ε) : ByteBuffer → List Call → List (ByteBuffer × Call)
  | _, [] => []
  | ioBuffer, call :: calls =>
    (ioBuffer, call) :: starts stream (submitRequest stream call ioBuffer).ioBuffer calls

/-! ### Independent calls -/

/-- The buffer after `clear`. -/
def Cleared (b : ByteBuffer) : Prop := b.position = 0 ∧ b.limit = b.bytes.length

/-- The frame of a request, which is written if it fits the buffer. -/
def ownFrame (request : Request) : List UInt8 :=
  if (frame (requestPayload.enc request)).length ≤ clientIoBufferCapacity then
    frame (requestPayload.enc request)
  else []

/-- The call finds an empty buffer and writes its own request. -/
def Independent (stream : ObjectStream ε) (x : ByteBuffer × Call) : Prop :=
  Cleared x.1 ∧ (submitRequest stream x.2 x.1).written = ownFrame x.2.request

/-- The length field has arrived, and as many bytes as it says. A field of `-1` counts as not
arrived. -/
def Arrived (w : List UInt8) : Prop :=
  4 ≤ w.length ∧ intOf (w.take 4) ≠ -1 ∧
    (Int32.ofNat lenghFieldLenght + intOf (w.take 4)).toInt ≤ w.length

instance (w : List UInt8) : Decidable (Arrived w) := inferInstanceAs (Decidable (_ ∧ _ ∧ _))

/-- What is in the buffer, after the bytes `w`, when the response has arrived. -/
def received (w : List UInt8) : List (Option (List UInt8)) → List UInt8
  | [] => w
  | none :: _ => w
  | some chunk :: reads =>
    let w := w ++ chunk.take (clientIoBufferCapacity - w.length)
    if Arrived w then w else received w reads

/-- **A call that leaves nothing behind**: its request fits the buffer, and what it receives is a
length field and a response, without a byte more. -/
def Clean (stream : ObjectStream ε) (call : Call) : Prop :=
  (frame (requestPayload.enc call.request)).length ≤ clientIoBufferCapacity ∧
    ∃ response, (received [] call.reads).drop 4 ∈ responseWire stream response

/-! ### Writing -/

theorem cleared_iff_holds : Cleared b ↔ Holds b [] := by
  constructor
  · rintro ⟨hposition, hlimit⟩
    exact ⟨hlimit, hposition, List.nil_prefix⟩
  · intro h
    exact ⟨h.position, h.limit⟩

theorem Cleared.remaining (h : Cleared b) : b.remaining = b.bytes.length := by
  rw [ByteBuffer.remaining, h.1, h.2, Nat.sub_zero]

/-- A request that fits an empty buffer is written, and the buffer is empty again. -/
theorem writeToSocket_of_le (request : Request) (h : Cleared b)
    (hfit : (frame (requestPayload.enc request)).length ≤ b.bytes.length) :
    ∃ b', writeToSocket request b = .ok (frame (requestPayload.enc request)) b' ∧ Cleared b' ∧
      b'.bytes.length = b.bytes.length := by
  set w := frame (requestPayload.enc request) with hw
  have hroom : w.length ≤ b.remaining := by rw [h.remaining]; exact hfit
  have hposition : (b.write w).position = w.length := by
    rw [ByteBuffer.position_write hroom, h.1, Nat.zero_add]
  have hrest : (b.write w).flip.rest = w := by
    unfold ByteBuffer.rest
    rw [ByteBuffer.position_flip, ByteBuffer.limit_flip, ByteBuffer.bytes_flip, hposition,
      List.drop_zero]
    have htake := ByteBuffer.take_drop_write hroom
    rwa [h.1, List.drop_zero] at htake
  refine ⟨((b.write w).flip.skip (b.write w).flip.remaining).clear, ?_, ⟨rfl, rfl⟩, ?_⟩
  · unfold writeToSocket
    rw [bind_of_ok (serializeRequestWithHeader_ok hroom), ← hw]
    refine Eq.trans ?_ (congrArg (fun bytes => EStateM.Result.ok bytes _) hrest)
    rfl
  · rw [ByteBuffer.bytes_clear, ByteBuffer.bytes_skip, ByteBuffer.bytes_flip,
      ByteBuffer.capacity_write]

/-- An encoder that fails has stored the placeholder of the length field. -/
theorem lt_position_of_overflow (hroom : 4 ≤ b.remaining)
    (hlt : b.remaining < (frame (requestPayload.enc request)).length) :
    ∃ e b', serializeRequestWithHeader request b = .error e b' ∧ b.position < b'.position := by
  have hwrites := Request.writes_serialize request
  have hpayload : requestPayload.enc request =
      intBytes request.getTypeId ++ Request.fields.enc request := rfl
  rw [length_frame, hpayload, List.length_append, length_intBytes] at hlt
  have h0 : (intBytes 0).length ≤ b.remaining := by rw [length_intBytes]; exact hroom
  have hpos : (b.write (intBytes 0)).position = b.position + 4 := by
    rw [ByteBuffer.position_write h0, length_intBytes]
  have hrem : (b.write (intBytes 0)).remaining = b.remaining - 4 := by
    rw [ByteBuffer.remaining_write h0, length_intBytes]
  unfold serializeRequestWithHeader serializeWithHeader
  rw [bind_of_ok (position_ok b), bind_of_ok ((writes_putInt 0).ok b h0), bind_of_ok (position_ok _)]
  by_cases h1 : (intBytes request.getTypeId).length ≤ (b.write (intBytes 0)).remaining
  · rw [bind_of_ok ((writes_putInt request.getTypeId).ok _ h1)]
    have hrem' := ByteBuffer.remaining_write h1
    have htype := length_intBytes request.getTypeId
    obtain ⟨e, zs, -, hzs, he⟩ := hwrites.overflow _ (show ((b.write (intBytes 0)).write
      (intBytes request.getTypeId)).remaining < _ by omega)
    refine ⟨_, _, bind_of_error he, ?_⟩
    rw [ByteBuffer.position_write hzs, ByteBuffer.position_write h1, hpos]
    omega
  · obtain ⟨e, zs, -, hzs, he⟩ := (writes_putInt request.getTypeId).overflow _ (not_le.mp h1)
    refine ⟨_, _, bind_of_error he, ?_⟩
    rw [ByteBuffer.position_write hzs, hpos]
    omega

/-- A request that does not fit is not written, and the buffer is not empty any more. -/
theorem writeToSocket_of_lt (request : Request) (h : Cleared b) (hcapacity : 4 ≤ b.bytes.length)
    (hlt : b.bytes.length < (frame (requestPayload.enc request)).length) :
    ∃ e b', writeToSocket request b = .error e b' ∧ ¬ Cleared b' := by
  rw [← h.remaining] at hcapacity hlt
  obtain ⟨e, b', he, hposition⟩ := lt_position_of_overflow hcapacity hlt
  refine ⟨e, b', bind_of_error he, fun hempty => ?_⟩
  rw [hempty.1] at hposition
  exact absurd hposition (Nat.not_lt_zero _)

/-! ### Receiving -/

/-- What the program knows of the length field after the bytes `w`: `-1` stands for nothing. -/
def lengthField (w : List UInt8) : Int32 := if 4 ≤ w.length then intOf (w.take 4) else -1

theorem arrived_iff {w : List UInt8} : Arrived w ↔
    (Int32.ofNat lenghFieldLenght + lengthField w).toInt ≤ w.length ∧ lengthField w ≠ -1 := by
  unfold Arrived lengthField
  by_cases h4 : 4 ≤ w.length
  · simp only [h4, if_true, true_and]
    exact And.comm
  · simp [h4]

/-- Once the length field is there it stays the same. -/
theorem lengthField_append {w v : List UInt8} (h : lengthField w ≠ -1) :
    lengthField (w ++ v) = lengthField w := by
  have h4 : 4 ≤ w.length := by
    by_contra hlt
    exact h (if_neg hlt)
  have h4' : 4 ≤ (w ++ v).length := by
    rw [List.length_append]
    omega
  unfold lengthField
  rw [if_pos h4, if_pos h4', List.take_append_of_le_length h4]

/-- What the loop does once the response has arrived. -/
def decode (stream : ObjectStream ε) : Io (Option (Response ε)) := do
  flip
  let _ ← getInt
  let response ← deserializeResponse stream
  compact
  return some response

theorem write_take (b : ByteBuffer) (bs : List UInt8) :
    b.write (bs.take b.remaining) = b.write bs := by
  have htake : (bs.take b.remaining).take b.remaining = bs.take b.remaining := by
    rw [List.take_take, min_self]
  ext1
  · simp only [ByteBuffer.write, htake]
  · simp only [ByteBuffer.write, htake]
  · rfl

/-- **One read**: the response has arrived, or the loop goes on. -/
theorem awaitResponse_cons (stream : ObjectStream ε) {w : List UInt8} (chunk : List UInt8)
    (reads : List (Option (List UInt8))) (h : Holds b w) (hcapacity : b.bytes.length = clientIoBufferCapacity) (hw : ¬ Arrived w) :
    let w' := w ++ chunk.take (clientIoBufferCapacity - w.length)
    ∃ b', Holds b' w' ∧ b'.bytes.length = clientIoBufferCapacity ∧
      awaitResponse stream (lengthField w) (some chunk :: reads) b =
        if Arrived w' then decode stream b' else awaitResponse stream (lengthField w') reads b' := by
  intro w'
  have hremaining : b.remaining = clientIoBufferCapacity - w.length := by
    rw [ByteBuffer.remaining, h.limit, h.position, hcapacity]
  have hle : w.length ≤ b.bytes.length := h.bytes.length_le
  have hholds : Holds (b.write chunk) w' := by
    rw [← write_take, hremaining]
    refine h.write ?_
    rw [List.length_take]
    omega
  refine ⟨b.write chunk, hholds, by rw [ByteBuffer.capacity_write, hcapacity], ?_⟩
  have htake : w'.length ≤ (b.write chunk).bytes.length := hholds.bytes.length_le
  -- the length field is read when it is there
  have hfield : readResponseLenght (lengthField w) w'.length (b.write chunk) =
      .ok (lengthField w') (b.write chunk) := by
    unfold readResponseLenght
    by_cases h4 : lenghFieldLenght ≤ w'.length ∧ lengthField w = -1
    · rw [if_pos h4]
      have hfirst : (b.write chunk).bytes.take 4 = w'.take 4 := by
        obtain ⟨v, hv⟩ := hholds.bytes
        rw [← hv, List.take_append_of_le_length (show 4 ≤ _ from h4.1)]
      have hw' : lengthField w' = intOf (w'.take 4) := if_pos h4.1
      rw [hw', ← hfirst]
      rfl
    · rw [if_neg h4]
      have hsame : lengthField w' = lengthField w := by
        by_cases hnone : lengthField w = -1
        · have hlt : ¬ 4 ≤ w'.length := fun hle => h4 ⟨hle, hnone⟩
          rw [hnone]
          exact if_neg hlt
        · exact lengthField_append hnone
      rw [hsame]
      rfl
  conv_lhs => unfold awaitResponse
  have hread : socketRead chunk b = .ok (min chunk.length b.remaining) (b.write chunk) := rfl
  rw [bind_of_ok hread, bind_of_ok (position_ok _), hholds.position, bind_of_ok hfield]
  by_cases harrived : Arrived w'
  · rw [if_pos harrived, if_pos (arrived_iff.mp harrived)]
    -- bytes have come with this read, since the response had not arrived before
    have hnum : ¬ min chunk.length b.remaining ≤ 0 := by
      intro hzero
      have hnil : chunk.take (clientIoBufferCapacity - w.length) = [] := by
        rw [← List.length_eq_zero_iff, List.length_take]
        omega
      refine hw ?_
      have hsame : w' = w := by
        show w ++ _ = w
        rw [hnil, List.append_nil]
      exact hsame ▸ harrived
    simp only [if_neg hnum]
    rfl
  · rw [if_neg harrived, if_neg (fun hcond => harrived (arrived_iff.mpr hcond))]

/-- **The loop ends with the response, or it waits.** -/
theorem awaitResponse_eq (stream : ObjectStream ε) {reads : List (Option (List UInt8))} {w : List UInt8} (h : Holds b w)
    (hcapacity : b.bytes.length = clientIoBufferCapacity) (hw : ¬ Arrived w)
    (hopen : none ∉ reads) :
    ∃ b', Holds b' (received w reads) ∧ b'.bytes.length = clientIoBufferCapacity ∧
      awaitResponse stream (lengthField w) reads b =
        if Arrived (received w reads) then decode stream b' else .ok none b' := by
  induction reads generalizing b w with
  | nil =>
    refine ⟨b, h, hcapacity, ?_⟩
    rw [show received w [] = w from rfl, if_neg hw]
    rfl
  | cons read reads ih =>
    cases read with
    | none => exact absurd List.mem_cons_self hopen
    | some chunk =>
      obtain ⟨b₁, h₁, hcapacity₁, heq⟩ :=
        awaitResponse_cons stream chunk reads h hcapacity hw
      rw [heq]
      set w' := w ++ chunk.take (clientIoBufferCapacity - w.length) with hw'
      have hreceived : received w (some chunk :: reads) =
          if Arrived w' then w' else received w' reads := rfl
      by_cases harrived : Arrived w'
      · rw [hreceived, if_pos harrived, if_pos harrived]
        exact ⟨b₁, h₁, hcapacity₁, (if_pos harrived).symm⟩
      · rw [hreceived, if_neg harrived, if_neg harrived]
        exact ih h₁ hcapacity₁ harrived fun hmem => hopen (List.mem_cons_of_mem _ hmem)

/-- The buffer after a computation. -/
def bufferOf {α : Type} : EStateM.Result Throwable ByteBuffer α → ByteBuffer
  | .ok _ b => b
  | .error _ b => b

/-- Behind the length field stand the other bytes. -/
theorem getInt_flip {w : List UInt8} (h : Holds b w) (h4 : 4 ≤ w.length) :
    ∃ v, getInt b.flip = .ok v (b.flip.skip 4) ∧ (b.flip.skip 4).rest = w.drop 4 ∧
      (b.flip.skip 4).position = 4 := by
  have hrest : b.flip.rest = w := by
    unfold ByteBuffer.rest
    rw [ByteBuffer.bytes_flip, ByteBuffer.limit_flip, ByteBuffer.position_flip, h.position,
      List.drop_zero]
    exact (List.prefix_iff_eq_take.mp h.bytes).symm
  have hremaining : 4 ≤ b.flip.remaining := by rw [← ByteBuffer.length_rest, hrest]; exact h4
  refine ⟨intOf (w.take 4), (reads_getInt.ok_iff _ _ _).mpr ⟨_, rfl, ?_, ?_⟩, ?_, ?_⟩
  · rw [hrest, intBytes_intOf (by rw [List.length_take]; omega)]
    exact List.take_prefix 4 w
  · rw [length_intBytes]
  · rw [ByteBuffer.rest_skip, hrest]
  · rw [ByteBuffer.position_skip hremaining, ByteBuffer.position_flip]

/-- **Decoding leaves the buffer empty** iff the bytes behind the length field are a response. -/
theorem cleared_decode_iff (stream : ObjectStream ε) {w : List UInt8} (h : Holds b w) (h4 : 4 ≤ w.length) :
    (Cleared (bufferOf (decode stream b)) ↔ ∃ response, w.drop 4 ∈ responseWire stream response) ∧
      (Cleared (bufferOf (decode stream b)) →
        (bufferOf (decode stream b)).bytes.length = b.bytes.length) := by
  obtain ⟨v, hint, hrest, hposition⟩ := getInt_flip h h4
  have hreads := reads_deserializeResponse stream
  have hflip : flip b = .ok () b.flip := rfl
  have hbody : decode stream b = (deserializeResponse stream >>= fun response =>
      compact >>= fun _ => pure (some response)) (b.flip.skip 4) := by
    unfold decode
    rw [bind_of_ok hflip, bind_of_ok hint]
  cases hd : deserializeResponse stream (b.flip.skip 4) with
  | ok response b₁ =>
    obtain ⟨bs, hbs, hpre, rfl⟩ := (hreads.ok_iff _ _ _).mp hd
    have hbuffer : bufferOf (decode stream b) = ((b.flip.skip 4).skip bs.length).compact := by
      rw [hbody, bind_of_ok hd]
      rfl
    have hleft : ((b.flip.skip 4).skip bs.length).rest = (w.drop 4).drop bs.length := by
      rw [ByteBuffer.rest_skip, hrest]
    rw [hrest] at hpre
    rw [hbuffer]
    constructor
    · constructor
      · -- nothing is left behind the response
        intro hempty
        have hzero := hempty.1
        rw [ByteBuffer.position_compact, hleft, List.length_drop] at hzero
        have hall : bs = w.drop 4 := hpre.eq_of_length (by
          have := hpre.length_le
          omega)
        exact ⟨response, hall ▸ hbs⟩
      · rintro ⟨response', hresponse⟩
        have hd' := (hreads.ok_iff (b.flip.skip 4) response' _).mpr
          ⟨w.drop 4, hresponse, by rw [hrest], rfl⟩
        rw [hd] at hd'
        obtain ⟨-, hskip⟩ := EStateM.Result.ok.inj hd'
        refine ⟨?_, by rw [ByteBuffer.limit_compact, ByteBuffer.capacity_compact]⟩
        rw [ByteBuffer.position_compact, hskip, ByteBuffer.rest_skip, hrest, List.drop_length]
        rfl
    · intro _
      rw [ByteBuffer.capacity_compact]
      rfl
  | error e b₁ =>
    obtain ⟨n, hn, rfl⟩ := hreads.error _ _ _ hd
    have hbuffer : bufferOf (decode stream b) = (b.flip.skip 4).skip n := by
      rw [hbody, bind_of_error hd]
      rfl
    have hdirty : ¬ Cleared ((b.flip.skip 4).skip n) := by
      intro hempty
      have hzero := hempty.1
      rw [ByteBuffer.position_skip hn, hposition] at hzero
      omega
    rw [hbuffer]
    refine ⟨iff_of_false hdirty ?_, fun hempty => absurd hempty hdirty⟩
    rintro ⟨response, hresponse⟩
    have hd' := (hreads.ok_iff (b.flip.skip 4) response _).mpr
      ⟨w.drop 4, hresponse, by rw [hrest], rfl⟩
    rw [hd] at hd'
    cases hd'

/-! ### Calls -/

theorem not_arrived_nil : ¬ Arrived [] := by
  rintro ⟨h4, -⟩
  exact absurd h4 (by simp)

/-- **A call that finds an empty buffer** writes its own request, and it leaves an empty buffer iff
it is clean. -/
theorem submitRequest_of_cleared (stream : ObjectStream ε) {call : Call} (h : Cleared b)
    (hcapacity : b.bytes.length = clientIoBufferCapacity) (hopen : none ∉ call.reads) :
    (submitRequest stream call b).written = ownFrame call.request ∧
      ((submitRequest stream call b).waits = false →
        (Cleared (submitRequest stream call b).ioBuffer ↔ Clean stream call)) ∧
      (Cleared (submitRequest stream call b).ioBuffer →
        (submitRequest stream call b).ioBuffer.bytes.length = clientIoBufferCapacity) := by
  by_cases hfit : (frame (requestPayload.enc call.request)).length ≤ clientIoBufferCapacity
  · obtain ⟨b₁, hwrite, hempty₁, hcapacity₁⟩ :=
      writeToSocket_of_le call.request h (hcapacity ▸ hfit)
    rw [hcapacity] at hcapacity₁
    obtain ⟨b₂, hholds, hcapacity₂, hawait⟩ := awaitResponse_eq stream
      (cleared_iff_holds.mp hempty₁) hcapacity₁ not_arrived_nil hopen
    have hfield : lengthField [] = -1 := rfl
    rw [hfield] at hawait
    have hcall : submitRequest stream call b =
        match awaitResponse stream (-1) call.reads b₁ with
        | .error e ioBuffer => ⟨frame (requestPayload.enc call.request), .error e, ioBuffer⟩
        | .ok response ioBuffer =>
          ⟨frame (requestPayload.enc call.request), .ok response, ioBuffer⟩ := by
      unfold submitRequest
      rw [hwrite]
    have hwritten : (submitRequest stream call b).written = ownFrame call.request := by
      unfold ownFrame
      rw [if_pos hfit, hcall]
      split <;> rfl
    have hbuffer : (submitRequest stream call b).ioBuffer =
        bufferOf (awaitResponse stream (-1) call.reads b₁) := by
      rw [hcall]
      cases awaitResponse stream (-1) call.reads b₁ <;> rfl
    refine ⟨hwritten, ?_⟩
    by_cases harrived : Arrived (received [] call.reads)
    · rw [if_pos harrived] at hawait
      obtain ⟨hiff, hsize⟩ := cleared_decode_iff stream hholds harrived.1
      rw [hbuffer, hawait]
      exact ⟨fun _ => hiff.trans ⟨fun hw => ⟨hfit, hw⟩, And.right⟩, fun hempty =>
        (hsize hempty).trans hcapacity₂⟩
    · rw [if_neg harrived] at hawait
      have hwaits : (submitRequest stream call b).waits = true := by
        rw [hcall, hawait]
        rfl
      refine ⟨fun hends => ?_, fun _ => ?_⟩
      · rw [hwaits] at hends
        cases hends
      · rw [hbuffer, hawait]
        exact hcapacity₂
  · have hlt : b.bytes.length < (frame (requestPayload.enc call.request)).length := by
      rw [hcapacity]
      exact not_le.mp hfit
    obtain ⟨e, b₁, hwrite, hdirty⟩ := writeToSocket_of_lt call.request h
      (by rw [hcapacity]; decide) hlt
    have hcall : submitRequest stream call b = ⟨[], .error e, b₁⟩ := by
      unfold submitRequest
      rw [hwrite]
    rw [hcall]
    refine ⟨?_, fun _ => iff_of_false hdirty fun hclean => hfit hclean.1, fun hempty =>
      absurd hempty hdirty⟩
    exact (if_neg hfit).symm

/-- **The calls on one connection are independent of each other** iff every call but the last is
clean. The calls before the last one end, and the socket is not closed. -/
theorem submitRequests_independent_iff {calls : List Call} (h : Cleared b)
    (hcapacity : b.bytes.length = clientIoBufferCapacity)
    (hopen : ∀ call ∈ calls, none ∉ call.reads)
    (hends : ∀ x ∈ (starts stream b calls).dropLast, (submitRequest stream x.2 x.1).waits = false) :
    (∀ x ∈ starts stream b calls, Independent stream x) ↔
      ∀ call ∈ calls.dropLast, Clean stream call := by
  induction calls generalizing b with
  | nil => simp [starts]
  | cons call calls ih =>
    obtain ⟨hwritten, hclean, hsize⟩ := submitRequest_of_cleared stream h hcapacity
      (hopen call List.mem_cons_self)
    have hfirst : Independent stream (b, call) := ⟨h, hwritten⟩
    cases calls with
    | nil => simpa [starts] using hfirst
    | cons call' calls =>
      set b₁ := (submitRequest stream call b).ioBuffer with hb₁
      have hstarts : starts stream b (call :: call' :: calls) =
          (b, call) :: starts stream b₁ (call' :: calls) := rfl
      have hne : starts stream b₁ (call' :: calls) ≠ [] := List.cons_ne_nil _ _
      rw [hstarts, List.dropLast_cons_of_ne_nil hne] at hends
      have hiff := hclean (hends (b, call) List.mem_cons_self)
      rw [hstarts, List.forall_mem_cons, List.dropLast_cons_of_ne_nil (List.cons_ne_nil _ _),
        List.forall_mem_cons, ← hiff]
      have hrest : Cleared b₁ → ((∀ x ∈ starts stream b₁ (call' :: calls), Independent stream x) ↔
          ∀ call ∈ (call' :: calls).dropLast, Clean stream call) := fun hempty =>
        ih hempty (hsize hempty) (fun call hmem => hopen call (List.mem_cons_of_mem _ hmem))
          fun x hx => hends x (List.mem_cons_of_mem _ hx)
      constructor
      · rintro ⟨-, hall⟩
        have hempty : Cleared b₁ := (hall (b₁, call') List.mem_cons_self).1
        exact ⟨hempty, (hrest hempty).mp hall⟩
      · rintro ⟨hempty, hall⟩
        exact ⟨hfirst, (hrest hempty).mpr hall⟩

/-! ### Examples -/

/-- The buffer of a connection that has just been opened. -/
def openedBuffer : ByteBuffer := .allocate clientIoBufferCapacity (by decide)

/-- A request of twelve bytes, and the socket delivers the bytes with one read. -/
def callWith (bytes : List UInt8) : Call :=
  ⟨.queuesWithPendingMessages ⟨1⟩, [some bytes]⟩

/-- The frame of a response of four bytes. -/
def responseFrame : List UInt8 := frame (intBytes ResponseClass.sendMessage.serialVersionUID.toInt32)

theorem starts_pair (stream : ObjectStream ε) (b : ByteBuffer) (call call' : Call) :
    starts stream b [call, call'] = [(b, call), ((submitRequest stream call b).ioBuffer, call')] :=
  rfl

theorem dropLast_starts_pair (stream : ObjectStream ε) (b : ByteBuffer) (call call' : Call) :
    (starts stream b [call, call']).dropLast = [(b, call)] := rfl

theorem cleared_openedBuffer : Cleared openedBuffer := ⟨rfl, List.length_replicate.symm⟩

/-- Two calls, the first of which receives just its response. -/
theorem submitRequests_independent_pending :
    [callWith responseFrame, callWith responseFrame].length = 2 ∧ ∀ x ∈ starts nullStream
      openedBuffer [callWith responseFrame, callWith responseFrame], Independent nullStream x := by
  have hends : (submitRequest nullStream (callWith responseFrame) openedBuffer).waits = false := by
    decide +kernel
  refine ⟨rfl, (submitRequests_independent_iff cleared_openedBuffer List.length_replicate
    ?_ ?_).mpr ?_⟩
  · simp [callWith]
  · rw [dropLast_starts_pair, List.forall_mem_singleton]
    exact hends
  · intro call hcall
    obtain rfl := List.mem_singleton.mp hcall
    refine ⟨by decide, .sendMessage {}, ?_⟩
    exact responseBytes_mem nullStream_roundTrips rfl (by decide)

/-- A byte behind the response is written in front of the next request. -/
theorem not_independent_surplus : ¬ ∀ calls : List Call, (∀ call ∈ calls, none ∉ call.reads) →
    (∀ x ∈ (starts nullStream openedBuffer calls).dropLast,
      (submitRequest nullStream x.2 x.1).waits = false) →
    ∀ x ∈ starts nullStream openedBuffer calls, Independent nullStream x := by
  intro h
  obtain ⟨call, hcall⟩ : ∃ call, call = callWith (responseFrame ++ [7]) := ⟨_, rfl⟩
  have hends : (submitRequest nullStream call openedBuffer).waits = false := by
    rw [hcall]
    decide +kernel
  have hposition : (submitRequest nullStream call openedBuffer).ioBuffer.position ≠ 0 := by
    rw [hcall]
    decide +kernel
  have hall := h [call, callWith responseFrame] (by simp [hcall, callWith])
  rw [dropLast_starts_pair, List.forall_mem_singleton, starts_pair, List.forall_mem_cons,
    List.forall_mem_singleton] at hall
  exact hposition (hall hends).2.1.1

end Mlmq.Client.ClientConnection
