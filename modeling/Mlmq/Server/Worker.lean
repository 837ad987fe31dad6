import Mlmq.Net.RoundTrip
import Mlmq.Server.Connection

/-! # Workers

`Worker.process` for one task: it decodes the request out of the request buffer, lets the
`RequestProcessor` make a response, writes the response into the same buffer and puts the task into
the response queue. What the processor does is a parameter: it returns a response or throws an
exception, which becomes an `ExceptionResponse`. `Worker.run` catches what `process` throws.

Decoding and encoding are outside the `try` block, so a request that cannot be decoded and a
response that does not fit the buffer end in an exception and without a response
(`run_answers_iff`). -/

namespace Mlmq.Server.Worker

open Mlmq.Lib.BigEndian Mlmq.Lib.Nio Mlmq.Lib.Cursor Mlmq.Net.Requests Mlmq.Net.Responses
open Mlmq.Net.Factory Mlmq.Net.RoundTrip Mlmq.Server.Connection
open Mlmq.Lib.Queue (BoundedQueue)
open Mlmq.Util.ByteBufferUtil (ObjectStream)

variable {κ ε : Type} {stream : ObjectStream ε}

/-! ### The functions of the source -/

/-- The `try` block and its `catch`. -/
def responseOf : Except ε (Response ε) → Response ε
  | .ok response => response
  | .error ex => .exception ⟨some ex⟩

/-- The request buffer, recycled for the response. -/
def respond (stream : ObjectStream ε) (outcome : Except ε (Response ε)) (rawRequest : ByteBuffer) :
    Except Throwable ByteBuffer :=
  match serializeResponseWithHeader stream (responseOf outcome) rawRequest.clear with
  | .ok () rawRequest => .ok rawRequest
  | .error e _ => .error e

/-- The response queue after a task. -/
def process (stream : ObjectStream ε) (processor : Request → Except ε (Response ε))
    (responseQueue : BoundedQueue (WorkerTask κ ByteBuffer)) (task : WorkerTask κ ByteBuffer) :
    Except Throwable (BoundedQueue (WorkerTask κ ByteBuffer)) :=
  let (requestBuffer, task) := task.getAndRemoveRequestBuffer
  match requestBuffer with
  | none => .error .nullPointer
  | some rawRequest =>
    match deserializeRequest rawRequest with
    | .error e _ => .error e
    | .ok request rawRequest =>
      match respond stream (processor request) rawRequest with
      | .error e => .error e
      | .ok rawRequest =>
        match responseQueue.add (task.setResponseBuffer rawRequest) with
        | some responseQueue => .ok responseQueue
        -- the response is dropped
        | none => .ok responseQueue

/-- One round of the loop of `run`: an exception is logged and forgotten. -/
def run (stream : ObjectStream ε) (processor : Request → Except ε (Response ε))
    (responseQueue : BoundedQueue (WorkerTask κ ByteBuffer)) (task : WorkerTask κ ByteBuffer) :
    BoundedQueue (WorkerTask κ ByteBuffer) :=
  match process stream processor responseQueue task with
  | .ok responseQueue => responseQueue
  | .error _ => responseQueue

/-! ### Encoding -/

/-- The frame of a response is not longer than `capacity`. -/
def Fits (stream : ObjectStream ε) (response : Response ε) (capacity : ℕ) : Prop :=
  ∃ payload, responseBytes stream response = some payload ∧ (frame payload).length ≤ capacity

theorem respond_ok_iff {outcome : Except ε (Response ε)} {b b' : ByteBuffer} :
    respond stream outcome b = .ok b' ↔
      ∃ payload, responseBytes stream (responseOf outcome) = some payload ∧
        (frame payload).length ≤ b.capacity ∧ b' = b.clear.write (frame payload) := by
  have hok := serializeResponseWithHeader_isOk_iff stream (responseOf outcome) b.clear
  rw [ByteBuffer.remaining_clear] at hok
  constructor
  · intro h
    unfold respond at h
    have hsome : ∃ b₁, serializeResponseWithHeader stream (responseOf outcome) b.clear = .ok () b₁ := by
      split at h
      · rename_i b₁ hs
        exact ⟨b₁, hs⟩
      · cases h
    obtain ⟨payload, hp, hfit⟩ := hok.mp hsome
    rw [serializeResponseWithHeader_ok hp (by rwa [ByteBuffer.remaining_clear])] at h
    exact ⟨payload, hp, hfit, (Except.ok.inj h).symm⟩
  · rintro ⟨payload, hp, hfit, rfl⟩
    unfold respond
    rw [serializeResponseWithHeader_ok hp (by rwa [ByteBuffer.remaining_clear])]

theorem isOk_respond_iff {outcome : Except ε (Response ε)} {b : ByteBuffer} :
    (∃ b', respond stream outcome b = .ok b') ↔
      Fits stream (responseOf outcome) b.capacity := by
  constructor
  · rintro ⟨b', h⟩
    obtain ⟨payload, hp, hfit, -⟩ := respond_ok_iff.mp h
    exact ⟨payload, hp, hfit⟩
  · rintro ⟨payload, hp, hfit⟩
    exact ⟨_, respond_ok_iff.mpr ⟨payload, hp, hfit, rfl⟩⟩

/-- **A recycled buffer holds the frame of the response** and stands behind it. -/
theorem holds_frame {outcome : Except ε (Response ε)} {b b' : ByteBuffer}
    (h : respond stream outcome b = .ok b') :
    ∃ payload, responseBytes stream (responseOf outcome) = some payload ∧
      frame payload <+: b'.bytes ∧ b'.position = (frame payload).length := by
  obtain ⟨payload, hp, hfit, rfl⟩ := respond_ok_iff.mp h
  have hroom : (frame payload).length ≤ b.clear.remaining := by rwa [ByteBuffer.remaining_clear]
  refine ⟨payload, hp, ?_, ?_⟩
  · rw [ByteBuffer.bytes_write hroom]
    exact ⟨b.bytes.drop (frame payload).length, by simp⟩
  · rw [ByteBuffer.position_write hroom, ByteBuffer.position_clear, Nat.zero_add]

/-! ### One response for every request -/

/-- The response that is due: the one of the processor, or an `ExceptionResponse` if decoding,
processing or encoding failed. -/
def Due (stream : ObjectStream ε) (processor : Request → Except ε (Response ε))
    (rawRequest : ByteBuffer) (response : Response ε) : Prop :=
  (∃ request b, deserializeRequest rawRequest = .ok request b ∧
    processor request = .ok response ∧ Fits stream response rawRequest.capacity) ∨
  (∃ ex, response = .exception ex) ∧ ∀ request b r, deserializeRequest rawRequest = .ok request b →
    processor request = .ok r → ¬ Fits stream r rawRequest.capacity

/-- **The request is answered**: the task is enqueued once, and its response buffer holds the frame
of the response that is due. -/
def Answers (stream : ObjectStream ε) (processor : Request → Except ε (Response ε))
    (responseQueue : BoundedQueue (WorkerTask κ ByteBuffer)) (clientContext : κ)
    (rawRequest : ByteBuffer) : Prop :=
  ∃ response payload responseBuffer, Due stream processor rawRequest response ∧
    responseBytes stream response = some payload ∧ frame payload <+: responseBuffer.bytes ∧
    responseBuffer.position = (frame payload).length ∧
    (run stream processor responseQueue (WorkerTask.new clientContext rawRequest)).items =
      responseQueue.items ++ [⟨clientContext, none, some responseBuffer⟩]

section Runs

variable {processor : Request → Except ε (Response ε)}
  {responseQueue : BoundedQueue (WorkerTask κ ByteBuffer)} {clientContext : κ}
  {rawRequest b b' : ByteBuffer} {request : Request}

theorem run_of_undecodable {e : Throwable} (h : deserializeRequest rawRequest = .error e b) :
    run stream processor responseQueue (WorkerTask.new clientContext rawRequest) =
      responseQueue := by
  have hprocess : process stream processor responseQueue
      (WorkerTask.new clientContext rawRequest) = .error e := by
    unfold process WorkerTask.new WorkerTask.getAndRemoveRequestBuffer
    simp only [h]
  unfold run
  rw [hprocess]

theorem run_of_unfit {e : Throwable} (h : deserializeRequest rawRequest = .ok request b)
    (hr : respond stream (processor request) b = .error e) :
    run stream processor responseQueue (WorkerTask.new clientContext rawRequest) =
      responseQueue := by
  have hprocess : process stream processor responseQueue
      (WorkerTask.new clientContext rawRequest) = .error e := by
    unfold process WorkerTask.new WorkerTask.getAndRemoveRequestBuffer
    simp only [h, hr]
  unfold run
  rw [hprocess]

theorem items_run_of_fits (hroom : responseQueue.HasRoom)
    (h : deserializeRequest rawRequest = .ok request b)
    (hr : respond stream (processor request) b = .ok b') :
    (run stream processor responseQueue (WorkerTask.new clientContext rawRequest)).items =
      responseQueue.items ++ [⟨clientContext, none, some b'⟩] := by
  obtain ⟨queue, hadd⟩ := Option.ne_none_iff_exists'.mp fun hnone =>
    BoundedQueue.add_eq_none_iff (a := (⟨clientContext, none, some b'⟩ : WorkerTask κ ByteBuffer))
      |>.mp hnone hroom
  have hprocess : process stream processor responseQueue
      (WorkerTask.new clientContext rawRequest) = .ok queue := by
    unfold process WorkerTask.new WorkerTask.getAndRemoveRequestBuffer WorkerTask.setResponseBuffer
    simp only [h, hr, hadd]
  unfold run
  rw [hprocess]
  exact (BoundedQueue.add_eq_some_iff.mp hadd).2.2

/-- Decoding does not change the capacity. -/
theorem capacity_of_decoded (h : deserializeRequest rawRequest = .ok request b) :
    b.capacity = rawRequest.capacity := by
  obtain ⟨bs, -, -, rfl⟩ := (reads_deserializeRequest.ok_iff _ _ _).mp h
  rfl

/-- **A request is answered iff it can be decoded and its response fits the buffer.** -/
theorem run_answers_iff (hroom : responseQueue.HasRoom) :
    Answers stream processor responseQueue clientContext rawRequest ↔
      ∃ request, (∃ bs ∈ requestPayload.wire request, bs <+: rawRequest.rest) ∧
        Fits stream (responseOf (processor request)) rawRequest.capacity := by
  constructor
  · rintro ⟨response, payload, responseBuffer, -, -, -, -, hitems⟩
    cases hd : deserializeRequest rawRequest with
    | error e b =>
      rw [run_of_undecodable hd] at hitems
      simp at hitems
    | ok request b =>
      cases hr : respond stream (processor request) b with
      | error e =>
        rw [run_of_unfit hd hr] at hitems
        simp at hitems
      | ok b' =>
        obtain ⟨bs, hbs, hpre, -⟩ := (reads_deserializeRequest.ok_iff _ _ _).mp hd
        have hfits := isOk_respond_iff.mp ⟨b', hr⟩
        rw [capacity_of_decoded hd] at hfits
        exact ⟨request, ⟨bs, hbs, hpre⟩, hfits⟩
  · rintro ⟨request, ⟨bs, hbs, hpre⟩, hfits⟩
    have hd := (reads_deserializeRequest.ok_iff _ _ _).mpr ⟨bs, hbs, hpre, rfl⟩
    have hcap := capacity_of_decoded hd
    obtain ⟨b', hr⟩ := isOk_respond_iff.mpr (hcap.symm ▸ hfits)
    obtain ⟨payload, hp, hbytes, hposition⟩ := holds_frame hr
    refine ⟨_, payload, b', ?_, hp, hbytes, hposition, items_run_of_fits hroom hd hr⟩
    cases hproc : processor request with
    | ok response =>
      rw [hproc] at hfits
      exact Or.inl ⟨request, _, hd, hproc, hfits⟩
    | error ex =>
      refine Or.inr ⟨⟨_, rfl⟩, fun request' b₁ r hd' hr' => ?_⟩
      rw [hd] at hd'
      obtain rfl := (EStateM.Result.ok.inj hd').1
      rw [hproc] at hr'
      cases hr'

end Runs

/-! ### Examples -/

/-- A buffer that holds a request of twelve bytes and stands at its payload. -/
def pendingRequest : ByteBuffer where
  bytes := frame (requestPayload.enc (.queuesWithPendingMessages ⟨1⟩))
  position := 4
  limit := 12
  position_le := by decide
  limit_le := by decide
  capacity_lt := by decide

/-- A request is answered with a response of four bytes. -/
theorem run_answers_pending : Answers nullStream (fun _ => .ok (.sendMessage {}))
    (BoundedQueue.empty 1) () pendingRequest := by
  have hmem : requestPayload.enc (.queuesWithPendingMessages ⟨1⟩) ∈
      requestPayload.wire (.queuesWithPendingMessages ⟨1⟩) := requestPayload.enc_mem _ (by decide)
  exact (run_answers_iff (by decide)).mpr
    ⟨.queuesWithPendingMessages ⟨1⟩, ⟨_, hmem, List.prefix_refl _⟩, _, rfl, by decide⟩

/-- A frame of twelve zero bytes: there is no request with the type id 0. -/
theorem not_answers_unknown :
    (BoundedQueue.empty 1 : BoundedQueue (WorkerTask Unit ByteBuffer)).HasRoom ∧
      ¬ Answers nullStream (fun _ => .ok (.sendMessage {})) (BoundedQueue.empty 1) ()
        ((ByteBuffer.allocate 16 (by decide)).seek 4 (by decide)) := by
  refine ⟨by decide, ?_⟩
  rintro ⟨response, payload, responseBuffer, -, -, -, -, hitems⟩
  cases hd : deserializeRequest ((ByteBuffer.allocate 16 (by decide)).seek 4 (by decide)) with
  | error e b =>
    rw [run_of_undecodable hd] at hitems
    simp at hitems
  | ok request b =>
    obtain ⟨bs, hbs, hpre, -⟩ := (reads_deserializeRequest.ok_iff _ _ _).mp hd
    obtain ⟨u, rfl, v, -, rfl⟩ := Language.mem_mul.mp hbs
    have hid : intBytes request.getTypeId <+: List.replicate 12 0 :=
      (List.prefix_append _ v).trans hpre
    have hzero : intBytes request.getTypeId = intBytes 0 :=
      (List.prefix_of_prefix_length_le hid (by decide) (by simp)).eq_of_length (by simp)
    have hclass : request.getClass.serialVersionUID.toInt32 ≠ 0 := by
      cases request.getClass <;> decide
    exact hclass (intBytes_injective hzero)

end Mlmq.Server.Worker
