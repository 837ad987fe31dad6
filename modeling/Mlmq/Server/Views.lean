import Mlmq.Server.Flight
import Mlmq.Server.Reassembly

/-! # The broker and its parts

`Worker` and `Reassembly` speak about buffers as values, the broker refers to them by numbers. A
task of the broker stands for a task with values (`viewTask`). A worker of the broker does its task
step by step while others go on; what it has done so far (`Doing`) is a part of `Worker.process`,
and with the last step the response queue has become what `Worker.process` makes of it
(`Doing.step`). A read of the broker is a `selectRead` of `Reassembly` (`selectRead_view`). Both
rest on buffers having one owner. -/

namespace Mlmq.Server.Views

open Mlmq.Lib.Nio Mlmq.Lib.Slots Mlmq.Net.Requests Mlmq.Net.Responses Mlmq.Net.Factory
open Mlmq.Server.Connection Mlmq.Server.Worker Mlmq.Server.System Mlmq.Server.Ownership
open Mlmq.Server.Contents Mlmq.Server.Flight
open Mlmq.Lib.Queue (BoundedQueue)
open Mlmq.Util.ByteBufferUtil (ObjectStream)

variable {ε : Type} {s s' : Broker} {heap heap' : List ByteBuffer} {i w b : ℕ}
  {worker : WorkerState} {config : BrokerConfiguration} {stream : ObjectStream ε} {l : Label ε}
  {processor : Request → Except ε (Response ε)} {value : WorkerTask ℕ ByteBuffer}

/-! ### Views -/

/-- What a slot stands for. -/
def viewSlot (heap : List ByteBuffer) (slot : Option ℕ) : Option ByteBuffer := slot.bind (heap[·]?)

/-- The task with the buffers it refers to. -/
def viewTask (heap : List ByteBuffer) (task : Task) : WorkerTask ℕ ByteBuffer where
  clientContext := task.clientContext
  requestBuffer := viewSlot heap task.requestBuffer
  responseBuffer := viewSlot heap task.responseBuffer

def viewQueue (heap : List ByteBuffer) (queue : BoundedQueue Task) :
    BoundedQueue (WorkerTask ℕ ByteBuffer) := queue.map (viewTask heap)

theorem viewSlot_congr {slot : Option ℕ} (h : ∀ b ∈ slot, heap'[b]? = heap[b]?) :
    viewSlot heap' slot = viewSlot heap slot := by
  cases slot with
  | none => rfl
  | some b => exact h b rfl

theorem viewSlot_set {slot : Option ℕ} {buffer : ByteBuffer} (h : b ∉ slot) :
    viewSlot (heap.set b buffer) slot = viewSlot heap slot := by
  refine viewSlot_congr fun b' hb' => List.getElem?_set_ne ?_
  rintro rfl
  exact h hb'

theorem mem_taskSlots {task : Task} :
    b ∈ taskSlots task ↔ b ∈ task.requestBuffer ∨ b ∈ task.responseBuffer := by
  unfold taskSlots WorkerTask.close
  simp

/-- A task stands for the same while its buffers keep their bytes. -/
theorem viewTask_congr {task : Task} (h : ∀ b ∈ taskSlots task, heap'[b]? = heap[b]?) :
    viewTask heap' task = viewTask heap task := by
  unfold viewTask
  rw [viewSlot_congr fun b hb => h b (mem_taskSlots.mpr (Or.inl hb)),
    viewSlot_congr fun b hb => h b (mem_taskSlots.mpr (Or.inr hb))]

/-- What a worker refers to it refers to once. -/
theorem nodup_workerSlots (h : Inv s 0) (hw : s.workers[w]? = some worker) :
    (workerSlots worker).Nodup := by
  obtain ⟨rest, hsum, -⟩ := exists_sum_set workerSlots hw
  have hnd := h.exclusive.nodup
  unfold held at hnd
  rw [add_zero, hsum] at hnd
  exact Multiset.nodup_of_le (Multiset.le_add_right _ _)
    (Multiset.nodup_of_le (Multiset.le_add_left _ _) hnd)

/-! ### A worker and its task -/

/-- What a worker has done for the task `value`. -/
def Doing (stream : ObjectStream ε) (processor : Request → Except ε (Response ε))
    (value : WorkerTask ℕ ByteBuffer) (heap : List ByteBuffer) : WorkerState → Prop
  | .taken task => viewTask heap task = value
  | .processing task buffer request => ∃ raw raw', value.requestBuffer = some raw ∧
      deserializeRequest raw = .ok request raw' ∧ heap[buffer]? = some raw' ∧
      viewTask heap task = { value with requestBuffer := none }
  | .answered task => ∃ raw request raw' raw'', value.requestBuffer = some raw ∧
      deserializeRequest raw = .ok request raw' ∧
      respond stream (processor request) raw' = .ok raw'' ∧
      viewTask heap task = { value with requestBuffer := none, responseBuffer := some raw'' }
  | .idle | .posted _ => False

theorem Doing.congr (hd : Doing stream processor value heap worker)
    (h : ∀ b ∈ workerSlots worker, heap'[b]? = heap[b]?) :
    Doing stream processor value heap' worker := by
  cases worker with
  | idle => exact hd
  | posted dropped => exact hd
  | taken task => exact (viewTask_congr h).trans hd
  | processing task buffer request =>
    obtain ⟨raw, raw', h1, h2, h3, h4⟩ := hd
    refine ⟨raw, raw', h1, h2, (h buffer ?_).trans h3, (viewTask_congr fun b hb => h b ?_).trans h4⟩
    · exact Multiset.mem_add.mpr (Or.inr (Multiset.mem_singleton_self buffer))
    · exact Multiset.mem_add.mpr (Or.inl hb)
  | answered task =>
    obtain ⟨raw, request, raw', raw'', h1, h2, h3, h4⟩ := hd
    exact ⟨raw, request, raw', raw'', h1, h2, h3, (viewTask_congr h).trans h4⟩

/-- `process` fails for this task, whatever is in the response queue. -/
def Fails (stream : ObjectStream ε) (processor : Request → Except ε (Response ε))
    (value : WorkerTask ℕ ByteBuffer) : Prop :=
  ∃ e, ∀ queue, process stream processor queue value = .error e

theorem Doing.decode {task : Task} (h : Inv s 0) (hw : s.workers[w]? = some (.taken task))
    (hd : viewTask s.heap task = value) (hs : s.decode w = some s') :
    ∃ worker, s'.workers[w]? = some worker ∧ (Doing stream processor value s'.heap worker ∨
      worker = .idle ∧ Fails stream processor value) := by
  obtain ⟨task', hw', hdecode⟩ := Broker.decode_eq_some hs
  obtain rfl : task = task' := WorkerState.taken.inj (Option.some.inj (hw.symm.trans hw'))
  have hlt := (List.getElem?_eq_some_iff.mp hw).1
  rcases hdecode with ⟨hnone, rfl⟩ | ⟨buffer, raw, raw', worker, hbuffer, hraw, rfl, hd'⟩
  · refine ⟨.idle, List.getElem?_set_self hlt, Or.inr ⟨rfl, .nullPointer, fun queue => ?_⟩⟩
    subst hd
    unfold process WorkerTask.getAndRemoveRequestBuffer viewTask
    simp [hnone, viewSlot]
  · have hvalue : value.requestBuffer = some raw := by
      rw [← hd]
      unfold viewTask
      rw [hbuffer]
      exact hraw
    refine ⟨worker, List.getElem?_set_self hlt, ?_⟩
    rcases hd' with ⟨request, hok, rfl⟩ | ⟨e, herror, rfl⟩
    · refine Or.inl ⟨raw, raw', hvalue, hok, ?_, ?_⟩
      · exact List.getElem?_set_self (List.getElem?_eq_some_iff.mp hraw).1
      · -- the response slot does not refer to the request buffer
        have hnd : (taskSlots task).Nodup := nodup_workerSlots h hw
        have hslots : taskSlots task = {buffer} + (task.responseBuffer.toList : Multiset ℕ) := by
          unfold taskSlots WorkerTask.close
          rw [hbuffer, ← Multiset.coe_add]
          rfl
        rw [hslots, Multiset.nodup_add] at hnd
        have hne : buffer ∉ task.responseBuffer := by
          intro hmem
          refine Multiset.disjoint_left.mp hnd.2.2 (Multiset.mem_singleton_self buffer) ?_
          exact Multiset.mem_coe.mpr (Option.mem_toList.mpr hmem)
        show viewTask (s.heap.set buffer raw') { task with requestBuffer := none } = _
        rw [← hd]
        unfold viewTask
        dsimp only
        rw [viewSlot_set hne]
        rfl
    · refine Or.inr ⟨rfl, e, fun queue => ?_⟩
      unfold process WorkerTask.getAndRemoveRequestBuffer
      simp only [hvalue, herror]

theorem Doing.answer {task : Task} {buffer : ℕ} {request : Request} (h : Inv s 0)
    (hw : s.workers[w]? = some (.processing task buffer request))
    (hd : Doing stream processor value s.heap (.processing task buffer request))
    (hs : s.answer stream w (processor request) = some s') :
    ∃ worker, s'.workers[w]? = some worker ∧ (Doing stream processor value s'.heap worker ∨
      worker = .idle ∧ Fails stream processor value) := by
  obtain ⟨raw, raw', hvalue, hok, hbuffer, hview⟩ := hd
  obtain ⟨task', buffer', request', raw₁, raw'', worker, hw', hraw, rfl, hr⟩ :=
    Broker.answer_eq_some hs
  obtain ⟨rfl, rfl, rfl⟩ :=
    WorkerState.processing.inj (Option.some.inj (hw.symm.trans hw'))
  obtain rfl := Option.some.inj (hbuffer.symm.trans hraw)
  have hlt := (List.getElem?_eq_some_iff.mp hw).1
  refine ⟨worker, List.getElem?_set_self hlt, ?_⟩
  rcases hr with ⟨hr, rfl⟩ | ⟨e, hr, rfl⟩
  · have hrespond : respond stream (processor request) raw' = .ok raw'' := by
      unfold respond
      rw [hr]
    refine Or.inl ⟨raw, request, raw', raw'', hvalue, hok, hrespond, ?_⟩
    have hnd : (taskSlots task + {buffer}).Nodup := nodup_workerSlots h hw
    have hne : buffer ∉ task.requestBuffer := by
      intro hmem
      refine Multiset.disjoint_right.mp (Multiset.nodup_add.mp hnd).2.2
        (Multiset.mem_singleton_self buffer) (mem_taskSlots.mpr (Or.inl hmem))
    have hrequest : viewSlot s.heap task.requestBuffer = none := congrArg (·.requestBuffer) hview
    have hcontext : task.clientContext = value.clientContext := congrArg (·.clientContext) hview
    have hnew : (s.heap.set buffer raw'')[buffer]? = some raw'' :=
      List.getElem?_set_self (List.getElem?_eq_some_iff.mp hraw).1
    show viewTask (s.heap.set buffer raw'') { task with responseBuffer := some buffer } = _
    unfold viewTask
    dsimp only
    rw [viewSlot_set hne, hrequest, hcontext]
    simp [viewSlot, hnew]
  · refine Or.inr ⟨rfl, e, fun queue => ?_⟩
    have hrespond : respond stream (processor request) raw' = .error e := by
      unfold respond
      rw [hr]
    unfold process WorkerTask.getAndRemoveRequestBuffer
    simp only [hvalue, hok, hrespond]

/-- The worker puts into the response queue what `process` puts there. -/
theorem Doing.post {task : Task} (hw : s.workers[w]? = some (.answered task))
    (hd : Doing stream processor value s.heap (.answered task)) (hs : s.post w = some s') :
    process stream processor (viewQueue s.heap s.responseQueue) value =
      .ok (viewQueue s'.heap s'.responseQueue) := by
  obtain ⟨raw, request, raw', raw'', hvalue, hok, hrespond, hview⟩ := hd
  obtain ⟨task', hw', hpost⟩ := Broker.post_eq_some hs
  obtain rfl : task = task' := WorkerState.answered.inj (Option.some.inj (hw.symm.trans hw'))
  have hadd : (viewQueue s.heap s.responseQueue).add (viewTask s.heap task) =
      (s.responseQueue.add task).map (viewQueue s.heap) := BoundedQueue.add_map _ _ _
  rw [hview] at hadd
  have hprocess : process stream processor (viewQueue s.heap s.responseQueue) value =
      .ok (((s.responseQueue.add task).map (viewQueue s.heap)).getD
        (viewQueue s.heap s.responseQueue)) := by
    unfold process WorkerTask.getAndRemoveRequestBuffer WorkerTask.setResponseBuffer
    simp only [hvalue, hok, hrespond, hadd]
    cases (s.responseQueue.add task).map (viewQueue s.heap) <;> rfl
  rw [hprocess]
  rcases hpost with ⟨responseQueue, hsome, rfl⟩ | ⟨hnone, rfl⟩
  · rw [hsome]
    rfl
  · rw [hnone]
    rfl

/-- **A worker of the broker does what `process` does**, while the reactor and the other workers go
on: it has done a part of it, or it has ended without a response because `process` fails, or the
response queue has become what `process` makes of it. -/
theorem Doing.step (h : Inv s 0) (hw : s.workers[w]? = some worker)
    (hd : Doing stream processor value s.heap worker) (hs : Step config stream s l s')
    (hl : ∀ task buffer request outcome, l = .answer w outcome →
      worker = .processing task buffer request → outcome = processor request) :
    (∃ worker', s'.workers[w]? = some worker' ∧
      (Doing stream processor value s'.heap worker' ∨
        worker' = .idle ∧ Fails stream processor value)) ∨
    l = .post w ∧ process stream processor (viewQueue s.heap s.responseQueue) value =
      .ok (viewQueue s'.heap s'.responseQueue) := by
  by_cases hactor : actor l = some w
  · obtain ⟨-, hs⟩ := hs
    cases l with
    | take w' =>
      obtain rfl := Option.some.inj hactor
      obtain ⟨task, requestQueue, hidle, -⟩ := Broker.take_eq_some hs
      obtain rfl := Option.some.inj (hw.symm.trans hidle)
      exact hd.elim
    | decode w' =>
      obtain rfl := Option.some.inj hactor
      obtain ⟨task, htaken, -⟩ := Broker.decode_eq_some hs
      obtain rfl := Option.some.inj (hw.symm.trans htaken)
      exact Or.inl (Doing.decode h hw hd hs)
    | answer w' outcome =>
      obtain rfl := Option.some.inj hactor
      obtain ⟨task, buffer, request, -, -, -, hprocessing, -⟩ := Broker.answer_eq_some hs
      obtain rfl := Option.some.inj (hw.symm.trans hprocessing)
      obtain rfl := hl task buffer request outcome rfl rfl
      exact Or.inl (Doing.answer h hw hd hs)
    | post w' =>
      obtain rfl := Option.some.inj hactor
      obtain ⟨task, hanswered, -⟩ := Broker.post_eq_some hs
      obtain rfl := Option.some.inj (hw.symm.trans hanswered)
      exact Or.inr ⟨rfl, Doing.post hw hd hs⟩
    | wake w' =>
      obtain rfl := Option.some.inj hactor
      obtain ⟨dropped, hposted, -⟩ := Broker.wake_eq_some hs
      obtain rfl := Option.some.inj (hw.symm.trans hposted)
      exact hd.elim
    | _ => cases hactor
  · refine Or.inl ⟨worker, (worker_of_step h hs hactor).trans hw, Or.inl (hd.congr fun b hb => ?_)⟩
    exact heap_of_step h hs hw hb hactor

/-! ### Reads -/

/-- A connection with the buffers it refers to; `rxBuffer` is the receive buffer. -/
def viewClient (heap : List ByteBuffer) (i : ℕ) (client : Client) (rxBuffer : ByteBuffer) :
    ConnectedClient ℕ ByteBuffer where
  clientApplicationContext := i
  rxBuffer
  txBuffer := viewSlot heap client.txBuffer
  selectionKey := client.selectionKey

/-- Buffers of requests are neither in the pool nor with a connection. -/
theorem apart_request {task : Task} (h : Inv s 0) (ht : task ∈ s.requestQueue.items)
    (hb : b ∈ taskSlots task) : b < s.heap.length ∧ b ∉ s.pooledBuffers ∧
      ∀ client, s.clients[i]? = some client → b ∉ clientSlots client := by
  obtain ⟨k, hk⟩ := List.getElem?_of_mem ht
  have hsum : b ∈ (s.requestQueue.items.map taskSlots).sum := mem_sum hk hb
  have hnd := h.exclusive.nodup
  have hlt := h.exclusive.lt b
  rw [add_zero] at hnd
  unfold held at hnd hlt
  simp only [Multiset.nodup_add, Multiset.mem_add, hsum, true_or, or_true, forall_const] at hnd hlt
  obtain ⟨⟨⟨-, -, hdisj⟩, -⟩, -⟩ := hnd
  have hnot := fun hmem => Multiset.disjoint_left.mp hdisj hmem hsum
  simp only [Multiset.mem_add] at hnot
  exact ⟨hlt, fun hmem => hnot (Or.inl (Multiset.mem_coe.mpr hmem)),
    fun client hi hmem => hnot (Or.inr (mem_sum hi hmem))⟩

/-- The receive slot is not the send slot. -/
theorem rxBuffer_notMem {client : Client} (h : Inv s 0) (hi : s.clients[i]? = some client)
    (hvalid : client.selectionKey.isValid = true) : client.rxBuffer ∉ client.txBuffer := by
  obtain ⟨rest, hsum, -⟩ := exists_sum_set clientSlots hi
  have hnd := h.exclusive.nodup
  rw [add_zero] at hnd
  unfold held at hnd
  rw [hsum, clientSlots_of_valid hvalid] at hnd
  simp only [Multiset.nodup_add] at hnd
  obtain ⟨⟨⟨⟨-, ⟨⟨-, -, hdisj⟩, -⟩, -⟩, -⟩, -⟩, -⟩ := hnd
  intro hmem
  refine Multiset.disjoint_left.mp hdisj (Multiset.mem_singleton_self _) ?_
  exact Multiset.mem_coe.mpr (Option.mem_toList.mpr hmem)

/-- What comes out of the pool has been cleared. -/
theorem heap_aquired (config : BrokerConfiguration) (h : Exclusive (held s + 0) s.heap.length) :
    ∃ pooledBuffer : ByteBuffer, (s.aquire config).2.heap[(s.aquire config).1]? = some pooledBuffer.clear := by
  unfold Broker.aquire
  split
  · rename_i buffer pooledBuffers hpool
    have hmem : buffer ∈ held s + 0 := by
      unfold held
      rw [hpool]
      simp
    have hlt := h.lt buffer hmem
    refine ⟨s.heap[buffer], ?_⟩
    rw [List.getElem?_modify_eq, List.getElem?_eq_getElem hlt]
    rfl
  · exact ⟨_, List.getElem?_concat_length⟩

section Read

variable {client : Client} {rxBuffer : ByteBuffer} {chunk : List UInt8}

/-- A read leaves the queued requests as they are. -/
theorem viewQueue_selectRead (h : Inv s 0) (hi : s.clients[i]? = some client)
    (hvalid : client.selectionKey.isValid = true)
    (hs : s.selectRead config i (some chunk) = some s') :
    viewQueue s'.heap s.requestQueue = viewQueue s.heap s.requestQueue := by
  refine BoundedQueue.map_congr fun task htask => viewTask_congr fun b hb => ?_
  obtain ⟨hlt, hpool, hclient⟩ := apart_request h htask hb
  refine heap_selectRead hlt hpool hi ?_ hs
  rintro rfl
  refine hclient client hi ?_
  rw [clientSlots_of_valid hvalid]
  simp

/-- A read leaves the send buffer of the connection as it is. -/
theorem viewSlot_selectRead (h : Inv s 0) (hi : s.clients[i]? = some client)
    (hvalid : client.selectionKey.isValid = true)
    (hs : s.selectRead config i (some chunk) = some s') :
    viewSlot s'.heap client.txBuffer = viewSlot s.heap client.txBuffer := by
  refine viewSlot_congr fun b hb => ?_
  have hmem : b ∈ clientSlots client := by
    rw [clientSlots_of_valid hvalid]
    exact Multiset.mem_add.mpr (Or.inr (Multiset.mem_coe.mpr (Option.mem_toList.mpr hb)))
  obtain ⟨hlt, hpool⟩ := apart_client h hi hmem
  refine heap_selectRead hlt hpool hi ?_ hs
  rintro rfl
  exact rxBuffer_notMem h hi hvalid hb

/-- **A read of the broker is a read of `Reassembly`** on the connection and the request queue with
the buffers they refer to. -/
theorem selectRead_view (h : Inv s 0) (hi : s.clients[i]? = some client)
    (hrx : s.heap[client.rxBuffer]? = some rxBuffer)
    (hs : s.selectRead config i (some chunk) = some s') :
    ∃ pooledBuffer client' rxBuffer', s'.clients[i]? = some client' ∧
      s'.heap[client'.rxBuffer]? = some rxBuffer' ∧
      Reassembly.selectRead (viewClient s.heap i client rxBuffer)
          ⟨chunk, pooledBuffer, viewQueue s.heap s.requestQueue⟩ =
        (viewClient s'.heap i client' rxBuffer', viewQueue s'.heap s'.requestQueue) := by
  obtain ⟨client₀, rxBuffer₀, s₁, hi₀, hvalid, hrx₀, hs₁, hs'⟩ := Broker.selectRead_eq_some hs
  obtain rfl := Option.some.inj (hi.symm.trans hi₀)
  obtain rfl := Option.some.inj (hrx.symm.trans hrx₀)
  have hqueue := viewQueue_selectRead h hi hvalid hs
  have htx := viewSlot_selectRead h hi hvalid hs
  simp only [Option.getD_some, Option.isNone_some, Bool.false_eq_true, if_false] at hs₁ hs'
  have hi₁ : s₁.clients[i]? = some client := hs₁ ▸ hi
  have hrx₁ : s₁.heap[client.rxBuffer]? = some (afterTest (rxBuffer.write chunk)) := by
    rw [hs₁]
    exact List.getElem?_set_self (List.getElem?_eq_some_iff.mp hrx).1
  by_cases hcomplete : Complete (rxBuffer.write chunk)
  · rw [if_pos hcomplete] at hs'
    have h₁ : Inv s₁ 0 := hs₁ ▸ h.setHeap List.length_set
    obtain ⟨pooledBuffer, hpooled⟩ := heap_aquired config h₁.exclusive
    have hheap : s'.heap = (s₁.aquire config).2.heap := by rw [hs', heap_takeMessage]
    have hclient : s'.clients[i]? = some { client with rxBuffer := (s₁.aquire config).1 } := by
      rw [hs', clients_takeMessage]
      exact List.getElem?_set_self (List.getElem?_eq_some_iff.mp hi₁).1
    -- the buffer with the message is not the one from the pool
    have hmessage : s'.heap[client.rxBuffer]? = some (afterTest (rxBuffer.write chunk)) := by
      have hmem : client.rxBuffer ∈ clientSlots client := by
        rw [clientSlots_of_valid hvalid]
        simp
      obtain ⟨hlt, hpool⟩ := apart_client h₁ hi₁ hmem
      rw [hheap, heap_aquire hlt hpool, hrx₁]
    have htask : viewTask s'.heap (WorkerTask.new i client.rxBuffer) =
        WorkerTask.new i (afterTest (rxBuffer.write chunk)) := by
      unfold viewTask WorkerTask.new
      simp [viewSlot, hmessage]
    have hadd := BoundedQueue.add_map (viewTask s'.heap) s.requestQueue
      (WorkerTask.new i client.rxBuffer)
    rw [htask] at hadd
    have hrequests : s'.requestQueue =
        (s.requestQueue.add (WorkerTask.new i client.rxBuffer)).getD s.requestQueue := by
      rw [hs', requestQueue_takeMessage, hs₁]
    have hview : viewQueue s'.heap s'.requestQueue =
        Reassembly.onMessage (viewClient s.heap i client rxBuffer)
          (afterTest (rxBuffer.write chunk)) (viewQueue s.heap s.requestQueue) := by
      unfold Reassembly.onMessage viewClient
      dsimp only
      rw [← hqueue, show (viewQueue s'.heap s.requestQueue).add _ = _ from hadd, hrequests]
      cases s.requestQueue.add (WorkerTask.new i client.rxBuffer) <;> rfl
    refine ⟨pooledBuffer, _, pooledBuffer.clear, hclient, by rw [hheap]; exact hpooled, ?_⟩
    unfold Reassembly.selectRead
    dsimp only [viewClient]
    rw [receive_eq, decide_eq_true hcomplete]
    refine Prod.ext ?_ hview.symm
    show (⟨i, pooledBuffer.clear, viewSlot s.heap client.txBuffer, client.selectionKey⟩ :
      ConnectedClient ℕ ByteBuffer) = ⟨i, pooledBuffer.clear, viewSlot s'.heap client.txBuffer, _⟩
    rw [htx]
  · rw [if_neg hcomplete] at hs'
    have hrequests : s'.requestQueue = s.requestQueue := by rw [hs', hs₁]
    refine ⟨rxBuffer, client, _, hs' ▸ hi₁, hs' ▸ hrx₁, ?_⟩
    rw [Reassembly.selectRead_of_incomplete hcomplete, hrequests, hqueue]
    unfold viewClient
    rw [htx]
    rfl

end Read

end Mlmq.Server.Views
