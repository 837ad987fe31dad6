import Mlmq.Server.Motion
import Mlmq.Server.Views

/-! # The traffic of one connection

What a connection has received, which tasks have been enqueued for it, which of its responses the
response queue has accepted and which bytes have been written to its socket, over a run. `unsent`
is what the broker still has to write: the rest of the send buffer, and the responses that wait.

A connection and its buffers stay as they are while the broker deals with other connections
(`kept_of_step`), and a response stays as it is while it waits (`queued_of_step`). -/

namespace Mlmq.Server.Traffic

open Mlmq.Lib.Nio Mlmq.Lib.Slots Mlmq.Lib.Transition Mlmq.Net.Responses
open Mlmq.Server.Connection Mlmq.Server.System Mlmq.Server.Ownership Mlmq.Server.Contents
open Mlmq.Server.Flight Mlmq.Server.Views Mlmq.Server.Motion
open Mlmq.Lib.Queue (BoundedQueue)
open Mlmq.Util.ByteBufferUtil (ObjectStream)

variable {ε : Type} {s s' : Broker} {i j w b : ℕ} {client : Client} {task : Task}
  {config : BrokerConfiguration} {stream : ObjectStream ε} {l : Label ε} {ls : List (Label ε)}

/-! ### Traffic -/

/-- The frame of the request of a task: as many bytes as the length field says. -/
def requestFrame (heap : List ByteBuffer) (task : Task) : List UInt8 :=
  (viewSlot heap task.requestBuffer).elim [] fun b => b.bytes.take (4 + header b).toNat

/-- The response of a task: the bytes before the position. -/
def responseFrame (heap : List ByteBuffer) (task : Task) : List UInt8 :=
  (viewSlot heap task.responseBuffer).elim [] fun b => b.bytes.take b.position

/-- The bytes that a write on a connection takes from. -/
def sendBuffer (s : Broker) (i : ℕ) : List UInt8 :=
  (s.clients[i]?).elim [] fun client => (viewSlot s.heap client.txBuffer).elim [] ByteBuffer.rest

/-- The tasks of a connection. -/
def tasksOf (i : ℕ) (tasks : List Task) : List Task := tasks.filter fun task => task.clientContext = i

/-- What has happened on a connection. -/
structure Ledger where
  received : List UInt8
  tasks : List (List UInt8)
  accepted : List (List UInt8)
  written : List UInt8

namespace Ledger

def empty : Ledger := ⟨[], [], [], []⟩

/-- The entries for a step from `s` to `s'`. -/
def record (i : ℕ) (T : Ledger) (s s' : Broker) : Label ε → Ledger
  | .read j chunk =>
    { T with
      received := if j = i then T.received ++ chunk.getD [] else T.received
      tasks := T.tasks ++ (tasksOf i (s'.requestQueue.items.drop s.requestQueue.items.length)).map
        (requestFrame s'.heap) }
  | .post _ =>
    { T with
      accepted := T.accepted ++
        (tasksOf i (s'.responseQueue.items.drop s.responseQueue.items.length)).map
          (responseFrame s'.heap) }
  | .write j byteCount =>
    if j = i then { T with written := T.written ++ (sendBuffer s i).take byteCount } else T
  | _ => T

theorem record_read (i : ℕ) (T : Ledger) (s s' : Broker) (chunk : Option (List UInt8)) :
    T.record i s s' (.read i chunk : Label ε) =
      { T with
        received := T.received ++ chunk.getD []
        tasks := T.tasks ++ (tasksOf i (s'.requestQueue.items.drop s.requestQueue.items.length)).map
          (requestFrame s'.heap) } := by
  dsimp only [record]
  rw [if_pos rfl]

theorem record_write (i : ℕ) (T : Ledger) (s s' : Broker) (byteCount : ℕ) :
    T.record i s s' (.write i byteCount : Label ε) =
      { T with written := T.written ++ (sendBuffer s i).take byteCount } := if_pos rfl

end Ledger

/-- The traffic of the connection `i` in a run. -/
def traffic (config : BrokerConfiguration) (stream : ObjectStream ε) (i : ℕ) :
    Broker → List (Label ε) → Ledger → Ledger
  | _, [], T => T
  | s, l :: ls, T =>
    (next config stream s l).elim T fun s' => traffic config stream i s' ls (T.record i s s' l)

/-! ### What is still to be written -/

/-- The rest of the send buffer, while the key waits for the socket. -/
def sending (heap : List ByteBuffer) (client : Client) : List UInt8 :=
  if client.selectionKey.opWrite then (viewSlot heap client.txBuffer).elim [] ByteBuffer.rest else []

/-- The responses of a connection that wait. -/
def queued (s : Broker) (i : ℕ) : List UInt8 :=
  (tasksOf i s.responseQueue.items).flatMap (responseFrame s.heap)

/-- What the broker still has to write to a connection. -/
def unsent (s : Broker) (i : ℕ) : List UInt8 :=
  (s.clients[i]?).elim [] (sending s.heap) ++ queued s i

theorem sending_congr {heap heap' : List ByteBuffer}
    (h : ∀ b ∈ client.txBuffer, heap'[b]? = heap[b]?) : sending heap' client = sending heap client := by
  unfold sending
  rw [viewSlot_congr h]

theorem responseFrame_congr {heap heap' : List ByteBuffer}
    (h : ∀ b ∈ task.responseBuffer, heap'[b]? = heap[b]?) :
    responseFrame heap' task = responseFrame heap task := by
  unfold responseFrame
  rw [viewSlot_congr h]

/-- After a write the rest of the buffer is still to be written. -/
theorem client_afterWrite {tx : ℕ} {txBuffer : ByteBuffer} (hi : s.clients[i]? = some client)
    (hop : client.selectionKey.opWrite = true) (htx : client.txBuffer = some tx)
    (hheap : s.heap[tx]? = some txBuffer) :
    (s.afterWrite i client tx txBuffer).heap = s.heap ∧ ∃ client',
      (s.afterWrite i client tx txBuffer).clients[i]? = some client' ∧
      client'.rxBuffer = client.rxBuffer ∧ sending s.heap client' = txBuffer.rest := by
  unfold Broker.afterWrite
  split_ifs with hremaining
  · refine ⟨rfl, client, hi, rfl, ?_⟩
    unfold sending viewSlot
    rw [if_pos hop, htx, Option.bind_some, hheap]
    rfl
  · refine ⟨rfl, _, List.getElem?_set_self (List.getElem?_eq_some_iff.mp hi).1, rfl, ?_⟩
    have hdone : txBuffer.rest = [] := by
      rw [← List.length_eq_zero_iff, ByteBuffer.length_rest, ByteBuffer.remaining]
      simp only [ByteBuffer.hasRemaining, decide_eq_true_eq] at hremaining
      omega
    rw [hdone]
    rfl

/-! ### Other connections -/

/-- No other connection has a buffer of this one. -/
theorem notMem_other {other : Client} (h : Inv s 0) (hi : s.clients[i]? = some client)
    (hj : s.clients[j]? = some other) (hne : j ≠ i) (hb : b ∈ clientSlots client) :
    b ∉ clientSlots other := by
  have hnd := h.exclusive.nodup
  rw [add_zero] at hnd
  unfold held at hnd
  simp only [Multiset.nodup_add] at hnd
  obtain ⟨⟨⟨⟨-, hclients, -⟩, -⟩, -⟩, -⟩ := hnd
  exact Multiset.disjoint_left.mp (disjoint_of_nodup_sum hclients hi hj hne.symm) hb

theorem ne_flight {x : Motion.Flight} (h : Inv s 0) (hi : s.clients[i]? = some client)
    (hb : b ∈ clientSlots client) (hx : x ∈ flights s) : x.buffer ≠ b := by
  rintro rfl
  exact (notMem_of_flight h hx).2 i client hi hb

theorem clients_disconnectCLient_of_ne (hne : j ≠ i) :
    (s.disconnectCLient j).clients[i]? = s.clients[i]? := by
  unfold Broker.disconnectCLient
  split
  · rfl
  · exact List.getElem?_set_ne hne

theorem clients_takeMessage_of_ne {other : Client} (hne : j ≠ i) :
    (s.takeMessage config j other).clients[i]? = s.clients[i]? := by
  rw [clients_takeMessage]
  exact List.getElem?_set_ne hne

theorem clients_selectRead_of_ne {chunk : Option (List UInt8)} (hne : j ≠ i)
    (hs : s.selectRead config j chunk = some s') : s'.clients[i]? = s.clients[i]? := by
  obtain ⟨other, rxBuffer, s₁, -, -, -, hs₁, rfl⟩ := Broker.selectRead_eq_some hs
  have h₁ : s₁.clients[i]? = s.clients[i]? := by rw [hs₁]
  split_ifs <;> simp only [clients_disconnectCLient_of_ne hne, clients_takeMessage_of_ne hne, h₁]

theorem clients_selectWrite_of_ne {byteCount : ℕ} (hne : j ≠ i)
    (hs : s.selectWrite j byteCount = some s') : s'.clients[i]? = s.clients[i]? := by
  obtain ⟨other, -, -, ⟨-, rfl⟩ | ⟨tx, txBuffer, -, -, -, rfl⟩⟩ := Broker.selectWrite_eq_some hs
  · exact clients_disconnectCLient_of_ne hne
  · unfold Broker.afterWrite
    split_ifs
    · rfl
    · exact List.getElem?_set_ne hne

/-- The buffer that a worker writes into is on its way. -/
theorem mem_flights_of_worker {worker : WorkerState} {x : Motion.Flight}
    (hw : s.workers[w]? = some worker) (hx : x ∈ workerFlights worker) : x ∈ flights s := by
  rw [flights_eq_add_idle hw]
  exact Multiset.mem_add.mpr (Or.inl hx)

/-- A connection and its buffers, in both states. -/
structure Kept (s s' : Broker) (i : ℕ) : Prop where
  clients : s'.clients[i]? = s.clients[i]?
  heap : ∀ client, s.clients[i]? = some client → ∀ b ∈ clientSlots client,
    s'.heap[b]? = s.heap[b]?

/-- **A connection and its buffers stay as they are** while the broker does something else. -/
theorem kept_of_step (h : Inv s 0) (hs : Step config stream s l s')
    (haccept : l = .accept → i < s.clients.length) (hread : ∀ chunk, l ≠ .read i chunk)
    (hwrite : ∀ byteCount, l ≠ .write i byteCount) (hfails : l ≠ .fails i)
    (hqueue : l ≠ .selectQueue) : Kept s s' i := by
  obtain ⟨-, hs⟩ := hs
  cases l with
  | select => exact Option.some.inj hs ▸ ⟨rfl, fun _ _ _ _ => rfl⟩
  | accept =>
    obtain rfl := Option.some.inj hs
    refine ⟨?_, fun client hi b hb => ?_⟩
    · unfold Broker.selectAccept
      dsimp only
      rw [clients_aquire, clients_aquire]
      exact List.getElem?_append_left (haccept rfl)
    · obtain ⟨hlt, hpool⟩ := apart_client h hi hb
      exact heap_selectAccept hlt hpool
  | acceptFails => exact Option.some.inj hs ▸ ⟨rfl, fun _ _ _ _ => rfl⟩
  | read j chunk =>
    have hne : j ≠ i := fun heq => hread chunk (heq ▸ rfl)
    refine ⟨clients_selectRead_of_ne hne hs, fun client hi b hb => ?_⟩
    obtain ⟨other, -, -, hj, hvalid, -⟩ := Broker.selectRead_eq_some hs
    obtain ⟨hlt, hpool⟩ := apart_client h hi hb
    refine heap_selectRead hlt hpool hj ?_ hs
    rintro rfl
    refine notMem_other h hi hj hne hb ?_
    rw [clientSlots_of_valid hvalid]
    simp
  | write j byteCount =>
    have hne : j ≠ i := fun heq => hwrite byteCount (heq ▸ rfl)
    exact ⟨clients_selectWrite_of_ne hne hs, fun client hi b hb =>
      heap_selectWrite (fun other hj => notMem_other h hi hj hne hb) hs⟩
  | fails j =>
    have hne : j ≠ i := fun heq => hfails (heq ▸ rfl)
    obtain ⟨other, -, -, rfl⟩ := Broker.selectFails_eq_some hs
    exact ⟨clients_disconnectCLient_of_ne hne, fun _ _ _ _ => by rw [heap_disconnectCLient]⟩
  | keysDone => exact Option.some.inj hs ▸ ⟨rfl, fun _ _ _ _ => rfl⟩
  | selectQueue => exact absurd rfl hqueue
  | take w =>
    obtain ⟨task, requestQueue, -, -, rfl⟩ := Broker.take_eq_some hs
    exact ⟨rfl, fun _ _ _ _ => rfl⟩
  | decode w =>
    obtain ⟨task, hw, ⟨-, rfl⟩ | ⟨buffer, rawRequest, rawRequest', worker, hbuffer, -, rfl, -⟩⟩ :=
      Broker.decode_eq_some hs
    · exact ⟨rfl, fun _ _ _ _ => rfl⟩
    · refine ⟨rfl, fun client hi b hb => List.getElem?_set_ne ?_⟩
      refine ne_flight (x := ⟨.requested, task.clientContext, buffer⟩) h hi hb ?_
      refine mem_flights_of_worker hw ?_
      unfold workerFlights requestFlight
      simp [hbuffer]
  | answer w outcome =>
    obtain ⟨task, buffer, request, rawRequest, rawRequest', worker, hw, -, rfl, -⟩ :=
      Broker.answer_eq_some hs
    refine ⟨rfl, fun client hi b hb => List.getElem?_set_ne ?_⟩
    refine ne_flight (x := ⟨.processing request, task.clientContext, buffer⟩) h hi hb ?_
    exact mem_flights_of_worker hw (Multiset.mem_singleton_self _)
  | post w =>
    obtain ⟨task, -, ⟨responseQueue, -, rfl⟩ | ⟨-, rfl⟩⟩ := Broker.post_eq_some hs <;>
      exact ⟨rfl, fun _ _ _ _ => rfl⟩
  | wake w =>
    obtain ⟨dropped, -, rfl⟩ := Broker.wake_eq_some hs
    exact ⟨rfl, fun _ _ _ _ => rfl⟩

/-! ### The responses that wait -/

/-- The response queue changes when a worker posts its task, and in `selectQueue`. -/
theorem responseQueue_of_step (hs : Step config stream s l s') (hpost : ∀ w, l ≠ .post w)
    (hqueue : l ≠ .selectQueue) : s'.responseQueue = s.responseQueue := by
  obtain ⟨-, hs⟩ := hs
  cases l with
  | select => exact Option.some.inj hs ▸ rfl
  | accept => exact Option.some.inj hs ▸ responseQueue_selectAccept
  | acceptFails => exact Option.some.inj hs ▸ rfl
  | read j chunk => exact responseQueue_selectRead hs
  | write j byteCount => exact (queues_selectWrite hs).2.1
  | fails j =>
    obtain ⟨other, -, -, rfl⟩ := Broker.selectFails_eq_some hs
    exact responseQueue_disconnectCLient
  | keysDone => exact Option.some.inj hs ▸ rfl
  | selectQueue => exact absurd rfl hqueue
  | take w =>
    obtain ⟨task, requestQueue, -, -, rfl⟩ := Broker.take_eq_some hs
    rfl
  | decode w =>
    obtain ⟨task, -, ⟨-, rfl⟩ | ⟨buffer, rawRequest, rawRequest', worker, -, -, rfl, -⟩⟩ :=
      Broker.decode_eq_some hs <;> rfl
  | answer w outcome =>
    obtain ⟨task, buffer, request, rawRequest, rawRequest', worker, -, -, rfl, -⟩ :=
      Broker.answer_eq_some hs
    rfl
  | post w => exact absurd rfl (hpost w)
  | wake w =>
    obtain ⟨dropped, -, rfl⟩ := Broker.wake_eq_some hs
    rfl

theorem mem_flights_of_response (ht : task ∈ s.responseQueue.items) (hb : b ∈ task.responseBuffer) :
    (⟨.responded, task.clientContext, b⟩ : Motion.Flight) ∈ flights s := by
  have hflight : (⟨.responded, task.clientContext, b⟩ : Motion.Flight) ∈ responseFlight task := by
    unfold responseFlight
    rw [Option.mem_def.mp hb]
    exact Multiset.mem_singleton_self _
  obtain ⟨k, hk⟩ := List.getElem?_of_mem ht
  exact Multiset.mem_add.mpr (Or.inl (Multiset.mem_add.mpr (Or.inr (mem_sum hk hflight))))

/-- **A response stays as it is while it waits.** -/
theorem responseFrame_of_step (h : Inv s 0) (hshape : Shaped s) (hs : Step config stream s l s')
    (hqueue : l ≠ .selectQueue) (ht : task ∈ s.responseQueue.items) :
    responseFrame s'.heap task = responseFrame s.heap task := by
  refine responseFrame_congr fun b hb => ?_
  have hx := mem_flights_of_response ht hb
  have hquiet : Quiet s s' → s'.responseQueue = s.responseQueue → s'.heap[b]? = s.heap[b]? :=
    fun hquiet heq => hquiet.heap _ (mem_flights_of_response (heq ▸ ht) hb)
  cases l with
  | read j chunk => exact (flights_selectRead h hs.2).1 _ hx
  | decode w =>
    rcases flights_decode h hshape hs.2 with hq | ⟨c, b', raw, request, raw', rest, hflights, -, -,
      -, -, hrest⟩
    · exact hquiet hq (responseQueue_of_step hs (by simp) (by simp))
    · rw [hflights, Multiset.mem_cons] at hx
      rcases hx with hx | hx
      · cases hx
      · exact hrest _ hx
  | answer w outcome =>
    obtain ⟨c, b', request, raw, rest, -, -, hflights, hrest, -⟩ := flights_answer h hshape hs.2
    rw [hflights, Multiset.mem_cons] at hx
    rcases hx with hx | hx
    · cases hx
    · exact hrest _ hx
  | selectQueue => exact absurd rfl hqueue
  | post w =>
    obtain ⟨task, -, ⟨responseQueue, -, rfl⟩ | ⟨-, rfl⟩⟩ := Broker.post_eq_some hs.2 <;> rfl
  | _ =>
    exact hquiet (quiet_of_step h hs (by simp) (by simp) (by simp) (by simp))
      (responseQueue_of_step hs (by simp) (by simp))

theorem queued_of_items (hitems : s'.responseQueue.items = s.responseQueue.items)
    (hframe : ∀ task ∈ s.responseQueue.items,
      responseFrame s'.heap task = responseFrame s.heap task) : queued s' i = queued s i := by
  unfold queued
  rw [hitems]
  exact List.flatMap_congr fun task ht => hframe task (List.mem_of_mem_filter ht)

/-- The responses that wait stay the same. -/
theorem queued_of_step (h : Inv s 0) (hshape : Shaped s) (hs : Step config stream s l s')
    (hpost : ∀ w, l ≠ .post w) (hqueue : l ≠ .selectQueue) : queued s' i = queued s i :=
  queued_of_items (by rw [responseQueue_of_step hs hpost hqueue])
    fun _ ht => responseFrame_of_step h hshape hs hqueue ht

/-- A worker posts its task. -/
theorem queued_post (hs : s.post w = some s') :
    queued s' i = queued s i ++
      ((tasksOf i (s'.responseQueue.items.drop s.responseQueue.items.length)).map
        (responseFrame s'.heap)).flatten := by
  obtain ⟨task, -, ⟨responseQueue, hadd, rfl⟩ | ⟨-, rfl⟩⟩ := Broker.post_eq_some hs
  · unfold queued tasksOf
    show List.flatMap (responseFrame s.heap) (responseQueue.items.filter _) = _ ++
      (((responseQueue.items.drop _).filter _).map (responseFrame s.heap)).flatten
    rw [(BoundedQueue.add_eq_some_iff.mp hadd).2.2, List.drop_left, List.filter_append,
      List.flatMap_append]
    rfl
  · show queued s i = _ ++ ((tasksOf i (s.responseQueue.items.drop _)).map _).flatten
    rw [List.drop_length]
    exact (List.append_nil _).symm

/-- The first task leaves the response queue. -/
theorem queued_poll {responseQueue : BoundedQueue Task}
    (hpoll : s.responseQueue.poll = some (task, responseQueue)) :
    queued s i = (if task.clientContext = i then responseFrame s.heap task else []) ++
      (tasksOf i responseQueue.items).flatMap (responseFrame s.heap) := by
  unfold queued tasksOf
  rw [(BoundedQueue.poll_eq_some_iff.mp hpoll).2, List.filter_cons]
  split_ifs with h1 h2 h2
  · exact List.flatMap_cons
  · exact absurd (decide_eq_true_eq.mp h1) h2
  · exact absurd (decide_eq_true h2) h1
  · rfl

end Mlmq.Server.Traffic
