import Mlmq.Server.Flight

/-! # Buffers on their way

A request buffer that has been exchanged for another one is on its way until its task is taken out
of the response queue: first it holds the request, then it is with a worker that has decoded it,
then it holds the response. `flights` are the buffers on their way, with their connection. No two of
them are the same buffer, and none is with the pool or with a connection.

A step adds a buffer, takes one away or changes the stage of one; those that stay where they are
keep their bytes. -/

namespace Mlmq.Server.Motion

open Mlmq.Lib.Nio Mlmq.Lib.Slots Mlmq.Net.Requests Mlmq.Net.Responses Mlmq.Net.Factory
open Mlmq.Server.Connection Mlmq.Server.Worker Mlmq.Server.System Mlmq.Server.Ownership
open Mlmq.Server.Contents Mlmq.Server.Flight
open Mlmq.Lib.Queue (BoundedQueue)
open Mlmq.Util.ByteBufferUtil (ObjectStream)

variable {ε : Type} {s s' : Broker} {i w b c : ℕ} {worker : WorkerState} {client : Client}
  {task : Task} {config : BrokerConfiguration} {stream : ObjectStream ε} {l : Label ε}

/-! ### Flights -/

/-- What has become of a request. -/
inductive Stage
  | requested
  | processing (request : Request)
  | responded
deriving DecidableEq

/-- A buffer on its way. -/
structure Flight where
  stage : Stage
  connection : ℕ
  buffer : ℕ

def requestFlight (task : Task) : Multiset Flight :=
  task.requestBuffer.elim 0 fun buffer => {⟨.requested, task.clientContext, buffer⟩}

def responseFlight (task : Task) : Multiset Flight :=
  task.responseBuffer.elim 0 fun buffer => {⟨.responded, task.clientContext, buffer⟩}

def workerFlights : WorkerState → Multiset Flight
  | .idle | .posted _ => 0
  | .taken task => requestFlight task
  | .processing task buffer request => {⟨.processing request, task.clientContext, buffer⟩}
  | .answered task => responseFlight task

/-- All buffers on their way. -/
def flights (s : Broker) : Multiset Flight :=
  (s.requestQueue.items.map requestFlight).sum + (s.responseQueue.items.map responseFlight).sum +
    (s.workers.map workerFlights).sum

theorem map_requestFlight_le (task : Task) :
    (requestFlight task).map Flight.buffer ≤ taskSlots task := by
  unfold requestFlight taskSlots WorkerTask.close
  cases task.requestBuffer with
  | none => exact Multiset.zero_le _
  | some buffer => simp

theorem map_responseFlight_le (task : Task) :
    (responseFlight task).map Flight.buffer ≤ taskSlots task := by
  unfold responseFlight taskSlots WorkerTask.close
  cases task.responseBuffer with
  | none => exact Multiset.zero_le _
  | some buffer =>
    rw [← Multiset.coe_add]
    simp

theorem map_workerFlights_le (worker : WorkerState) :
    (workerFlights worker).map Flight.buffer ≤ workerSlots worker := by
  cases worker with
  | idle => exact Multiset.zero_le _
  | posted dropped => exact Multiset.zero_le _
  | taken task => exact map_requestFlight_le task
  | processing task buffer request =>
    show {buffer} ≤ taskSlots task + {buffer}
    exact Multiset.le_add_left _ _
  | answered task => exact map_responseFlight_le task

/-- What is on its way is held by the queues and the workers. -/
theorem map_flights_le (s : Broker) :
    s.pooledBuffers + (s.clients.map clientSlots).sum + (flights s).map Flight.buffer ≤ held s := by
  have h₁ := map_sum_le map_requestFlight_le s.requestQueue.items
  have h₂ := map_sum_le map_responseFlight_le s.responseQueue.items
  have h₃ := map_sum_le map_workerFlights_le s.workers
  have hall := add_le_add (add_le_add h₁ h₂) h₃
  unfold flights held
  rw [Multiset.map_add, Multiset.map_add]
  refine (add_le_add_right hall _).trans (le_of_eq ?_)
  abel

/-- **No buffer is on its way twice.** -/
theorem nodup_flights (h : Inv s 0) : ((flights s).map Flight.buffer).Nodup := by
  have hnd := h.exclusive.nodup
  rw [add_zero] at hnd
  exact Multiset.nodup_of_le ((Multiset.le_add_left _ _).trans (map_flights_le s)) hnd

theorem lt_of_flight {x : Flight} (h : Inv s 0) (hx : x ∈ flights s) :
    x.buffer < s.heap.length := by
  refine h.exclusive.lt _ ?_
  rw [add_zero]
  exact Multiset.mem_of_le ((Multiset.le_add_left _ _).trans (map_flights_le s))
    (Multiset.mem_map_of_mem _ hx)

/-- What is on its way is not with the pool or a connection. -/
theorem notMem_of_flight {x : Flight} (h : Inv s 0) (hx : x ∈ flights s) :
    x.buffer ∉ s.pooledBuffers ∧ ∀ (i : ℕ) (client : Client), s.clients[i]? = some client →
      x.buffer ∉ clientSlots client := by
  have hnd := h.exclusive.nodup
  rw [add_zero] at hnd
  have hnd' := Multiset.nodup_of_le (map_flights_le s) hnd
  rw [Multiset.nodup_add] at hnd'
  have hdisj := Multiset.disjoint_right.mp hnd'.2.2 (Multiset.mem_map_of_mem Flight.buffer hx)
  rw [Multiset.mem_add, not_or] at hdisj
  exact ⟨fun hmem => hdisj.1 (Multiset.mem_coe.mpr hmem),
    fun i client hi hmem => hdisj.2 (mem_sum hi hmem)⟩

/-- Two buffers on their way are different. -/
theorem buffer_ne_of_cons {x y : Flight} {rest : Multiset Flight} (h : Inv s 0)
    (hflights : flights s = y ::ₘ rest) (hx : x ∈ rest) : x.buffer ≠ y.buffer := by
  have hnd := nodup_flights h
  rw [hflights, Multiset.map_cons, Multiset.nodup_cons] at hnd
  exact fun heq => hnd.1 (heq ▸ Multiset.mem_map_of_mem Flight.buffer hx)

/-! ### The parts -/

theorem flights_congr (hreq : s'.requestQueue = s.requestQueue)
    (hresp : s'.responseQueue = s.responseQueue) (hworkers : s'.workers = s.workers) :
    flights s' = flights s := by
  unfold flights
  rw [hreq, hresp, hworkers]

theorem flights_setWorker (hw : s.workers[w]? = some worker) (worker' : WorkerState) :
    flights (s.setWorker w worker') + workerFlights worker =
      flights s + workerFlights worker' := by
  obtain ⟨rest, hsum, hset⟩ := exists_sum_set workerFlights hw
  unfold flights Broker.setWorker
  dsimp only
  rw [hset, hsum]
  abel

/-- What is on its way is with the worker, or would be without him. -/
theorem flights_eq_add_idle (hw : s.workers[w]? = some worker) :
    flights s = workerFlights worker + flights (s.setWorker w .idle) := by
  rw [add_comm]
  exact ((flights_setWorker hw .idle).trans (add_zero _)).symm

theorem flights_setWorker_eq_add_idle (hw : s.workers[w]? = some worker) (worker' : WorkerState) :
    flights (s.setWorker w worker') = workerFlights worker' + flights (s.setWorker w .idle) := by
  have h₁ := flights_setWorker hw worker'
  rw [flights_eq_add_idle hw, add_right_comm, add_comm (workerFlights worker),
    add_right_comm] at h₁
  refine (add_right_cancel h₁).trans ?_
  rw [add_comm]

theorem flights_addRequest {requestQueue : BoundedQueue Task}
    (hadd : s.requestQueue.add task = some requestQueue) :
    flights { s with requestQueue } = flights s + requestFlight task := by
  unfold flights
  dsimp only
  rw [(BoundedQueue.add_eq_some_iff.mp hadd).2.2, List.map_append, List.sum_append,
    List.map_singleton, List.sum_singleton]
  abel

theorem flights_pollRequest {requestQueue : BoundedQueue Task}
    (hpoll : s.requestQueue.poll = some (task, requestQueue)) :
    flights { s with requestQueue } + requestFlight task = flights s := by
  unfold flights
  dsimp only
  rw [(BoundedQueue.poll_eq_some_iff.mp hpoll).2, List.map_cons, List.sum_cons]
  abel

theorem flights_addResponse {responseQueue : BoundedQueue Task}
    (hadd : s.responseQueue.add task = some responseQueue) :
    flights { s with responseQueue } = flights s + responseFlight task := by
  unfold flights
  dsimp only
  rw [(BoundedQueue.add_eq_some_iff.mp hadd).2.2, List.map_append, List.sum_append,
    List.map_singleton, List.sum_singleton]
  abel

theorem flights_pollResponse {responseQueue : BoundedQueue Task}
    (hpoll : s.responseQueue.poll = some (task, responseQueue)) :
    flights { s with responseQueue } + responseFlight task = flights s := by
  unfold flights
  dsimp only
  rw [(BoundedQueue.poll_eq_some_iff.mp hpoll).2, List.map_cons, List.sum_cons]
  abel

/-! ### Steps -/

/-- Buffers on their way stay where they are, or are dropped. -/
structure Quiet (s s' : Broker) : Prop where
  le : flights s' ≤ flights s
  heap : ∀ x ∈ flights s', s'.heap[x.buffer]? = s.heap[x.buffer]?

theorem Quiet.of_eq (hflights : flights s' = flights s)
    (hheap : ∀ x ∈ flights s, s'.heap[x.buffer]? = s.heap[x.buffer]?) : Quiet s s' :=
  ⟨hflights.le, fun x hx => hheap x (hflights ▸ hx)⟩

/-- Neither the queues nor the workers nor the buffers change. -/
theorem Quiet.of_frame (hreq : s'.requestQueue = s.requestQueue)
    (hresp : s'.responseQueue = s.responseQueue) (hworkers : s'.workers = s.workers)
    (hheap : s'.heap = s.heap) : Quiet s s' :=
  .of_eq (flights_congr hreq hresp hworkers) fun x _ => by rw [hheap]

theorem quiet_selectAccept (h : Inv s 0) : Quiet s (s.selectAccept config) := by
  refine .of_eq (flights_congr requestQueue_selectAccept responseQueue_selectAccept
    workers_selectAccept) fun x hx => ?_
  exact heap_selectAccept (lt_of_flight h hx) (notMem_of_flight h hx).1

theorem quiet_selectWrite {byteCount : ℕ} (h : Inv s 0)
    (hs : s.selectWrite i byteCount = some s') : Quiet s s' := by
  obtain ⟨hreq, hresp, -⟩ := queues_selectWrite hs
  refine .of_eq (flights_congr hreq hresp (workers_selectWrite hs)) fun x hx => ?_
  exact heap_selectWrite ((notMem_of_flight h hx).2 i) hs

theorem quiet_disconnectCLient : Quiet s (s.disconnectCLient i) :=
  .of_frame requestQueue_disconnectCLient responseQueue_disconnectCLient workers_disconnectCLient
    heap_disconnectCLient

/-- The task goes from the queue to the worker. -/
theorem quiet_take (hs : s.take w = some s') : Quiet s s' := by
  obtain ⟨task, requestQueue, hw, hpoll, rfl⟩ := Broker.take_eq_some hs
  refine .of_eq ?_ fun x _ => rfl
  have h₁ := flights_setWorker (s := { s with requestQueue }) hw (.taken task)
  exact (add_zero _).symm.trans (h₁.trans (flights_pollRequest hpoll))

/-- The task goes from the worker to the queue, or it is dropped. -/
theorem quiet_post (hs : s.post w = some s') : Quiet s s' := by
  obtain ⟨task, hw, ⟨responseQueue, hadd, rfl⟩ | ⟨-, rfl⟩⟩ := Broker.post_eq_some hs
  · refine .of_eq ?_ fun x _ => rfl
    have h₁ := flights_setWorker (s := { s with responseQueue }) hw (.posted none)
    rw [flights_addResponse hadd] at h₁
    exact add_right_cancel (h₁.trans (add_zero _))
  · refine ⟨?_, fun x _ => rfl⟩
    have h₁ := flights_setWorker hw (.posted (some task))
    exact (Multiset.le_add_right _ _).trans (h₁.trans (add_zero _)).le

theorem quiet_wake (hs : s.wake w = some s') : Quiet s s' := by
  obtain ⟨dropped, hw, rfl⟩ := Broker.wake_eq_some hs
  refine .of_eq ?_ fun x _ => rfl
  exact add_right_cancel (flights_setWorker (s := { s with wakeup := true }) hw .idle)

/-- The buffer that a worker gives up is no longer on its way. -/
theorem Quiet.of_cons {x : Flight} (hflights : flights s = x ::ₘ flights s')
    (hheap : ∀ y ∈ flights s', s'.heap[y.buffer]? = s.heap[y.buffer]?) : Quiet s s' :=
  ⟨hflights ▸ Multiset.le_cons_self _ _, hheap⟩

/-- **A read** leaves everything on its way alone. A message that finds room in the request queue
sets out. -/
theorem flights_selectRead {chunk : Option (List UInt8)} (h : Inv s 0)
    (hs : s.selectRead config i chunk = some s') :
    (∀ x ∈ flights s, s'.heap[x.buffer]? = s.heap[x.buffer]?) ∧
      (flights s' = flights s ∨ ∃ client rxBuffer, s.clients[i]? = some client ∧
        client.selectionKey.isValid = true ∧ s.heap[client.rxBuffer]? = some rxBuffer ∧
        Complete (rxBuffer.write (chunk.getD [])) ∧
        flights s' = ⟨.requested, i, client.rxBuffer⟩ ::ₘ flights s ∧
        s'.heap[client.rxBuffer]? = some (afterTest (rxBuffer.write (chunk.getD [])))) := by
  constructor
  · intro x hx
    obtain ⟨client, rxBuffer, s₁, hi, hvalid, -⟩ := Broker.selectRead_eq_some hs
    obtain ⟨hpool, hclient⟩ := notMem_of_flight h hx
    refine heap_selectRead (lt_of_flight h hx) hpool hi ?_ hs
    intro heq
    refine hclient i client hi ?_
    rw [clientSlots_of_valid hvalid, ← heq]
    simp
  · have hresp := responseQueue_selectRead hs
    have hworkers := workers_selectRead hs
    rcases requestQueue_selectRead hs with ⟨hreq, -⟩ | ⟨client, hi, hvalid, hreceives, hadd⟩
    · exact Or.inl (flights_congr hreq hresp hworkers)
    · obtain ⟨client', rxBuffer, hi', hrx, hc⟩ := hreceives
      obtain rfl := Option.some.inj (hi.symm.trans hi')
      refine Or.inr ⟨client, rxBuffer, hi, hvalid, hrx, hc, ?_, ?_⟩
      · have h₁ : flights s' = flights { s with requestQueue := s'.requestQueue } :=
          flights_congr rfl hresp hworkers
        rw [h₁, flights_addRequest hadd, add_comm]
        rfl
      · exact heap_message h hi hrx hs

/-- **A worker decodes a request**, or gives up its buffer. -/
theorem flights_decode (h : Inv s 0) (hshape : Shaped s) (hs : s.decode w = some s') :
    Quiet s s' ∨ ∃ c b raw request raw' rest, flights s = ⟨.requested, c, b⟩ ::ₘ rest ∧
      flights s' = ⟨.processing request, c, b⟩ ::ₘ rest ∧ s.heap[b]? = some raw ∧
      deserializeRequest raw = .ok request raw' ∧ s'.heap[b]? = some raw' ∧
      ∀ x ∈ rest, s'.heap[x.buffer]? = s.heap[x.buffer]? := by
  obtain ⟨task, hw, hdecode⟩ := Broker.decode_eq_some hs
  obtain ⟨c, b, -, rfl⟩ : IsRequest _ task := hshape.worker w _ hw
  obtain ⟨hnone, -⟩ | ⟨buffer, raw, raw', worker, hbuffer, hraw, rfl, hworker⟩ := hdecode
  · cases hnone
  · obtain rfl := Option.some.inj hbuffer
    set s₁ : Broker := { s with heap := s.heap.set b raw' }
    have hidle : flights s = ⟨.requested, c, b⟩ ::ₘ flights (s₁.setWorker w .idle) :=
      flights_eq_add_idle (s := s₁) hw
    have hrest : ∀ x ∈ flights (s₁.setWorker w .idle),
        (s.heap.set b raw')[x.buffer]? = s.heap[x.buffer]? := fun x hx =>
      List.getElem?_set_ne (buffer_ne_of_cons h hidle hx).symm
    rcases hworker with ⟨request, hd, rfl⟩ | ⟨e, hd, rfl⟩
    · refine Or.inr ⟨c, b, raw, request, raw', _, hidle, ?_, hraw, hd, ?_, hrest⟩
      · exact flights_setWorker_eq_add_idle (s := s₁) hw (.processing ⟨c, none, none⟩ b request)
      · exact List.getElem?_set_self (List.getElem?_eq_some_iff.mp hraw).1
    · exact Or.inl (.of_cons hidle hrest)

/-- **A worker answers**, or gives up its buffer. -/
theorem flights_answer {outcome : Except ε (Response ε)} (h : Inv s 0) (hshape : Shaped s)
    (hs : s.answer stream w outcome = some s') :
    ∃ c b request raw rest, s.workers[w]? = some (.processing ⟨c, none, none⟩ b request) ∧
      s.heap[b]? = some raw ∧ flights s = ⟨.processing request, c, b⟩ ::ₘ rest ∧
      (∀ x ∈ rest, s'.heap[x.buffer]? = s.heap[x.buffer]?) ∧
      (flights s' = rest ∨ ∃ raw', respond stream outcome raw = .ok raw' ∧
        flights s' = ⟨.responded, c, b⟩ ::ₘ rest ∧ s'.heap[b]? = some raw') := by
  obtain ⟨task, b, request, raw, raw', worker, hw, hraw, rfl, hworker⟩ := Broker.answer_eq_some hs
  obtain ⟨c, -, rfl⟩ := hshape.worker w _ hw
  set s₁ : Broker := { s with heap := s.heap.set b raw' }
  have hidle : flights s = ⟨.processing request, c, b⟩ ::ₘ flights (s₁.setWorker w .idle) :=
    flights_eq_add_idle (s := s₁) hw
  have hrest : ∀ x ∈ flights (s₁.setWorker w .idle),
      (s.heap.set b raw')[x.buffer]? = s.heap[x.buffer]? := fun x hx =>
    List.getElem?_set_ne (buffer_ne_of_cons h hidle hx).symm
  refine ⟨c, b, request, raw, _, hw, hraw, hidle, hrest, ?_⟩
  rcases hworker with ⟨hr, rfl⟩ | ⟨e, hr, rfl⟩
  · have hrespond : respond stream outcome raw = .ok raw' := by
      unfold respond
      rw [hr]
    refine Or.inr ⟨raw', hrespond, ?_, ?_⟩
    · exact flights_setWorker_eq_add_idle (s := s₁) hw (.answered ⟨c, none, some b⟩)
    · exact List.getElem?_set_self (List.getElem?_eq_some_iff.mp hraw).1
  · exact Or.inl rfl

/-- **A response arrives** when `selectQueue` takes its task out of the queue. -/
theorem flights_selectQueue (h : Inv s 0) (hshape : Shaped s) (hs : s.selectQueue = some s') :
    s.responseQueue.poll = none ∧ flights s' = flights s ∧ s'.heap = s.heap ∨
    ∃ c b responseQueue, s.responseQueue.poll = some (⟨c, none, some b⟩, responseQueue) ∧
      flights s = ⟨.responded, c, b⟩ ::ₘ flights s' ∧ Quiet s s' := by
  obtain ⟨hreq, -, hresp⟩ := queues_selectQueue h.connected hs
  have hworkers := workers_selectQueue h.connected hs
  rcases hresp with ⟨hpoll, hresp⟩ | ⟨task, hpoll⟩
  · obtain ⟨-, rfl⟩ | ⟨task, responseQueue, client, hpoll', -⟩ := Broker.selectQueue_eq_some hs
    · exact Or.inl ⟨hpoll, flights_congr hreq hresp hworkers, rfl⟩
    · rw [hpoll] at hpoll'
      cases hpoll'
  · obtain ⟨c, b, -, rfl⟩ := hshape.response task
      ((BoundedQueue.poll_eq_some_iff.mp hpoll).2 ▸ List.mem_cons_self)
    have hflights : flights s = ⟨.responded, c, b⟩ ::ₘ flights s' := by
      have h₁ : flights s' = flights { s with responseQueue := s'.responseQueue } :=
        flights_congr hreq rfl hworkers
      rw [h₁, ← flights_pollResponse hpoll, add_comm]
      rfl
    refine Or.inr ⟨c, b, _, hpoll, hflights, .of_cons hflights fun x hx => ?_⟩
    refine heap_selectQueue h.connected (fun task responseQueue hpoll' => ?_) hs
    obtain ⟨rfl, -⟩ := Prod.mk.inj (Option.some.inj (hpoll.symm.trans hpoll'))
    have hslots : taskSlots (⟨c, none, some b⟩ : Task) = {b} := rfl
    rw [hslots, Multiset.mem_singleton]
    exact buffer_ne_of_cons h hflights hx

/-- **Every other step is quiet.** -/
theorem quiet_of_step (h : Inv s 0) (hs : Step config stream s l s')
    (hread : ∀ i chunk, l ≠ .read i chunk) (hdecode : ∀ w, l ≠ .decode w)
    (hanswer : ∀ w outcome, l ≠ .answer w outcome) (hqueue : l ≠ .selectQueue) : Quiet s s' := by
  obtain ⟨-, hs⟩ := hs
  cases l with
  | select => exact Option.some.inj hs ▸ .of_frame rfl rfl rfl rfl
  | accept => exact Option.some.inj hs ▸ quiet_selectAccept h
  | acceptFails => exact Option.some.inj hs ▸ .of_frame rfl rfl rfl rfl
  | read i chunk => exact absurd rfl (hread i chunk)
  | write i byteCount => exact quiet_selectWrite h hs
  | fails i =>
    obtain ⟨client, -, -, rfl⟩ := Broker.selectFails_eq_some hs
    exact quiet_disconnectCLient
  | keysDone => exact Option.some.inj hs ▸ .of_frame rfl rfl rfl rfl
  | selectQueue => exact absurd rfl hqueue
  | take w => exact quiet_take hs
  | decode w => exact absurd rfl (hdecode w)
  | answer w outcome => exact absurd rfl (hanswer w outcome)
  | post w => exact quiet_post hs
  | wake w => exact quiet_wake hs

end Mlmq.Server.Motion
