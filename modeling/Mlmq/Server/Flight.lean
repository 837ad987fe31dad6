import Mlmq.Server.Contents

/-! # Tasks on their way

A task goes from the request queue to a worker and from there to the response queue. Each of the
operations of the reactor leaves the two queues as they are, adds a task at the end of the request
queue, or takes the first one out of the response queue. So a task has one buffer all the way, first
in its request slot, then in the local variable of the worker, then in its response slot
(`Shaped.of_reaches`), and it belongs to a connection. -/

namespace Mlmq.Server.Flight

open Mlmq.Lib.Nio Mlmq.Lib.Transition Mlmq.Net.Requests Mlmq.Net.Responses
open Mlmq.Server.Connection Mlmq.Server.System Mlmq.Server.Ownership Mlmq.Server.Contents
open Mlmq.Lib.Queue (BoundedQueue)
open Mlmq.Util.ByteBufferUtil (ObjectStream)

variable {ε : Type} {s s' : Broker} {i w n n' : ℕ} {worker : WorkerState} {client : Client}
  {config : BrokerConfiguration} {stream : ObjectStream ε} {l : Label ε}

/-! ### The queues under the operations of the reactor -/

@[simp] theorem requestQueue_aquire : (s.aquire config).2.requestQueue = s.requestQueue := by
  unfold Broker.aquire
  split <;> rfl

@[simp] theorem responseQueue_aquire : (s.aquire config).2.responseQueue = s.responseQueue := by
  unfold Broker.aquire
  split <;> rfl

@[simp] theorem requestQueue_disconnectCLient :
    (s.disconnectCLient i).requestQueue = s.requestQueue := by
  unfold Broker.disconnectCLient
  split <;> rfl

@[simp] theorem responseQueue_disconnectCLient :
    (s.disconnectCLient i).responseQueue = s.responseQueue := by
  unfold Broker.disconnectCLient
  split <;> rfl

@[simp] theorem length_clients_disconnectCLient :
    (s.disconnectCLient i).clients.length = s.clients.length := by
  unfold Broker.disconnectCLient
  split
  · rfl
  · exact List.length_set

theorem requestQueue_selectAccept : (s.selectAccept config).requestQueue = s.requestQueue :=
  requestQueue_aquire.trans requestQueue_aquire

theorem responseQueue_selectAccept : (s.selectAccept config).responseQueue = s.responseQueue :=
  responseQueue_aquire.trans responseQueue_aquire

theorem length_clients_selectAccept :
    (s.selectAccept config).clients.length = s.clients.length + 1 := by
  unfold Broker.selectAccept
  dsimp only
  rw [List.length_append, clients_aquire, clients_aquire, List.length_singleton]

@[simp] theorem responseQueue_takeMessage :
    (s.takeMessage config i client).responseQueue = s.responseQueue := by
  unfold Broker.takeMessage Broker.onMessage
  dsimp only
  split <;> exact responseQueue_aquire

@[simp] theorem length_clients_takeMessage :
    (s.takeMessage config i client).clients.length = s.clients.length := by
  rw [clients_takeMessage, List.length_set]

/-- A whole message is put into the request queue, unless that is full. -/
theorem requestQueue_takeMessage :
    (s.takeMessage config i client).requestQueue =
      (s.requestQueue.add (WorkerTask.new i client.rxBuffer)).getD s.requestQueue := by
  unfold Broker.takeMessage Broker.onMessage Broker.setClient ConnectedClient.swapRxBuffer
  dsimp only
  rw [requestQueue_aquire]
  cases s.requestQueue.add (WorkerTask.new i client.rxBuffer) with
  | none => rfl
  | some requestQueue => rfl

/-! ### What a step does to the queues -/

/-- The connection `i` receives a whole message with this read. -/
def Receives (s : Broker) (i : ℕ) (chunk : Option (List UInt8)) : Prop :=
  ∃ client rxBuffer, s.clients[i]? = some client ∧ s.heap[client.rxBuffer]? = some rxBuffer ∧
    Complete (rxBuffer.write (chunk.getD []))

theorem requestQueue_selectRead {chunk : Option (List UInt8)}
    (hs : s.selectRead config i chunk = some s') :
    s'.requestQueue = s.requestQueue ∧ ¬ (s.requestQueue.HasRoom ∧ Receives s i chunk) ∨
      ∃ client, s.clients[i]? = some client ∧ client.selectionKey.isValid = true ∧
        Receives s i chunk ∧
        s.requestQueue.add (WorkerTask.new i client.rxBuffer) = some s'.requestQueue := by
  obtain ⟨client, rxBuffer, s₁, hi, hvalid, hrx, hs₁, rfl⟩ := Broker.selectRead_eq_some hs
  have h₁ : s₁.requestQueue = s.requestQueue := by rw [hs₁]
  by_cases hc : Complete (rxBuffer.write (chunk.getD []))
  · have hq : (s₁.takeMessage config i client).requestQueue =
        (s.requestQueue.add (WorkerTask.new i client.rxBuffer)).getD s.requestQueue := by
      rw [requestQueue_takeMessage, h₁]
    have hq' : (if chunk.isNone then (s₁.takeMessage config i client).disconnectCLient i
        else s₁.takeMessage config i client).requestQueue =
          (s.requestQueue.add (WorkerTask.new i client.rxBuffer)).getD s.requestQueue := by
      split_ifs
      · rw [requestQueue_disconnectCLient, hq]
      · exact hq
    rw [if_pos hc, hq']
    cases hadd : s.requestQueue.add (WorkerTask.new i client.rxBuffer) with
    | none => exact Or.inl ⟨rfl, fun h => BoundedQueue.add_eq_none_iff.mp hadd h.1⟩
    | some requestQueue => exact Or.inr ⟨client, hi, hvalid, ⟨client, rxBuffer, hi, hrx, hc⟩, hadd⟩
  · rw [if_neg hc]
    refine Or.inl ⟨?_, ?_⟩
    · split_ifs
      · rw [requestQueue_disconnectCLient, h₁]
      · exact h₁
    · rintro ⟨-, client', rxBuffer', hi', hrx', hc'⟩
      obtain rfl := Option.some.inj (hi.symm.trans hi')
      obtain rfl := Option.some.inj (hrx.symm.trans hrx')
      exact hc hc'

theorem responseQueue_selectRead {chunk : Option (List UInt8)}
    (hs : s.selectRead config i chunk = some s') : s'.responseQueue = s.responseQueue := by
  obtain ⟨client, rxBuffer, s₁, -, -, -, hs₁, rfl⟩ := Broker.selectRead_eq_some hs
  have h₁ : s₁.responseQueue = s.responseQueue := by rw [hs₁]
  split_ifs <;> simp only [responseQueue_disconnectCLient, responseQueue_takeMessage, h₁]

theorem length_clients_selectRead {chunk : Option (List UInt8)}
    (hs : s.selectRead config i chunk = some s') : s'.clients.length = s.clients.length := by
  obtain ⟨client, rxBuffer, s₁, -, -, -, hs₁, rfl⟩ := Broker.selectRead_eq_some hs
  have h₁ : s₁.clients = s.clients := by rw [hs₁]
  split_ifs <;> simp only [length_clients_disconnectCLient, length_clients_takeMessage, h₁]

/-- A write leaves the queues as they are. -/
theorem queues_selectWrite {byteCount : ℕ} (hs : s.selectWrite i byteCount = some s') :
    s'.requestQueue = s.requestQueue ∧ s'.responseQueue = s.responseQueue ∧
      s'.clients.length = s.clients.length := by
  obtain ⟨client, -, -, ⟨-, rfl⟩ | ⟨tx, txBuffer, -, -, -, rfl⟩⟩ := Broker.selectWrite_eq_some hs
  · exact ⟨requestQueue_disconnectCLient, responseQueue_disconnectCLient,
      length_clients_disconnectCLient⟩
  · unfold Broker.afterWrite
    split_ifs
    · exact ⟨rfl, rfl, rfl⟩
    · exact ⟨rfl, rfl, List.length_set⟩

/-- One round of `selectQueue` takes a task out of the response queue, unless that is empty. -/
theorem queues_selectQueue (hconn : Connected s) (hs : s.selectQueue = some s') :
    s'.requestQueue = s.requestQueue ∧ s'.clients.length = s.clients.length ∧
      (s.responseQueue.poll = none ∧ s'.responseQueue = s.responseQueue ∨
        ∃ task, s.responseQueue.poll = some (task, s'.responseQueue)) := by
  obtain ⟨hpoll, rfl⟩ | ⟨task, responseQueue, client, hpoll, -, ⟨-, rfl⟩ | ⟨j, s₁, completed, hj, hset,
    rfl⟩⟩ := Broker.selectQueue_eq_some hs
  · exact ⟨rfl, rfl, Or.inl ⟨hpoll, rfl⟩⟩
  · exact ⟨rfl, rfl, Or.inr ⟨task, hpoll⟩⟩
  · obtain ⟨client', hj', hvalid, -⟩ := hconn _ _ hj
    have h₁ : s₁.requestQueue = s.requestQueue ∧ s₁.responseQueue = responseQueue ∧
        s₁.clients.length = s.clients.length := by
      obtain ⟨-, -, rfl⟩ | ⟨buffer, -, -, rfl⟩ :=
        Broker.setResponse_eq_some (s := { s with responseQueue }) hj' hvalid hset
      · exact ⟨rfl, rfl, List.length_set⟩
      · exact ⟨rfl, rfl, List.length_set⟩
    obtain ⟨hreq, hresp, hlen⟩ := h₁
    split_ifs
    · exact ⟨hreq, hlen, Or.inr ⟨task, hresp ▸ hpoll⟩⟩
    · exact ⟨hreq, hlen, Or.inr ⟨task, hresp ▸ hpoll⟩⟩

/-- Connections stay in the list. -/
theorem length_clients_of_step (h : Inv s 0) (hs : Step config stream s l s') :
    s.clients.length ≤ s'.clients.length := by
  obtain ⟨-, hs⟩ := hs
  cases l with
  | select => exact Option.some.inj hs ▸ le_rfl
  | accept =>
    rw [← Option.some.inj hs, length_clients_selectAccept]
    exact Nat.le_succ _
  | acceptFails => exact Option.some.inj hs ▸ le_rfl
  | read i chunk => exact (length_clients_selectRead hs).ge
  | write i byteCount => exact (queues_selectWrite hs).2.2.ge
  | fails i =>
    obtain ⟨client, -, -, rfl⟩ := Broker.selectFails_eq_some hs
    exact length_clients_disconnectCLient.ge
  | keysDone => exact Option.some.inj hs ▸ le_rfl
  | selectQueue => exact (queues_selectQueue h.connected hs).2.1.ge
  | take w =>
    obtain ⟨task, requestQueue, -, -, rfl⟩ := Broker.take_eq_some hs
    exact le_rfl
  | decode w =>
    obtain ⟨task, -, ⟨-, rfl⟩ | ⟨buffer, rawRequest, rawRequest', worker, -, -, rfl, -⟩⟩ :=
      Broker.decode_eq_some hs <;> exact le_rfl
  | answer w outcome =>
    obtain ⟨task, buffer, request, rawRequest, rawRequest', worker, -, -, rfl, -⟩ :=
      Broker.answer_eq_some hs
    exact le_rfl
  | post w =>
    obtain ⟨task, -, ⟨responseQueue, -, rfl⟩ | ⟨-, rfl⟩⟩ := Broker.post_eq_some hs <;> exact le_rfl
  | wake w =>
    obtain ⟨dropped, -, rfl⟩ := Broker.wake_eq_some hs
    exact le_rfl

theorem length_clients_of_run {ls : List (Label ε)} (h : Run (Step config stream) s ls s')
    (hinv : Inv s 0) : s.clients.length ≤ s'.clients.length := by
  have hboth : Inv s' 0 ∧ s.clients.length ≤ s'.clients.length := by
    refine h.invariant (P := fun t => Inv t 0 ∧ s.clients.length ≤ t.clients.length) ?_
      ⟨hinv, le_rfl⟩
    intro t l t' ⟨ht, hle⟩ hstep
    exact ⟨ht.step hstep, hle.trans (length_clients_of_step ht hstep)⟩
  exact hboth.2

/-! ### Shapes -/

/-- A task with a request, of one of the first `n` connections. -/
def IsRequest (n : ℕ) (task : Task) : Prop :=
  ∃ c b, c < n ∧ task = ⟨c, some b, none⟩

/-- A task with a response. -/
def IsResponse (n : ℕ) (task : Task) : Prop :=
  ∃ c b, c < n ∧ task = ⟨c, none, some b⟩

/-- The task of a worker. While the worker processes, its local variable has the buffer. -/
def WorkerShaped (n : ℕ) : WorkerState → Prop
  | .idle => True
  | .taken task => IsRequest n task
  | .processing task _ _ => ∃ c < n, task = ⟨c, none, none⟩
  | .answered task => IsResponse n task
  | .posted dropped => ∀ task ∈ dropped, IsResponse n task

/-- **The shape of the tasks.** -/
structure Shaped (s : Broker) : Prop where
  request : ∀ task ∈ s.requestQueue.items, IsRequest s.clients.length task
  response : ∀ task ∈ s.responseQueue.items, IsResponse s.clients.length task
  worker : ∀ (w : ℕ) (worker : WorkerState), s.workers[w]? = some worker →
    WorkerShaped s.clients.length worker

theorem IsRequest.mono {task : Task} (h : IsRequest n task) (hn : n ≤ n') : IsRequest n' task := by
  obtain ⟨c, b, hc, rfl⟩ := h
  exact ⟨c, b, hc.trans_le hn, rfl⟩

theorem IsResponse.mono {task : Task} (h : IsResponse n task) (hn : n ≤ n') :
    IsResponse n' task := by
  obtain ⟨c, b, hc, rfl⟩ := h
  exact ⟨c, b, hc.trans_le hn, rfl⟩

theorem WorkerShaped.mono (h : WorkerShaped n worker) (hn : n ≤ n') : WorkerShaped n' worker := by
  cases worker with
  | idle => trivial
  | taken task => exact IsRequest.mono h hn
  | processing task buffer request =>
    obtain ⟨c, hc, rfl⟩ := h
    exact ⟨c, hc.trans_le hn, rfl⟩
  | answered task => exact IsResponse.mono h hn
  | posted dropped => exact fun task ht => (h task ht).mono hn

/-- Tasks are moved, and new ones have the right shape. -/
theorem Shaped.of_queues (h : Shaped s) (hlen : s.clients.length ≤ s'.clients.length)
    (hreq : ∀ task ∈ s'.requestQueue.items,
      task ∈ s.requestQueue.items ∨ IsRequest s'.clients.length task)
    (hresp : ∀ task ∈ s'.responseQueue.items,
      task ∈ s.responseQueue.items ∨ IsResponse s'.clients.length task)
    (hworker : ∀ (w : ℕ) (worker : WorkerState), s'.workers[w]? = some worker →
      s.workers[w]? = some worker ∨ WorkerShaped s'.clients.length worker) : Shaped s' where
  request task ht := (hreq task ht).elim (fun ht => (h.request task ht).mono hlen) id
  response task ht := (hresp task ht).elim (fun ht => (h.response task ht).mono hlen) id
  worker _ _ hw := (hworker _ _ hw).elim (fun hw => (h.worker _ _ hw).mono hlen) id

/-- The reactor leaves the workers alone. -/
theorem Shaped.reactor (h : Shaped s) (hlen : s.clients.length ≤ s'.clients.length)
    (hreq : ∀ task ∈ s'.requestQueue.items,
      task ∈ s.requestQueue.items ∨ IsRequest s'.clients.length task)
    (hresp : ∀ task ∈ s'.responseQueue.items, task ∈ s.responseQueue.items)
    (hworkers : s'.workers = s.workers) : Shaped s' :=
  h.of_queues hlen hreq (fun task ht => Or.inl (hresp task ht)) fun _ _ hw =>
    Or.inl (hworkers ▸ hw)

theorem getElem?_set_cases {workers : List WorkerState} {w' : ℕ} {worker' : WorkerState}
    (h : (workers.set w worker)[w']? = some worker') :
    worker' = worker ∨ workers[w']? = some worker' := by
  rcases eq_or_ne w w' with rfl | hne
  · have hlt : w < workers.length := by
      have := (List.getElem?_eq_some_iff.mp h).1
      rwa [List.length_set] at this
    rw [List.getElem?_set_self hlt] at h
    exact Or.inl (Option.some.inj h).symm
  · exact Or.inr ((List.getElem?_set_ne hne).symm.trans h)

/-- A worker has gone on. -/
theorem Shaped.setWorker (h : Shaped s) (hworker : WorkerShaped s.clients.length worker) :
    Shaped (s.setWorker w worker) := by
  refine h.of_queues le_rfl (fun task ht => Or.inl ht) (fun task ht => Or.inl ht) fun w' x hx => ?_
  rcases getElem?_set_cases hx with rfl | hx
  · exact Or.inr hworker
  · exact Or.inl hx

theorem Shaped.selectRead {chunk : Option (List UInt8)} (h : Shaped s)
    (hs : s.selectRead config i chunk = some s') : Shaped s' := by
  have hlen := length_clients_selectRead hs
  refine h.reactor hlen.ge ?_ (fun task ht => responseQueue_selectRead hs ▸ ht)
    (workers_selectRead hs)
  intro task ht
  rcases requestQueue_selectRead hs with ⟨hreq, -⟩ | ⟨client, hi, -, -, hadd⟩
  · exact Or.inl (hreq ▸ ht)
  · rw [(BoundedQueue.add_eq_some_iff.mp hadd).2.2, List.mem_append, List.mem_singleton] at ht
    refine ht.imp_right ?_
    rintro rfl
    exact ⟨i, client.rxBuffer, hlen ▸ (List.getElem?_eq_some_iff.mp hi).1, rfl⟩

theorem Shaped.selectQueue (h : Shaped s) (hconn : Connected s) (hs : s.selectQueue = some s') :
    Shaped s' := by
  obtain ⟨hreq, hlen, hresp⟩ := queues_selectQueue hconn hs
  refine h.reactor hlen.ge (fun task ht => Or.inl (hreq ▸ ht)) (fun task ht => ?_)
    (workers_selectQueue hconn hs)
  rcases hresp with ⟨-, hresp⟩ | ⟨task', hpoll⟩
  · exact hresp ▸ ht
  · rw [(BoundedQueue.poll_eq_some_iff.mp hpoll).2]
    exact List.mem_cons_of_mem _ ht

theorem Shaped.take (h : Shaped s) (hs : s.take w = some s') : Shaped s' := by
  obtain ⟨task, requestQueue, hw, hpoll, rfl⟩ := Broker.take_eq_some hs
  have hitems := (BoundedQueue.poll_eq_some_iff.mp hpoll).2
  have htask : IsRequest s.clients.length task :=
    h.request task (hitems ▸ List.mem_cons_self)
  have h₁ : Shaped { s with requestQueue } := by
    refine h.reactor le_rfl (fun task ht => Or.inl ?_) (fun task ht => ht) rfl
    exact hitems ▸ List.mem_cons_of_mem _ ht
  exact h₁.setWorker htask

theorem Shaped.decode (h : Shaped s) (hs : s.decode w = some s') : Shaped s' := by
  obtain ⟨task, hw, ⟨-, rfl⟩ | ⟨buffer, rawRequest, rawRequest', worker, -, -, rfl, hworker⟩⟩ :=
    Broker.decode_eq_some hs
  · exact h.setWorker trivial
  · have h₁ : Shaped { s with heap := s.heap.set buffer rawRequest' } := ⟨h.1, h.2, h.3⟩
    refine h₁.setWorker ?_
    rcases hworker with ⟨request, -, rfl⟩ | ⟨e, -, rfl⟩
    · obtain ⟨c, b, hc, rfl⟩ := h.worker w _ hw
      exact ⟨c, hc, rfl⟩
    · trivial

theorem Shaped.answer {outcome : Except ε (Response ε)} (h : Shaped s)
    (hs : s.answer stream w outcome = some s') : Shaped s' := by
  obtain ⟨task, buffer, request, rawRequest, rawRequest', worker, hw, -, rfl, hworker⟩ :=
    Broker.answer_eq_some hs
  have h₁ : Shaped { s with heap := s.heap.set buffer rawRequest' } := ⟨h.1, h.2, h.3⟩
  refine h₁.setWorker ?_
  rcases hworker with ⟨-, rfl⟩ | ⟨e, -, rfl⟩
  · obtain ⟨c, hc, rfl⟩ := h.worker w _ hw
    exact ⟨c, buffer, hc, rfl⟩
  · trivial

theorem Shaped.post (h : Shaped s) (hs : s.post w = some s') : Shaped s' := by
  obtain ⟨task, hw, ⟨responseQueue, hadd, rfl⟩ | ⟨-, rfl⟩⟩ := Broker.post_eq_some hs
  · have htask : IsResponse s.clients.length task := h.worker w _ hw
    have h₁ : Shaped { s with responseQueue } := by
      refine h.of_queues le_rfl (fun task ht => Or.inl ht) (fun task' ht => ?_) fun _ _ => Or.inl
      rw [(BoundedQueue.add_eq_some_iff.mp hadd).2.2, List.mem_append, List.mem_singleton] at ht
      refine ht.imp_right ?_
      rintro rfl
      exact htask
    exact h₁.setWorker fun _ ht => by cases ht
  · refine h.setWorker fun task' ht => ?_
    obtain rfl := Option.mem_some_iff.mp ht
    exact h.worker w _ hw

/-- **Every step keeps the shape.** -/
theorem Shaped.step (h : Shaped s) (hinv : Inv s 0) (hs : Step config stream s l s') :
    Shaped s' := by
  have hlen := length_clients_of_step hinv hs
  obtain ⟨-, hs⟩ := hs
  cases l with
  | select => exact Option.some.inj hs ▸ ⟨h.1, h.2, h.3⟩
  | accept =>
    rw [← Option.some.inj hs] at hlen ⊢
    exact h.reactor hlen (fun task ht => Or.inl (requestQueue_selectAccept ▸ ht))
      (fun task ht => responseQueue_selectAccept ▸ ht) workers_selectAccept
  | acceptFails => exact Option.some.inj hs ▸ ⟨h.1, h.2, h.3⟩
  | read i chunk => exact h.selectRead hs
  | write i byteCount =>
    obtain ⟨hreq, hresp, -⟩ := queues_selectWrite hs
    exact h.reactor hlen (fun task ht => Or.inl (hreq ▸ ht)) (fun task ht => hresp ▸ ht)
      (workers_selectWrite hs)
  | fails i =>
    obtain ⟨client, -, -, rfl⟩ := Broker.selectFails_eq_some hs
    exact h.reactor hlen (fun task ht => Or.inl (requestQueue_disconnectCLient ▸ ht))
      (fun task ht => responseQueue_disconnectCLient ▸ ht) workers_disconnectCLient
  | keysDone => exact Option.some.inj hs ▸ ⟨h.1, h.2, h.3⟩
  | selectQueue => exact h.selectQueue hinv.connected hs
  | take w => exact h.take hs
  | decode w => exact h.decode hs
  | answer w outcome => exact h.answer hs
  | post w => exact h.post hs
  | wake w =>
    obtain ⟨dropped, -, rfl⟩ := Broker.wake_eq_some hs
    exact Shaped.setWorker (s := { s with wakeup := true }) ⟨h.1, h.2, h.3⟩ trivial

theorem shaped_init (config : BrokerConfiguration) : Shaped (init config) where
  request _ ht := by cases ht
  response _ ht := by cases ht
  worker w worker hw := by
    rw [List.eq_of_mem_replicate (List.mem_of_getElem? hw)]
    trivial

/-- What is needed of the reachable states. -/
theorem inv_shaped_of_reaches (h : Reaches config stream s) : Inv s 0 ∧ Shaped s := by
  unfold Reaches at h
  refine h.invariant (P := fun s => Inv s 0 ∧ Shaped s) ?_ fun _ _ _ hs hstep =>
    ⟨hs.1.step hstep, hs.2.step hs.1 hstep⟩
  rintro s rfl
  exact ⟨inv_init config, shaped_init config⟩

end Mlmq.Server.Flight
