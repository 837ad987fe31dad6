import Mlmq.Server.Ownership

/-! # What is in a buffer

Since no buffer has two owners, a buffer that a worker owns keeps its bytes while the reactor and
the other workers go on (`heap_of_step`), and the worker stays where it is (`worker_of_step`). All
buffers have the capacity of the configuration (`Sized.of_reaches`). -/

namespace Mlmq.Server.Contents

open Mlmq.Lib.Nio Mlmq.Lib.Cursor Mlmq.Lib.Slots Mlmq.Lib.Transition Mlmq.Net.Responses
open Mlmq.Net.Factory Mlmq.Server.Connection Mlmq.Server.System Mlmq.Server.Ownership
open Mlmq.Lib.Queue (BoundedQueue)
open Mlmq.Util.ByteBufferUtil (ObjectStream)

variable {ε : Type} {s s' : Broker} {i w b : ℕ} {worker : WorkerState}
  {config : BrokerConfiguration} {stream : ObjectStream ε} {l : Label ε}

/-! ### Buffers of a worker -/

/-- The worker that acts. -/
def actor : Label ε → Option ℕ
  | .take w | .decode w | .answer w _ | .post w | .wake w => some w
  | _ => none

/-- A buffer that only the worker `w` owns. -/
structure Apart (s : Broker) (w b : ℕ) : Prop where
  lt : b < s.heap.length
  pool : b ∉ s.pooledBuffers
  client : ∀ (i : ℕ) (client : Client), s.clients[i]? = some client → b ∉ clientSlots client
  response : ∀ task ∈ s.responseQueue.items, b ∉ taskSlots task
  worker : ∀ (w' : ℕ) (worker : WorkerState), w' ≠ w → s.workers[w']? = some worker →
    b ∉ workerSlots worker

/-- **What a worker owns it owns alone.** -/
theorem apart_of_inv (h : Inv s 0) (hw : s.workers[w]? = some worker)
    (hb : b ∈ workerSlots worker) : Apart s w b := by
  have hsum : b ∈ (s.workers.map workerSlots).sum := mem_sum hw hb
  have hnd := h.exclusive.nodup
  have hlt := h.exclusive.lt
  rw [add_zero] at hnd hlt
  unfold held at hnd hlt
  rw [Multiset.nodup_add] at hnd
  obtain ⟨-, hworkers, hdisj⟩ := hnd
  have hnot := fun hmem => Multiset.disjoint_left.mp hdisj hmem hsum
  simp only [Multiset.mem_add] at hnot
  refine ⟨hlt b (Multiset.mem_add.mpr (Or.inr hsum)), ?_, ?_, ?_, ?_⟩
  · exact fun hmem => hnot (Or.inl (Or.inl (Or.inl (Multiset.mem_coe.mpr hmem))))
  · exact fun i client hi hmem => hnot (Or.inl (Or.inl (Or.inr (mem_sum hi hmem))))
  · intro task htask hmem
    obtain ⟨k, hk⟩ := List.getElem?_of_mem htask
    exact hnot (Or.inr (mem_sum hk hmem))
  · intro w' worker' hne hw' hmem
    have hdisj' := disjoint_of_nodup_sum hworkers hw' hw hne
    exact Multiset.disjoint_left.mp hdisj' hmem hb

/-- Buffers of connections are not in the pool. -/
theorem apart_client {client : Client} (h : Inv s 0) (hi : s.clients[i]? = some client)
    (hb : b ∈ clientSlots client) : b < s.heap.length ∧ b ∉ s.pooledBuffers := by
  have hsum : b ∈ (s.clients.map clientSlots).sum := mem_sum hi hb
  have hnd := h.exclusive.nodup
  have hlt := h.exclusive.lt b
  rw [add_zero] at hnd
  unfold held at hnd hlt
  simp only [Multiset.nodup_add, Multiset.mem_add, hsum, true_or, or_true, forall_const] at hnd hlt
  obtain ⟨⟨⟨⟨-, -, hdisj⟩, -⟩, -⟩, -⟩ := hnd
  exact ⟨hlt, fun hmem => Multiset.disjoint_left.mp hdisj (Multiset.mem_coe.mpr hmem) hsum⟩

/-! ### The heap under the operations of the reactor -/

theorem heap_aquire (hlt : b < s.heap.length) (hb : b ∉ s.pooledBuffers) :
    (s.aquire config).2.heap[b]? = s.heap[b]? := by
  unfold Broker.aquire
  split
  · rename_i buffer pooledBuffers hpool
    have hne : buffer ≠ b := by
      rintro rfl
      exact hb (hpool ▸ List.mem_cons_self)
    exact List.getElem?_modify_ne _ _ hne
  · exact List.getElem?_append_left hlt

theorem lt_heap_aquire (hlt : b < s.heap.length) : b < (s.aquire config).2.heap.length := by
  unfold Broker.aquire
  split
  · rwa [List.length_modify]
  · rw [List.length_append]
    omega

theorem pool_aquire (hb : b ∉ s.pooledBuffers) : b ∉ (s.aquire config).2.pooledBuffers := by
  unfold Broker.aquire
  split
  · rename_i buffer pooledBuffers hpool
    rw [hpool] at hb
    exact fun hmem => hb (List.mem_cons_of_mem _ hmem)
  · exact hb

@[simp] theorem heap_disconnectCLient : (s.disconnectCLient i).heap = s.heap := by
  unfold Broker.disconnectCLient
  split <;> rfl

theorem heap_selectAccept (hlt : b < s.heap.length) (hb : b ∉ s.pooledBuffers) :
    (s.selectAccept config).heap[b]? = s.heap[b]? := by
  unfold Broker.selectAccept
  set s₀ : Broker := { s with
    clientCounter := s.clientCounter + 1
    connectedClients :=
      Function.update s.connectedClients (s.clientCounter + 1) (some s.clients.length) }
  have h₁ : (s₀.aquire config).2.heap[b]? = s.heap[b]? := heap_aquire (s := s₀) hlt hb
  exact (heap_aquire (lt_heap_aquire (s := s₀) hlt) (pool_aquire (s := s₀) hb)).trans h₁

theorem heap_takeMessage {client : Client} :
    (s.takeMessage config i client).heap = (s.aquire config).2.heap := by
  unfold Broker.takeMessage Broker.onMessage
  dsimp only
  split <;> rfl

/-- A read stores into the receive buffer of its connection and takes a buffer of the pool. -/
theorem heap_selectRead {client : Client} {chunk : Option (List UInt8)} (hlt : b < s.heap.length)
    (hpool : b ∉ s.pooledBuffers) (hi : s.clients[i]? = some client) (hne : client.rxBuffer ≠ b)
    (hs : s.selectRead config i chunk = some s') : s'.heap[b]? = s.heap[b]? := by
  obtain ⟨client', rxBuffer, s₁, hi', -, -, hs₁, rfl⟩ := Broker.selectRead_eq_some hs
  obtain rfl := Option.some.inj (hi.symm.trans hi')
  have h₁ : s₁.heap[b]? = s.heap[b]? := hs₁ ▸ List.getElem?_set_ne hne
  have hlt₁ : b < s₁.heap.length := by
    rw [hs₁]
    exact hlt.trans_eq List.length_set.symm
  have hpool₁ : b ∉ s₁.pooledBuffers := hs₁ ▸ hpool
  have h₂ : (s₁.takeMessage config i client).heap[b]? = s₁.heap[b]? := by
    rw [heap_takeMessage]
    exact heap_aquire hlt₁ hpool₁
  split_ifs
  · rw [heap_disconnectCLient, h₂, h₁]
  · rw [h₂, h₁]
  · rw [heap_disconnectCLient, h₁]
  · exact h₁

/-- The buffer with a whole message keeps it when it is exchanged. -/
theorem heap_message {client : Client} {rxBuffer : ByteBuffer} {chunk : Option (List UInt8)}
    (h : Inv s 0) (hi : s.clients[i]? = some client)
    (hrx : s.heap[client.rxBuffer]? = some rxBuffer)
    (hs : s.selectRead config i chunk = some s') :
    s'.heap[client.rxBuffer]? = some (afterTest (rxBuffer.write (chunk.getD []))) := by
  obtain ⟨client', rxBuffer', s₁, hi', hvalid, hrx', hs₁, rfl⟩ := Broker.selectRead_eq_some hs
  obtain rfl := Option.some.inj (hi.symm.trans hi')
  obtain rfl := Option.some.inj (hrx.symm.trans hrx')
  have h₁ : Inv s₁ 0 := hs₁ ▸ h.setHeap List.length_set
  have hi₁ : s₁.clients[i]? = some client := hs₁ ▸ hi
  have hrx₁ : s₁.heap[client.rxBuffer]? = some (afterTest (rxBuffer.write (chunk.getD []))) := by
    rw [hs₁]
    exact List.getElem?_set_self (List.getElem?_eq_some_iff.mp hrx).1
  have hmem : client.rxBuffer ∈ clientSlots client := by
    rw [clientSlots_of_valid hvalid]
    simp
  obtain ⟨hlt, hpool⟩ := apart_client h₁ hi₁ hmem
  have h₂ : (s₁.takeMessage config i client).heap[client.rxBuffer]? =
      some (afterTest (rxBuffer.write (chunk.getD []))) := by
    rw [heap_takeMessage, heap_aquire hlt hpool, hrx₁]
  split_ifs
  · rw [heap_disconnectCLient, h₂]
  · exact h₂
  · rw [heap_disconnectCLient, hrx₁]
  · exact hrx₁

/-- The buffers of a connection are not those of a worker. -/
theorem Apart.rxBuffer_ne {client : Client} (h : Apart s w b) (hi : s.clients[i]? = some client)
    (hvalid : client.selectionKey.isValid = true) : client.rxBuffer ≠ b := by
  rintro rfl
  refine h.client i client hi ?_
  rw [clientSlots_of_valid hvalid]
  simp

/-- A write takes bytes out of the send buffer of its connection. -/
theorem heap_selectWrite {byteCount : ℕ}
    (hclient : ∀ client : Client, s.clients[i]? = some client → b ∉ clientSlots client)
    (hs : s.selectWrite i byteCount = some s') : s'.heap[b]? = s.heap[b]? := by
  obtain ⟨client, hi, hvalid, ⟨-, rfl⟩ | ⟨tx, txBuffer, htx, -, -, rfl⟩⟩ :=
    Broker.selectWrite_eq_some hs
  · rw [heap_disconnectCLient]
  · have hne : tx ≠ b := by
      rintro rfl
      refine hclient client hi ?_
      rw [clientSlots_of_valid hvalid, htx]
      simp
    unfold Broker.afterWrite
    split_ifs <;> exact List.getElem?_set_ne hne

/-- A round of `selectQueue` flips the buffer of its response. -/
theorem heap_selectQueue (hconn : Connected s)
    (hresponse : ∀ task responseQueue, s.responseQueue.poll = some (task, responseQueue) →
      b ∉ taskSlots task)
    (hs : s.selectQueue = some s') : s'.heap[b]? = s.heap[b]? := by
  obtain ⟨-, rfl⟩ | ⟨task, responseQueue, client, hpoll, -, ⟨-, rfl⟩ | ⟨j, s₁, completed, hj, hset,
    rfl⟩⟩ := Broker.selectQueue_eq_some hs
  · rfl
  · rfl
  · obtain ⟨client', hj', hvalid, -⟩ := hconn _ _ hj
    have h₁ : s₁.heap[b]? = s.heap[b]? := by
      obtain ⟨-, -, rfl⟩ | ⟨buffer, hbuffer, -, rfl⟩ :=
        Broker.setResponse_eq_some (s := { s with responseQueue }) hj' hvalid hset
      · rfl
      · have hne : buffer ≠ b := by
          rintro rfl
          refine hresponse task responseQueue hpoll ?_
          rw [taskSlots_eq, hbuffer]
          simp
        exact List.getElem?_modify_ne _ _ hne
    split_ifs <;> exact h₁

/-! ### The workers under the operations of the reactor -/

@[simp] theorem workers_aquire : (s.aquire config).2.workers = s.workers := by
  unfold Broker.aquire
  split <;> rfl

@[simp] theorem workers_disconnectCLient : (s.disconnectCLient i).workers = s.workers := by
  unfold Broker.disconnectCLient
  split <;> rfl

theorem workers_selectAccept : (s.selectAccept config).workers = s.workers :=
  workers_aquire.trans workers_aquire

@[simp] theorem workers_takeMessage {client : Client} :
    (s.takeMessage config i client).workers = s.workers := by
  unfold Broker.takeMessage Broker.onMessage
  dsimp only
  split <;> exact workers_aquire

theorem workers_selectRead {chunk : Option (List UInt8)}
    (hs : s.selectRead config i chunk = some s') : s'.workers = s.workers := by
  obtain ⟨client, rxBuffer, s₁, -, -, -, hs₁, rfl⟩ := Broker.selectRead_eq_some hs
  have h₁ : s₁.workers = s.workers := by rw [hs₁]
  split_ifs <;> simp only [workers_disconnectCLient, workers_takeMessage, h₁]

theorem workers_selectWrite {byteCount : ℕ} (hs : s.selectWrite i byteCount = some s') :
    s'.workers = s.workers := by
  obtain ⟨client, -, -, ⟨-, rfl⟩ | ⟨tx, txBuffer, -, -, -, rfl⟩⟩ := Broker.selectWrite_eq_some hs
  · exact workers_disconnectCLient
  · unfold Broker.afterWrite
    split_ifs <;> rfl

theorem workers_selectQueue (hconn : Connected s) (hs : s.selectQueue = some s') :
    s'.workers = s.workers := by
  obtain ⟨-, rfl⟩ | ⟨task, responseQueue, client, -, -, ⟨-, rfl⟩ | ⟨j, s₁, completed, hj, hset,
    rfl⟩⟩ := Broker.selectQueue_eq_some hs
  · rfl
  · rfl
  · obtain ⟨client', hj', hvalid, -⟩ := hconn _ _ hj
    have h₁ : s₁.workers = s.workers := by
      obtain ⟨-, -, rfl⟩ | ⟨buffer, -, -, rfl⟩ :=
        Broker.setResponse_eq_some (s := { s with responseQueue }) hj' hvalid hset
      · rfl
      · rfl
    split_ifs <;> exact h₁

/-! ### Steps -/

/-- **A worker stays where it is** while others act. -/
theorem worker_of_step (h : Inv s 0) (hs : Step config stream s l s') (hactor : actor l ≠ some w) :
    s'.workers[w]? = s.workers[w]? := by
  have hset : ∀ {w'}, actor l = some w' → ∀ worker, (s.workers.set w' worker)[w]? = s.workers[w]? :=
    fun hl worker => List.getElem?_set_ne fun heq => hactor (hl.trans (congrArg some heq))
  obtain ⟨-, hs⟩ := hs
  cases l with
  | select => exact Option.some.inj hs ▸ rfl
  | accept => exact Option.some.inj hs ▸ congrArg (·[w]?) workers_selectAccept
  | acceptFails => exact Option.some.inj hs ▸ rfl
  | read i chunk => rw [workers_selectRead hs]
  | write i byteCount => rw [workers_selectWrite hs]
  | fails i =>
    obtain ⟨client, -, -, rfl⟩ := Broker.selectFails_eq_some hs
    rw [workers_disconnectCLient]
  | keysDone => exact Option.some.inj hs ▸ rfl
  | selectQueue => rw [workers_selectQueue h.connected hs]
  | take w' =>
    obtain ⟨task, requestQueue, -, -, rfl⟩ := Broker.take_eq_some hs
    exact hset rfl _
  | decode w' =>
    obtain ⟨task, -, ⟨-, rfl⟩ | ⟨buffer, rawRequest, rawRequest', worker, -, -, rfl, -⟩⟩ :=
      Broker.decode_eq_some hs
    · exact hset rfl _
    · exact hset rfl _
  | answer w' outcome =>
    obtain ⟨task, buffer, request, rawRequest, rawRequest', worker, -, -, rfl, -⟩ :=
      Broker.answer_eq_some hs
    exact hset rfl _
  | post w' =>
    obtain ⟨task, -, ⟨responseQueue, -, rfl⟩ | ⟨-, rfl⟩⟩ := Broker.post_eq_some hs
    · exact hset rfl _
    · exact hset rfl _
  | wake w' =>
    obtain ⟨dropped, -, rfl⟩ := Broker.wake_eq_some hs
    exact hset rfl _

/-- **A buffer of a worker keeps its bytes** while others act. -/
theorem heap_of_step (h : Inv s 0) (hs : Step config stream s l s')
    (hw : s.workers[w]? = some worker) (hb : b ∈ workerSlots worker) (hactor : actor l ≠ some w) :
    s'.heap[b]? = s.heap[b]? := by
  have hapart := apart_of_inv h hw hb
  -- another worker writes only into a buffer of its own
  have hset : ∀ {w' worker' buffer} (rawRequest : ByteBuffer), actor l = some w' →
      s.workers[w']? = some worker' → buffer ∈ workerSlots worker' →
      (s.heap.set buffer rawRequest)[b]? = s.heap[b]? := by
    rintro w' worker' buffer rawRequest hl hw' hbuffer
    refine List.getElem?_set_ne ?_
    rintro rfl
    exact hapart.worker w' worker' (fun heq => hactor (hl.trans (congrArg some heq))) hw' hbuffer
  obtain ⟨-, hs⟩ := hs
  cases l with
  | select => exact Option.some.inj hs ▸ rfl
  | accept => exact Option.some.inj hs ▸ heap_selectAccept hapart.lt hapart.pool
  | acceptFails => exact Option.some.inj hs ▸ rfl
  | read i chunk =>
    obtain ⟨client, -, -, hi, hvalid, -⟩ := Broker.selectRead_eq_some hs
    exact heap_selectRead hapart.lt hapart.pool hi (hapart.rxBuffer_ne hi hvalid) hs
  | write i byteCount => exact heap_selectWrite (hapart.client i) hs
  | fails i =>
    obtain ⟨client, -, -, rfl⟩ := Broker.selectFails_eq_some hs
    rw [heap_disconnectCLient]
  | keysDone => exact Option.some.inj hs ▸ rfl
  | selectQueue =>
    refine heap_selectQueue h.connected (fun task responseQueue hpoll => ?_) hs
    exact hapart.response task ((BoundedQueue.poll_eq_some_iff.mp hpoll).2 ▸ List.mem_cons_self)
  | take w' =>
    obtain ⟨task, requestQueue, -, -, rfl⟩ := Broker.take_eq_some hs
    rfl
  | decode w' =>
    obtain ⟨task, hw', ⟨-, rfl⟩ | ⟨buffer, rawRequest, rawRequest', worker', hbuffer, -, rfl, -⟩⟩ :=
      Broker.decode_eq_some hs
    · rfl
    · refine hset rawRequest' rfl hw' ?_
      show buffer ∈ (task.close : Multiset ℕ)
      simp [WorkerTask.close, hbuffer]
  | answer w' outcome =>
    obtain ⟨task, buffer, request, rawRequest, rawRequest', worker', hw', -, rfl, -⟩ :=
      Broker.answer_eq_some hs
    refine hset rawRequest' rfl hw' ?_
    show buffer ∈ taskSlots task + {buffer}
    simp
  | post w' =>
    obtain ⟨task, -, ⟨responseQueue, -, rfl⟩ | ⟨-, rfl⟩⟩ := Broker.post_eq_some hs
    · rfl
    · rfl
  | wake w' =>
    obtain ⟨dropped, -, rfl⟩ := Broker.wake_eq_some hs
    rfl

/-! ### The size of the buffers -/

/-- All buffers have the capacity of the configuration. -/
def Sized (config : BrokerConfiguration) (s : Broker) : Prop :=
  ∀ b ∈ s.heap, b.capacity = config.maxMessageSize

theorem Sized.of_getElem? {buffer : ByteBuffer} (h : Sized config s)
    (hb : s.heap[b]? = some buffer) : buffer.capacity = config.maxMessageSize :=
  h buffer (List.mem_of_getElem? hb)

/-- A buffer is replaced by one of the same capacity. -/
theorem Sized.set {buffer : ByteBuffer} {heap : List ByteBuffer} (h : Sized config s)
    (hheap : heap = s.heap.set b buffer) (hcap : buffer.capacity = config.maxMessageSize) :
    ∀ b ∈ heap, b.capacity = config.maxMessageSize := by
  intro b hb
  rw [hheap] at hb
  rcases List.mem_or_eq_of_mem_set hb with hb | rfl
  · exact h b hb
  · exact hcap

/-- A buffer is cleared or flipped. -/
theorem Sized.modify {f : ByteBuffer → ByteBuffer} {heap : List ByteBuffer} (h : Sized config s)
    (hheap : heap = s.heap.modify b f) (hcap : ∀ buffer, (f buffer).capacity = buffer.capacity) :
    ∀ b ∈ heap, b.capacity = config.maxMessageSize := by
  intro buffer hb
  rw [hheap] at hb
  obtain ⟨k, hk⟩ := List.getElem?_of_mem hb
  rw [List.getElem?_modify] at hk
  obtain ⟨old, hold, rfl⟩ := Option.map_eq_some_iff.mp hk
  have := h.of_getElem? hold
  split_ifs
  · exact (hcap old).trans this
  · exact this

theorem Sized.aquire (h : Sized config s) : Sized config (s.aquire config).2 := by
  unfold Broker.aquire
  split
  · exact h.modify rfl fun _ => rfl
  · intro b hb
    rcases List.mem_append.mp hb with hb | hb
    · exact h b hb
    · rw [List.mem_singleton.mp hb]
      exact List.length_replicate

theorem Sized.takeMessage {client : Client} (h : Sized config s) :
    Sized config (s.takeMessage config i client) := by
  unfold Sized
  rw [heap_takeMessage]
  exact h.aquire

theorem Sized.disconnectCLient (h : Sized config s) : Sized config (s.disconnectCLient i) := by
  unfold Sized
  rw [heap_disconnectCLient]
  exact h

theorem Sized.selectRead {chunk : Option (List UInt8)} (h : Sized config s)
    (hs : s.selectRead config i chunk = some s') : Sized config s' := by
  obtain ⟨client, rxBuffer, s₁, -, -, hrx, hs₁, rfl⟩ := Broker.selectRead_eq_some hs
  have hcap : (afterTest (rxBuffer.write (chunk.getD []))).capacity = config.maxMessageSize := by
    unfold ByteBuffer.capacity
    rw [bytes_afterTest, ByteBuffer.capacity_write]
    exact h.of_getElem? hrx
  have h₁ : Sized config s₁ := h.set (by rw [hs₁]) hcap
  split_ifs
  · exact h₁.takeMessage.disconnectCLient
  · exact h₁.takeMessage
  · exact h₁.disconnectCLient
  · exact h₁

theorem Sized.selectWrite {byteCount : ℕ} (h : Sized config s)
    (hs : s.selectWrite i byteCount = some s') : Sized config s' := by
  obtain ⟨client, -, -, ⟨-, rfl⟩ | ⟨tx, txBuffer, -, htx, -, rfl⟩⟩ := Broker.selectWrite_eq_some hs
  · exact h.disconnectCLient
  · have hcap : txBuffer.capacity = config.maxMessageSize := h.of_getElem? htx
    have h₁ : ∀ b ∈ s.heap.set tx (txBuffer.skip byteCount), b.capacity = config.maxMessageSize :=
      h.set rfl hcap
    unfold Broker.afterWrite
    split_ifs <;> exact h₁

theorem Sized.selectQueue (h : Sized config s) (hconn : Connected s)
    (hs : s.selectQueue = some s') : Sized config s' := by
  obtain ⟨-, rfl⟩ | ⟨task, responseQueue, client, -, -, ⟨-, rfl⟩ | ⟨j, s₁, completed, hj, hset,
    rfl⟩⟩ := Broker.selectQueue_eq_some hs
  · exact h
  · exact h
  · obtain ⟨client', hj', hvalid, -⟩ := hconn _ _ hj
    have h₁ : Sized config s₁ := by
      obtain ⟨-, -, rfl⟩ | ⟨buffer, -, -, rfl⟩ :=
        Broker.setResponse_eq_some (s := { s with responseQueue }) hj' hvalid hset
      · exact h
      · exact h.modify rfl fun _ => rfl
    split_ifs <;> exact h₁

theorem Sized.step (h : Sized config s) (hconn : Connected s) (hs : Step config stream s l s') :
    Sized config s' := by
  obtain ⟨-, hs⟩ := hs
  cases l with
  | select => exact Option.some.inj hs ▸ h
  | accept =>
    have h₀ : Sized config { s with
        clientCounter := s.clientCounter + 1
        connectedClients :=
          Function.update s.connectedClients (s.clientCounter + 1) (some s.clients.length) } := h
    exact Option.some.inj hs ▸ h₀.aquire.aquire
  | acceptFails => exact Option.some.inj hs ▸ h
  | read i chunk => exact h.selectRead hs
  | write i byteCount => exact h.selectWrite hs
  | fails i =>
    obtain ⟨client, -, -, rfl⟩ := Broker.selectFails_eq_some hs
    exact h.disconnectCLient
  | keysDone => exact Option.some.inj hs ▸ h
  | selectQueue => exact h.selectQueue hconn hs
  | take w =>
    obtain ⟨task, requestQueue, -, -, rfl⟩ := Broker.take_eq_some hs
    exact h
  | decode w =>
    obtain ⟨task, -, ⟨-, rfl⟩ | ⟨buffer, rawRequest, rawRequest', worker, -, hbuffer, rfl, hd⟩⟩ :=
      Broker.decode_eq_some hs
    · exact h
    · have hkeep := reads_deserializeRequest.keepsCapacity
      refine h.set rfl (Eq.trans ?_ (h.of_getElem? hbuffer))
      rcases hd with ⟨request, hd, -⟩ | ⟨e, hd, -⟩
      · exact hkeep.ok _ _ _ hd
      · exact hkeep.error _ _ _ hd
  | answer w outcome =>
    obtain ⟨task, buffer, request, rawRequest, rawRequest', worker, -, hbuffer, rfl, hr⟩ :=
      Broker.answer_eq_some hs
    have hkeep := keepsCapacity_serializeResponseWithHeader stream (Worker.responseOf outcome)
    refine h.set rfl (Eq.trans ?_ (h.of_getElem? hbuffer))
    rcases hr with ⟨hr, -⟩ | ⟨e, hr, -⟩
    · exact (hkeep.ok _ _ _ hr).trans rfl
    · exact (hkeep.error _ _ _ hr).trans rfl
  | post w =>
    obtain ⟨task, -, ⟨responseQueue, -, rfl⟩ | ⟨-, rfl⟩⟩ := Broker.post_eq_some hs
    · exact h
    · exact h
  | wake w =>
    obtain ⟨dropped, -, rfl⟩ := Broker.wake_eq_some hs
    exact h

theorem Sized.of_reaches (h : Reaches config stream s) : Sized config s := by
  unfold Reaches at h
  have hboth : Inv s 0 ∧ Sized config s := by
    refine h.invariant (P := fun s => Inv s 0 ∧ Sized config s) ?_ fun _ _ _ hs hstep =>
      ⟨hs.1.step hstep, hs.2.step hs.1.connected hstep⟩
    rintro s rfl
    exact ⟨inv_init config, fun b hb => absurd hb List.not_mem_nil⟩
  exact hboth.2

end Mlmq.Server.Contents
