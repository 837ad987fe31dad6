import Mlmq.Lib.Slots
import Mlmq.Server.System

/-! # Who owns a buffer

The owners of buffers are the entries of the free list of the pool, the receive and the send slot of
each connected client, the two slots of each task that is queued or with a worker, and the local
variable of each worker. `held` adds up what they refer to. In every reachable state no buffer is
there twice (`no_aliasing`).

`Inv s locals` is the invariant while an operation of the reactor is under way, whose local
variables refer to `locals`. Each function of the source has its lemma, which says what it takes
from the local variables and what it puts there. -/

namespace Mlmq.Server.Ownership

open Mlmq.Lib.Nio Mlmq.Lib.Slots Mlmq.Lib.Transition Mlmq.Net.Responses Mlmq.Server.Connection
open Mlmq.Server.System Mlmq.Net.RoundTrip
open Mlmq.Lib.Queue (BoundedQueue)
open Mlmq.Util.ByteBufferUtil (ObjectStream)

variable {ε : Type} {s s' : Broker} {locals locals' : Multiset ℕ} {i b : ℕ}
  {config : BrokerConfiguration}

/-! ### Owners -/

def clientSlots (client : Client) : Multiset ℕ :=
  if client.selectionKey.isValid then client.close else 0

theorem clientSlots_of_valid {client : Client} (h : client.selectionKey.isValid = true) :
    clientSlots client = {client.rxBuffer} + (client.txBuffer.toList : Multiset ℕ) := by
  unfold clientSlots ConnectedClient.close
  rw [if_pos h, ← Multiset.cons_coe, Multiset.singleton_add]

def taskSlots (task : Task) : Multiset ℕ := task.close

def workerSlots : WorkerState → Multiset ℕ
  | .idle => 0
  | .taken task => taskSlots task
  | .processing task requestBuffer _ => taskSlots task + {requestBuffer}
  | .answered task => taskSlots task
  | .posted dropped => dropped.elim 0 taskSlots

/-- The buffers that the owners refer to, each as often as there are owners of it. -/
def held (s : Broker) : Multiset ℕ :=
  s.pooledBuffers + (s.clients.map clientSlots).sum + (s.requestQueue.items.map taskSlots).sum +
    (s.responseQueue.items.map taskSlots).sum + (s.workers.map workerSlots).sum

/-- A handle stands for a connected client with this handle. -/
def Connected (s : Broker) : Prop :=
  ∀ handle i, s.connectedClients handle = some i → ∃ client, s.clients[i]? = some client ∧
    client.selectionKey.isValid = true ∧
    client.clientApplicationContext.clientNetworkHandle = handle

/-- **The invariant**, with the buffers in local variables. -/
structure Inv (s : Broker) (locals : Multiset ℕ) : Prop where
  exclusive : Exclusive (held s + locals) s.heap.length
  connected : Connected s

/-- References are moved or dropped, nothing else changes for the connections. -/
theorem Inv.mono (h : Inv s locals) (hheld : held s' + locals' ≤ held s + locals)
    (hheap : s'.heap.length = s.heap.length) (hconn : Connected s') : Inv s' locals' :=
  ⟨h.exclusive.mono hheld hheap.ge, hconn⟩

theorem Inv.drop (h : Inv s (locals + locals')) : Inv s locals :=
  h.mono (add_le_add_right (Multiset.le_add_right _ _) _) rfl h.connected

/-! ### What the parts hold -/

theorem held_setClient {client : Client} (hi : s.clients[i]? = some client) (client' : Client) :
    held (s.setClient i client') + clientSlots client = held s + clientSlots client' := by
  obtain ⟨rest, hsum, hset⟩ := exists_sum_set clientSlots hi
  unfold held Broker.setClient
  dsimp only
  rw [hset, hsum]
  abel

theorem held_setWorker {w : ℕ} {worker : WorkerState} (hw : s.workers[w]? = some worker)
    (worker' : WorkerState) :
    held (s.setWorker w worker') + workerSlots worker = held s + workerSlots worker' := by
  obtain ⟨rest, hsum, hset⟩ := exists_sum_set workerSlots hw
  unfold held Broker.setWorker
  dsimp only
  rw [hset, hsum]
  abel

theorem held_addRequest {task : Task} {requestQueue : BoundedQueue Task}
    (hadd : s.requestQueue.add task = some requestQueue) :
    held { s with requestQueue } = held s + taskSlots task := by
  unfold held
  dsimp only
  rw [(BoundedQueue.add_eq_some_iff.mp hadd).2.2, List.map_append, List.sum_append,
    List.map_singleton, List.sum_singleton]
  abel

theorem held_pollRequest {task : Task} {requestQueue : BoundedQueue Task}
    (hpoll : s.requestQueue.poll = some (task, requestQueue)) :
    held { s with requestQueue } + taskSlots task = held s := by
  unfold held
  dsimp only
  rw [(BoundedQueue.poll_eq_some_iff.mp hpoll).2, List.map_cons, List.sum_cons]
  abel

theorem held_addResponse {task : Task} {responseQueue : BoundedQueue Task}
    (hadd : s.responseQueue.add task = some responseQueue) :
    held { s with responseQueue } = held s + taskSlots task := by
  unfold held
  dsimp only
  rw [(BoundedQueue.add_eq_some_iff.mp hadd).2.2, List.map_append, List.sum_append,
    List.map_singleton, List.sum_singleton]
  abel

theorem held_pollResponse {task : Task} {responseQueue : BoundedQueue Task}
    (hpoll : s.responseQueue.poll = some (task, responseQueue)) :
    held { s with responseQueue } + taskSlots task = held s := by
  unfold held
  dsimp only
  rw [(BoundedQueue.poll_eq_some_iff.mp hpoll).2, List.map_cons, List.sum_cons]
  abel

/-! ### The pool -/

theorem held_release (s : Broker) (buffers : List ℕ) :
    held (s.release buffers) = held s + buffers := by
  unfold held Broker.release
  rw [← Multiset.coe_add]
  abel

theorem Inv.release {buffers : List ℕ} (h : Inv s (locals + buffers)) :
    Inv (s.release buffers) locals := by
  refine h.mono ?_ rfl h.connected
  rw [held_release, add_assoc, add_comm (buffers : Multiset ℕ)]

@[simp] theorem clients_aquire : (s.aquire config).2.clients = s.clients := by
  unfold Broker.aquire
  split <;> rfl

@[simp] theorem connectedClients_aquire :
    (s.aquire config).2.connectedClients = s.connectedClients := by
  unfold Broker.aquire
  split <;> rfl

/-- The buffer from the pool is in a local variable. -/
theorem exclusive_aquire (h : Exclusive (held s + locals) s.heap.length) :
    Exclusive (held (s.aquire config).2 + (locals + {(s.aquire config).1}))
      (s.aquire config).2.heap.length := by
  unfold Broker.aquire
  split
  · rename_i buffer pooledBuffers hpool
    refine h.mono (le_of_eq ?_) (List.length_modify ..).ge
    have hcons : (s.pooledBuffers : Multiset ℕ) = {buffer} + (pooledBuffers : Multiset ℕ) := by
      rw [hpool, ← Multiset.cons_coe, Multiset.singleton_add]
    unfold held
    rw [hcons]
    dsimp only
    abel
  · have hlen : (s.heap ++ [(ByteBuffer.allocate config.maxMessageSize
        config.maxMessageSize_lt).clear]).length = s.heap.length + 1 := by
      rw [List.length_append, List.length_singleton]
    dsimp only
    rw [hlen, ← add_assoc]
    exact h.add

theorem Inv.aquire (h : Inv s locals) :
    Inv (s.aquire config).2 (locals + {(s.aquire config).1}) := by
  refine ⟨exclusive_aquire h.exclusive, ?_⟩
  unfold Connected
  rw [clients_aquire, connectedClients_aquire]
  exact h.connected

/-! ### Connections -/

theorem Inv.setClient {client client' : Client} (h : Inv s locals)
    (hi : s.clients[i]? = some client)
    (hslots : clientSlots client' + locals' ≤ clientSlots client + locals)
    (hctx : client'.clientApplicationContext = client.clientApplicationContext)
    (hkey : client'.selectionKey.isValid = client.selectionKey.isValid) :
    Inv (s.setClient i client') locals' := by
  refine h.mono ?_ rfl ?_
  · refine le_of_add_le_add_right (a := clientSlots client) ?_
    calc held (s.setClient i client') + locals' + clientSlots client
        = held s + (clientSlots client' + locals') := by
          rw [add_right_comm, held_setClient hi, add_assoc]
      _ ≤ held s + (clientSlots client + locals) := add_le_add_right hslots _
      _ = held s + locals + clientSlots client := by abel
  · intro handle j hj
    obtain ⟨c, hc, hvalid, hhandle⟩ := h.connected handle j hj
    by_cases hij : i = j
    · subst hij
      rw [hi] at hc
      obtain rfl := Option.some.inj hc
      have hlt := (List.getElem?_eq_some_iff.mp hi).1
      exact ⟨client', List.getElem?_set_self hlt, hkey.trans hvalid, by rw [hctx, hhandle]⟩
    · exact ⟨c, by unfold Broker.setClient; rw [List.getElem?_set_ne hij, hc], hvalid, hhandle⟩

/-- The buffers of the connection are in the pool. -/
theorem held_disconnectCLient {client : Client} (hi : s.clients[i]? = some client)
    (hvalid : client.selectionKey.isValid = true) : held (s.disconnectCLient i) = held s := by
  have hslots : clientSlots client = client.close := if_pos hvalid
  have hgone : clientSlots { client with selectionKey := ⟨false, false⟩ } = 0 := rfl
  have h₁ := held_setClient (s := s.release client.close) hi
    { client with selectionKey := ⟨false, false⟩ }
  rw [hgone, add_zero, held_release, hslots] at h₁
  unfold Broker.disconnectCLient
  simp only [hi]
  exact add_right_cancel h₁

theorem Inv.disconnectCLient {client : Client} (h : Inv s locals) (hi : s.clients[i]? = some client)
    (hvalid : client.selectionKey.isValid = true) : Inv (s.disconnectCLient i) locals := by
  have hheld := held_disconnectCLient hi hvalid
  have hlt := (List.getElem?_eq_some_iff.mp hi).1
  unfold Broker.disconnectCLient at hheld ⊢
  simp only [hi] at hheld ⊢
  refine h.mono ?_ rfl ?_
  · exact (congrArg (· + locals) hheld).le
  · intro handle j hj
    change Function.update s.connectedClients
      client.clientApplicationContext.clientNetworkHandle none handle = some j at hj
    have hne : handle ≠ client.clientApplicationContext.clientNetworkHandle := by
      rintro rfl
      rw [Function.update_self] at hj
      cases hj
    rw [Function.update_of_ne hne] at hj
    obtain ⟨c, hc, hcvalid, hhandle⟩ := h.connected handle j hj
    have hij : i ≠ j := by
      rintro rfl
      rw [hi] at hc
      obtain rfl := Option.some.inj hc
      exact hne hhandle.symm
    exact ⟨c, (List.getElem?_set_ne hij).trans hc, hcvalid, hhandle⟩

/-- A new connection with the buffers in two local variables, under a new handle. -/
theorem Inv.selectAccept (h : Inv s 0) : Inv (s.selectAccept config) 0 := by
  set s₀ : Broker := { s with
    clientCounter := s.clientCounter + 1
    connectedClients :=
      Function.update s.connectedClients (s.clientCounter + 1) (some s.clients.length) }
  have h₁ : Exclusive (held (s₀.aquire config).2 + (0 + {(s₀.aquire config).1}))
      (s₀.aquire config).2.heap.length := exclusive_aquire (s := s₀) h.exclusive
  have h₂ := @exclusive_aquire _ _ config h₁
  unfold Broker.selectAccept
  refine ⟨h₂.mono (le_of_eq ?_) le_rfl, ?_⟩
  · have hslots : clientSlots ⟨⟨s.clientCounter + 1⟩, (s₀.aquire config).1,
        some ((s₀.aquire config).2.aquire config).1, ⟨true, false⟩⟩ =
        {(s₀.aquire config).1} + {((s₀.aquire config).2.aquire config).1} := rfl
    unfold held
    dsimp only
    rw [List.map_append, List.sum_append, List.map_singleton, List.sum_singleton, hslots]
    abel
  · intro handle j hj
    have hmap : Function.update s.connectedClients (s.clientCounter + 1) (some s.clients.length)
        handle = some j := by
      simpa only [connectedClients_aquire] using hj
    dsimp only
    rw [clients_aquire, clients_aquire]
    by_cases hhandle : handle = s.clientCounter + 1
    · subst hhandle
      rw [Function.update_self] at hmap
      obtain rfl := Option.some.inj hmap
      exact ⟨_, List.getElem?_concat_length, rfl, rfl⟩
    · rw [Function.update_of_ne hhandle] at hmap
      obtain ⟨c, hc, hvalid, hch⟩ := h.connected handle j hmap
      have hlt := (List.getElem?_eq_some_iff.mp hc).1
      exact ⟨c, (List.getElem?_append_left hlt).trans hc, hvalid, hch⟩

theorem Inv.onMessage {messageBuffer : ℕ} (h : Inv s (locals + {messageBuffer})) :
    Inv (s.onMessage i messageBuffer) locals := by
  unfold Broker.onMessage
  split
  · rename_i requestQueue hadd
    refine h.mono (le_of_eq ?_) rfl h.connected
    have hslots : taskSlots (WorkerTask.new i messageBuffer) = {messageBuffer} := rfl
    rw [held_addRequest hadd, hslots]
    abel
  · exact h.drop

/-- New contents of a buffer. -/
theorem Inv.setHeap (h : Inv s locals) {heap : List ByteBuffer}
    (hlen : heap.length = s.heap.length) : Inv { s with heap } locals :=
  h.mono le_rfl hlen h.connected

theorem Inv.takeMessage {client : Client} (h : Inv s 0) (hi : s.clients[i]? = some client)
    (hvalid : client.selectionKey.isValid = true) : Inv (s.takeMessage config i client) 0 := by
  have h₁ : Inv (s.aquire config).2 (0 + {(s.aquire config).1}) := h.aquire
  have hi₁ : (s.aquire config).2.clients[i]? = some client := by rw [clients_aquire, hi]
  -- the pooled buffer comes in, the message goes out
  have hslots : clientSlots (client.swapRxBuffer (s.aquire config).1).2 + {client.rxBuffer} =
      clientSlots client + (0 + {(s.aquire config).1}) := by
    have hnew : clientSlots (client.swapRxBuffer (s.aquire config).1).2 =
        {(s.aquire config).1} + (client.txBuffer.toList : Multiset ℕ) :=
      clientSlots_of_valid hvalid
    rw [hnew, clientSlots_of_valid hvalid]
    abel
  have h₂ : Inv ((s.aquire config).2.setClient i (client.swapRxBuffer (s.aquire config).1).2)
      (0 + {client.rxBuffer}) :=
    h₁.setClient hi₁ (le_of_eq ((congrArg _ (zero_add _)).trans hslots)) rfl rfl
  exact h₂.onMessage

theorem clients_takeMessage {client : Client} :
    (s.takeMessage config i client).clients =
      s.clients.set i { client with rxBuffer := (s.aquire config).1 } := by
  unfold Broker.takeMessage Broker.onMessage
  dsimp only
  split
  · exact congrArg (List.set · i _) clients_aquire
  · exact congrArg (List.set · i _) clients_aquire

/-- The client whose message has been taken has a new buffer. -/
theorem getElem?_takeMessage {client : Client} (hi : s.clients[i]? = some client) :
    (s.takeMessage config i client).clients[i]? =
      some { client with rxBuffer := (s.aquire config).1 } := by
  rw [clients_takeMessage]
  exact List.getElem?_set_self (List.getElem?_eq_some_iff.mp hi).1

theorem Inv.selectRead {chunk : Option (List UInt8)} (h : Inv s 0)
    (hs : s.selectRead config i chunk = some s') : Inv s' 0 := by
  obtain ⟨client, rxBuffer, s₁, hi, hvalid, -, hs₁, rfl⟩ := Broker.selectRead_eq_some hs
  have h₁ : Inv s₁ 0 := hs₁ ▸ h.setHeap List.length_set
  have hi₁ : s₁.clients[i]? = some client := hs₁ ▸ hi
  have h₂ : Inv (s₁.takeMessage config i client) 0 := h₁.takeMessage hi₁ hvalid
  split_ifs
  · exact h₂.disconnectCLient (getElem?_takeMessage hi₁) hvalid
  · exact h₂
  · exact h₁.disconnectCLient hi₁ hvalid
  · exact h₁

theorem Inv.afterWrite {client : Client} {tx : ℕ} {txBuffer : ByteBuffer} (h : Inv s 0)
    (hi : s.clients[i]? = some client) (hvalid : client.selectionKey.isValid = true)
    (htx : client.txBuffer = some tx) : Inv (s.afterWrite i client tx txBuffer) 0 := by
  unfold Broker.afterWrite
  split_ifs
  · exact h
  · refine Inv.release (h.setClient hi (le_of_eq ?_) rfl hvalid.symm)
    rw [clientSlots_of_valid hvalid, htx]
    rfl

theorem Inv.selectWrite {byteCount : ℕ} (h : Inv s 0)
    (hs : s.selectWrite i byteCount = some s') : Inv s' 0 := by
  obtain ⟨client, hi, hvalid, ⟨-, rfl⟩ | ⟨tx, txBuffer, htx, -, -, rfl⟩⟩ :=
    Broker.selectWrite_eq_some hs
  · exact h.disconnectCLient hi hvalid
  · exact (h.setHeap List.length_set).afterWrite hi hvalid htx

/-- A connection whose send buffer is exchanged; the old one goes back to the pool. -/
theorem Inv.exchangeTx {j : ℕ} {client client' : Client}
    (h : Inv s (locals + client'.txBuffer.toList)) (hj : s.clients[j]? = some client)
    (hvalid : client.selectionKey.isValid = true) (hvalid' : client'.selectionKey.isValid = true)
    (hctx : client'.clientApplicationContext = client.clientApplicationContext)
    (hrx : client'.rxBuffer = client.rxBuffer) :
    Inv ((s.release client.txBuffer.toList).setClient j client') locals := by
  have h₁ : Inv (s.setClient j client') (locals + client.txBuffer.toList) := by
    refine h.setClient hj (le_of_eq ?_) hctx (hvalid'.trans hvalid.symm)
    rw [clientSlots_of_valid hvalid, clientSlots_of_valid hvalid', hrx]
    abel
  exact h₁.release

/-- The new send buffer comes out of a local variable. -/
theorem Inv.setResponse {j : ℕ} {newTxBuffer : Option ℕ} {completed : Bool} {client : Client}
    (h : Inv s (locals + newTxBuffer.toList)) (hj : s.clients[j]? = some client)
    (hvalid : client.selectionKey.isValid = true)
    (hs : s.setResponse j newTxBuffer = some (s', completed)) : Inv s' locals := by
  obtain ⟨rfl, -, rfl⟩ | ⟨buffer, rfl, -, rfl⟩ := Broker.setResponse_eq_some hj hvalid hs
  · exact Inv.exchangeTx h hj hvalid (show { client with txBuffer := none }.selectionKey.isValid = true
      from hvalid) rfl rfl
  · have hkey : ({ client with txBuffer := some buffer, selectionKey := ⟨true, true⟩ } :
        Client).selectionKey.isValid = true := rfl
    exact (Inv.exchangeTx h hj hvalid hkey rfl rfl).setHeap (List.length_modify ..)

/-- The task that is taken out of the response queue is in a local variable. -/
theorem Inv.pollResponse {task : Task} {responseQueue : BoundedQueue Task} (h : Inv s locals)
    (hpoll : s.responseQueue.poll = some (task, responseQueue)) :
    Inv { s with responseQueue } (locals + taskSlots task) := by
  refine h.mono (le_of_eq ?_) rfl h.connected
  rw [← held_pollResponse hpoll]
  abel

theorem Inv.reactor (h : Inv s locals) (reactor : ReactorState) (wakeup : Bool) :
    Inv { s with reactor, wakeup } locals := h.mono le_rfl rfl h.connected

theorem taskSlots_eq (task : Task) : taskSlots task =
    taskSlots { task with responseBuffer := none } + (task.responseBuffer.toList : Multiset ℕ) := by
  unfold taskSlots WorkerTask.close
  rw [← Multiset.coe_add, ← Multiset.coe_add]
  simp

theorem Inv.selectQueue (h : Inv s 0) (hs : s.selectQueue = some s') : Inv s' 0 := by
  obtain ⟨-, rfl⟩ | ⟨task, responseQueue, client, hpoll, -, ⟨-, rfl⟩ | ⟨j, s₁, completed, hj, hset,
    rfl⟩⟩ := Broker.selectQueue_eq_some hs
  · exact h.reactor .select s.wakeup
  · exact Inv.reactor (h.pollResponse hpoll).release .select s.wakeup
  · have h₁ := h.pollResponse hpoll
    rw [taskSlots_eq, ← add_assoc] at h₁
    obtain ⟨client', hj', hvalid, -⟩ := h₁.connected _ _ hj
    have h₂ : Inv s₁ (0 + taskSlots { task with responseBuffer := none }) :=
      h₁.setResponse hj' hvalid hset
    split_ifs
    · exact h₂.release
    · exact Inv.reactor h₂.release .stopped s₁.wakeup

/-! ### Workers -/

theorem Inv.setWorker {w : ℕ} {worker worker' : WorkerState} (h : Inv s locals)
    (hw : s.workers[w]? = some worker)
    (hslots : workerSlots worker' + locals' ≤ workerSlots worker + locals) :
    Inv (s.setWorker w worker') locals' := by
  refine h.mono (le_of_add_le_add_right (a := workerSlots worker) ?_) rfl h.connected
  calc held (s.setWorker w worker') + locals' + workerSlots worker
      = held s + (workerSlots worker' + locals') := by
        rw [add_right_comm, held_setWorker hw, add_assoc]
    _ ≤ held s + (workerSlots worker + locals) := add_le_add_right hslots _
    _ = held s + locals + workerSlots worker := by abel

theorem Inv.take {w : ℕ} (h : Inv s 0) (hs : s.take w = some s') : Inv s' 0 := by
  obtain ⟨task, requestQueue, hw, hpoll, rfl⟩ := Broker.take_eq_some hs
  have h₁ : Inv { s with requestQueue } (0 + taskSlots task) := by
    refine h.mono (le_of_eq ?_) rfl h.connected
    rw [← held_pollRequest hpoll]
    abel
  refine h₁.setWorker hw (le_of_eq ?_)
  unfold workerSlots
  abel

theorem Inv.decode {w : ℕ} (h : Inv s 0) (hs : s.decode w = some s') : Inv s' 0 := by
  obtain ⟨task, hw, ⟨-, rfl⟩ | ⟨buffer, rawRequest, rawRequest', worker, hbuffer, -, rfl, hworker⟩⟩ :=
    Broker.decode_eq_some hs
  · exact h.setWorker hw (by simp [workerSlots])
  · refine (h.setHeap List.length_set).setWorker hw ?_
    rcases hworker with ⟨request, -, rfl⟩ | ⟨e, -, rfl⟩
    · -- the request buffer moves from the task to the local variable
      have hslots : taskSlots task =
          taskSlots { task with requestBuffer := none } + {buffer} := by
        unfold taskSlots WorkerTask.close
        rw [hbuffer, ← Multiset.coe_add, ← Multiset.coe_add, add_comm]
        simp
      show taskSlots { task with requestBuffer := none } + {buffer} + 0 ≤ taskSlots task + 0
      rw [hslots]
    · simp [workerSlots]

theorem Inv.answer {w : ℕ} {stream : ObjectStream ε} {outcome : Except ε (Response ε)}
    (h : Inv s 0) (hs : s.answer stream w outcome = some s') : Inv s' 0 := by
  obtain ⟨task, buffer, request, rawRequest, rawRequest', worker, hw, -, rfl, hworker⟩ :=
    Broker.answer_eq_some hs
  refine (h.setHeap List.length_set).setWorker hw ?_
  rcases hworker with ⟨-, rfl⟩ | ⟨e, -, rfl⟩
  · -- from the local variable to the response slot
    have hslots : taskSlots { task with responseBuffer := some buffer } =
        (task.requestBuffer.toList : Multiset ℕ) + {buffer} := by
      unfold taskSlots WorkerTask.close
      rw [← Multiset.coe_add]
      rfl
    show taskSlots { task with responseBuffer := some buffer } + 0 ≤ taskSlots task + {buffer} + 0
    rw [hslots, add_zero, add_zero]
    refine add_le_add_left ?_ _
    unfold taskSlots WorkerTask.close
    rw [← Multiset.coe_add]
    exact Multiset.le_add_right _ _
  · simp [workerSlots]

theorem Inv.post {w : ℕ} (h : Inv s 0) (hs : s.post w = some s') : Inv s' 0 := by
  obtain ⟨task, hw, ⟨responseQueue, hadd, rfl⟩ | ⟨-, rfl⟩⟩ := Broker.post_eq_some hs
  · have h₁ : Inv (s.setWorker w (.posted none)) (taskSlots task) :=
      h.setWorker hw (le_of_eq (by simp [workerSlots]))
    refine h₁.mono (le_of_eq ?_) rfl h₁.connected
    rw [← held_addResponse (s := s.setWorker w (.posted none)) hadd, add_zero]
    rfl
  · exact h.setWorker hw le_rfl

theorem Inv.wake {w : ℕ} (h : Inv s 0) (hs : s.wake w = some s') : Inv s' 0 := by
  obtain ⟨dropped, hw, rfl⟩ := Broker.wake_eq_some hs
  exact (h.reactor s.reactor true).setWorker hw (by simp [workerSlots])

/-! ### Runs -/

theorem inv_init (config : BrokerConfiguration) : Inv (init config) 0 := by
  have hidle : workerSlots .idle = 0 := rfl
  have hheld : held (init config) + 0 = 0 := by
    unfold held init
    simp [BoundedQueue.empty, hidle]
  refine ⟨?_, fun handle i h => by cases h⟩
  rw [hheld]
  exact exclusive_zero _

/-- **Every step keeps the invariant.** -/
theorem Inv.step {stream : ObjectStream ε} {l : Label ε} (h : Inv s 0)
    (hs : Step config stream s l s') : Inv s' 0 := by
  obtain ⟨-, hs⟩ := hs
  cases l with
  | select => exact Option.some.inj hs ▸ h.reactor .keys false
  | accept => exact Option.some.inj hs ▸ h.selectAccept
  | acceptFails => exact Option.some.inj hs ▸ h.reactor .stopped s.wakeup
  | read i chunk => exact h.selectRead hs
  | write i byteCount => exact h.selectWrite hs
  | fails i =>
    obtain ⟨client, hi, hvalid, rfl⟩ := Broker.selectFails_eq_some hs
    exact h.disconnectCLient hi hvalid
  | keysDone => exact Option.some.inj hs ▸ h.reactor .queue s.wakeup
  | selectQueue => exact h.selectQueue hs
  | take w => exact h.take hs
  | decode w => exact h.decode hs
  | answer w outcome => exact h.answer hs
  | post w => exact h.post hs
  | wake w => exact h.wake hs

theorem Inv.of_reaches {stream : ObjectStream ε} (h : Reaches config stream s) : Inv s 0 := by
  unfold Reaches at h
  refine h.invariant (P := fun s => Inv s 0) ?_ fun _ _ _ hs hstep => hs.step hstep
  rintro s rfl
  exact inv_init config

/-- **No buffer has two owners.** In particular a buffer is not in the pool when it is released: it
would be there twice afterwards. -/
theorem no_aliasing {stream : ObjectStream ε} (h : Reaches config stream s) :
    (held s).Nodup ∧ s.pooledBuffers.Nodup := by
  have hnodup := (Inv.of_reaches h).exclusive.nodup
  rw [add_zero] at hnodup
  refine ⟨hnodup, ?_⟩
  have hle : (s.pooledBuffers : Multiset ℕ) ≤ held s := by
    unfold held
    simp only [add_assoc]
    exact Multiset.le_add_right _ _
  exact Multiset.coe_nodup.mp (Multiset.nodup_of_le hle hnodup)

/-- A broker with one worker and buffers of 32 bytes. -/
def smallConfiguration : BrokerConfiguration := ⟨1, 1, 1, 32, by decide⟩

/-- The broker after one connection has been accepted. -/
def acceptedBroker : Broker :=
  { init smallConfiguration with reactor := .keys }.selectAccept smallConfiguration

theorem reaches_accepted : Reaches smallConfiguration nullStream acceptedBroker := by
  refine ⟨_, [.select, .accept], rfl, .cons ⟨?_, rfl⟩ (.cons ⟨?_, rfl⟩ (.nil _))⟩
  · rintro r ⟨⟩
    rfl
  · rintro r ⟨⟩
    rfl

/-- Three connections are accepted, two of them fail, and the other one sends two frames. A worker
has taken the first one. -/
def busy : List (Label Empty) :=
  [.select, .accept, .accept, .accept, .fails 1, .fails 2, .read 0 (some [0, 0, 0, 0]), .take 0,
    .read 0 (some [0, 0, 0, 0])]

/-- Buffers of a worker, of the request queue, of a connection and of the pool. -/
theorem no_aliasing_busy : ∃ s, Reaches smallConfiguration nullStream s ∧
    s.requestQueue.items ≠ [] ∧ s.workers ≠ [.idle] ∧ s.pooledBuffers ≠ [] ∧
    (held s).Nodup ∧ s.pooledBuffers.Nodup := by
  have hrun : (follow smallConfiguration nullStream (init smallConfiguration) busy).any (fun s =>
      s.requestQueue.items ≠ [] ∧ s.workers ≠ [.idle] ∧ s.pooledBuffers ≠ []) = true := by
    decide +kernel
  simp only [Option.any_eq_true, decide_eq_true_eq] at hrun
  obtain ⟨s, hs, hqueue, hworkers, hpool⟩ := hrun
  have hreaches : Reaches smallConfiguration nullStream s :=
    ⟨_, busy, rfl, follow_eq_some_iff.mp hs⟩
  exact ⟨s, hreaches, hqueue, hworkers, hpool, no_aliasing hreaches⟩

end Mlmq.Server.Ownership
