import Mlmq.Lib.Transition
import Mlmq.Server.Worker

/-! # The broker

The reactor thread (`BrokerNetworkInterface.run`), the worker threads (`Worker.run`), the two queues
between them and the pool of buffers, as one transition system. Objects are referred to by numbers:
a buffer by its number in `heap`, a connection and its context by its number in `clients`; none of
them is ever removed from these lists.

The reactor waits in `select`, then handles keys, then empties the response queue. Each operation on
a key is one step, and so is one round of `selectQueue`: only the two queues are shared with the
workers, and every operation uses each of them at most once. A worker takes a task, decodes the
request, processes and encodes it, puts the task into the response queue and wakes the reactor, one
step each. What the sockets deliver and take, which keys are ready and what the `RequestProcessor`
does is part of the label of a step.

An exception of an operation on the key of a connection closes the connection. One on the listening
key, or in `selectQueue`, leaves the loop and stops the reactor. -/

namespace Mlmq.Server.System

open Mlmq.Lib.Nio Mlmq.Lib.Transition Mlmq.Net.Requests Mlmq.Net.Responses Mlmq.Net.Factory
open Mlmq.Server.Connection Mlmq.Server.Worker
open Mlmq.Lib.Queue (BoundedQueue)
open Mlmq.Util.ByteBufferUtil (ObjectStream)

variable {ε : Type}

/-! ### States -/

/-- The settings of the broker. -/
structure BrokerConfiguration where
  workerThreadCount : ℕ
  requestQueueSize : ℕ
  responseQueueSize : ℕ
  maxMessageSize : ℕ
  maxMessageSize_lt : maxMessageSize < 2 ^ 31

structure ClientApplicationContext where
  clientNetworkHandle : Int32
deriving DecidableEq, Repr

abbrev Client := ConnectedClient ClientApplicationContext ℕ

abbrev Task := WorkerTask ℕ ℕ

/-- Where a worker is in `run` and `process`. -/
inductive WorkerState
  | idle
  /-- a task has been taken from the request queue -/
  | taken (task : Task)
  /-- the request has been decoded; `requestBuffer` is the local variable of `process` -/
  | processing (task : Task) (requestBuffer : ℕ) (request : Request)
  /-- the response buffer of the task has been set, which is the last use of the local variable -/
  | answered (task : Task)
  /-- the task is in the response queue, or it has been refused and dropped -/
  | posted (dropped : Option Task)
deriving DecidableEq, Repr

/-- Where the reactor is in `run`. -/
inductive ReactorState
  | select
  | keys
  | queue
  | stopped
deriving DecidableEq, Repr

structure Broker where
  heap : List ByteBuffer
  pooledBuffers : List ℕ
  clients : List Client
  connectedClients : Int32 → Option ℕ
  clientCounter : Int32
  requestQueue : BoundedQueue Task
  responseQueue : BoundedQueue Task
  workers : List WorkerState
  reactor : ReactorState
  wakeup : Bool

/-- The broker after its start. -/
def init (config : BrokerConfiguration) : Broker where
  heap := []
  pooledBuffers := []
  clients := []
  connectedClients _ := none
  clientCounter := 0
  requestQueue := .empty config.requestQueueSize
  responseQueue := .empty config.responseQueueSize
  workers := List.replicate config.workerThreadCount .idle
  reactor := .select
  wakeup := false

namespace Broker

/-! ### The pool -/

/-- `close()` of some buffers: `ByteBufferPool.release` of each. -/
def release (s : Broker) (buffers : List ℕ) : Broker :=
  { s with pooledBuffers := s.pooledBuffers ++ buffers }

/-- `ByteBufferPool.aquire`. -/
def aquire (config : BrokerConfiguration) (s : Broker) : ℕ × Broker :=
  match s.pooledBuffers with
  | buffer :: pooledBuffers =>
    (buffer, { s with pooledBuffers, heap := s.heap.modify buffer ByteBuffer.clear })
  | [] =>
    let buffer := ByteBuffer.allocate config.maxMessageSize config.maxMessageSize_lt
    (s.heap.length, { s with heap := s.heap ++ [buffer.clear] })

/-! ### The reactor -/

def setClient (s : Broker) (i : ℕ) (client : Client) : Broker :=
  { s with clients := s.clients.set i client }

/-- `disconnectCLient`: the buffers go back to the pool and the key is cancelled. -/
def disconnectCLient (s : Broker) (i : ℕ) : Broker :=
  match s.clients[i]? with
  | none => s
  | some client =>
    let s := s.release client.close
    let s := s.setClient i { client with selectionKey := ⟨false, false⟩ }
    { s with connectedClients :=
        Function.update s.connectedClients client.clientApplicationContext.clientNetworkHandle none }

def selectAccept (config : BrokerConfiguration) (s : Broker) : Broker :=
  let clientCounter := s.clientCounter + 1
  let i := s.clients.length
  let s := { s with clientCounter,
                    connectedClients := Function.update s.connectedClients clientCounter (some i) }
  let (rxBuffer, s) := s.aquire config
  let (txBuffer, s) := s.aquire config
  { s with clients := s.clients ++ [⟨⟨clientCounter⟩, rxBuffer, some txBuffer, ⟨true, false⟩⟩] }

/-- `onMessage`: a full queue drops the message. -/
def onMessage (s : Broker) (i messageBuffer : ℕ) : Broker :=
  match s.requestQueue.add (WorkerTask.new i messageBuffer) with
  | some requestQueue => { s with requestQueue }
  | none => s

/-- A whole message: the receive buffer is exchanged for one from the pool and handed on. -/
def takeMessage (config : BrokerConfiguration) (s : Broker) (i : ℕ) (client : Client) : Broker :=
  let (replacementBuffer, s) := s.aquire config
  let (messageBuffer, client) := client.swapRxBuffer replacementBuffer
  (s.setClient i client).onMessage i messageBuffer

/-- `selectRead` when the socket delivers `chunk`, or its end if there is none. -/
def selectRead (config : BrokerConfiguration) (s : Broker) (i : ℕ) (chunk : Option (List UInt8)) :
    Option Broker := do
  let client ← s.clients[i]?
  let rxBuffer ← s.heap[client.rxBuffer]?
  if client.selectionKey.isValid ∧ (chunk.getD []).length ≤ rxBuffer.remaining then
    match receive (chunk.getD []) rxBuffer with
    | .error _ _ => return s.disconnectCLient i
    | .ok received rxBuffer =>
      let s := { s with heap := s.heap.set client.rxBuffer rxBuffer }
      let s := if received then s.takeMessage config i client else s
      return if chunk.isNone then s.disconnectCLient i else s
  else none

/-- `afterWrite`: a buffer that has been written goes back to the pool. -/
def afterWrite (s : Broker) (i : ℕ) (client : Client) (tx : ℕ) (txBuffer : ByteBuffer) : Broker :=
  if txBuffer.hasRemaining then s
  else
    let s := s.setClient i { client with selectionKey := ⟨true, false⟩, txBuffer := none }
    s.release [tx]

/-- `selectWrite` when the socket takes `byteCount` bytes. -/
def selectWrite (s : Broker) (i byteCount : ℕ) : Option Broker := do
  let client ← s.clients[i]?
  if client.selectionKey.isValid ∧ client.selectionKey.opWrite then
    match client.txBuffer with
    | none => return s.disconnectCLient i
    | some tx =>
      let txBuffer ← s.heap[tx]?
      if byteCount ≤ txBuffer.remaining then
        let txBuffer := txBuffer.skip byteCount
        let s := { s with heap := s.heap.set tx txBuffer }
        return s.afterWrite i client tx txBuffer
      else none
  else none

/-- An `IOException` of a read or a write. -/
def selectFails (s : Broker) (i : ℕ) : Option Broker := do
  let client ← s.clients[i]?
  if client.selectionKey.isValid then
    return s.disconnectCLient i
  else none

/-- `setResponse` on the connection `j`, and whether it completes: it does not for a null buffer
(`NullPointerException`) and for a key that is not valid (`CancelledKeyException`). -/
def setResponse (s : Broker) (j : ℕ) (newTxBuffer : Option ℕ) : Option (Broker × Bool) := do
  let client ← s.clients[j]?
  let s := s.release client.txBuffer.toList
  match newTxBuffer with
  | none => return (s.setClient j { client with txBuffer := none }, false)
  | some buffer =>
    let s := { s with heap := s.heap.modify buffer ByteBuffer.flip }
    if client.selectionKey.isValid then
      return (s.setClient j { client with txBuffer := some buffer, selectionKey := ⟨true, true⟩ },
        true)
    else
      return (s.setClient j { client with txBuffer := some buffer }, false)

/-- One round of `selectQueue`. A task for an unknown client ends the loop. -/
def selectQueue (s : Broker) : Option Broker :=
  match s.responseQueue.poll with
  | none => some { s with reactor := .select }
  | some (task, responseQueue) => do
    let s := { s with responseQueue }
    let client ← s.clients[task.clientContext]?
    match s.connectedClients client.clientApplicationContext.clientNetworkHandle with
    | none => return { s.release task.close with reactor := .select }
    | some j =>
      let (buffer, task) := task.getAndRemoveResponseBuffer
      let (s, completed) ← s.setResponse j buffer
      let s := s.release task.close
      return if completed then s else { s with reactor := .stopped }

/-! ### The workers -/

def setWorker (s : Broker) (w : ℕ) (worker : WorkerState) : Broker :=
  { s with workers := s.workers.set w worker }

/-- `blockingDequeue`. -/
def take (s : Broker) (w : ℕ) : Option Broker := do
  let .idle ← s.workers[w]? | none
  let (task, requestQueue) ← s.requestQueue.poll
  return { s with requestQueue }.setWorker w (.taken task)

/-- `getAndRemoveRequestBuffer` and `deserializeRequest`; an exception ends `process`. -/
def decode (s : Broker) (w : ℕ) : Option Broker := do
  let .taken task ← s.workers[w]? | none
  let (requestBuffer, task) := task.getAndRemoveRequestBuffer
  match requestBuffer with
  | none => return s.setWorker w .idle
  | some buffer =>
    let rawRequest ← s.heap[buffer]?
    match deserializeRequest rawRequest with
    | .ok request rawRequest =>
      return { s with heap := s.heap.set buffer rawRequest }.setWorker w
        (.processing task buffer request)
    | .error _ rawRequest =>
      return { s with heap := s.heap.set buffer rawRequest }.setWorker w .idle

/-- The `RequestProcessor`, the encoding of the response and `setResponseBuffer`; an exception of
the encoder ends `process`. -/
def answer (stream : ObjectStream ε) (s : Broker) (w : ℕ) (outcome : Except ε (Response ε)) :
    Option Broker := do
  let .processing task buffer _ ← s.workers[w]? | none
  let rawRequest ← s.heap[buffer]?
  match serializeResponseWithHeader stream (responseOf outcome) rawRequest.clear with
  | .ok () rawRequest =>
    return { s with heap := s.heap.set buffer rawRequest }.setWorker w
      (.answered (task.setResponseBuffer buffer))
  | .error _ rawRequest =>
    return { s with heap := s.heap.set buffer rawRequest }.setWorker w .idle

/-- `responseQueue.enqueue(task)` up to the wakeup. -/
def post (s : Broker) (w : ℕ) : Option Broker := do
  let .answered task ← s.workers[w]? | none
  match s.responseQueue.add task with
  | some responseQueue => return { s with responseQueue }.setWorker w (.posted none)
  | none => return s.setWorker w (.posted (some task))

/-- `wakeupReactorRunnable.run()`, and the end of `process`. -/
def wake (s : Broker) (w : ℕ) : Option Broker := do
  let .posted _ ← s.workers[w]? | none
  return { s with wakeup := true }.setWorker w .idle

/-! ### What the operations do -/

variable {config : BrokerConfiguration} {stream : ObjectStream ε} {s s' : Broker} {i j w : ℕ}

theorem selectRead_eq_some {chunk : Option (List UInt8)}
    (h : s.selectRead config i chunk = some s') :
    ∃ client rxBuffer s₁, s.clients[i]? = some client ∧ client.selectionKey.isValid = true ∧
      s.heap[client.rxBuffer]? = some rxBuffer ∧
      s₁ = { s with heap := s.heap.set client.rxBuffer (afterTest (rxBuffer.write (chunk.getD []))) } ∧
      s' = if Complete (rxBuffer.write (chunk.getD [])) then
          if chunk.isNone then (s₁.takeMessage config i client).disconnectCLient i
          else s₁.takeMessage config i client
        else if chunk.isNone then s₁.disconnectCLient i else s₁ := by
  unfold selectRead at h
  simp only [Option.bind_eq_bind, Option.bind_eq_some_iff, receive_eq] at h
  obtain ⟨client, hi, rxBuffer, hrx, h⟩ := h
  by_cases hguard : client.selectionKey.isValid ∧ (chunk.getD []).length ≤ rxBuffer.remaining
  · rw [if_pos hguard] at h
    refine ⟨client, rxBuffer, _, hi, hguard.1, hrx, rfl, ?_⟩
    rw [← Option.some.inj h]
    by_cases hc : Complete (rxBuffer.write (chunk.getD []))
    · simp only [hc, decide_true, if_true]
    · simp only [hc, decide_false, if_false, Bool.false_eq_true]
  · rw [if_neg hguard] at h
    cases h

/-- The socket delivers no more than fits the receive buffer. -/
theorem length_le_of_selectRead {chunk : Option (List UInt8)} {client : Client}
    {rxBuffer : ByteBuffer} (h : s.selectRead config i chunk = some s')
    (hi : s.clients[i]? = some client) (hrx : s.heap[client.rxBuffer]? = some rxBuffer) :
    (chunk.getD []).length ≤ rxBuffer.remaining := by
  unfold selectRead at h
  simp only [hi, hrx, Option.bind_eq_bind, Option.bind_some] at h
  by_contra hlong
  rw [if_neg (show ¬ (_ ∧ _) from fun hguard => hlong hguard.2)] at h
  cases h

/-- The selector reports only keys that wait for the socket. -/
theorem opWrite_of_selectWrite {byteCount : ℕ} {client : Client}
    (h : s.selectWrite i byteCount = some s') (hi : s.clients[i]? = some client) :
    client.selectionKey.opWrite = true := by
  unfold selectWrite at h
  simp only [hi, Option.bind_eq_bind, Option.bind_some] at h
  by_contra hop
  rw [if_neg (show ¬ (_ ∧ _) from fun hguard => hop hguard.2)] at h
  cases h

theorem selectWrite_eq_some {byteCount : ℕ} (h : s.selectWrite i byteCount = some s') :
    ∃ client, s.clients[i]? = some client ∧ client.selectionKey.isValid = true ∧
      (client.txBuffer = none ∧ s' = s.disconnectCLient i ∨
        ∃ tx txBuffer, client.txBuffer = some tx ∧ s.heap[tx]? = some txBuffer ∧
          byteCount ≤ txBuffer.remaining ∧
          s' = { s with heap := s.heap.set tx (txBuffer.skip byteCount) }.afterWrite i client tx
            (txBuffer.skip byteCount)) := by
  unfold selectWrite at h
  simp only [Option.bind_eq_bind, Option.bind_eq_some_iff] at h
  obtain ⟨client, hi, h⟩ := h
  split_ifs at h with hguard
  refine ⟨client, hi, hguard.1, ?_⟩
  split at h
  · rename_i htx
    exact Or.inl ⟨htx, (Option.some.inj h).symm⟩
  · rename_i tx htx
    rw [Option.bind_eq_some_iff] at h
    obtain ⟨txBuffer, hheap, h⟩ := h
    split_ifs at h with hcount
    exact Or.inr ⟨tx, txBuffer, htx, hheap, hcount, (Option.some.inj h).symm⟩

theorem selectFails_eq_some (h : s.selectFails i = some s') :
    ∃ client, s.clients[i]? = some client ∧ client.selectionKey.isValid = true ∧
      s' = s.disconnectCLient i := by
  unfold selectFails at h
  simp only [Option.bind_eq_bind, Option.bind_eq_some_iff] at h
  obtain ⟨client, hi, h⟩ := h
  split_ifs at h with hvalid
  exact ⟨client, hi, hvalid, (Option.some.inj h).symm⟩

/-- `setResponse` for a connected client completes, unless the buffer is null. -/
theorem setResponse_eq_some {newTxBuffer : Option ℕ} {completed : Bool} {client : Client}
    (hj : s.clients[j]? = some client) (hvalid : client.selectionKey.isValid = true)
    (h : s.setResponse j newTxBuffer = some (s', completed)) :
    newTxBuffer = none ∧ completed = false ∧
      s' = (s.release client.txBuffer.toList).setClient j { client with txBuffer := none } ∨
    ∃ buffer, newTxBuffer = some buffer ∧ completed = true ∧
      s' = { s.release client.txBuffer.toList with
        heap := s.heap.modify buffer ByteBuffer.flip }.setClient j
          { client with txBuffer := some buffer, selectionKey := ⟨true, true⟩ } := by
  unfold setResponse at h
  simp only [hj, Option.bind_eq_bind, Option.bind_some] at h
  split at h
  · obtain ⟨h1, h2⟩ := Prod.mk.inj (Option.some.inj h)
    exact Or.inl ⟨rfl, h2.symm, h1.symm⟩
  · rename_i buffer
    rw [if_pos hvalid] at h
    obtain ⟨h1, h2⟩ := Prod.mk.inj (Option.some.inj h)
    exact Or.inr ⟨buffer, rfl, h2.symm, h1.symm⟩

/-- One round of `selectQueue`: the queue is empty, or a task is disposed of. -/
theorem selectQueue_eq_some (h : s.selectQueue = some s') :
    s.responseQueue.poll = none ∧ s' = { s with reactor := .select } ∨
    ∃ task responseQueue client, s.responseQueue.poll = some (task, responseQueue) ∧
      s.clients[task.clientContext]? = some client ∧
      (s.connectedClients client.clientApplicationContext.clientNetworkHandle = none ∧
        s' = { { s with responseQueue }.release task.close with reactor := .select } ∨
      ∃ j s₁ completed,
        s.connectedClients client.clientApplicationContext.clientNetworkHandle = some j ∧
        { s with responseQueue }.setResponse j task.responseBuffer = some (s₁, completed) ∧
        s' = if completed then s₁.release { task with responseBuffer := none }.close
          else { s₁.release { task with responseBuffer := none }.close with reactor := .stopped }) := by
  unfold selectQueue at h
  split at h
  · rename_i hpoll
    exact Or.inl ⟨hpoll, (Option.some.inj h).symm⟩
  · rename_i task responseQueue hpoll
    simp only [Option.bind_eq_bind, Option.bind_eq_some_iff] at h
    obtain ⟨client, hclient, h⟩ := h
    refine Or.inr ⟨task, responseQueue, client, hpoll, hclient, ?_⟩
    split at h
    · rename_i hnone
      exact Or.inl ⟨hnone, (Option.some.inj h).symm⟩
    · rename_i j hsome
      obtain ⟨⟨s₁, completed⟩, hset, h⟩ := Option.bind_eq_some_iff.mp h
      exact Or.inr ⟨j, s₁, completed, hsome, hset, (Option.some.inj h).symm⟩

theorem take_eq_some (h : s.take w = some s') :
    ∃ task requestQueue, s.workers[w]? = some .idle ∧
      s.requestQueue.poll = some (task, requestQueue) ∧
      s' = { s with requestQueue }.setWorker w (.taken task) := by
  unfold take at h
  obtain ⟨worker, hw, h⟩ := Option.bind_eq_some_iff.mp h
  split at h
  · obtain ⟨⟨task, requestQueue⟩, hpoll, h⟩ := Option.bind_eq_some_iff.mp h
    exact ⟨task, requestQueue, hw, hpoll, (Option.some.inj h).symm⟩
  · cases h

theorem decode_eq_some (h : s.decode w = some s') :
    ∃ task, s.workers[w]? = some (.taken task) ∧
      (task.requestBuffer = none ∧ s' = s.setWorker w .idle ∨
      ∃ buffer rawRequest rawRequest' worker, task.requestBuffer = some buffer ∧
        s.heap[buffer]? = some rawRequest ∧
        s' = { s with heap := s.heap.set buffer rawRequest' }.setWorker w worker ∧
        ((∃ request, deserializeRequest rawRequest = .ok request rawRequest' ∧
          worker = .processing { task with requestBuffer := none } buffer request) ∨
        ∃ e, deserializeRequest rawRequest = .error e rawRequest' ∧ worker = .idle)) := by
  unfold decode at h
  obtain ⟨worker, hw, h⟩ := Option.bind_eq_some_iff.mp h
  split at h
  · rename_i task
    refine ⟨task, hw, ?_⟩
    unfold WorkerTask.getAndRemoveRequestBuffer at h
    dsimp only at h
    split at h
    · rename_i hnone
      exact Or.inl ⟨hnone, (Option.some.inj h).symm⟩
    · rename_i buffer hsome
      obtain ⟨rawRequest, hheap, h⟩ := Option.bind_eq_some_iff.mp h
      split at h
      · rename_i request rawRequest' hd
        exact Or.inr ⟨buffer, rawRequest, rawRequest', _, hsome, hheap, (Option.some.inj h).symm,
          Or.inl ⟨request, hd, rfl⟩⟩
      · rename_i e rawRequest' hd
        exact Or.inr ⟨buffer, rawRequest, rawRequest', _, hsome, hheap, (Option.some.inj h).symm,
          Or.inr ⟨e, hd, rfl⟩⟩
  · cases h

theorem answer_eq_some {outcome : Except ε (Response ε)} (h : s.answer stream w outcome = some s') :
    ∃ task buffer request rawRequest rawRequest' worker,
      s.workers[w]? = some (.processing task buffer request) ∧
      s.heap[buffer]? = some rawRequest ∧
      s' = { s with heap := s.heap.set buffer rawRequest' }.setWorker w worker ∧
      (serializeResponseWithHeader stream (responseOf outcome) rawRequest.clear =
          .ok () rawRequest' ∧ worker = .answered { task with responseBuffer := some buffer } ∨
        ∃ e, serializeResponseWithHeader stream (responseOf outcome) rawRequest.clear =
          .error e rawRequest' ∧ worker = .idle) := by
  unfold answer at h
  obtain ⟨worker, hw, h⟩ := Option.bind_eq_some_iff.mp h
  split at h
  · rename_i task buffer request
    obtain ⟨rawRequest, hheap, h⟩ := Option.bind_eq_some_iff.mp h
    split at h
    · rename_i rawRequest' hr
      exact ⟨task, buffer, request, rawRequest, rawRequest', _, hw, hheap, (Option.some.inj h).symm,
        Or.inl ⟨hr, rfl⟩⟩
    · rename_i e rawRequest' hr
      exact ⟨task, buffer, request, rawRequest, rawRequest', _, hw, hheap, (Option.some.inj h).symm,
        Or.inr ⟨e, hr, rfl⟩⟩
  · cases h

theorem post_eq_some (h : s.post w = some s') :
    ∃ task, s.workers[w]? = some (.answered task) ∧
      ((∃ responseQueue, s.responseQueue.add task = some responseQueue ∧
        s' = { s with responseQueue }.setWorker w (.posted none)) ∨
      s.responseQueue.add task = none ∧ s' = s.setWorker w (.posted (some task))) := by
  unfold post at h
  obtain ⟨worker, hw, h⟩ := Option.bind_eq_some_iff.mp h
  split at h
  · rename_i task
    refine ⟨task, hw, ?_⟩
    split at h
    · rename_i responseQueue hadd
      exact Or.inl ⟨responseQueue, hadd, (Option.some.inj h).symm⟩
    · rename_i hadd
      exact Or.inr ⟨hadd, (Option.some.inj h).symm⟩
  · cases h

theorem wake_eq_some (h : s.wake w = some s') :
    ∃ dropped, s.workers[w]? = some (.posted dropped) ∧
      s' = { s with wakeup := true }.setWorker w .idle := by
  unfold wake at h
  obtain ⟨worker, hw, h⟩ := Option.bind_eq_some_iff.mp h
  split at h
  · rename_i dropped
    exact ⟨dropped, hw, (Option.some.inj h).symm⟩
  · cases h

end Broker

/-! ### Steps -/

/-- What happens next. -/
inductive Label (ε : Type)
  | select
  | accept
  | acceptFails
  | read (i : ℕ) (chunk : Option (List UInt8))
  | write (i byteCount : ℕ)
  | fails (i : ℕ)
  | keysDone
  | selectQueue
  | take (w : ℕ)
  | decode (w : ℕ)
  | answer (w : ℕ) (outcome : Except ε (Response ε))
  | post (w : ℕ)
  | wake (w : ℕ)

/-- The state of the reactor in which a label can happen. -/
def Label.reactor : Label ε → Option ReactorState
  | .select => some .select
  | .accept | .acceptFails | .read _ _ | .write _ _ | .fails _ | .keysDone => some .keys
  | .selectQueue => some .queue
  | _ => none

/-- The state after what happens. -/
def next (config : BrokerConfiguration) (stream : ObjectStream ε) (s : Broker) :
    Label ε → Option Broker
  | .select => some { s with reactor := .keys, wakeup := false }
  | .accept => some (s.selectAccept config)
  -- the exception handler casts the listening channel to a `SocketChannel`
  | .acceptFails => some { s with reactor := .stopped }
  | .read i chunk => s.selectRead config i chunk
  | .write i byteCount => s.selectWrite i byteCount
  | .fails i => s.selectFails i
  | .keysDone => some { s with reactor := .queue }
  | .selectQueue => s.selectQueue
  | .take w => s.take w
  | .decode w => s.decode w
  | .answer w outcome => s.answer stream w outcome
  | .post w => s.post w
  | .wake w => s.wake w

/-- The steps of the broker. -/
def Step (config : BrokerConfiguration) (stream : ObjectStream ε) (s : Broker) (l : Label ε)
    (s' : Broker) : Prop :=
  (∀ r ∈ l.reactor, s.reactor = r) ∧ next config stream s l = some s'

/-- The states a broker reaches. -/
def Reaches (config : BrokerConfiguration) (stream : ObjectStream ε) : Broker → Prop :=
  Reachable (· = init config) (Step config stream)

/-- A label leads to one state. -/
theorem step_deterministic (config : BrokerConfiguration) (stream : ObjectStream ε)
    (s : Broker) (l : Label ε) (s₁ s₂ : Broker) (h₁ : Step config stream s l s₁)
    (h₂ : Step config stream s l s₂) : s₁ = s₂ :=
  Option.some.inj (h₁.2.symm.trans h₂.2)

/-- The state after some labels, if they can happen. -/
def follow (config : BrokerConfiguration) (stream : ObjectStream ε) :
    Broker → List (Label ε) → Option Broker
  | s, [] => some s
  | s, l :: ls =>
    if ∀ r ∈ l.reactor, s.reactor = r then
      (next config stream s l).bind fun s' => follow config stream s' ls
    else none

theorem follow_eq_some_iff {config : BrokerConfiguration} {stream : ObjectStream ε} {s s' : Broker}
    {ls : List (Label ε)} :
    follow config stream s ls = some s' ↔ Run (Step config stream) s ls s' := by
  induction ls generalizing s with
  | nil =>
    constructor
    · intro h
      obtain rfl := Option.some.inj h
      exact .nil s
    · rintro ⟨⟩
      rfl
  | cons l ls ih =>
    unfold follow
    constructor
    · intro h
      split_ifs at h with hreactor
      obtain ⟨s₁, hnext, h⟩ := Option.bind_eq_some_iff.mp h
      exact .cons ⟨hreactor, hnext⟩ (ih.mp h)
    · rintro (_ | ⟨hstep, hrest⟩)
      rw [if_pos hstep.1, hstep.2]
      exact ih.mpr hrest

/-- The labels can happen, and each of them meets a condition. -/
theorem run_of_followIf_next {config : BrokerConfiguration} {stream : ObjectStream ε}
    {s s' : Broker} {ls : List (Label ε)} {meets ok : Broker → Label ε → Prop}
    [∀ s l, Decidable (meets s l)] (hok : ∀ s l, meets s l → ok s l)
    (h : followIf (next config stream)
      (fun s l => (∀ r ∈ l.reactor, s.reactor = r) ∧ meets s l) s ls = some s') :
    Run (Restrict (Step config stream) ok) s ls s' := by
  refine (run_of_followIf h).mono (P := fun _ => True) (fun _ _ _ _ _ => trivial) ?_ trivial
  rintro s l s' - ⟨hnext, hreactor, hmeets⟩
  exact ⟨⟨hreactor, hnext⟩, hok s l hmeets⟩

end Mlmq.Server.System
