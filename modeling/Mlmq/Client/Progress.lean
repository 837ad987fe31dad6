import Mlmq.Client.Pending

/-! # Every call returns

What the threads and the sockets do by themselves when no call begins and no connection comes or
goes: the sockets deliver bytes, the workers go on with their tasks, and the reactor goes through
its loop. `select` returns when it has been woken or a key is ready, and then a key that is ready is
handled before the response queue, if it has not been woken (`Works`).

This comes to an end: a byte is written and read once, a job is decoded, answered and posted once,
and the reactor goes around only when there is something for it to do (`effort`). At the end no call
waits on an open connection (`returned_of_atRest`). So every call returns, whatever the order of the
steps, unless the `RequestProcessor` does not return or a step is not `Smooth`
(`every_call_returns`). -/

namespace Mlmq.Client.Progress

open Mlmq.Lib.BigEndian Mlmq.Lib.Nio Mlmq.Lib.Slots Mlmq.Lib.Transition Mlmq.Net.Requests
open Mlmq.Net.Responses
open Mlmq.Net.Factory Mlmq.Net.RoundTrip Mlmq.Server.Connection Mlmq.Server.System
open Mlmq.Server.Ownership Mlmq.Server.Contents Mlmq.Server.Flight Mlmq.Server.Motion
open Mlmq.Server.Routing Mlmq.Server.Traffic Mlmq.Server.Pipelining Mlmq.Server.Channel
open Mlmq.Server.Steady
open Mlmq.Server.Drain (NoneStranded WakeupPending)
open Mlmq.Server.FrameSize (clientIoBufferCapacity)
open Mlmq.Server.Worker (responseOf)
open Mlmq.Server.Reassembly (Holds)
open Mlmq.Lib.Queue (BoundedQueue)
open Mlmq.Util.ByteBufferUtil (ObjectStream)
open Mlmq.Client.ClientConnection Mlmq.Client.ResponseReassembly Mlmq.Client.RemoteCalls
open Mlmq.Client.ClosedLoop Mlmq.Client.Pending

variable {ε : Type} {config : BrokerConfiguration} {stream : ObjectStream ε}

/-! ### Work -/

/-- The broker and its clients, and whether the reactor has been woken or has handled a key since it
has last been selecting. -/
structure Paced (ε : Type) where
  world : World ε
  handled : Bool

/-- The key of a connection is ready. -/
def Ready (x : World ε) (i : ℕ) : Prop :=
  ∃ client, x.broker.clients[i]? = some client ∧ client.selectionKey.isValid = true ∧
    ((x.connections i).toBroker ≠ [] ∨ client.selectionKey.opWrite = true)

/-- What goes on by itself. -/
def Goes (p : Paced ε) : Event ε → Prop
  | .submit _ _ | .ends _ => False
  | .receive _ chunk => chunk ≠ []
  | .broker .select => p.world.broker.wakeup = true ∨ ∃ i, Ready p.world i
  | .broker .accept | .broker .acceptFails | .broker (.fails _) | .broker (.read _ none) => False
  | .broker (.read _ (some chunk)) => chunk ≠ []
  | .broker (.write _ byteCount) => byteCount ≠ 0
  | .broker .keysDone => p.handled = true
  | .broker _ => True

def handledAfter (p : Paced ε) : Event ε → Bool
  | .broker .select => p.world.broker.wakeup
  | .broker (.read _ _) | .broker (.write _ _) => true
  | _ => p.handled

instance (x : World ε) (i : ℕ) : Decidable (Ready x i) :=
  inferInstanceAs (Decidable (∃ client ∈ x.broker.clients[i]?, client.selectionKey.isValid = true ∧
    ((x.connections i).toBroker ≠ [] ∨ client.selectionKey.opWrite = true)))

instance (x : World ε) : Decidable (∃ i, Ready x i) :=
  decidable_of_iff (∃ i < x.broker.clients.length, Ready x i)
    ⟨fun ⟨i, _, hi⟩ => ⟨i, hi⟩, fun ⟨i, hi⟩ =>
      ⟨i, let ⟨_, hclient, _⟩ := hi; (List.getElem?_eq_some_iff.mp hclient).1, hi⟩⟩

instance (p : Paced ε) : (e : Event ε) → Decidable (Goes p e)
  | .submit _ _ | .ends _ | .broker .accept | .broker .acceptFails => isFalse id
  | .broker (.fails _) | .broker (.read _ none) => isFalse id
  | .receive _ chunk | .broker (.read _ (some chunk)) => inferInstanceAs (Decidable (chunk ≠ []))
  | .broker .select => inferInstanceAs (Decidable (_ ∨ _))
  | .broker (.write _ byteCount) => inferInstanceAs (Decidable (byteCount ≠ 0))
  | .broker .keysDone => inferInstanceAs (Decidable (p.handled = true))
  | .broker .selectQueue | .broker (.take _) | .broker (.decode _) => isTrue trivial
  | .broker (.answer _ _) | .broker (.post _) | .broker (.wake _) => isTrue trivial

/-- **A step of the work.** -/
def Works (config : BrokerConfiguration) (stream : ObjectStream ε) (p : Paced ε) (e : Event ε)
    (q : Paced ε) : Prop :=
  RemoteCalls.Step config stream p.world e q.world ∧ Goes p e ∧ q.handled = handledAfter p e

/-- After which calls go on. -/
def SmoothWorks (config : BrokerConfiguration) (stream : ObjectStream ε) :
    Paced ε → Event ε → Paced ε → Prop :=
  Restrict (Works config stream) fun p e => Smooth config stream p.world e

/-! ### The work that is left -/

/-- The bytes that a connection has to write. -/
def unwritten (s : Broker) (i : ℕ) : List UInt8 :=
  (s.clients[i]?).elim [] fun client =>
    if client.selectionKey.isValid then sending s.heap client else []

/-- A response in the queue: its bytes are written and read. -/
def responseEffort (config : BrokerConfiguration) : ℕ := 2 * config.maxMessageSize + 1

/-- A request in the queue: it is taken, decoded, answered and posted, and the reactor is woken. -/
def requestEffort (config : BrokerConfiguration) : ℕ := responseEffort config + 5

def workerEffort (config : BrokerConfiguration) : WorkerState → ℕ
  | .idle => 0
  | .taken _ => responseEffort config + 4
  | .processing _ _ _ => responseEffort config + 3
  | .answered _ => responseEffort config + 2
  | .posted _ => 1

/-- Of a connection: any byte may complete a request, a byte that is written is read. -/
def connectionEffort (config : BrokerConfiguration) (x : World ε) (i : ℕ) : ℕ :=
  (requestEffort config + 1) * (x.connections i).toBroker.length +
    2 * (unwritten x.broker i).length + (x.connections i).toClient.length

def jobsEffort (config : BrokerConfiguration) (s : Broker) : ℕ :=
  s.requestQueue.items.length * requestEffort config +
    s.responseQueue.items.length * responseEffort config +
      (s.workers.map (workerEffort config)).sum

def work (config : BrokerConfiguration) (x : World ε) : ℕ :=
  ∑ i ∈ Finset.range x.broker.clients.length, connectionEffort config x i +
    jobsEffort config x.broker

/-- Where the reactor is in its loop. -/
def phase (handled : Bool) : ReactorState → ℕ
  | .stopped => 0
  | .keys => if handled then 3 else 0
  | .queue => 2
  | .select => 1

/-- **The steps that are left**, at most. -/
def effort (config : BrokerConfiguration) (p : Paced ε) : ℕ :=
  4 * work config p.world + (if p.world.broker.wakeup then 3 else 0) +
    phase p.handled p.world.broker.reactor

/-! ### Connections -/

section Connections

variable {x y : World ε} {s s' : Broker} {J : Journal ε} {l : Label ε} {i : ℕ}
  {rest : List UInt8}

theorem unwritten_of_kept (h : Kept s s' i) : unwritten s' i = unwritten s i := by
  unfold unwritten
  rw [h.clients]
  cases hi : s.clients[i]? with
  | none => rfl
  | some client =>
    rw [Option.elim_some, Option.elim_some]
    split_ifs with hvalid
    · exact sending_congr fun b hb => h.heap client hi b (mem_clientSlots_tx hvalid hb)
    · rfl

/-- An open connection sends what it has to write. -/
theorem sends_unwritten (s : Broker) (i : ℕ) : Sends s i (unwritten s i) := by
  unfold unwritten
  refine ⟨fun hnone => by rw [hnone]; rfl, fun client hi hvalid => ?_⟩
  rw [hi, Option.elim_some, if_pos hvalid]

theorem length_unwritten_le (h : Sends s i rest) : (unwritten s i).length ≤ rest.length := by
  unfold unwritten
  cases hi : s.clients[i]? with
  | none => exact Nat.zero_le _
  | some client =>
    rw [Option.elim_some]
    split_ifs with hvalid
    · rw [h.sending client hi hvalid]
    · exact Nat.zero_le _

/-- A connection that is left alone. -/
theorem connectionEffort_of_kept (hkept : Kept x.broker y.broker i)
    (hsockets : sockets x.broker x.connections l = some y.connections)
    (hread : ∀ chunk, l ≠ .read i (some chunk)) (hwrite : ∀ byteCount, l ≠ .write i byteCount) :
    connectionEffort config y i = connectionEffort config x i := by
  obtain ⟨hc, -, hother⟩ := sockets_eq_some (i := i) hsockets
  have hwritten : written x.broker i l = [] := by
    unfold written
    split
    · rename_i j byteCount
      exact if_neg fun heq : j = i => hwrite byteCount (heq ▸ rfl)
    · rfl
  have htoClient : (y.connections i).toClient = (x.connections i).toClient := by
    rw [hc]
    show (x.connections i).toClient ++ written x.broker i l = _
    rw [hwritten, List.append_nil]
  unfold connectionEffort
  rw [hother hread, unwritten_of_kept hkept, htoClient]

/-- One connection and the jobs have less to do. -/
theorem work_lt_of_connection (hlen : y.broker.clients.length = x.broker.clients.length)
    (hi : i < x.broker.clients.length)
    (hother : ∀ j, j ≠ i → connectionEffort config y j = connectionEffort config x j)
    (h : connectionEffort config y i + jobsEffort config y.broker + 1 ≤
      connectionEffort config x i + jobsEffort config x.broker) :
    work config y + 1 ≤ work config x := by
  have hmem := Finset.mem_range.mpr hi
  have hrest : ∑ j ∈ (Finset.range x.broker.clients.length).erase i, connectionEffort config y j =
      ∑ j ∈ (Finset.range x.broker.clients.length).erase i, connectionEffort config x j :=
    Finset.sum_congr rfl fun j hj => hother j (Finset.ne_of_mem_erase hj)
  unfold work
  rw [hlen, ← Finset.add_sum_erase _ _ hmem,
    ← Finset.add_sum_erase _ (connectionEffort config x) hmem, hrest]
  omega

/-- The jobs have less to do. -/
theorem work_lt_of_jobs (hlen : y.broker.clients.length = x.broker.clients.length)
    (hconnections : ∀ j, connectionEffort config y j = connectionEffort config x j)
    (h : jobsEffort config y.broker + 1 ≤ jobsEffort config x.broker) :
    work config y + 1 ≤ work config x := by
  have hsum : ∑ j ∈ Finset.range x.broker.clients.length, connectionEffort config y j =
      ∑ j ∈ Finset.range x.broker.clients.length, connectionEffort config x j :=
    Finset.sum_congr rfl fun j _ => hconnections j
  unfold work
  rw [hlen, hsum]
  omega

/-- **A read** takes bytes out of the socket. They may complete a request. -/
theorem work_read {chunk : List UInt8} (h : Steady config stream x)
    (hs : RemoteCalls.Step config stream x (.broker (.read i (some chunk))) y) (hne : chunk ≠ []) :
    work config y + 1 ≤ work config x := by
  obtain ⟨hbroker, -, hsockets⟩ := broker_of_step hs
  have hinv : Inv x.broker 0 := h.whole.good.inv
  have hread : x.broker.selectRead config i (some chunk) = some y.broker := hbroker.2
  obtain ⟨client, -, -, hi, -⟩ := Broker.selectRead_eq_some hread
  refine work_lt_of_connection (length_clients_selectRead hread)
    (List.getElem?_eq_some_iff.mp hi).1 (fun j hj => ?_) ?_
  · refine connectionEffort_of_kept (kept_of_step hinv hbroker (by simp) ?_ (by simp) (by simp)
      (by simp)) hsockets ?_ (by simp)
    · intro chunk' heq
      injection heq with heq
      exact hj heq.symm
    · intro chunk' heq
      injection heq with heq
      exact hj heq.symm
  · obtain ⟨hc, hbytes, -⟩ := sockets_eq_some (i := i) hsockets
    have htoBroker := congrArg List.length (hbytes chunk rfl)
    rw [List.length_append] at htoBroker
    have htoClient : (y.connections i).toClient = (x.connections i).toClient := by
      rw [hc]
      exact List.append_nil _
    have hunwritten :=
      length_unwritten_le (sends_selectRead (sends_unwritten x.broker i) hinv hread)
    have hjobs :
        jobsEffort config y.broker ≤ jobsEffort config x.broker + requestEffort config := by
      unfold jobsEffort
      rw [responseQueue_selectRead hread, workers_selectRead hread]
      rcases requestQueue_selectRead hread with ⟨hreq, -⟩ | ⟨client, -, -, -, hadd⟩
      · rw [hreq]
        omega
      · rw [(BoundedQueue.add_eq_some_iff.mp hadd).2.2, List.length_append, List.length_singleton,
          Nat.add_mul, Nat.one_mul]
        omega
    have hpos := List.length_pos_iff.mpr hne
    unfold connectionEffort
    rw [htoBroker, htoClient, Nat.mul_add]
    have hmul : requestEffort config + 1 ≤ (requestEffort config + 1) * chunk.length :=
      Nat.le_mul_of_pos_right _ hpos
    omega

/-- **A write** passes bytes on to the socket. -/
theorem work_write {byteCount : ℕ} (h : Steady config stream x)
    (hs : RemoteCalls.Step config stream x (.broker (.write i byteCount)) y) (hne : byteCount ≠ 0) :
    work config y + 1 ≤ work config x := by
  obtain ⟨hbroker, -, hsockets⟩ := broker_of_step hs
  have hinv : Inv x.broker 0 := h.whole.good.inv
  have hwrite : x.broker.selectWrite i byteCount = some y.broker := hbroker.2
  obtain ⟨client, hi, hvalid, -⟩ := Broker.selectWrite_eq_some hwrite
  have hop := Broker.opWrite_of_selectWrite hwrite hi
  obtain ⟨hreq, hresp, hlen⟩ := queues_selectWrite hwrite
  refine work_lt_of_connection hlen (List.getElem?_eq_some_iff.mp hi).1 (fun j hj => ?_) ?_
  · have hother : ∀ byteCount', (.write i byteCount : Label ε) ≠ .write j byteCount' := by
      intro byteCount' heq
      injection heq with heq
      exact hj heq.symm
    exact connectionEffort_of_kept (kept_of_step hinv hbroker (by simp) (by simp) hother (by simp)
      (by simp)) hsockets (by simp) hother
  · obtain ⟨hc, -, hbytes⟩ := sockets_eq_some (i := i) hsockets
    have hsends := sends_unwritten x.broker i
    obtain ⟨htake, hrest⟩ := sends_selectWrite hsends hwrite
    have hpos : unwritten x.broker i ≠ [] := by
      rw [← hsends.sending client hi hvalid]
      exact h.writes i client hi hvalid hop
    have hlength := List.length_pos_iff.mpr hpos
    have htoClient : (y.connections i).toClient =
        (x.connections i).toClient ++ (unwritten x.broker i).take byteCount := by
      have hwritten : written x.broker i (.write i byteCount : Label ε) =
          (sendBuffer x.broker i).take byteCount := if_pos rfl
      rw [hc, ← htake, ← hwritten]
    have hjobs : jobsEffort config y.broker = jobsEffort config x.broker := by
      unfold jobsEffort
      rw [hreq, hresp, workers_selectWrite hwrite]
    have hunwritten := length_unwritten_le hrest
    unfold connectionEffort
    rw [hbytes (by simp), htoClient, List.length_append, List.length_take, hjobs]
    rw [List.length_drop] at hunwritten
    omega

theorem sum_setWorker (config : BrokerConfiguration) {w : ℕ} {worker : WorkerState} (hw : s.workers[w]? = some worker)
    (worker' : WorkerState) :
    ((s.workers.set w worker').map (workerEffort config)).sum + workerEffort config worker =
      (s.workers.map (workerEffort config)).sum + workerEffort config worker' := by
  obtain ⟨rest, hsum, hset⟩ := exists_sum_set (workerEffort config) hw
  rw [hset, hsum]
  omega

/-- A worker that goes on has less to do: what it hands on to a queue is less than what it had. -/
theorem jobs_worker (hs : Server.System.Step config stream s l s')
    (hl : (actor l).isSome) : jobsEffort config s' + 1 ≤ jobsEffort config s := by
  obtain ⟨-, hs⟩ := hs
  unfold jobsEffort
  cases l with
  | take w =>
    obtain ⟨task, requestQueue, hw, hpoll, rfl⟩ := Broker.take_eq_some hs
    have hsum := sum_setWorker config hw (.taken task)
    have hitems := congrArg List.length (BoundedQueue.poll_eq_some_iff.mp hpoll).2
    rw [List.length_cons] at hitems
    rw [hitems, Nat.add_mul]
    show _ + _ + ((s.workers.set w _).map _).sum + 1 ≤ _
    simp only [workerEffort, requestEffort, Broker.setWorker] at hsum ⊢
    omega
  | decode w =>
    obtain ⟨task, hw, hdecode⟩ := Broker.decode_eq_some hs
    obtain ⟨worker', hworkers, hreq, hresp, hless⟩ : ∃ worker',
        s'.workers = s.workers.set w worker' ∧ s'.requestQueue = s.requestQueue ∧
          s'.responseQueue = s.responseQueue ∧
            workerEffort config worker' + 1 ≤ workerEffort config (.taken task) := by
      obtain ⟨-, rfl⟩ | ⟨buffer, raw, raw', worker', -, -, rfl, ⟨request, -, rfl⟩ | ⟨e, -, rfl⟩⟩ :=
        hdecode
      · exact ⟨.idle, rfl, rfl, rfl, Nat.le_add_left _ _⟩
      · exact ⟨_, rfl, rfl, rfl, le_rfl⟩
      · exact ⟨.idle, rfl, rfl, rfl, Nat.le_add_left _ _⟩
    have hsum := sum_setWorker config hw worker'
    rw [hworkers, hreq, hresp]
    omega
  | answer w outcome =>
    obtain ⟨task, buffer, request, raw, raw', worker', hw, -, rfl, hworker⟩ :=
      Broker.answer_eq_some hs
    have hless : workerEffort config worker' + 1 ≤
        workerEffort config (.processing task buffer request) := by
      obtain ⟨-, rfl⟩ | ⟨e, -, rfl⟩ := hworker
      · exact le_rfl
      · exact Nat.le_add_left _ _
    have hsum := sum_setWorker config hw worker'
    show _ + _ + ((s.workers.set w worker').map _).sum + 1 ≤ _
    simp only [Broker.setWorker]
    omega
  | post w =>
    obtain ⟨task, hw, ⟨responseQueue, hadd, rfl⟩ | ⟨-, rfl⟩⟩ := Broker.post_eq_some hs
    · have hsum := sum_setWorker config hw (.posted none)
      have hitems := congrArg List.length (BoundedQueue.add_eq_some_iff.mp hadd).2.2
      rw [List.length_append, List.length_singleton] at hitems
      show _ + responseQueue.items.length * _ + ((s.workers.set w _).map _).sum + 1 ≤ _
      rw [hitems, Nat.add_mul]
      simp only [workerEffort, Broker.setWorker] at hsum ⊢
      omega
    · have hsum := sum_setWorker config hw (.posted (some task))
      show _ + _ + ((s.workers.set w _).map _).sum + 1 ≤ _
      simp only [workerEffort, Broker.setWorker] at hsum ⊢
      omega
  | wake w =>
    obtain ⟨dropped, hw, rfl⟩ := Broker.wake_eq_some hs
    have hsum := sum_setWorker config hw .idle
    show _ + _ + ((s.workers.set w _).map _).sum + 1 ≤ _
    simp only [workerEffort, Broker.setWorker] at hsum ⊢
    omega
  | _ => cases hl

/-- The workers leave the connections alone. -/
theorem work_worker (h : Steady config stream x)
    (hs : RemoteCalls.Step config stream x (.broker l) y) (hl : (actor l).isSome) :
    work config y + 1 ≤ work config x := by
  obtain ⟨hbroker, -, hsockets⟩ := broker_of_step hs
  have hinv : Inv x.broker 0 := h.whole.good.inv
  have haccept : l ≠ .accept := by rintro rfl; cases hl
  have hread : ∀ j chunk, l ≠ .read j chunk := by rintro j chunk rfl; cases hl
  have hwrite : ∀ j byteCount, l ≠ .write j byteCount := by rintro j byteCount rfl; cases hl
  have hfails : ∀ j, l ≠ .fails j := by rintro j rfl; cases hl
  have hqueue : l ≠ .selectQueue := by rintro rfl; cases hl
  have hkept : ∀ j, Kept x.broker y.broker j := fun j =>
    kept_of_step hinv hbroker (fun heq => absurd heq haccept) (hread j) (hwrite j) (hfails j) hqueue
  refine work_lt_of_jobs ?_ (fun j => connectionEffort_of_kept (hkept j) hsockets
    (fun chunk => hread j _) (hwrite j)) (jobs_worker hbroker hl)
  refine le_antisymm ?_ (length_clients_of_step hinv hbroker)
  have hnone := (hkept x.broker.clients.length).clients
  rwa [List.getElem?_eq_none_iff.mpr le_rfl, List.getElem?_eq_none_iff] at hnone

/-- **A round of `selectQueue`** that takes a task out of the queue has its bytes to write. -/
theorem work_selectQueue (h : Steady config stream x) (hroom : Roomy config x.broker)
    (hs : RemoteCalls.Step config stream x (.broker .selectQueue) y)
    (hne : x.broker.responseQueue.items ≠ []) : work config y + 1 ≤ work config x := by
  obtain ⟨hbroker, -, hsockets⟩ := broker_of_step hs
  have hinv : Inv x.broker 0 := h.whole.good.inv
  have hround : x.broker.selectQueue = some y.broker := hbroker.2
  obtain ⟨hreq, hlen, ⟨hpoll, -⟩ | ⟨task, hpoll⟩⟩ := queues_selectQueue hinv.connected hround
  · exact absurd (BoundedQueue.poll_eq_none_iff.mp hpoll) hne
  have hitems := congrArg List.length (BoundedQueue.poll_eq_some_iff.mp hpoll).2
  rw [List.length_cons] at hitems
  have hjobs : jobsEffort config y.broker + responseEffort config = jobsEffort config x.broker := by
    unfold jobsEffort
    rw [hreq, workers_selectQueue hinv.connected hround, hitems, Nat.add_mul, Nat.one_mul]
    omega
  have hcases := fun i => round_cases (J := x.journal) (i := i) hinv h.whole.good.shape
    h.whole.good.registered hroom.handles hround
  have hsame : ∀ j, Kept x.broker y.broker j →
      connectionEffort config y j = connectionEffort config x j := fun j hkept =>
    connectionEffort_of_kept hkept hsockets (by simp) (by simp)
  by_cases hall : ∀ j, Kept x.broker y.broker j
  · refine work_lt_of_jobs hlen (fun j => hsame j (hall j)) ?_
    unfold responseEffort at hjobs
    omega
  · obtain ⟨i, hi⟩ := not_forall.mp hall
    obtain ⟨-, hkept⟩ |
      ⟨b, raw, client, hraw, hdelivery, -, hclient, -, -, hclient', hheap⟩ := hcases i
    · exact absurd hkept hi
    · refine work_lt_of_connection hlen (List.getElem?_eq_some_iff.mp hclient).1 (fun j hj => ?_) ?_
      · obtain ⟨-, hkept⟩ | ⟨b', raw', client', -, hdelivery', -⟩ := hcases j
        · exact hsame j hkept
        · have heq := Option.some.inj (hdelivery.symm.trans hdelivery')
          injection heq with _ hji
          exact absurd hji.symm hj
      · obtain ⟨hc, -, hother⟩ := sockets_eq_some (i := i) hsockets
        have htoClient : (y.connections i).toClient = (x.connections i).toClient := by
          rw [hc]
          exact List.append_nil _
        have hlength : (unwritten y.broker i).length ≤ config.maxMessageSize := by
          unfold unwritten sending Server.Views.viewSlot
          rw [hclient', Option.elim_some, if_pos rfl, if_pos rfl, Option.bind_some, hheap,
            List.getElem?_modify_eq, hraw]
          show raw.flip.rest.length ≤ _
          rw [ByteBuffer.length_rest, ByteBuffer.remaining, ByteBuffer.limit_flip,
            ← h.sized.of_getElem? hraw]
          exact (Nat.sub_le _ _).trans (raw.position_le.trans raw.limit_le)
        unfold connectionEffort
        rw [hother (by simp), htoClient]
        unfold responseEffort at hjobs
        omega

/-- **A call reads** what is in the socket. -/
theorem work_receive {chunk : List UInt8} (h : Steady config stream x)
    (hs : RemoteCalls.Step config stream x (.receive i chunk) y) (hne : chunk ≠ []) :
    work config y + 1 ≤ work config x := by
  obtain ⟨c', hc', rfl⟩ := Option.map_eq_some_iff.mp hs
  obtain ⟨-, -, rest, -, hbytes, -, hsame, hrest, -⟩ := receive_eq_some hc'
  have hi : i < x.broker.clients.length := by
    by_contra hge
    have hnil := h.unaccepted i (List.getElem?_eq_none (Nat.not_lt.mp hge))
    rw [hbytes] at hnil
    exact hne (List.append_eq_nil_iff.mp hnil).1
  refine work_lt_of_connection rfl hi (fun j hj => ?_) ?_
  · unfold connectionEffort
    dsimp only
    rw [Function.update_of_ne hj]
  · have hpos := List.length_pos_iff.mpr hne
    unfold connectionEffort
    dsimp only
    rw [Function.update_self, hsame, hrest, hbytes, List.length_append]
    omega

end Connections

/-! ### Every step of the work takes some of it away -/

section Effort

variable {p q : Paced ε} {e : Event ε}

/-- A step that does some of the work may wake the reactor or bring it forward. -/
theorem effort_of_work (hwork : work config q.world + 1 ≤ work config p.world)
    (hrest : (if q.world.broker.wakeup then 3 else 0) +
        phase q.handled q.world.broker.reactor ≤
      (if p.world.broker.wakeup then 3 else 0) + phase p.handled p.world.broker.reactor + 3) :
    effort config q + 1 ≤ effort config p := by
  unfold effort
  omega

theorem phase_le (handled : Bool) (reactor : ReactorState) : phase handled reactor ≤ 3 := by
  cases reactor <;> cases handled <;> decide

/-- The reactor goes on, and nothing else changes. -/
theorem work_reactor {x y : World ε} {l : Label ε}
    (hs : RemoteCalls.Step config stream x (.broker l) y)
    (hl : l = .select ∨ l = .keysDone ∨ l = .selectQueue ∧ x.broker.responseQueue.items = []) :
    work config y = work config x := by
  obtain ⟨hbroker, -, hsockets⟩ := broker_of_step hs
  have hconnections : y.connections = x.connections := by
    obtain rfl | rfl | ⟨rfl, -⟩ := hl
    · exact (Option.some.inj hsockets).symm
    · exact (Option.some.inj hsockets).symm
    · exact (Option.some.inj hsockets).symm
  obtain ⟨reactor, wakeup, hy⟩ :
      ∃ reactor wakeup, y.broker = { x.broker with reactor, wakeup } := by
    obtain rfl | rfl | ⟨rfl, hitems⟩ := hl
    · exact ⟨_, _, (Option.some.inj hbroker.2).symm⟩
    · exact ⟨_, _, (Option.some.inj hbroker.2).symm⟩
    · obtain ⟨-, heq⟩ | ⟨task, responseQueue, -, hpoll, -⟩ :=
        Broker.selectQueue_eq_some (show x.broker.selectQueue = some y.broker from hbroker.2)
      · exact ⟨_, _, heq⟩
      · rw [BoundedQueue.poll_eq_none_iff.mpr hitems] at hpoll
        cases hpoll
  unfold work connectionEffort jobsEffort unwritten
  rw [hconnections, hy]

theorem effort_of_worker {l : Label ε} (h : Steady config stream p.world)
    (hs : RemoteCalls.Step config stream p.world (.broker l) q.world) (hl : (actor l).isSome)
    (hhandled : q.handled = p.handled) : effort config q + 1 ≤ effort config p := by
  refine effort_of_work (work_worker h hs hl) ?_
  rw [reactor_worker (broker_of_step hs).1 hl, hhandled]
  split_ifs <;> omega

/-- **Every step of the work takes some of it away.** -/
theorem effort_of_step (h : Steady config stream p.world) (hroom : Roomy config p.world.broker)
    (hs : Works config stream p e q) : effort config q + 1 ≤ effort config p := by
  obtain ⟨hstep, hgoes, hhandled⟩ := hs
  cases e with
  | submit j request => exact hgoes.elim
  | ends j => exact hgoes.elim
  | receive j chunk =>
    refine effort_of_work (work_receive h hstep hgoes) ?_
    obtain ⟨c', -, hworld⟩ := Option.map_eq_some_iff.mp hstep
    rw [← hworld, hhandled]
    exact Nat.le_add_right _ _
  | broker l =>
    obtain ⟨hbroker, -, -⟩ := broker_of_step hstep
    have hreactor := hbroker.1
    have hinv : Inv p.world.broker 0 := h.whole.good.inv
    cases l with
    | select =>
      have hwork := work_reactor hstep (.inl rfl)
      have hselect : p.world.broker.reactor = .select := hreactor _ rfl
      have hbefore : phase p.handled p.world.broker.reactor = 1 := by rw [hselect]; rfl
      have hnext := Option.some.inj hbroker.2
      have hkeys : q.world.broker.reactor = .keys := by rw [← hnext]
      have hwoken : q.world.broker.wakeup = false := by rw [← hnext]
      unfold effort
      rw [hwork, hhandled, hkeys, hwoken, hbefore]
      show _ + 0 + (if p.world.broker.wakeup then 3 else 0) + 1 ≤ _
      omega
    | keysDone =>
      have hwork := work_reactor hstep (.inr (.inl rfl))
      have hkeys : p.world.broker.reactor = .keys := hreactor _ rfl
      have hnext := Option.some.inj hbroker.2
      have hqueue : q.world.broker.reactor = .queue := by rw [← hnext]
      have hwoken : q.world.broker.wakeup = p.world.broker.wakeup := by rw [← hnext]
      have hbefore : phase p.handled p.world.broker.reactor = 3 := by
        rw [hkeys, show p.handled = true from hgoes]
        rfl
      unfold effort
      rw [hwork, hqueue, hwoken, hbefore]
      exact le_rfl
    | selectQueue =>
      have hqueue : p.world.broker.reactor = .queue := hreactor _ rfl
      have hbefore : phase p.handled p.world.broker.reactor = 2 := by rw [hqueue]; rfl
      have hcases := Server.Drain.selectQueue_cases hinv h.whole.good.shape
        (show p.world.broker.selectQueue = some q.world.broker from hbroker.2)
      by_cases hitems : p.world.broker.responseQueue.items = []
      · have hwork := work_reactor hstep (.inr (.inr ⟨rfl, hitems⟩))
        obtain ⟨-, heq⟩ | ⟨c, b, responseQueue, hpoll, -⟩ := hcases
        · unfold effort
          rw [hwork, heq, hbefore]
          exact le_rfl
        · rw [BoundedQueue.poll_eq_none_iff.mpr hitems] at hpoll
          cases hpoll
      · refine effort_of_work (work_selectQueue h hroom hstep hitems) ?_
        obtain ⟨hnil, -⟩ | ⟨c, b, responseQueue, -, -, -, hwakeup, -⟩ := hcases
        · exact absurd hnil hitems
        · have hphase := phase_le q.handled q.world.broker.reactor
          rw [hwakeup]
          omega
    | read j chunk =>
      cases chunk with
      | none => exact hgoes.elim
      | some chunk =>
        refine effort_of_work (work_read h hstep hgoes) ?_
        have hphase := phase_le q.handled q.world.broker.reactor
        rw [wakeup_selectRead hbroker.2]
        omega
    | write j byteCount =>
      refine effort_of_work (work_write h hstep hgoes) ?_
      have hphase := phase_le q.handled q.world.broker.reactor
      rw [wakeup_selectWrite hbroker.2]
      omega
    | accept => exact hgoes.elim
    | acceptFails => exact hgoes.elim
    | fails j => exact hgoes.elim
    | _ => exact effort_of_worker h hstep rfl hhandled

end Effort

/-! ### What can go on -/

section AtRest

variable {p q : Paced ε} {e : Event ε} {x : World ε} {s : Broker} {i w : ℕ}

/-- Nothing goes on. -/
def AtRest (config : BrokerConfiguration) (stream : ObjectStream ε) (p : Paced ε) : Prop :=
  ∀ e q, ¬ Works config stream p e q

/-- The reactor has been woken, or has handled a key, or there is one for it to handle. -/
def Pacing (p : Paced ε) : Prop :=
  p.world.broker.reactor = .keys → p.handled = false → ∃ i, Ready p.world i

theorem Ready.congr {x y : World ε} (h : Ready x i)
    (hclient : y.broker.clients[i]? = x.broker.clients[i]?)
    (hbytes : (y.connections i).toBroker = (x.connections i).toBroker) : Ready y i := by
  obtain ⟨client, hi, hvalid, hready⟩ := h
  exact ⟨client, hclient.trans hi, hvalid, hbytes ▸ hready⟩

theorem Pacing.step (h : Pacing p) (hsteady : Steady config stream p.world)
    (hs : Works config stream p e q) : Pacing q := by
  obtain ⟨hstep, hgoes, hhandled⟩ := hs
  have hinv : Inv p.world.broker 0 := hsteady.whole.good.inv
  intro hkeys hnot
  cases e with
  | submit j request => exact hgoes.elim
  | ends j => exact hgoes.elim
  | receive j chunk =>
    obtain ⟨c', hc', hworld⟩ := Option.map_eq_some_iff.mp hstep
    obtain ⟨-, -, -, -, -, -, hsame, -⟩ := receive_eq_some hc'
    rw [← hworld] at hkeys
    obtain ⟨i, hi⟩ := h hkeys (hhandled.symm.trans hnot)
    refine ⟨i, hi.congr (by rw [← hworld]) ?_⟩
    rw [← hworld]
    show (Function.update p.world.connections j c' i).toBroker = _
    rcases eq_or_ne i j with rfl | hne
    · rw [Function.update_self, hsame]
    · rw [Function.update_of_ne hne]
  | broker l =>
    obtain ⟨hbroker, -, hsockets⟩ := broker_of_step hstep
    -- the keys and the sockets stay as they are
    have hkeep : (∀ j, Kept p.world.broker q.world.broker j) →
        (∀ j chunk, l ≠ .read j (some chunk)) → (∃ i, Ready p.world i) → ∃ i, Ready q.world i := by
      rintro hkept hread ⟨i, hi⟩
      exact ⟨i, hi.congr (hkept i).clients ((sockets_eq_some (i := i) hsockets).2.2 (hread i))⟩
    cases l with
    | select =>
      have hready := hgoes.resolve_left fun hwoken => by
        rw [hhandled] at hnot
        exact Bool.false_ne_true (hnot.symm.trans hwoken)
      exact hkeep (fun j => kept_of_step hinv hbroker (by simp) (by simp) (by simp) (by simp)
        (by simp)) (by simp) hready
    | read j chunk =>
      rw [hhandled] at hnot
      cases hnot
    | write j byteCount =>
      rw [hhandled] at hnot
      cases hnot
    | keysDone =>
      rw [← Option.some.inj hbroker.2] at hkeys
      cases hkeys
    | selectQueue =>
      have hqueue : p.world.broker.reactor = .queue := hbroker.1 _ rfl
      rcases Server.Drain.selectQueue_cases hinv hsteady.whole.good.shape hbroker.2 with
        ⟨-, heq⟩ | ⟨-, -, -, -, -, -, -, -, -, -, ⟨-, hselect, -⟩ | ⟨-, hsame⟩⟩
      · rw [heq] at hkeys
        cases hkeys
      · rw [hselect] at hkeys
        cases hkeys
      · rw [hsame, hqueue] at hkeys
        cases hkeys
    | accept => exact hgoes.elim
    | acceptFails => exact hgoes.elim
    | fails j => exact hgoes.elim
    | _ =>
      exact hkeep (fun j => kept_of_step hinv hbroker (by simp) (by simp) (by simp) (by simp)
        (by simp)) (by simp) (h ((reactor_worker hbroker rfl).symm.trans hkeys)
          (hhandled.symm.trans hnot))

/-- What the broker can do it does. -/
theorem AtRest.elim {l : Label ε} {s' : Broker} {connections : ℕ → Connection ε}
    (h : AtRest config stream p) (hgoes : Goes p (.broker l))
    (hreactor : ∀ r ∈ l.reactor, p.world.broker.reactor = r)
    (hsockets : sockets p.world.broker p.world.connections l = some connections)
    (hnext : Server.System.next config stream p.world.broker l = some s') : False := by
  refine h (.broker l) ⟨⟨s', p.world.journal.record p.world.broker l, connections⟩,
    handledAfter p (.broker l)⟩ ⟨?_, hgoes, rfl⟩
  show (sockets p.world.broker p.world.connections l).bind _ = _
  rw [hsockets, Option.bind_some, if_pos hreactor, hnext]
  rfl

/-- Every worker waits for a request: the `RequestProcessor` has returned. -/
theorem idle_of_atRest {worker : WorkerState} (hrest : AtRest config stream p)
    (h : Steady config stream p.world) (hw : p.world.broker.workers[w]? = some worker) :
    worker = .idle := by
  have hinv : Inv p.world.broker 0 := h.whole.good.inv
  have hshape : Shaped p.world.broker := h.whole.good.shape
  cases worker with
  | idle => rfl
  | taken task =>
    obtain ⟨s', hs⟩ := exists_decode hinv hshape hw
    exact (hrest.elim (l := .decode w) trivial nofun rfl hs).elim
  | processing task b request =>
    obtain ⟨s', hs⟩ := exists_answer hinv hshape hw stream (.ok (.sendMessage ⟨⟩))
    exact (hrest.elim (l := .answer w _) trivial nofun rfl hs).elim
  | answered task =>
    obtain ⟨s', hs⟩ := exists_post hw
    exact (hrest.elim (l := .post w) trivial nofun rfl hs).elim
  | posted dropped =>
    obtain ⟨s', hs⟩ := exists_wake hw
    exact (hrest.elim (l := .wake w) trivial nofun rfl hs).elim

theorem requestQueue_of_atRest (hrest : AtRest config stream p) (h : Steady config stream p.world)
    (hthreads : 0 < config.workerThreadCount) : p.world.broker.requestQueue.items = [] := by
  by_contra hne
  have hlt : 0 < p.world.broker.workers.length := h.workers ▸ hthreads
  have hw := List.getElem?_eq_getElem hlt
  rw [idle_of_atRest hrest h hw] at hw
  obtain ⟨s', hs⟩ := exists_take hw hne
  exact hrest.elim (l := .take 0) trivial nofun rfl hs

/-- The rest of a request fits the receive buffer. -/
theorem length_le_of_begins {toBroker : List UInt8} {rxBuffer : ByteBuffer}
    (h : Begins config.maxMessageSize toBroker rxBuffer)
    (hcapacity : rxBuffer.capacity = config.maxMessageSize) :
    toBroker.length ≤ rxBuffer.remaining := by
  obtain ⟨w, payload, hholds, -, hframe, hfits, -⟩ := h
  have hsum := congrArg List.length hframe
  rw [List.length_append] at hsum
  have hlimit : rxBuffer.limit = config.maxMessageSize := hholds.limit.trans hcapacity
  rw [ByteBuffer.remaining, hlimit, hholds.position]
  omega

/-- **No key is ready** while the keys are handled. -/
theorem not_ready_of_keys (hrest : AtRest config stream p) (h : Steady config stream p.world)
    (hkeys : p.world.broker.reactor = .keys) : ¬ Ready p.world i := by
  rintro ⟨client, hi, hvalid, hready⟩
  have hreactor : ∀ r ∈ some ReactorState.keys, p.world.broker.reactor = r := by
    rintro r hr
    obtain rfl := Option.some.inj hr
    exact hkeys
  by_cases hne : (p.world.connections i).toBroker = []
  · have hop := hready.resolve_left (not_not_intro hne)
    obtain ⟨s', hs⟩ := exists_selectWrite hi hvalid hop (h.writes i client hi hvalid hop)
    exact hrest.elim (l := .write i 1) (by simp [Goes]) hreactor rfl hs
  · -- all that is in the socket is read
    obtain ⟨rxBuffer, hrx, hbegins⟩ := (h.arriving i).accepted hne client hi hvalid
    obtain ⟨s', hs⟩ := exists_selectRead config hi hvalid hrx
      (length_le_of_begins hbegins (h.sized.of_getElem? hrx))
    exact hrest.elim (l := .read i (some (p.world.connections i).toBroker)) hne hreactor
      (if_pos (List.prefix_refl _)) hs

/-- **The reactor waits in `select`**, and nothing is there for it. -/
theorem select_of_atRest (hrest : AtRest config stream p) (h : Steady config stream p.world)
    (hpacing : Pacing p) : p.world.broker.reactor = .select ∧ p.world.broker.wakeup = false ∧
      ∀ i, ¬ Ready p.world i := by
  have hinv : Inv p.world.broker 0 := h.whole.good.inv
  have hreactor : ∀ {r : ReactorState}, p.world.broker.reactor = r →
      ∀ r' ∈ some r, p.world.broker.reactor = r' := by
    intro r heq r' hr'
    exact heq.trans (Option.some.inj hr')
  have hselect : p.world.broker.reactor = .select := by
    cases heq : p.world.broker.reactor with
    | select => rfl
    | keys =>
      cases hhandled : p.handled with
      | true => exact (hrest.elim (l := .keysDone) hhandled (hreactor heq) rfl rfl).elim
      | false =>
        obtain ⟨i, hi⟩ := hpacing heq hhandled
        exact absurd hi (not_ready_of_keys hrest h heq)
    | queue =>
      obtain ⟨s', hs⟩ := exists_selectQueue hinv h.whole.good.shape
      exact (hrest.elim (l := .selectQueue) trivial (hreactor heq) rfl hs).elim
    | stopped => exact absurd heq h.running
  have hgoes : ¬ Goes p (.broker .select) := fun hgoes =>
    hrest.elim (l := .select) hgoes (hreactor hselect) rfl rfl
  refine ⟨hselect, ?_, fun i hi => hgoes (.inr ⟨i, hi⟩)⟩
  rw [← Bool.not_eq_true]
  exact fun hwoken => hgoes (.inl hwoken)

theorem responseQueue_of_atRest (hrest : AtRest config stream p)
    (h : Steady config stream p.world) (hpacing : Pacing p) :
    p.world.broker.responseQueue.items = [] := by
  obtain ⟨hselect, hwoken, -⟩ := select_of_atRest hrest h hpacing
  refine h.noneStranded hselect ?_
  rintro (hwakeup | ⟨w, dropped, hw⟩)
  · rw [hwoken] at hwakeup
    cases hwakeup
  · cases idle_of_atRest hrest h hw

/-- **Nothing is on its way** through the broker. -/
theorem travelling_of_atRest (hrest : AtRest config stream p) (h : Steady config stream p.world)
    (hpacing : Pacing p) (hthreads : 0 < config.workerThreadCount) :
    travelling p.world.broker i = 0 := by
  have hworkers : (p.world.broker.workers.map workerFlights).sum = 0 := by
    refine List.sum_eq_zero fun flight hflight => ?_
    obtain ⟨worker, hmem, rfl⟩ := List.mem_map.mp hflight
    obtain ⟨w, hw⟩ := List.getElem?_of_mem hmem
    rw [idle_of_atRest hrest h hw]
    rfl
  unfold travelling flights
  rw [requestQueue_of_atRest hrest h hthreads, responseQueue_of_atRest hrest h hpacing, hworkers]
  rfl

/-- **A call that has bytes to read reads them.** -/
theorem toClient_of_atRest {call : Call} {b : ByteBuffer} (hrest : AtRest config stream p)
    (h : Steady config stream p.world) (hlen : p.world.broker.clients.length < 2 ^ 32)
    (hwaiting : (p.world.connections i).caller = .waiting call b) :
    (p.world.connections i).toClient = [] := by
  by_contra hne
  obtain ⟨head, tail, htoClient⟩ := List.exists_cons_of_ne_nil hne
  obtain ⟨⟨pending, -, hcalls⟩, -⟩ := h.whole.linked hlen i
  rw [hwaiting] at hcalls
  obtain ⟨hb, hfit, hreads, hw, hout, -⟩ := hcalls
  cases hout with
  | silent hnil hsocket hsends => exact hne hsocket
  | answered payload rest hanswer hpending hidle hsends hbytes =>
    -- the response fits the buffer, and so does one more byte of it
    obtain ⟨⟨n, -, -, processed, hp, hpayload⟩, -⟩ := hanswer
    obtain ⟨payload', hpayload', -, hsmall⟩ := h.outcomes n processed hp
    obtain rfl := Option.some.inj (hpayload.symm.trans hpayload')
    obtain ⟨b', hholds, hcapacity, heq⟩ := submitRequest_waits stream hb hfit hreads hw
    have hroom : [head].length ≤ (submitRequest stream call b).ioBuffer.remaining := by
      have hsum := congrArg List.length hbytes
      rw [List.length_append, List.length_append, htoClient, List.length_cons] at hsum
      rw [heq, ByteBuffer.remaining, hholds.limit, hholds.position, hcapacity,
        List.length_singleton]
      omega
    have hreceive : ∃ c', (p.world.connections i).receive stream [head] = some c' := by
      unfold Connection.receive
      rw [hwaiting]
      dsimp only
      rw [if_pos ⟨htoClient ▸ ⟨tail, rfl⟩, hroom⟩]
      exact ⟨_, rfl⟩
    obtain ⟨c', hc'⟩ := hreceive
    refine hrest (.receive i [head]) ⟨{ p.world with
      connections := Function.update p.world.connections i c' }, p.handled⟩ ⟨?_, ?_, rfl⟩
    · exact Option.map_eq_some_iff.mpr ⟨c', hc', rfl⟩
    · exact List.cons_ne_nil _ _

/-- **No call waits on an open connection.** -/
theorem returned_of_atRest {client : Client} (hrest : AtRest config stream p)
    (h : Steady config stream p.world) (hpacing : Pacing p)
    (hlen : p.world.broker.clients.length < 2 ^ 32) (hthreads : 0 < config.workerThreadCount)
    (hi : p.world.broker.clients[i]? = some client)
    (hvalid : client.selectionKey.isValid = true) :
    (p.world.connections i).caller = .ended ∨
      ∃ b, (p.world.connections i).caller = .idle b ∧
        (p.world.connections i).returned.length = (p.world.connections i).submitted.length := by
  cases hcaller : (p.world.connections i).caller with
  | ended => exact .inl rfl
  | idle b => exact .inr ⟨b, rfl, h.whole.idle hlen hcaller⟩
  | waiting call b =>
    obtain ⟨-, -, hready⟩ := select_of_atRest hrest h hpacing
    have htoBroker : (p.world.connections i).toBroker = [] := by
      by_contra hne
      exact hready i ⟨client, hi, hvalid, .inl hne⟩
    have hop : client.selectionKey.opWrite ≠ true := fun hop =>
      hready i ⟨client, hi, hvalid, .inr hop⟩
    have hsends : Sends p.world.broker i [] := by
      obtain ⟨rest, hsends⟩ := exists_sends p.world.broker i
      have hnil : sending p.world.broker.heap client = [] := if_neg hop
      rwa [← hnil, hsends.sending client hi hvalid]
    exact absurd (travelling_of_atRest hrest h hpacing hthreads)
      (h.present i call b hcaller (open_of_valid hi hvalid) htoBroker
        (toClient_of_atRest hrest h hlen hcaller) hsends)

/-- **Nothing goes on** when every thread waits and the sockets have nothing for a call. -/
theorem atRest_of_idle (hselect : p.world.broker.reactor = .select)
    (hwoken : p.world.broker.wakeup = false) (hready : ∀ i, ¬ Ready p.world i)
    (hworkers : ∀ worker ∈ p.world.broker.workers, worker = .idle)
    (hqueue : p.world.broker.requestQueue.items = [])
    (hread : ∀ i call b, (p.world.connections i).caller = .waiting call b →
      (p.world.connections i).toClient = []) : AtRest config stream p := by
  rintro e q ⟨hs, hgoes, -⟩
  have hidle : ∀ {w : ℕ} {worker : WorkerState}, p.world.broker.workers[w]? = some worker →
      worker = .idle := fun hw => hworkers _ (List.mem_of_getElem? hw)
  cases e with
  | submit j request => exact hgoes
  | ends j => exact hgoes
  | receive j chunk =>
    obtain ⟨c', hc', -⟩ := Option.map_eq_some_iff.mp hs
    obtain ⟨call, b, rest, hcaller, hbytes, -⟩ := receive_eq_some hc'
    rw [hread j call b hcaller] at hbytes
    exact hgoes (List.append_eq_nil_iff.mp hbytes.symm).1
  | broker l =>
    obtain ⟨⟨hreactor, hnext⟩, -⟩ := broker_of_step hs
    rw [hselect] at hreactor
    cases l with
    | select =>
      rcases hgoes with hwakeup | ⟨i, hi⟩
      · rw [hwoken] at hwakeup
        cases hwakeup
      · exact hready i hi
    | take w =>
      obtain ⟨task, requestQueue, -, hpoll, -⟩ := Broker.take_eq_some hnext
      rw [BoundedQueue.poll_eq_none_iff.mpr hqueue] at hpoll
      cases hpoll
    | decode w =>
      obtain ⟨task, hw, -⟩ := Broker.decode_eq_some hnext
      cases hidle hw
    | answer w outcome =>
      obtain ⟨task, buffer, request, raw, raw', worker, hw, -⟩ := Broker.answer_eq_some hnext
      cases hidle hw
    | post w =>
      obtain ⟨task, hw, -⟩ := Broker.post_eq_some hnext
      cases hidle hw
    | wake w =>
      obtain ⟨dropped, hw, -⟩ := Broker.wake_eq_some hnext
      cases hidle hw
    | _ => cases hreactor _ rfl

end AtRest

/-! ### Runs -/

variable {ioBuffers : ℕ → ByteBuffer} {es ws : List (Event ε)} {x : World ε} {p q : Paced ε}

/-- **What a run followed by a run of the work leads to**, and how long the work takes. -/
theorem steady_of_runs (hstream : stream.RoundTrips)
    (hsize : ∀ i, (ioBuffers i).bytes.length = clientIoBufferCapacity)
    (h : Run (Restrict (RemoteCalls.Step config stream) (Smooth config stream))
      (RemoteCalls.init config ioBuffers) es x)
    (hwork : Run (SmoothWorks config stream) ⟨x, true⟩ ws q)
    (hroom : Roomy config q.world.broker) :
    (Steady config stream q.world ∧ Pacing q) ∧
      ws.length + effort config q ≤ effort config ⟨x, true⟩ := by
  have hinv : Inv x.broker 0 := h.of_restrict.invariant (P := fun x => Inv x.broker 0)
    (fun _ _ _ hinv hs => inv_of_step hinv hs) (inv_init config)
  -- the connections of the last state have been there all along
  obtain ⟨hroom₀, hrun⟩ := Run.of_last (P := fun p : Paced ε => Inv p.world.broker 0)
    (Q := fun p : Paced ε => Roomy config p.world.broker)
    (fun _ _ _ hinv hs => inv_of_step hinv hs.1.1)
    (fun _ _ _ hinv hs hroom => hroom.before hinv hs.1.1) hwork hinv hroom
  let P : Paced ε → Prop := fun p =>
    Steady config stream p.world ∧ Pacing p ∧ Roomy config p.world.broker
  have hP : ∀ p e q, P p →
      (SmoothWorks config stream p e q ∧ Roomy config q.world.broker) → P q := by
    rintro p e q ⟨hp, hpacing, -⟩ ⟨hs, hroom⟩
    exact ⟨hp.step hstream hroom hs.1.1 hs.2, hpacing.step hp hs.1, hroom⟩
  have hpacing₀ : Pacing (⟨x, true⟩ : Paced ε) := fun _ hnot =>
    absurd hnot.symm Bool.false_ne_true
  have hstart : P ⟨x, true⟩ := ⟨steady_of_run hstream hsize h hroom₀, hpacing₀, hroom₀⟩
  obtain ⟨hq, hpacing, -⟩ := hrun.invariant hP hstart
  exact ⟨⟨hq, hpacing⟩, hrun.length_add_le hP
    (fun _ _ _ hp hs => effort_of_step hp.1 hp.2.2 hs.1.1) hstart⟩

/-- **Every call returns.** After any run, what the threads and the sockets do by themselves comes
to an end after at most `effort` steps, in whatever order they are taken. When nothing goes on any
more, each call on an open connection has returned. -/
theorem every_call_returns (hstream : stream.RoundTrips)
    (hsize : ∀ i, (ioBuffers i).bytes.length = clientIoBufferCapacity)
    (hthreads : 0 < config.workerThreadCount)
    (h : Run (Restrict (RemoteCalls.Step config stream) (Smooth config stream))
      (RemoteCalls.init config ioBuffers) es x)
    (hwork : Run (SmoothWorks config stream) ⟨x, true⟩ ws q)
    (hroom : Roomy config q.world.broker) :
    ws.length ≤ effort config ⟨x, true⟩ ∧
    (AtRest config stream q → ∀ (i : ℕ) (client : Client),
      q.world.broker.clients[i]? = some client → client.selectionKey.isValid = true →
        (q.world.connections i).caller = .ended ∨
          ∃ b, (q.world.connections i).caller = .idle b ∧
            (q.world.connections i).returned.length =
              (q.world.connections i).submitted.length) := by
  obtain ⟨⟨hq, hpacing⟩, hlength⟩ := steady_of_runs hstream hsize h hwork hroom
  exact ⟨by omega, fun hrest i client hi hvalid =>
    returned_of_atRest hrest hq hpacing hroom.handles hthreads hi hvalid⟩

/-- The state after a step of the work. -/
def nextWork (config : BrokerConfiguration) (stream : ObjectStream ε) (p : Paced ε) (e : Event ε) :
    Option (Paced ε) :=
  (RemoteCalls.next config stream p.world e).map fun y => ⟨y, handledAfter p e⟩

theorem run_of_followWork (h : followIf (nextWork config stream)
      (fun p e => Goes p e ∧ Smooth config stream p.world e) p ws = some q) :
    Run (SmoothWorks config stream) p ws q := by
  refine (run_of_followIf h).mono (P := fun _ => True) (fun _ _ _ _ _ => trivial) ?_ trivial
  rintro p e q - ⟨hnext, hgoes, hsmooth⟩
  obtain ⟨y, hy, rfl⟩ := Option.map_eq_some_iff.mp hnext
  exact ⟨⟨hy, hgoes, rfl⟩, hsmooth⟩

/-- A client has submitted its registration; all that is left to do is done. -/
theorem every_call_returns_registering :
    ∃ x ws q, Run (Restrict (RemoteCalls.Step smallConfiguration nullStream)
        (Smooth smallConfiguration nullStream))
        (RemoteCalls.init smallConfiguration fun _ => openedBuffer) (registering.take 5) x ∧
      Run (SmoothWorks smallConfiguration nullStream) ⟨x, true⟩ ws q ∧
      ws.length ≤ effort smallConfiguration ⟨x, true⟩ ∧
      (q.world.connections 0).submitted.length = 1 ∧
      ((q.world.connections 0).caller = .ended ∨
        ∃ b, (q.world.connections 0).caller = .idle b ∧
          (q.world.connections 0).returned.length = (q.world.connections 0).submitted.length) := by
  have hrun : (followIf (RemoteCalls.next smallConfiguration nullStream)
      (Smooth smallConfiguration nullStream)
      (RemoteCalls.init smallConfiguration fun _ => openedBuffer) (registering.take 5)).any
      (fun x => (followIf (nextWork smallConfiguration nullStream)
        (fun p e => Goes p e ∧ Smooth smallConfiguration nullStream p.world e) ⟨x, true⟩
        (registering.drop 5 ++ [.broker .keysDone, .broker .selectQueue])).any fun q =>
          (q.world.broker.clients.map fun client => client.selectionKey.isValid) = [true] ∧
          q.world.broker.reactor = .select ∧ q.world.broker.wakeup = false ∧
          q.world.broker.workers = [.idle] ∧ q.world.broker.requestQueue.items = [] ∧
          ¬ (∃ i, Ready q.world i) ∧ (q.world.connections 0).toClient = [] ∧
          (q.world.connections 0).submitted.length = 1) = true := by decide +kernel
  simp only [Option.any_eq_true, decide_eq_true_eq] at hrun
  obtain ⟨x, hx, q, hq, hclients, hselect, hwoken, hworkers, hqueue, hready, htoClient, hone⟩ :=
    hrun
  obtain ⟨client, hclient, hvalid⟩ := List.map_eq_singleton_iff.mp hclients
  have hi : q.world.broker.clients[0]? = some client := by rw [hclient]; rfl
  have hroom : Roomy smallConfiguration q.world.broker := by
    constructor <;> rw [hclient, List.length_singleton] <;> decide
  have h := run_of_followIf hx
  have hwork := run_of_followWork hq
  have hsteady : Steady smallConfiguration nullStream q.world :=
    (steady_of_runs nullStream_roundTrips (fun _ => List.length_replicate) h hwork hroom).1.1
  have hrest : AtRest smallConfiguration nullStream q := by
    refine atRest_of_idle hselect hwoken (fun i hi => hready ⟨i, hi⟩) ?_ hqueue fun i _ _ _ => ?_
    · rw [hworkers]
      exact fun worker hw => List.mem_singleton.mp hw
    · cases i with
      | zero => exact htoClient
      | succ i => exact hsteady.unaccepted _ (by rw [hclient]; rfl)
  obtain ⟨hlength, hreturned⟩ := every_call_returns nullStream_roundTrips
    (fun _ => List.length_replicate) (by decide) h hwork hroom
  exact ⟨x, _, q, h, hwork, hlength, hone, hreturned hrest 0 client hi hvalid⟩

end Mlmq.Client.Progress
