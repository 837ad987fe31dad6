import Mlmq.Client.RemoteCalls

/-! # Queues of clients that wait for their responses

A client that waits for its response has at most one request at the broker, so the buffers that are
on their way are never more than the connections. Queues as long as there are connections take every
request and every response (`queues_have_room`): nothing is dropped because a queue is full. -/

namespace Mlmq.Client.ClosedLoop

open Mlmq.Lib.Nio Mlmq.Lib.Transition Mlmq.Net.Requests Mlmq.Net.Factory Mlmq.Net.RoundTrip
open Mlmq.Lib.Slots Mlmq.Server Mlmq.Server.Connection Mlmq.Server.System Mlmq.Server.Ownership
open Mlmq.Server.Flight
open Mlmq.Server.Motion Mlmq.Server.Channel Mlmq.Client.ClientConnection Mlmq.Client.RemoteCalls
open Mlmq.Server.FrameSize (clientIoBufferCapacity)
open Mlmq.Server.Reassembly (Holds)
open Mlmq.Lib.Queue (BoundedQueue)
open Mlmq.Util.ByteBufferUtil (ObjectStream)

variable {ε : Type} {s s' : Broker} {i n w : ℕ} {config : BrokerConfiguration}
  {stream : ObjectStream ε} {l : Label ε}

/-! ### Counting -/

/-- One buffer of each connection is on its way at most. -/
theorem nodup_connections (h : ∀ i, (travelling s i).card ≤ 1) :
    ((flights s).map Flight.connection).Nodup := by
  rw [Multiset.nodup_iff_count_le_one]
  intro i
  have hcount : ((flights s).map Flight.connection).count i = (travelling s i).card := by
    unfold travelling
    rw [Multiset.count_map, Multiset.card_map]
    exact congrArg Multiset.card (Multiset.filter_congr fun x _ => eq_comm)
  rw [hcount]
  exact h i

theorem card_flights_le (h : ∀ i, (travelling s i).card ≤ 1)
    (hlt : ∀ x ∈ flights s, x.connection < n) : (flights s).card ≤ n := by
  have hle : (flights s).map Flight.connection ≤ Multiset.range n := by
    refine (Multiset.le_iff_subset (nodup_connections h)).mpr fun i hi => ?_
    obtain ⟨x, hx, rfl⟩ := Multiset.mem_map.mp hi
    exact Multiset.mem_range.mpr (hlt x hx)
  have hcard := Multiset.card_le_card hle
  rwa [Multiset.card_map, Multiset.card_range] at hcard

/-- A connection without a buffer on its way leaves room for one more. -/
theorem card_flights_lt (h : ∀ i, (travelling s i).card ≤ 1)
    (hlt : ∀ x ∈ flights s, x.connection < n) (hi : i < n) (hnone : travelling s i = 0) :
    (flights s).card < n := by
  have hnot : i ∉ (flights s).map Flight.connection := by
    intro hmem
    obtain ⟨x, hx, hc⟩ := Multiset.mem_map.mp hmem
    have hb : x.buffer ∈ travelling s i := mem_travelling.mpr ⟨x.stage, hc ▸ hx⟩
    rw [hnone] at hb
    exact Multiset.notMem_zero _ hb
  have hle : i ::ₘ (flights s).map Flight.connection ≤ Multiset.range n := by
    refine (Multiset.le_iff_subset (Multiset.nodup_cons.mpr ⟨hnot, nodup_connections h⟩)).mpr ?_
    intro j hj
    rcases Multiset.mem_cons.mp hj with rfl | hj
    · exact Multiset.mem_range.mpr hi
    · obtain ⟨x, hx, rfl⟩ := Multiset.mem_map.mp hj
      exact Multiset.mem_range.mpr (hlt x hx)
  have hcard := Multiset.card_le_card hle
  rwa [Multiset.card_cons, Multiset.card_map, Multiset.card_range] at hcard

/-! ### The flights of the queues -/

theorem card_sum_flights {flight : Task → Multiset Flight} {tasks : List Task}
    (h : ∀ task ∈ tasks, (flight task).card = 1) :
    ((tasks.map flight).sum).card = tasks.length := by
  induction tasks with
  | nil => rfl
  | cons task tasks ih =>
    rw [List.map_cons, List.sum_cons, Multiset.card_add, h task List.mem_cons_self,
      ih fun t ht => h t (List.mem_cons_of_mem _ ht), List.length_cons, add_comm]

theorem length_requestQueue_le (hshape : Shaped s) :
    s.requestQueue.items.length ≤ (flights s).card := by
  have hsum : ((s.requestQueue.items.map requestFlight).sum).card = s.requestQueue.items.length :=
    card_sum_flights fun task ht => by
      obtain ⟨c, b, -, rfl⟩ := hshape.request task ht
      rfl
  unfold flights
  rw [Multiset.card_add, Multiset.card_add, hsum]
  omega

/-- A worker that has answered has a flight of its own. -/
theorem length_responseQueue_lt {task : Task} (hshape : Shaped s)
    (hw : s.workers[w]? = some (.answered task)) :
    s.responseQueue.items.length < (flights s).card := by
  have hsum : ((s.responseQueue.items.map responseFlight).sum).card =
      s.responseQueue.items.length :=
    card_sum_flights fun task ht => by
      obtain ⟨c, b, -, rfl⟩ := hshape.response task ht
      rfl
  obtain ⟨c, b, -, rfl⟩ := hshape.worker w _ hw
  have hone : (workerFlights (.answered ⟨c, none, some b⟩)).card = 1 := rfl
  have hrest : (flights (s.setWorker w .idle)).card ≥ s.responseQueue.items.length := by
    unfold flights
    rw [Multiset.card_add, Multiset.card_add]
    have hsame : (s.setWorker w .idle).responseQueue = s.responseQueue := rfl
    rw [hsame, hsum]
    omega
  rw [flights_eq_add_idle hw, Multiset.card_add, hone]
  omega

/-- What is on its way belongs to a connection. -/
theorem connection_lt (hshape : Shaped s) {x : Flight} (hx : x ∈ flights s) :
    x.connection < s.clients.length := by
  unfold flights at hx
  rcases Multiset.mem_add.mp hx with hx | hx
  · rcases Multiset.mem_add.mp hx with hx | hx
    · obtain ⟨task, ht, hx⟩ := exists_of_mem_sum hx
      obtain ⟨c, b, hc, rfl⟩ := hshape.request task ht
      obtain rfl := Multiset.mem_singleton.mp hx
      exact hc
    · obtain ⟨task, ht, hx⟩ := exists_of_mem_sum hx
      obtain ⟨c, b, hc, rfl⟩ := hshape.response task ht
      obtain rfl := Multiset.mem_singleton.mp hx
      exact hc
  · obtain ⟨worker, hworker, hx⟩ := exists_of_mem_sum hx
    obtain ⟨w, hw⟩ := List.getElem?_of_mem hworker
    have hshaped := hshape.worker w worker hw
    cases worker with
    | idle => exact absurd hx (Multiset.notMem_zero x)
    | posted dropped => exact absurd hx (Multiset.notMem_zero x)
    | taken task =>
      obtain ⟨c, b, hc, rfl⟩ := hshaped
      obtain rfl := Multiset.mem_singleton.mp hx
      exact hc
    | processing task buffer request =>
      obtain ⟨c, hc, rfl⟩ := hshaped
      obtain rfl := Multiset.mem_singleton.mp hx
      exact hc
    | answered task =>
      obtain ⟨c, b, hc, rfl⟩ := hshaped
      obtain rfl := Multiset.mem_singleton.mp hx
      exact hc

/-! ### The capacities -/

/-- The queues have the capacities of the configuration. -/
def Capacities (config : BrokerConfiguration) (s : Broker) : Prop :=
  s.requestQueue.capacity = config.requestQueueSize ∧
    s.responseQueue.capacity = config.responseQueueSize

theorem Capacities.step (h : Capacities config s) (hinv : Inv s 0)
    (hs : Server.System.Step config stream s l s') : Capacities config s' := by
  obtain ⟨hreq, hresp⟩ := h
  obtain ⟨-, hs⟩ := hs
  cases l with
  | select => exact Option.some.inj hs ▸ ⟨hreq, hresp⟩
  | accept =>
    obtain rfl := Option.some.inj hs
    exact ⟨(congrArg BoundedQueue.capacity requestQueue_selectAccept).trans hreq,
      (congrArg BoundedQueue.capacity responseQueue_selectAccept).trans hresp⟩
  | acceptFails => exact Option.some.inj hs ▸ ⟨hreq, hresp⟩
  | read j chunk =>
    refine ⟨?_, responseQueue_selectRead hs ▸ hresp⟩
    rcases requestQueue_selectRead hs with ⟨heq, -⟩ | ⟨client, -, -, -, hadd⟩
    · rw [heq, hreq]
    · rw [(BoundedQueue.add_eq_some_iff.mp hadd).2.1, hreq]
  | write j byteCount =>
    obtain ⟨h1, h2, -⟩ := queues_selectWrite hs
    exact ⟨h1 ▸ hreq, h2 ▸ hresp⟩
  | fails j =>
    obtain ⟨client, -, -, rfl⟩ := Broker.selectFails_eq_some hs
    exact ⟨(congrArg BoundedQueue.capacity requestQueue_disconnectCLient).trans hreq,
      (congrArg BoundedQueue.capacity responseQueue_disconnectCLient).trans hresp⟩
  | keysDone => exact Option.some.inj hs ▸ ⟨hreq, hresp⟩
  | selectQueue =>
    obtain ⟨h1, -, ⟨-, h2⟩ | ⟨task, hpoll⟩⟩ := queues_selectQueue hinv.connected hs
    · exact ⟨h1 ▸ hreq, h2 ▸ hresp⟩
    · exact ⟨h1 ▸ hreq, (BoundedQueue.poll_eq_some_iff.mp hpoll).1.trans hresp⟩
  | take w =>
    obtain ⟨task, requestQueue, -, hpoll, rfl⟩ := Broker.take_eq_some hs
    exact ⟨(BoundedQueue.poll_eq_some_iff.mp hpoll).1.trans hreq, hresp⟩
  | decode w =>
    obtain ⟨task, -, ⟨-, rfl⟩ | ⟨buffer, rawRequest, rawRequest', worker, -, -, rfl, -⟩⟩ :=
      Broker.decode_eq_some hs <;> exact ⟨hreq, hresp⟩
  | answer w outcome =>
    obtain ⟨task, buffer, request, rawRequest, rawRequest', worker, -, -, rfl, -⟩ :=
      Broker.answer_eq_some hs
    exact ⟨hreq, hresp⟩
  | post w =>
    obtain ⟨task, -, ⟨responseQueue, hadd, rfl⟩ | ⟨-, rfl⟩⟩ := Broker.post_eq_some hs
    · exact ⟨hreq, (BoundedQueue.add_eq_some_iff.mp hadd).2.1.trans hresp⟩
    · exact ⟨hreq, hresp⟩
  | wake w =>
    obtain ⟨dropped, -, rfl⟩ := Broker.wake_eq_some hs
    exact ⟨hreq, hresp⟩

/-! ### Runs -/

/-- A message that has been received as a whole was the only one of its connection. -/
theorem travelling_eq_zero {c : Connection ε} {J : Routing.Journal ε} {chunk : Option (List UInt8)}
    (h : Linked stream s J i c) (hreceives : Receives s i chunk)
    (hvalid : ∀ client, s.clients[i]? = some client → client.selectionKey.isValid = true)
    (hchunk : ∀ bytes ∈ chunk, bytes <+: c.toBroker) : travelling s i = 0 := by
  obtain ⟨⟨pending, hinward, -⟩, -⟩ := h
  by_contra hne
  have hpending : pending = none := by
    by_contra hsome
    exact hne (hinward.unread hsome)
  subst hpending
  obtain ⟨hempty, hholds⟩ := hinward.inbound
  obtain ⟨client, rxBuffer, hi, hrx, hc⟩ := hreceives
  obtain ⟨rxBuffer', hrx', hnil⟩ := hholds client hi (hvalid client hi)
  obtain rfl := Option.some.inj (hrx.symm.trans hrx')
  have hnone : chunk.getD [] = [] := by
    cases chunk with
    | none => rfl
    | some bytes =>
      have hbytes := hchunk bytes rfl
      rw [hempty] at hbytes
      exact List.prefix_nil.mp hbytes
  rw [hnone] at hc
  exact not_complete_of_holds_nil hnil hc

variable {ioBuffers : ℕ → ByteBuffer} {es : List (Event ε)} {x : World ε}

/-- At most one buffer of a connection is on its way. -/
theorem card_travelling_le (h : Whole stream x) (hlen : x.broker.clients.length < 2 ^ 32)
    (i : ℕ) : (travelling x.broker i).card ≤ 1 := by
  obtain ⟨pending, hinward, -⟩ := (h.linked hlen i).caller
  exact hinward.single

theorem capacities_of_run
    (h : Run (RemoteCalls.Step config stream) (RemoteCalls.init config ioBuffers) es x) :
    Inv x.broker 0 ∧ Capacities config x.broker := by
  refine h.invariant (P := fun x => Inv x.broker 0 ∧ Capacities config x.broker) ?_
    ⟨inv_init config, rfl, rfl⟩
  rintro x e y ⟨hinv, hcap⟩ hs
  rcases broker_cases hs with hsame | ⟨l, -, hbroker⟩
  · exact hsame ▸ ⟨hinv, hcap⟩
  · exact ⟨hinv.step hbroker, hcap.step hinv hbroker⟩

/-- **A request finds room**, of a connection that has no other one on its way. -/
theorem requestQueue_hasRoom (h : Whole stream x) (hcap : Capacities config x.broker)
    (hlen : x.broker.clients.length < 2 ^ 32)
    (hrequests : x.broker.clients.length ≤ config.requestQueueSize)
    (hi : i < x.broker.clients.length) (hnone : travelling x.broker i = 0) :
    x.broker.requestQueue.HasRoom := by
  have hshape : Shaped x.broker := h.good.shape
  have hcard := card_flights_lt (card_travelling_le h hlen)
    (fun y hy => connection_lt hshape hy) hi hnone
  unfold BoundedQueue.HasRoom
  rw [hcap.1]
  exact (length_requestQueue_le hshape).trans_lt (hcard.trans_le hrequests)

/-- **A response finds room.** -/
theorem responseQueue_hasRoom (h : Whole stream x) (hcap : Capacities config x.broker)
    (hlen : x.broker.clients.length < 2 ^ 32)
    (hresponses : x.broker.clients.length ≤ config.responseQueueSize) {task : Task}
    (hw : x.broker.workers[w]? = some (.answered task)) : x.broker.responseQueue.HasRoom := by
  have hshape : Shaped x.broker := h.good.shape
  have hcard := card_flights_le (card_travelling_le h hlen)
    (fun y hy => connection_lt hshape hy)
  unfold BoundedQueue.HasRoom
  rw [hcap.2]
  exact (length_responseQueue_lt hshape hw).trans_le (hcard.trans hresponses)

/-- **No queue is ever full** if both are as long as there are connections: every request that has
been received as a whole finds room in the request queue, every response in the response queue. -/
theorem queues_have_room (hstream : stream.RoundTrips)
    (hsize : ∀ i, (ioBuffers i).bytes.length = clientIoBufferCapacity)
    (h : Run (RemoteCalls.Step config stream) (RemoteCalls.init config ioBuffers) es x)
    (hfit : ∀ e ∈ es, e.Fits) (hlen : x.broker.clients.length < 2 ^ 32)
    (hrequests : x.broker.clients.length ≤ config.requestQueueSize)
    (hresponses : x.broker.clients.length ≤ config.responseQueueSize) :
    (∀ i chunk y, RemoteCalls.Step config stream x (.broker (.read i chunk)) y →
      Receives x.broker i chunk → x.broker.requestQueue.HasRoom) ∧
    ∀ (w : ℕ) (task : Task), x.broker.workers[w]? = some (WorkerState.answered task) →
      x.broker.responseQueue.HasRoom := by
  have hwhole := whole_of_run hstream hsize h hfit
  obtain ⟨hinv, hcap⟩ := capacities_of_run h
  refine ⟨fun i chunk y hs hreceives => ?_, fun w task hw =>
    responseQueue_hasRoom hwhole hcap hlen hresponses hw⟩
  obtain ⟨hbroker, -, hsockets⟩ := broker_of_step hs
  obtain ⟨client, -, -, hi, hvalid, -⟩ := Broker.selectRead_eq_some hbroker.2
  have hzero : travelling x.broker i = 0 := by
    refine travelling_eq_zero (hwhole.linked hlen i) hreceives (fun client' hi' => ?_) ?_
    · obtain rfl := Option.some.inj (hi.symm.trans hi')
      exact hvalid
    · intro bytes hbytes
      obtain rfl := Option.mem_def.mp hbytes
      obtain ⟨-, hpre, -⟩ := sockets_eq_some (i := i) hsockets
      exact ⟨_, (hpre bytes rfl).symm⟩
  exact requestQueue_hasRoom hwhole hcap hlen hrequests (List.getElem?_eq_some_iff.mp hi).1 hzero

/-- The only worker has answered the only client. -/
theorem queues_have_room_registering :
    ∃ x, follow smallConfiguration nullStream
        (RemoteCalls.init smallConfiguration fun _ => openedBuffer) (registering.take 11) = some x ∧
      (∃ task, x.broker.workers[0]? = some (WorkerState.answered task)) ∧
      x.broker.responseQueue.HasRoom := by
  have hrun : (follow smallConfiguration nullStream
      (RemoteCalls.init smallConfiguration fun _ => openedBuffer) (registering.take 11)).any
      (fun x => x.broker.clients.length ≤ 1 ∧
        x.broker.workers = [WorkerState.answered ⟨0, none, some 0⟩]) = true := by decide +kernel
  simp only [Option.any_eq_true, decide_eq_true_eq] at hrun
  obtain ⟨x, hx, hlen, hworkers⟩ := hrun
  have hw : x.broker.workers[0]? = some (WorkerState.answered ⟨0, none, some 0⟩) := by
    rw [hworkers]
    rfl
  have hfit : ∀ e ∈ registering.take 11, e.Fits := by
    unfold registering
    simp only [List.take_succ_cons, List.take_zero, List.forall_mem_cons, Event.Fits,
      List.not_mem_nil, false_imp_iff, implies_true, and_true, true_and]
    decide
  exact ⟨x, hx, ⟨_, hw⟩, (queues_have_room nullStream_roundTrips (fun _ => List.length_replicate)
    (run_of_follow hx) hfit (by omega) hlen hlen).2 0 _ hw⟩

end Mlmq.Client.ClosedLoop
