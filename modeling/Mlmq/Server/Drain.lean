import Mlmq.Server.Routing

/-! # Responses that wait for the reactor

A worker puts its task into the response queue and wakes the reactor afterwards, and the reactor
empties the queue before it waits again. It stops emptying the queue at a task whose client is no
longer connected: the tasks behind it stay, and nothing wakes the reactor for them.

`no_stranded_response_iff` says that this is the only way to leave a response behind, and
`selectQueue_call_iff` what one call of `selectQueue` does. -/

namespace Mlmq.Server.Drain

open Mlmq.Lib.Transition Mlmq.Net.Requests Mlmq.Net.Responses Mlmq.Net.Factory Mlmq.Net.RoundTrip
open Mlmq.Server.Connection Mlmq.Server.System Mlmq.Server.Ownership Mlmq.Server.Contents
open Mlmq.Server.Flight Mlmq.Server.Handles Mlmq.Server.Routing
open Mlmq.Lib.Queue (BoundedQueue)
open Mlmq.Util.ByteBufferUtil (ObjectStream)

variable {ε : Type} {s s' : Broker} {w : ℕ} {config : BrokerConfiguration}
  {stream : ObjectStream ε} {l : Label ε} {ls : List (Label ε)} {task : Task}

/-! ### Waiting -/

/-- The selector has been woken, or a worker that has come from `add` is about to wake it. -/
def WakeupPending (s : Broker) : Prop :=
  s.wakeup = true ∨ ∃ (w : ℕ) (dropped : Option Task), s.workers[w]? = some (.posted dropped)

/-- When the reactor blocks in `select`, no response is waiting. -/
def NoneStranded (s : Broker) : Prop :=
  s.reactor = .select → ¬ WakeupPending s → s.responseQueue.items = []

/-- What `connectedClients.get` returns for a task. -/
def connectedClient (s : Broker) (task : Task) : Option ℕ := do
  let client ← s.clients[task.clientContext]?
  s.connectedClients client.clientApplicationContext.clientNetworkHandle

/-- A round of `selectQueue` that takes the task of an unknown client and leaves others behind,
while nothing is about to wake the reactor. -/
def Abandons (s : Broker) : Label ε → Prop
  | .selectQueue => ¬ WakeupPending s ∧ ∃ task responseQueue,
      s.responseQueue.poll = some (task, responseQueue) ∧ connectedClient s task = none ∧
      responseQueue.items ≠ []
  | _ => False

/-- A wakeup stays pending while a worker goes on that is not about to wake the reactor. -/
theorem WakeupPending.setWorker {worker worker' : WorkerState} (h : WakeupPending s)
    (hw : s.workers[w]? = some worker) (hposted : ∀ dropped, worker ≠ .posted dropped)
    (hwakeup : s'.wakeup = s.wakeup) (hworkers : s'.workers = s.workers.set w worker') :
    WakeupPending s' := by
  rcases h with h | ⟨w', dropped, hw'⟩
  · exact Or.inl (hwakeup.trans h)
  · refine Or.inr ⟨w', dropped, ?_⟩
    have hne : w ≠ w' := by
      rintro rfl
      exact hposted dropped (Option.some.inj (hw.symm.trans hw'))
    rw [hworkers, List.getElem?_set_ne hne, hw']

/-- The reactor does not begin to wait. -/
theorem NoneStranded.of_ne (h : s'.reactor ≠ .select) : NoneStranded s' :=
  fun hselect => absurd hselect h

/-- A worker goes on and leaves the response queue alone. -/
theorem NoneStranded.setWorker {worker worker' : WorkerState} (h : NoneStranded s)
    (hw : s.workers[w]? = some worker) (hposted : ∀ dropped, worker ≠ .posted dropped)
    (hreactor : s'.reactor = s.reactor) (hresp : s'.responseQueue = s.responseQueue)
    (hwakeup : s'.wakeup = s.wakeup) (hworkers : s'.workers = s.workers.set w worker') :
    NoneStranded s' := by
  intro hselect hpending
  rw [hresp]
  exact h (hreactor ▸ hselect) fun hp => hpending (hp.setWorker hw hposted hwakeup hworkers)

/-- **One round of `selectQueue`.** The queue is empty, or the task of an unknown client ends the
loop, or a response is set and the loop goes on. -/
theorem selectQueue_cases (hinv : Inv s 0) (hshape : Shaped s) (hs : s.selectQueue = some s') :
    s.responseQueue.items = [] ∧ s' = { s with reactor := .select } ∨
    ∃ c b responseQueue, s.responseQueue.poll = some (⟨c, none, some b⟩, responseQueue) ∧
      s'.responseQueue = responseQueue ∧ s'.workers = s.workers ∧ s'.wakeup = s.wakeup ∧
      s'.connectedClients = s.connectedClients ∧ handles s' = handles s ∧
      s.pooledBuffers ⊆ s'.pooledBuffers ∧
      (connectedClient s ⟨c, none, some b⟩ = none ∧ s'.reactor = .select ∧ b ∈ s'.pooledBuffers ∨
        (connectedClient s ⟨c, none, some b⟩).isSome ∧ s'.reactor = s.reactor) := by
  obtain ⟨hpoll, rfl⟩ | ⟨task, responseQueue, client, hpoll, hclient, hround⟩ :=
    Broker.selectQueue_eq_some hs
  · exact Or.inl ⟨BoundedQueue.poll_eq_none_iff.mp hpoll, rfl⟩
  · obtain ⟨c, b, -, rfl⟩ := hshape.response task
      ((BoundedQueue.poll_eq_some_iff.mp hpoll).2 ▸ List.mem_cons_self)
    have hlookup : connectedClient s ⟨c, none, some b⟩ =
        s.connectedClients client.clientApplicationContext.clientNetworkHandle := by
      unfold connectedClient
      rw [hclient]
      rfl
    refine Or.inr ⟨c, b, responseQueue, hpoll, ?_⟩
    rcases hround with ⟨hnone, rfl⟩ | ⟨j, s₁, completed, hj, hset, rfl⟩
    · refine ⟨rfl, rfl, rfl, rfl, rfl, List.subset_append_left _ _,
        Or.inl ⟨hlookup.trans hnone, rfl, List.mem_append_right _ ?_⟩⟩
      exact List.mem_singleton_self b
    · obtain ⟨client', hj', hvalid, -⟩ := hinv.connected _ _ hj
      have hsome : (connectedClient s ⟨c, none, some b⟩).isSome := by
        rw [hlookup, hj]
        rfl
      obtain ⟨hnone, -⟩ | ⟨buffer, hbuffer, rfl, rfl⟩ :=
        Broker.setResponse_eq_some (s := { s with responseQueue }) hj' hvalid hset
      · cases hnone
      · refine ⟨rfl, rfl, rfl, rfl, map_set_of_eq hj' rfl, ?_, Or.inr ⟨hsome, rfl⟩⟩
        exact fun b hb => List.mem_append_left _ (List.mem_append_left _ hb)

/-! ### The reactor while it handles keys -/

@[simp] theorem reactor_aquire : (s.aquire config).2.reactor = s.reactor := by
  unfold Broker.aquire
  split <;> rfl

@[simp] theorem reactor_disconnectCLient {i : ℕ} : (s.disconnectCLient i).reactor = s.reactor := by
  unfold Broker.disconnectCLient
  split <;> rfl

theorem reactor_selectAccept : (s.selectAccept config).reactor = s.reactor :=
  reactor_aquire.trans reactor_aquire

@[simp] theorem reactor_takeMessage {i : ℕ} {client : Client} :
    (s.takeMessage config i client).reactor = s.reactor := by
  unfold Broker.takeMessage Broker.onMessage
  dsimp only
  split <;> exact reactor_aquire

theorem reactor_selectRead {i : ℕ} {chunk : Option (List UInt8)}
    (hs : s.selectRead config i chunk = some s') : s'.reactor = s.reactor := by
  obtain ⟨client, rxBuffer, s₁, -, -, -, hs₁, rfl⟩ := Broker.selectRead_eq_some hs
  have h₁ : s₁.reactor = s.reactor := by rw [hs₁]
  split_ifs <;> simp only [reactor_disconnectCLient, reactor_takeMessage, h₁]

theorem reactor_selectWrite {i byteCount : ℕ} (hs : s.selectWrite i byteCount = some s') :
    s'.reactor = s.reactor := by
  obtain ⟨client, -, -, ⟨-, rfl⟩ | ⟨tx, txBuffer, -, -, -, rfl⟩⟩ := Broker.selectWrite_eq_some hs
  · exact reactor_disconnectCLient
  · unfold Broker.afterWrite
    split_ifs <;> rfl

/-! ### Runs -/

/-- **What a step does to the responses that wait**: they are abandoned in one way only. -/
theorem noneStranded_step_iff (hinv : Inv s 0) (hshape : Shaped s) (h : NoneStranded s)
    (hs : Step config stream s l s') : NoneStranded s' ↔ ¬ Abandons s l := by
  have hreactor := hs.1
  obtain ⟨-, hs⟩ := hs
  -- the reactor goes on with the keys
  have hkeys : l.reactor = some .keys → s'.reactor = s.reactor → NoneStranded s' := by
    intro hl heq
    refine .of_ne ?_
    rw [heq, hreactor .keys hl]
    simp
  cases l with
  | select => exact iff_of_true (.of_ne (Option.some.inj hs ▸ by simp)) id
  | accept => exact iff_of_true (hkeys rfl (Option.some.inj hs ▸ reactor_selectAccept)) id
  | acceptFails => exact iff_of_true (.of_ne (Option.some.inj hs ▸ by simp)) id
  | read i chunk => exact iff_of_true (hkeys rfl (reactor_selectRead hs)) id
  | write i byteCount => exact iff_of_true (hkeys rfl (reactor_selectWrite hs)) id
  | fails i =>
    obtain ⟨client, -, -, rfl⟩ := Broker.selectFails_eq_some hs
    exact iff_of_true (hkeys rfl reactor_disconnectCLient) id
  | keysDone => exact iff_of_true (.of_ne (Option.some.inj hs ▸ by simp)) id
  | selectQueue =>
    rcases selectQueue_cases hinv hshape hs with ⟨hitems, rfl⟩ | ⟨c, b, responseQueue, hpoll, hresp,
      hworkers, hwakeup, -, -, -, ⟨hnone, hselect, -⟩ | ⟨hsome, heq⟩⟩
    · refine iff_of_true (fun _ _ => hitems) ?_
      rintro ⟨-, task, responseQueue, hpoll, -⟩
      rw [BoundedQueue.poll_eq_none_iff.mpr hitems] at hpoll
      cases hpoll
    · have hpending : WakeupPending s' ↔ WakeupPending s := by
        unfold WakeupPending
        rw [hworkers, hwakeup]
      unfold NoneStranded
      rw [hpending, hresp]
      constructor
      · rintro hempty ⟨hnot, task, responseQueue', hpoll', -, hne⟩
        obtain ⟨-, rfl⟩ := Prod.mk.inj (Option.some.inj (hpoll.symm.trans hpoll'))
        exact hne (hempty hselect hnot)
      · intro habandons _ hnot
        by_contra hne
        exact habandons ⟨hnot, _, responseQueue, hpoll, hnone, hne⟩
    · refine iff_of_true (.of_ne ?_) ?_
      · rw [heq, hreactor .queue rfl]
        simp
      · rintro ⟨-, task, responseQueue', hpoll', hnone, -⟩
        obtain ⟨rfl, -⟩ := Prod.mk.inj (Option.some.inj (hpoll.symm.trans hpoll'))
        rw [hnone] at hsome
        cases hsome
  | take w =>
    obtain ⟨task, requestQueue, hw, -, rfl⟩ := Broker.take_eq_some hs
    exact iff_of_true (h.setWorker hw (by simp) rfl rfl rfl rfl) id
  | decode w =>
    obtain ⟨task, hw, ⟨-, rfl⟩ | ⟨buffer, rawRequest, rawRequest', worker, -, -, rfl, -⟩⟩ :=
      Broker.decode_eq_some hs
    · exact iff_of_true (h.setWorker hw (by simp) rfl rfl rfl rfl) id
    · exact iff_of_true (h.setWorker hw (by simp) rfl rfl rfl rfl) id
  | answer w outcome =>
    obtain ⟨task, buffer, request, rawRequest, rawRequest', worker, hw, -, rfl, -⟩ :=
      Broker.answer_eq_some hs
    exact iff_of_true (h.setWorker hw (by simp) rfl rfl rfl rfl) id
  | post w =>
    -- the worker is about to wake the reactor
    have hpending : WakeupPending s' := by
      obtain ⟨task, hw, ⟨responseQueue, -, rfl⟩ | ⟨-, rfl⟩⟩ := Broker.post_eq_some hs
      · exact Or.inr ⟨w, _, List.getElem?_set_self (List.getElem?_eq_some_iff.mp hw).1⟩
      · exact Or.inr ⟨w, _, List.getElem?_set_self (List.getElem?_eq_some_iff.mp hw).1⟩
    exact iff_of_true (fun _ hnot => absurd hpending hnot) id
  | wake w =>
    obtain ⟨dropped, -, rfl⟩ := Broker.wake_eq_some hs
    exact iff_of_true (fun _ hnot => absurd (Or.inl rfl) hnot) id

/-- No response is stranded in the states of a run iff no step abandons one. -/
theorem noneStranded_iff (h : Run (Step config stream) (init config) ls s) :
    Throughout (Step config stream) NoneStranded (init config) ls ↔
      Run (Restrict (Step config stream) fun s l => ¬ Abandons s l) (init config) ls s := by
  refine h.throughout_iff (I := fun s => Inv s 0 ∧ Shaped s)
    (step_deterministic config stream) ?_ ?_ ⟨inv_init config, shaped_init config⟩ fun _ _ => rfl
  · exact fun s l s' hs hstep => ⟨hs.1.step hstep, hs.2.step hs.1 hstep⟩
  · exact fun s l s' hs hP hstep => noneStranded_step_iff hs.1 hs.2 hP hstep

/-! ### One call of `selectQueue` -/

section Call

variable {J J' : Journal ε} {x y : Broker × Journal ε}

/-- What happens during a call of `selectQueue` while no worker enqueues. -/
def InCall : Label ε → Prop
  | .selectQueue | .take _ | .decode _ | .answer _ _ | .wake _ => True
  | _ => False

/-- The call of `setResponse` that is due for a task: the job and the connection. -/
def setCall (x : Broker × Journal ε) (task : Task) : Option (ℕ × ℕ) := do
  let j ← connectedClient x.1 task
  let buffer ← task.responseBuffer
  return (x.2.job buffer, j)

def setCalls (J : Journal ε) : List (ℕ × ℕ) := J.deliveries.map fun d => (d.job, d.connection)

/-- The connections after `setResponse` for a task whose client is connected: its buffer is the one
to be written, and its key waits for the socket. -/
def withResponse (s : Broker) (clients : List Client) (task : Task) : List Client :=
  (do
    let j ← connectedClient s task
    let buffer ← task.responseBuffer
    return clients.modify j fun client =>
      { client with txBuffer := some buffer, selectionKey := ⟨true, true⟩ }).getD clients

/-- **What a call of `selectQueue` is to do**: from `x` to `y` the queue has been emptied, the
responses of the tasks with a connected client have been set in their order, on the connections as
in the journal, and the other tasks have been closed. -/
structure Emptied (x y : Broker × Journal ε) : Prop where
  empty : y.1.responseQueue.items = []
  set : setCalls y.2 = setCalls x.2 ++ x.1.responseQueue.items.filterMap (setCall x)
  clients : y.1.clients = x.1.responseQueue.items.foldl (withResponse x.1) x.1.clients
  closed : ∀ task ∈ x.1.responseQueue.items, connectedClient x.1 task = none →
    ∀ b ∈ task.close, b ∈ y.1.pooledBuffers

/-- A worker has gone on. -/
structure Aside (x y : Broker × Journal ε) : Prop where
  responseQueue : y.1.responseQueue = x.1.responseQueue
  clients : y.1.clients = x.1.clients
  connectedClients : y.1.connectedClients = x.1.connectedClients
  pooledBuffers : y.1.pooledBuffers = x.1.pooledBuffers
  reactor : y.1.reactor = x.1.reactor
  deliveries : y.2.deliveries = x.2.deliveries
  job : y.2.job = x.2.job

theorem aside_of_step (hl : InCall l) (hqueue : l ≠ .selectQueue) (h : Logged config stream x l y) :
    Aside x y := by
  obtain ⟨⟨-, hs⟩, hJ⟩ := h
  obtain ⟨s, J⟩ := x
  obtain ⟨s', J'⟩ := y
  dsimp only at hs hJ
  subst hJ
  cases l with
  | take w =>
    obtain ⟨task, requestQueue, -, -, rfl⟩ := Broker.take_eq_some hs
    exact ⟨rfl, rfl, rfl, rfl, rfl, rfl, rfl⟩
  | decode w =>
    obtain ⟨task, -, ⟨-, rfl⟩ | ⟨buffer, rawRequest, rawRequest', worker, -, -, rfl, -⟩⟩ :=
      Broker.decode_eq_some hs <;> exact ⟨rfl, rfl, rfl, rfl, rfl, rfl, rfl⟩
  | answer w outcome =>
    obtain ⟨task, buffer, request, rawRequest, rawRequest', worker, hw, -, rfl, -⟩ :=
      Broker.answer_eq_some hs
    have hrecord : J.record s (.answer w outcome) =
        J.process buffer ⟨task.clientContext, request, outcome⟩ := by
      unfold Journal.record
      simp only [hw]
    rw [hrecord]
    exact ⟨rfl, rfl, rfl, rfl, rfl, rfl, rfl⟩
  | wake w =>
    obtain ⟨dropped, -, rfl⟩ := Broker.wake_eq_some hs
    exact ⟨rfl, rfl, rfl, rfl, rfl, rfl, rfl⟩
  | selectQueue => exact absurd rfl hqueue
  | _ => exact hl.elim

theorem connectedClient_congr (hhandles : handles s' = handles s)
    (hconn : s'.connectedClients = s.connectedClients) :
    connectedClient s' = connectedClient s := by
  funext task
  have hget : ∀ t : Broker, connectedClient t task =
      (handles t)[task.clientContext]?.bind t.connectedClients := by
    intro t
    unfold connectedClient handles
    rw [List.getElem?_map]
    cases t.clients[task.clientContext]? <;> rfl
  rw [hget, hget, hhandles, hconn]

theorem withResponse_congr (h : connectedClient s' = connectedClient s) :
    withResponse s' = withResponse s := by
  funext clients task
  unfold withResponse
  rw [h]

theorem withResponse_eq_self {clients : List Client} (h : connectedClient s task = none) :
    withResponse s clients task = clients := by
  unfold withResponse
  rw [h]
  rfl

theorem Aside.emptied_iff {z : Broker × Journal ε} (h : Aside x y) :
    Emptied y z ↔ Emptied x z := by
  have hclient : connectedClient y.1 = connectedClient x.1 :=
    connectedClient_congr (by unfold handles; rw [h.clients]) h.connectedClients
  have hcall : setCall y = setCall x := by
    funext task
    unfold setCall
    rw [hclient, h.job]
  have hcalls : setCalls y.2 = setCalls x.2 := by
    unfold setCalls
    rw [h.deliveries]
  have hwith := withResponse_congr hclient
  constructor
  · rintro ⟨h1, h2, h3, h4⟩
    rw [h.responseQueue, hcalls, hcall] at h2
    rw [h.responseQueue, h.clients, hwith] at h3
    rw [h.responseQueue, hclient] at h4
    exact ⟨h1, h2, h3, h4⟩
  · rintro ⟨h1, h2, h3, h4⟩
    refine ⟨h1, ?_, ?_, ?_⟩
    · rw [h.responseQueue, hcalls, hcall]
      exact h2
    · rw [h.responseQueue, h.clients, hwith]
      exact h3
    · rw [h.responseQueue, hclient]
      exact h4

/-- After the call only workers go on. -/
theorem aside_of_run (h : Run (Logged config stream) x ls y) (hls : ∀ l ∈ ls, InCall l)
    (hx : x.1.reactor ≠ .queue) :
    y.1.responseQueue = x.1.responseQueue ∧ y.1.pooledBuffers = x.1.pooledBuffers ∧
      y.1.clients = x.1.clients ∧ y.2.deliveries = x.2.deliveries := by
  induction h with
  | nil x => exact ⟨rfl, rfl, rfl, rfl⟩
  | @cons x x₁ y l ls hstep _ ih =>
    have hqueue : l ≠ .selectQueue := by
      rintro rfl
      exact hx (hstep.1.1 .queue rfl)
    have haside := aside_of_step (hls l List.mem_cons_self) hqueue hstep
    obtain ⟨h1, h2, h3, h4⟩ := ih (fun l hl => hls l (List.mem_cons_of_mem _ hl))
      (haside.reactor ▸ hx)
    exact ⟨h1.trans haside.responseQueue, h2.trans haside.pooledBuffers,
      h3.trans haside.clients, h4.trans haside.deliveries⟩

/-- What a round of `selectQueue` enters in the journal is the call that is due for its task. -/
theorem delivery_eq_setCall (hinv : Inv s 0) (hshape : Shaped s)
    {responseQueue : BoundedQueue Task}
    (hpoll : s.responseQueue.poll = some (task, responseQueue)) :
    (J.delivery s).map (fun d => (d.job, d.connection)) = setCall (s, J) task := by
  cases hclient : s.clients[task.clientContext]? with
  | none => simp [Journal.delivery, setCall, connectedClient, hpoll, hclient]
  | some client =>
    cases hj : s.connectedClients client.clientApplicationContext.clientNetworkHandle with
    | none =>
      rw [delivery_closed hpoll hclient hj]
      simp [setCall, connectedClient, hclient, hj]
    | some j =>
      obtain ⟨b, response, htask, -, hdelivery⟩ :=
        exists_delivery (J := J) hinv hshape hpoll hclient hj
      rw [hdelivery]
      simp [setCall, connectedClient, hclient, hj, htask]

theorem setCalls_record (hinv : Inv s 0) (hshape : Shaped s) {responseQueue : BoundedQueue Task}
    (hpoll : s.responseQueue.poll = some (task, responseQueue)) :
    setCalls (J.record s (.selectQueue : Label ε)) =
      setCalls J ++ (setCall (s, J) task).toList := by
  show setCalls { J with deliveries := J.deliveries ++ (J.delivery s).toList } = _
  unfold setCalls
  rw [List.map_append, ← delivery_eq_setCall hinv hshape hpoll, Option.toList_map]

/-- The connections after a round. -/
theorem clients_selectQueue (hinv : Inv s 0) (hshape : Shaped s)
    {responseQueue : BoundedQueue Task}
    (hpoll : s.responseQueue.poll = some (task, responseQueue)) (hs : s.selectQueue = some s') :
    s'.clients = withResponse s s.clients task := by
  have hcall := delivery_eq_setCall (J := (.empty : Journal Unit)) hinv hshape hpoll
  have hset := setOn_delivery (J := (.empty : Journal Unit)) hinv hshape hs
  obtain ⟨c, b, -, rfl⟩ := hshape.response task
    ((BoundedQueue.poll_eq_some_iff.mp hpoll).2 ▸ List.mem_cons_self)
  unfold setCall at hcall
  unfold withResponse
  cases hdelivery : Journal.delivery (.empty : Journal Unit) s with
  | none =>
    rw [hdelivery] at hset hcall
    cases hj : connectedClient s ⟨c, none, some b⟩ with
    | none => exact hset
    | some j =>
      rw [hj] at hcall
      cases hcall
  | some d =>
    rw [hdelivery] at hset hcall
    obtain ⟨task, responseQueue', b', client, hpoll', hb', -, -, hclient, -, hclients⟩ := hset
    obtain ⟨rfl, -⟩ := Prod.mk.inj (Option.some.inj (hpoll.symm.trans hpoll'))
    obtain rfl := Option.some.inj hb'
    cases hj : connectedClient s ⟨c, none, some b⟩ with
    | none =>
      rw [hj] at hcall
      cases hcall
    | some j =>
      rw [hj] at hcall
      obtain rfl : d.connection = j := congrArg Prod.snd (Option.some.inj hcall)
      rw [hclients]
      show _ = s.clients.modify d.connection _
      rw [List.modify_eq_set_getElem?, hclient]
      rfl

theorem setCall_eq_none (h : connectedClient x.1 task = none) : setCall x task = none := by
  unfold setCall
  rw [h]
  rfl

/-- A call that ends with the task of an unknown client has emptied the queue iff it was the last. -/
theorem emptied_last_iff (hitems : x.1.responseQueue.items = task :: y.1.responseQueue.items)
    (hnone : connectedClient x.1 task = none) (hcalls : setCalls y.2 = setCalls x.2)
    (hclients : y.1.clients = x.1.clients) (hclosed : ∀ b ∈ task.close, b ∈ y.1.pooledBuffers) :
    Emptied x y ↔ y.1.responseQueue.items = [] := by
  refine ⟨Emptied.empty, fun hempty => ?_⟩
  rw [hempty] at hitems
  refine ⟨hempty, ?_, ?_, ?_⟩
  · rw [hcalls, hitems, List.filterMap_cons_none (setCall_eq_none hnone)]
    simp
  · rw [hclients, hitems]
    exact (withResponse_eq_self hnone).symm
  · rw [hitems]
    intro task' htask _
    obtain rfl := List.mem_singleton.mp htask
    exact hclosed

/-- A round that has set the response of its task leaves the rest to the rounds after it. -/
theorem emptied_next_iff {x₁ : Broker × Journal ε} {call : ℕ × ℕ}
    (hitems : x.1.responseQueue.items = task :: x₁.1.responseQueue.items)
    (hset : setCall x task = some call) (hcalls : setCalls x₁.2 = setCalls x.2 ++ [call])
    (hclients : x₁.1.clients = withResponse x.1 x.1.clients task)
    (hclient : connectedClient x₁.1 = connectedClient x.1) (hjob : x₁.2.job = x.2.job) :
    Emptied x y ↔ Emptied x₁ y := by
  have hcall : setCall x₁ = setCall x := by
    funext task
    unfold setCall
    rw [hclient, hjob]
  have hfilter : x.1.responseQueue.items.filterMap (setCall x) =
      call :: x₁.1.responseQueue.items.filterMap (setCall x₁) := by
    rw [hitems, List.filterMap_cons_some hset, hcall]
  have happend : setCalls x.2 ++ x.1.responseQueue.items.filterMap (setCall x) =
      setCalls x₁.2 ++ x₁.1.responseQueue.items.filterMap (setCall x₁) := by
    rw [hfilter, hcalls, List.append_assoc]
    rfl
  have hfold : x.1.responseQueue.items.foldl (withResponse x.1) x.1.clients =
      x₁.1.responseQueue.items.foldl (withResponse x₁.1) x₁.1.clients := by
    rw [hitems, List.foldl_cons, ← hclients, withResponse_congr hclient]
  constructor
  · rintro ⟨h1, h2, h3, h4⟩
    refine ⟨h1, h2.trans happend, h3.trans hfold, fun task' htask hnone => ?_⟩
    exact h4 task' (hitems ▸ List.mem_cons_of_mem _ htask) (hclient ▸ hnone)
  · rintro ⟨h1, h2, h3, h4⟩
    refine ⟨h1, h2.trans happend.symm, h3.trans hfold.symm, fun task' htask hnone => ?_⟩
    rw [hitems] at htask
    rcases List.mem_cons.mp htask with rfl | htask
    · rw [setCall_eq_none hnone] at hset
      cases hset
    · exact h4 task' htask (hclient ▸ hnone)

/-- **One call of `selectQueue`** empties the queue, sets the responses of the connected clients and
closes the other tasks iff no task before the last one is of an unknown client. -/
theorem selectQueue_call_iff (h : Run (Logged config stream) x ls y) (hls : ∀ l ∈ ls, InCall l)
    (hinv : Inv x.1 0) (hshape : Shaped x.1) (hx : x.1.reactor = .queue)
    (hy : y.1.reactor ≠ .queue) :
    Emptied x y ↔
      ∀ task ∈ x.1.responseQueue.items.dropLast, (connectedClient x.1 task).isSome := by
  induction h with
  | nil x => exact absurd hx hy
  | @cons x x₁ y l ls hstep hrest ih =>
    have hls₁ : ∀ l ∈ ls, InCall l := fun l hl => hls l (List.mem_cons_of_mem _ hl)
    have hinv₁ := hinv.step hstep.1
    have hshape₁ := hshape.step hinv hstep.1
    by_cases hqueue : l = .selectQueue
    · subst hqueue
      obtain ⟨⟨-, hs⟩, hJ⟩ := hstep
      rcases selectQueue_cases hinv hshape hs with ⟨hitems, heq⟩ | ⟨c, b, responseQueue, hpoll,
        rfl, -, -, hconn, hhandles, -, hround⟩
      · -- the queue is empty
        obtain ⟨h1, -, h3, h4⟩ := aside_of_run hrest hls₁ (by rw [heq]; simp)
        have hdeliveries : x₁.2.deliveries = x.2.deliveries := by
          rw [hJ]
          show x.2.deliveries ++ (x.2.delivery x.1).toList = _
          unfold Journal.delivery
          rw [BoundedQueue.poll_eq_none_iff.mpr hitems]
          exact List.append_nil _
        refine iff_of_true ⟨?_, ?_, ?_, ?_⟩ ?_
        · rw [h1, heq]
          exact hitems
        · unfold setCalls
          rw [h4, hdeliveries, hitems]
          simp
        · rw [h3, heq, hitems]
          rfl
        all_goals simp [hitems]
      · have hitems := (BoundedQueue.poll_eq_some_iff.mp hpoll).2
        have hcalls : setCalls x₁.2 = setCalls x.2 ++ (setCall x ⟨c, none, some b⟩).toList :=
          hJ ▸ setCalls_record hinv hshape hpoll
        have hclients := clients_selectQueue hinv hshape hpoll hs
        rcases hround with ⟨hnone, hselect, hb⟩ | ⟨hsome, heq⟩
        · -- the task of an unknown client ends the call
          obtain ⟨h1, h2, h3, h4⟩ := aside_of_run hrest hls₁ (by rw [hselect]; simp)
          have hlast : setCalls y.2 = setCalls x.2 := by
            rw [setCall_eq_none hnone, Option.toList_none, List.append_nil] at hcalls
            rw [← hcalls]
            unfold setCalls
            rw [h4]
          rw [withResponse_eq_self hnone, ← h3] at hclients
          rw [← h1] at hitems
          rw [emptied_last_iff hitems hnone hlast hclients
            (fun b' hb' => h2 ▸ List.mem_singleton.mp hb' ▸ hb), hitems]
          cases hq : y.1.responseQueue.items with
          | nil => simp
          | cons task rest => simp [hnone]
        · -- the response is set, and the call goes on
          obtain ⟨j, hj⟩ := Option.isSome_iff_exists.mp hsome
          have hset : setCall x ⟨c, none, some b⟩ = some (x.2.job b, j) := by
            unfold setCall
            rw [hj]
            rfl
          rw [hset] at hcalls
          have hclient := connectedClient_congr hhandles hconn
          have hjob : x₁.2.job = x.2.job := by rw [hJ]; rfl
          rw [emptied_next_iff hitems hset hcalls hclients hclient hjob,
            ih hls₁ hinv₁ hshape₁ (heq.trans hx) hy, hclient, hitems]
          cases hq : x₁.1.responseQueue.items with
          | nil => simp
          | cons task rest => simp [hsome]
    · have haside := aside_of_step (hls l List.mem_cons_self) hqueue hstep
      have hclient : connectedClient x₁.1 = connectedClient x.1 :=
        connectedClient_congr (by unfold handles; rw [haside.clients]) haside.connectedClients
      rw [← haside.emptied_iff, ih hls₁ hinv₁ hshape₁ (haside.reactor.trans hx) hy,
        haside.responseQueue, hclient]

end Call

/-- **Responses are left behind in one way only.** In the states of a run no response is stranded
iff no round of `selectQueue` abandons one; and a call of `selectQueue` during which no worker
enqueues does all that it is to do iff no task before the last one is of an unknown client. -/
theorem no_stranded_response_iff (h : Run (Step config stream) (init config) ls s) :
    (Throughout (Step config stream) NoneStranded (init config) ls ↔
      Run (Restrict (Step config stream) fun s l => ¬ Abandons s l) (init config) ls s) ∧
    ∀ (J : Journal ε) calls y, s.reactor = .queue → Run (Logged config stream) (s, J) calls y →
      (∀ l ∈ calls, InCall l) → y.1.reactor ≠ .queue →
        (Emptied (s, J) y ↔
          ∀ task ∈ s.responseQueue.items.dropLast, (connectedClient s task).isSome) := by
  obtain ⟨hinv, hshape⟩ := inv_shaped_of_reaches ⟨_, ls, rfl, h⟩
  refine ⟨noneStranded_iff h, fun J calls y hqueue hrun hcalls hy => ?_⟩
  exact selectQueue_call_iff hrun hcalls hinv hshape hqueue hy

/-- A round in which all responses are for connected clients abandons none. -/
theorem not_abandons (h : l.reactor = some .queue →
    ∀ task ∈ s.responseQueue.items, (connectedClient s task).isSome) : ¬ Abandons s l := by
  cases l with
  | selectQueue =>
    rintro ⟨-, task, responseQueue, hpoll, hnone, -⟩
    have hsome := h rfl task ((BoundedQueue.poll_eq_some_iff.mp hpoll).2 ▸ List.mem_cons_self)
    rw [hnone] at hsome
    cases hsome
  | _ => exact id

/-- Queues of two tasks. -/
def twoSlots : BrokerConfiguration :=
  { smallConfiguration with requestQueueSize := 2, responseQueueSize := 2 }

/-- Two clients send a request each, and the worker answers both. -/
def twoAnswers : List (Label Empty) :=
  let request := some (frame (requestPayload.enc (.registration ⟨some "c"⟩)))
  let answered : List (Label Empty) := [.take 0, .decode 0, .answer 0 (.ok (.sendMessage {})),
    .post 0, .wake 0]
  [.select, .accept, .accept, .keysDone, .selectQueue, .select, .read 0 request, .read 1 request,
    .keysDone, .selectQueue] ++ answered ++ answered

/-- The next call of `selectQueue` sets both responses, and no response is stranded. -/
theorem no_stranded_response_twoAnswers :
    ∃ s J y, Run (Step twoSlots nullStream) (init twoSlots) (twoAnswers ++ [.select, .keysDone]) s ∧
      J = journal twoSlots nullStream (init twoSlots) (twoAnswers ++ [.select, .keysDone]) .empty ∧
      s.responseQueue.items.length = 2 ∧
      Run (Logged twoSlots nullStream) (s, J) [.selectQueue, .selectQueue, .selectQueue] y ∧
      Emptied (s, J) y ∧
      Throughout (Step twoSlots nullStream) NoneStranded (init twoSlots)
        (twoAnswers ++ [.select, .keysDone] ++ [.selectQueue, .selectQueue, .selectQueue]) := by
  have hrun : (followIf (next twoSlots nullStream) (fun s l => (∀ r ∈ l.reactor, s.reactor = r) ∧
        (l.reactor = some .queue → ∀ task ∈ s.responseQueue.items,
          (connectedClient s task).isSome)) (init twoSlots)
        (twoAnswers ++ [.select, .keysDone])).any (fun s =>
      s.reactor = .queue ∧ s.responseQueue.items.length = 2 ∧
        (∀ task ∈ s.responseQueue.items.dropLast, (connectedClient s task).isSome) ∧
        (followIf (next twoSlots nullStream) (fun s l => (∀ r ∈ l.reactor, s.reactor = r) ∧
            (l.reactor = some .queue → ∀ task ∈ s.responseQueue.items,
              (connectedClient s task).isSome)) s
            [.selectQueue, .selectQueue, .selectQueue]).any fun s' =>
          s'.reactor ≠ .queue) = true := by decide +kernel
  simp only [Option.any_eq_true, decide_eq_true_eq] at hrun
  obtain ⟨s, hs, hqueue, htwo, hconnected, s', hs', hdone⟩ := hrun
  have hbefore := run_of_followIf_next (fun s l => not_abandons (s := s) (l := l)) hs
  have hcall := run_of_followIf_next (fun s l => not_abandons (s := s) (l := l)) hs'
  have hlogged := run_logged hcall.of_restrict
    (journal twoSlots nullStream (init twoSlots) (twoAnswers ++ [.select, .keysDone]) .empty)
  have hin : ∀ l ∈ ([.selectQueue, .selectQueue, .selectQueue] : List (Label Empty)),
      InCall l := by simp [InCall]
  refine ⟨s, _, _, hbefore.of_restrict, rfl, htwo, hlogged, ?_, ?_⟩
  · exact ((no_stranded_response_iff hbefore.of_restrict).2 _ _ _ hqueue hlogged hin
      hdone).mpr hconnected
  · have hall := hbefore.append hcall
    exact (no_stranded_response_iff hall.of_restrict).1.mpr hall

/-- Both are answered, then the first client disconnects. -/
def disconnects : List (Label Empty) :=
  twoAnswers ++ [.select, .fails 0, .keysDone, .selectQueue]

/-- The reactor waits while the second response is in the queue. -/
theorem not_noneStranded_disconnects :
    ¬ ∀ s, Reaches twoSlots nullStream s → NoneStranded s := by
  intro h
  have hrun : (follow twoSlots nullStream (init twoSlots) disconnects).any (fun s =>
      s.reactor = .select ∧ s.wakeup = false ∧ s.workers = [.idle] ∧
        s.responseQueue.items ≠ []) = true := by decide +kernel
  simp only [Option.any_eq_true, decide_eq_true_eq] at hrun
  obtain ⟨s, hs, hselect, hwakeup, hworkers, hitems⟩ := hrun
  refine hitems (h s ⟨_, disconnects, rfl, follow_eq_some_iff.mp hs⟩ hselect ?_)
  rintro (hpending | ⟨w, dropped, hw⟩)
  · rw [hwakeup] at hpending
    cases hpending
  · rw [hworkers] at hw
    cases List.mem_singleton.mp (List.mem_of_getElem? hw)

end Mlmq.Server.Drain
