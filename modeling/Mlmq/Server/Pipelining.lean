import Mlmq.Server.Routing
import Mlmq.Server.Traffic

/-! # Several requests on one connection

A peer may send its next request before it has got the response to the last one. What it sends is
received into one buffer, which is exchanged as a whole, and a response replaces whatever is in the
send buffer. So the requests become tasks one by one, and the responses come back whole, while each
read brings one frame for which the request queue has room and a response finds the previous one
written (`Undisturbed`): `pipelined_of_run`. -/

namespace Mlmq.Server.Pipelining

open Mlmq.Lib.Nio Mlmq.Lib.Transition Mlmq.Net.Responses Mlmq.Net.Factory Mlmq.Net.RoundTrip
open Mlmq.Server.Connection Mlmq.Server.Worker Mlmq.Server.System Mlmq.Server.Ownership
open Mlmq.Server.Contents Mlmq.Server.Flight Mlmq.Server.Handles Mlmq.Server.Motion
open Mlmq.Server.Routing Mlmq.Server.Views Mlmq.Server.Traffic
open Mlmq.Server.Reassembly (Holds holds_clear)
open Mlmq.Lib.Queue (BoundedQueue)
open Mlmq.Util.ByteBufferUtil (ObjectStream)

variable {ε : Type} {s s' : Broker} {i w : ℕ} {client : Client} {config : BrokerConfiguration}
  {stream : ObjectStream ε} {l : Label ε} {ls : List (Label ε)} {T : Ledger}

/-! ### The property -/

/-- The connection has not been closed. -/
def Open (s : Broker) (i : ℕ) : Prop :=
  ∀ client, s.clients[i]? = some client → client.selectionKey.isValid = true

/-- The frame of a response. -/
def IsResponseFrame (stream : ObjectStream ε) (bytes : List UInt8) : Prop :=
  ∃ response payload, responseBytes stream response = some payload ∧ bytes = frame payload

/-- What has been received are frames. -/
def Frames (received : List UInt8) (tasks : List (List UInt8)) : Prop :=
  ∃ payloads : List (List UInt8), (∀ payload ∈ payloads, payload.length < 2 ^ 31) ∧
    received = payloads.flatMap frame ∧ tasks = payloads.map frame

/-- **One task for each frame, and whole responses**: the frames that have been received have become
tasks in their order, and the bytes that have been written are those of the accepted responses, up
to a point, and all of them once nothing is left to be written. -/
structure Pipelined (stream : ObjectStream ε) (s : Broker) (i : ℕ) (T : Ledger) : Prop where
  tasks : Frames T.received T.tasks
  frames : ∀ bytes ∈ T.accepted, IsResponseFrame stream bytes
  written : T.written <+: T.accepted.flatten
  complete : Open s i → unsent s i = [] → T.written = T.accepted.flatten

/-- A step that does not disturb the pipelining on a connection: a read brings one frame, for which
the request queue has room, and a response finds the previous one written. -/
def Undisturbed (i : ℕ) (s : Broker) : Label ε → Prop
  | .read j chunk => j = i → ∀ bytes ∈ chunk, s.requestQueue.HasRoom ∧
      ∃ payload : List UInt8, payload.length < 2 ^ 31 ∧ bytes = frame payload
  | .selectQueue => ∀ task responseQueue client, s.responseQueue.poll = some (task, responseQueue) →
      task.clientContext = i → s.clients[i]? = some client → client.selectionKey.opWrite = false
  | _ => True

/-- **The invariant.** -/
structure Flows (stream : ObjectStream ε) (s : Broker) (i : ℕ) (T : Ledger) : Prop where
  tasks : Frames T.received T.tasks
  frames : ∀ bytes ∈ T.accepted, IsResponseFrame stream bytes
  written : T.written <+: T.accepted.flatten
  balance : Open s i → T.written ++ unsent s i = T.accepted.flatten
  receiving : ∀ client, s.clients[i]? = some client → client.selectionKey.isValid = true →
    ∃ rxBuffer, s.heap[client.rxBuffer]? = some rxBuffer ∧ Holds rxBuffer []

theorem Flows.pipelined (h : Flows stream s i T) : Pipelined stream s i T where
  tasks := h.tasks
  frames := h.frames
  written := h.written
  complete hopen hunsent := by
    have hbalance := h.balance hopen
    rwa [hunsent, List.append_nil] at hbalance

/-! ### Steps -/

/-- The connection is closed. -/
theorem Flows.close (h : Flows stream s i T) (hclosed : ¬ Open s' i) : Flows stream s' i T where
  tasks := h.tasks
  frames := h.frames
  written := h.written
  balance hopen := absurd hopen hclosed
  receiving client hi hvalid := by
    refine absurd (fun client' hi' => ?_) hclosed
    obtain rfl := Option.some.inj (hi.symm.trans hi')
    exact hvalid

theorem not_open_disconnectCLient (hi : s.clients[i]? = some client) :
    ¬ Open (s.disconnectCLient i) i := by
  intro hopen
  unfold Broker.disconnectCLient at hopen
  simp only [hi] at hopen
  have hclosed := hopen _ (List.getElem?_set_self (List.getElem?_eq_some_iff.mp hi).1)
  cases hclosed

theorem unsent_of_client (hi : s.clients[i]? = some client) :
    unsent s i = sending s.heap client ++ queued s i := by
  unfold unsent
  rw [hi]
  rfl

theorem unsent_of_none (hi : s.clients[i]? = none) : unsent s i = queued s i := by
  unfold unsent
  rw [hi]
  rfl

theorem open_of_valid (hi : s.clients[i]? = some client)
    (hvalid : client.selectionKey.isValid = true) : Open s i := by
  intro client' hi'
  obtain rfl := Option.some.inj (hi.symm.trans hi')
  exact hvalid

theorem mem_clientSlots_tx (hvalid : client.selectionKey.isValid = true) {b : ℕ}
    (hb : b ∈ client.txBuffer) : b ∈ clientSlots client := by
  rw [clientSlots_of_valid hvalid]
  exact Multiset.mem_add.mpr (Or.inr (Multiset.mem_coe.mpr (Option.mem_toList.mpr hb)))

theorem mem_clientSlots_rx (hvalid : client.selectionKey.isValid = true) :
    client.rxBuffer ∈ clientSlots client := by
  rw [clientSlots_of_valid hvalid]
  exact Multiset.mem_add.mpr (Or.inl (Multiset.mem_singleton_self _))

/-- The connection stays as it is, and so do its responses that wait. -/
theorem Flows.keep (h : Flows stream s i T) (hkept : Kept s s' i)
    (hqueued : queued s' i = queued s i) : Flows stream s' i T where
  tasks := h.tasks
  frames := h.frames
  written := h.written
  balance hopen := by
    have hopen₀ : Open s i := fun client hi => hopen client (hkept.clients.trans hi)
    have hunsent : unsent s' i = unsent s i := by
      cases hi : s.clients[i]? with
      | none => rw [unsent_of_none hi, unsent_of_none (hkept.clients.trans hi), hqueued]
      | some client =>
        have hvalid := hopen₀ client hi
        rw [unsent_of_client hi, unsent_of_client (hkept.clients.trans hi), hqueued,
          sending_congr fun b hb => hkept.heap client hi b (mem_clientSlots_tx hvalid hb)]
    rw [hunsent]
    exact h.balance hopen₀
  receiving client hi' hvalid := by
    have hi : s.clients[i]? = some client := hkept.clients.symm.trans hi'
    rw [hkept.heap client hi _ (mem_clientSlots_rx hvalid)]
    exact h.receiving client hi hvalid

/-- A connection that has just been accepted waits for its first request. -/
theorem client_selectAccept (h : Inv s 0) (hi : s.clients[i]? = none)
    (hc : (s.selectAccept config).clients[i]? = some client) :
    client.selectionKey = ⟨true, false⟩ ∧ ∃ rxBuffer : ByteBuffer,
      (s.selectAccept config).heap[client.rxBuffer]? = some rxBuffer.clear := by
  unfold Broker.selectAccept at hc ⊢
  set s₀ : Broker := { s with
    clientCounter := s.clientCounter + 1
    connectedClients :=
      Function.update s.connectedClients (s.clientCounter + 1) (some s.clients.length) }
  dsimp only at hc ⊢
  rw [clients_aquire, clients_aquire] at hc
  have hge : s.clients.length ≤ i := List.getElem?_eq_none_iff.mp hi
  rw [List.getElem?_append_right hge] at hc
  obtain rfl := List.mem_singleton.mp (List.mem_of_getElem? hc)
  refine ⟨rfl, ?_⟩
  obtain ⟨rxBuffer, hrx⟩ := heap_aquired (s := s₀) config h.exclusive
  have hexclusive : Lib.Slots.Exclusive (held (s₀.aquire config).2 + (0 + {(s₀.aquire config).1}))
      (s₀.aquire config).2.heap.length := exclusive_aquire h.exclusive
  rw [zero_add] at hexclusive
  have hlt := hexclusive.lt _ (Multiset.mem_add.mpr (Or.inr (Multiset.mem_singleton_self _)))
  have hpool : (s₀.aquire config).1 ∉ (s₀.aquire config).2.pooledBuffers := by
    intro hmem
    have hheld : (s₀.aquire config).1 ∈ held (s₀.aquire config).2 := by
      unfold held
      simp only [Multiset.mem_add, Multiset.mem_coe]
      exact Or.inl (Or.inl (Or.inl (Or.inl hmem)))
    exact Multiset.disjoint_right.mp (Multiset.nodup_add.mp hexclusive.nodup).2.2
      (Multiset.mem_singleton_self _) hheld
  exact ⟨rxBuffer, (heap_aquire hlt hpool).trans hrx⟩

/-- The connection is the one that has just been accepted, or it has not been accepted yet. -/
theorem Flows.accept (h : Flows stream s i T) (hinv : Inv s 0) (hi : s.clients[i]? = none)
    (hqueued : queued (s.selectAccept config) i = queued s i) :
    Flows stream (s.selectAccept config) i T := by
  have hbalance : T.written ++ queued s i = T.accepted.flatten := by
    rw [← unsent_of_none hi]
    refine h.balance fun client hc => ?_
    rw [hi] at hc
    cases hc
  refine ⟨h.tasks, h.frames, h.written, fun _ => ?_, fun client hc _ => ?_⟩
  · cases hc : (s.selectAccept config).clients[i]? with
    | none => rw [unsent_of_none hc, hqueued, hbalance]
    | some client =>
      have hsending : sending (s.selectAccept config).heap client = [] := by
        unfold sending
        rw [(client_selectAccept hinv hi hc).1]
        rfl
      rw [unsent_of_client hc, hsending, hqueued]
      exact hbalance
  · obtain ⟨-, rxBuffer, hrx⟩ := client_selectAccept hinv hi hc
    exact ⟨_, hrx, holds_clear rxBuffer⟩

/-- **A read brings one frame**, which becomes a task. -/
theorem Flows.read {payload : List UInt8} (h : Flows stream s i T) (hinv : Inv s 0)
    (hshape : Shaped s) (hroom : s.requestQueue.HasRoom) (hlen : payload.length < 2 ^ 31)
    (hs : Step config stream s (.read i (some (frame payload))) s') :
    Flows stream s' i (T.record i s s' (.read i (some (frame payload)) : Label ε)) := by
  have hread : s.selectRead config i (some (frame payload)) = some s' := hs.2
  obtain ⟨client, rxBuffer₀, -, hi, hvalid, hrx, -⟩ := Broker.selectRead_eq_some hread
  obtain ⟨rxBuffer, hrx', hempty⟩ := h.receiving client hi hvalid
  obtain rfl := Option.some.inj (hrx.symm.trans hrx')
  have hfit : (frame payload).length ≤ rxBuffer₀.remaining :=
    Broker.length_le_of_selectRead hread hi hrx
  have hholds : Holds (rxBuffer₀.write (frame payload)) (frame payload) := by
    refine hempty.write ?_
    rw [ByteBuffer.remaining, hempty.limit] at hfit
    simp only [List.length_nil, zero_add]
    omega
  have hcomplete : Complete (rxBuffer₀.write (frame payload)) := hholds.complete hlen
  -- the request queue has got one task more
  obtain ⟨client', hi', -, hreceives, hadd⟩ : ∃ client', s.clients[i]? = some client' ∧
      client'.selectionKey.isValid = true ∧ Receives s i (some (frame payload)) ∧
      s.requestQueue.add (WorkerTask.new i client'.rxBuffer) = some s'.requestQueue := by
    rcases requestQueue_selectRead hread with ⟨-, hnot⟩ | hadd
    · exact absurd ⟨hroom, client, rxBuffer₀, hi, hrx, hcomplete⟩ hnot
    · exact hadd
  obtain rfl := Option.some.inj (hi.symm.trans hi')
  have hmessage := heap_message hinv hi hrx hread
  have hframe : requestFrame s'.heap (WorkerTask.new i client.rxBuffer) = frame payload := by
    unfold requestFrame WorkerTask.new viewSlot
    rw [Option.bind_some, hmessage, Option.elim_some, bytes_afterTest, header, bytes_afterTest,
      ← header, Option.getD_some, hholds.header (List.prefix_refl _) (by simp) hlen]
    have hnat : (4 + (payload.length : ℤ)).toNat = (frame payload).length := by
      rw [length_frame]
      omega
    rw [hnat]
    exact (List.prefix_iff_eq_take.mp hholds.bytes).symm
  have htasks : (tasksOf i (s'.requestQueue.items.drop s.requestQueue.items.length)).map
      (requestFrame s'.heap) = [frame payload] := by
    rw [(BoundedQueue.add_eq_some_iff.mp hadd).2.2, List.drop_left]
    unfold tasksOf
    rw [List.filter_cons_of_pos (by simp [WorkerTask.new]), List.filter_nil, List.map_singleton,
      hframe]
  have hrecord : T.record i s s' (.read i (some (frame payload)) : Label ε) =
      { T with received := T.received ++ frame payload, tasks := T.tasks ++ [frame payload] } := by
    rw [Ledger.record_read, htasks]
    rfl
  -- the connection has got another receive buffer
  obtain ⟨pooledBuffer, client', rxBuffer', hi', hrx', hview⟩ :=
    selectRead_view hinv hi hrx hread
  have hfst := congrArg Prod.fst hview
  rw [Reassembly.client_of_complete hcomplete] at hfst
  unfold viewClient at hfst
  injection hfst with _ hrxBuffer htx hkey
  rw [hrecord]
  refine ⟨?_, h.frames, h.written, fun hopen => ?_, fun client'' hc _ => ?_⟩
  · obtain ⟨payloads, hlens, hreceived, htasks'⟩ := h.tasks
    refine ⟨payloads ++ [payload], ?_, ?_, ?_⟩
    · intro p hp
      rcases List.mem_append.mp hp with hp | hp
      · exact hlens p hp
      · exact List.mem_singleton.mp hp ▸ hlen
    · rw [List.flatMap_append, ← hreceived, List.flatMap_singleton]
    · rw [List.map_append, ← htasks', List.map_singleton]
  · have hsending : sending s'.heap client' = sending s.heap client := by
      unfold sending
      rw [← htx, ← hkey]
    rw [unsent_of_client hi', hsending, queued_of_step hinv hshape hs (by simp) (by simp),
      ← unsent_of_client hi]
    exact h.balance (open_of_valid hi hvalid)
  · obtain rfl := Option.some.inj (hi'.symm.trans hc)
    exact ⟨_, hrx', hrxBuffer ▸ holds_clear pooledBuffer⟩

/-- The end of the stream closes the connection. -/
theorem Flows.readEnd (h : Flows stream s i T) (hs : s.selectRead config i none = some s') :
    Flows stream s' i (T.record i s s' (.read i none : Label ε)) := by
  obtain ⟨client, rxBuffer₀, s₁, hi, hvalid, hrx, hs₁, rfl⟩ := Broker.selectRead_eq_some hs
  obtain ⟨rxBuffer, hrx', hempty⟩ := h.receiving client hi hvalid
  obtain rfl := Option.some.inj (hrx.symm.trans hrx')
  have hnot : ¬ Complete (rxBuffer₀.write []) := by
    rw [ByteBuffer.write_nil]
    rintro ⟨h4, -⟩
    rw [hempty.position, List.length_nil] at h4
    omega
  simp only [Option.getD_none, Option.isNone_none, if_true, if_neg hnot]
  have hqueue : (s₁.disconnectCLient i).requestQueue = s.requestQueue := by
    rw [requestQueue_disconnectCLient, hs₁]
  have hrecord : T.record i s (s₁.disconnectCLient i) (.read i none : Label ε) = T := by
    rw [Ledger.record_read, hqueue, List.drop_length]
    simp [tasksOf]
  rw [hrecord]
  have hi₁ : s₁.clients[i]? = some client := by
    rw [hs₁]
    exact hi
  exact h.close (not_open_disconnectCLient hi₁)

/-- **The socket takes some bytes.** -/
theorem Flows.write {byteCount : ℕ} (h : Flows stream s i T) (hinv : Inv s 0) (hshape : Shaped s)
    (hs : Step config stream s (.write i byteCount) s') :
    Flows stream s' i (T.record i s s' (.write i byteCount : Label ε)) := by
  have hwrite : s.selectWrite i byteCount = some s' := hs.2
  have hqueued := queued_of_step (i := i) hinv hshape hs (by simp) (by simp)
  obtain ⟨client, hi, hvalid, hcases⟩ := Broker.selectWrite_eq_some hwrite
  have hop := Broker.opWrite_of_selectWrite hwrite hi
  have hbuffer : sendBuffer s i = sending s.heap client := by
    unfold sendBuffer sending
    rw [hi, if_pos hop]
    rfl
  have hrecord : T.record i s s' (.write i byteCount : Label ε) =
      { T with written := T.written ++ (sending s.heap client).take byteCount } := by
    rw [Ledger.record_write, hbuffer]
  have hbalance := h.balance (open_of_valid hi hvalid)
  rw [unsent_of_client hi] at hbalance
  -- what has been written is the first part of what was to be written
  have hwritten : T.written ++ (sending s.heap client).take byteCount <+: T.accepted.flatten := by
    rw [← hbalance]
    refine ⟨(sending s.heap client).drop byteCount ++ queued s i, ?_⟩
    simp only [List.append_assoc]
    rw [← List.append_assoc (List.take _ _), List.take_append_drop]
  rw [hrecord]
  rcases hcases with ⟨-, rfl⟩ | ⟨tx, txBuffer, htx, hheap, hcount, rfl⟩
  · have h₁ : Flows stream (s.disconnectCLient i) i T := h.close (not_open_disconnectCLient hi)
    exact ⟨h₁.tasks, h₁.frames, hwritten, fun hopen =>
      absurd hopen (not_open_disconnectCLient hi), h₁.receiving⟩
  · have hsending : sending s.heap client = txBuffer.rest := by
      unfold sending viewSlot
      rw [if_pos hop, htx, Option.bind_some, hheap]
      rfl
    have hne : tx ≠ client.rxBuffer := by
      rintro rfl
      exact rxBuffer_notMem hinv hi hvalid htx
    have htxlt := (List.getElem?_eq_some_iff.mp hheap).1
    set s₁ : Broker := { s with heap := s.heap.set tx (txBuffer.skip byteCount) }
    obtain ⟨hheap', client', hi', hrx, hsending'⟩ :=
      client_afterWrite (s := s₁) hi hop htx (List.getElem?_set_self htxlt)
    rw [ByteBuffer.rest_skip] at hsending'
    refine ⟨h.tasks, h.frames, hwritten, fun _ => ?_, fun client'' hc _ => ?_⟩
    · rw [unsent_of_client hi', hqueued, hheap', hsending', ← hbalance, hsending]
      dsimp only
      rw [List.append_assoc, ← List.append_assoc (List.take _ _), List.take_append_drop]
    · obtain rfl := Option.some.inj (hi'.symm.trans hc)
      obtain ⟨rxBuffer, hrx', hempty⟩ := h.receiving client hi hvalid
      refine ⟨rxBuffer, ?_, hempty⟩
      rw [hheap', hrx]
      exact (List.getElem?_set_ne hne).trans hrx'

/-- The responses that wait are frames of responses. -/
theorem isResponseFrame_of_routed {J : Journal ε} {task : Task} (h : Routed stream s J)
    (hshape : Shaped s) (ht : task ∈ s.responseQueue.items) :
    IsResponseFrame stream (responseFrame s.heap task) := by
  obtain ⟨c, b, -, rfl⟩ := hshape.response task ht
  obtain ⟨swap, response, -, -, -, hb, hanswers⟩ := h.knows _ (mem_flights_of_response ht rfl)
  obtain ⟨-, processed, raw, -, -, -, -, -, hrespond⟩ := hanswers
  obtain ⟨payload, hpayload, hbytes, hposition⟩ := holds_frame hrespond
  refine ⟨_, payload, hpayload, ?_⟩
  unfold responseFrame viewSlot
  rw [Option.bind_some, show s.heap[b]? = some response from hb, Option.elim_some, hposition]
  exact (List.prefix_iff_eq_take.mp hbytes).symm

/-- **A worker posts its task**, which may be one of the connection. -/
theorem Flows.post {J : Journal ε} (h : Flows stream s i T) (hinv : Inv s 0)
    (hrouted : Routed stream s' J) (hshape' : Shaped s')
    (hs : Step config stream s (.post w) s') :
    Flows stream s' i (T.record i s s' (.post w : Label ε)) := by
  set bytes := (tasksOf i (s'.responseQueue.items.drop s.responseQueue.items.length)).map
    (responseFrame s'.heap) with hbytes
  have hrecord : T.record i s s' (.post w : Label ε) =
      { T with accepted := T.accepted ++ bytes } := rfl
  have hkept : Kept s s' i :=
    kept_of_step hinv hs (by simp) (by simp) (by simp) (by simp) (by simp)
  have hqueued : queued s' i = queued s i ++ bytes.flatten := queued_post hs.2
  have hunsent : Open s i → unsent s' i = unsent s i ++ bytes.flatten := by
    intro hopen
    cases hi : s.clients[i]? with
    | none => rw [unsent_of_none hi, unsent_of_none (hkept.clients.trans hi), hqueued]
    | some client =>
      rw [unsent_of_client hi, unsent_of_client (hkept.clients.trans hi), hqueued,
        sending_congr fun b hb => hkept.heap client hi b (mem_clientSlots_tx (hopen client hi) hb),
        List.append_assoc]
  rw [hrecord]
  refine ⟨h.tasks, ?_, ?_, fun hopen' => ?_, fun client hi' hvalid => ?_⟩
  · intro frame hframe
    rcases List.mem_append.mp hframe with hframe | hframe
    · exact h.frames frame hframe
    · obtain ⟨task, ht, rfl⟩ := List.mem_map.mp hframe
      exact isResponseFrame_of_routed hrouted hshape'
        (List.mem_of_mem_drop (List.mem_of_mem_filter ht))
  · rw [List.flatten_append]
    exact h.written.trans (List.prefix_append _ _)
  · have hopen : Open s i := fun client hi => hopen' client (hkept.clients.trans hi)
    rw [hunsent hopen, ← List.append_assoc, h.balance hopen, List.flatten_append]
  · have hi := hkept.clients.symm.trans hi'
    rw [hkept.heap client hi _ (mem_clientSlots_rx hvalid)]
    exact h.receiving client hi hvalid

/-- A round takes the response of the first task from those that wait. -/
theorem queued_selectQueue (hinv : Inv s 0) (hshape : Shaped s) {task : Task}
    {responseQueue : BoundedQueue Task} (hpoll : s.responseQueue.poll = some (task, responseQueue))
    (hs : s.selectQueue = some s') :
    queued s i = (if task.clientContext = i then responseFrame s.heap task else []) ++
      queued s' i := by
  -- the other responses wait on
  have hresp : s'.responseQueue = responseQueue := by
    obtain ⟨-, -, ⟨hnone, -⟩ | ⟨task', hpoll'⟩⟩ := queues_selectQueue hinv.connected hs
    · rw [hpoll] at hnone
      cases hnone
    · exact (Prod.mk.inj (Option.some.inj (hpoll'.symm.trans hpoll))).2
  have hrest : (tasksOf i responseQueue.items).flatMap (responseFrame s.heap) = queued s' i := by
    unfold queued
    rw [hresp]
    refine List.flatMap_congr fun task ht => (responseFrame_congr fun b' hb' => ?_).symm
    obtain ⟨hnone, -⟩ | ⟨-, -, -, -, -, hquiet⟩ := flights_selectQueue hinv hshape hs
    · rw [hpoll] at hnone
      cases hnone
    · exact hquiet.heap _
        (mem_flights_of_response (hresp ▸ List.mem_of_mem_filter ht) hb')
  rw [queued_poll hpoll, hrest]

/-- The first response that waits is the one being sent from now on: nothing else is. -/
theorem Flows.setResponse {b : ℕ} {raw : ByteBuffer} (h : Flows stream s i T)
    (hi : s.clients[i]? = some client) (hvalid : client.selectionKey.isValid = true)
    (hop : client.selectionKey.opWrite = false) (hraw : s.heap[b]? = some raw)
    (hne : b ≠ client.rxBuffer)
    (hclients : s'.clients = s.clients.set i
      { client with txBuffer := some b, selectionKey := ⟨true, true⟩ })
    (hheap : s'.heap = s.heap.modify b ByteBuffer.flip)
    (hqueued : queued s i = raw.flip.rest ++ queued s' i) : Flows stream s' i T := by
  have hclient : s'.clients[i]? =
      some { client with txBuffer := some b, selectionKey := ⟨true, true⟩ } := by
    rw [hclients]
    exact List.getElem?_set_self (List.getElem?_eq_some_iff.mp hi).1
  have hsending : sending s.heap client = [] := by
    unfold sending
    rw [hop]
    rfl
  have hflip : s'.heap[b]? = some raw.flip := by
    rw [hheap, List.getElem?_modify_eq, hraw]
    rfl
  refine ⟨h.tasks, h.frames, h.written, fun _ => ?_, fun client' hc' _ => ?_⟩
  · have hbalance := h.balance (open_of_valid hi hvalid)
    rw [unsent_of_client hi, hsending, List.nil_append, hqueued] at hbalance
    rw [unsent_of_client hclient, ← hbalance]
    congr 2
    unfold sending viewSlot
    rw [if_pos rfl, Option.bind_some]
    exact congrArg (Option.elim · [] ByteBuffer.rest) hflip
  · obtain rfl := Option.some.inj (hclient.symm.trans hc')
    obtain ⟨rxBuffer, hrx, hempty⟩ := h.receiving client hi hvalid
    refine ⟨rxBuffer, ?_, hempty⟩
    rw [hheap]
    exact (List.getElem?_modify_ne _ _ hne).trans hrx

/-- **A round of `selectQueue`** disposes of the task of another connection, or sets the response of
this one when the previous one has been written. -/
theorem Flows.selectQueue (h : Flows stream s i T) (hinv : Inv s 0) (hshape : Shaped s)
    (hreg : Registered s) (hlen : s.clients.length < 2 ^ 32)
    (hok : Undisturbed i s (.selectQueue : Label ε)) (hs : s.selectQueue = some s') :
    Flows stream s' i T := by
  obtain ⟨-, rfl⟩ | ⟨task, responseQueue, client, hpoll, hc, hround⟩ :=
    Broker.selectQueue_eq_some hs
  · exact h.keep ⟨rfl, fun _ _ _ _ => rfl⟩ rfl
  have hitems := (BoundedQueue.poll_eq_some_iff.mp hpoll).2
  obtain ⟨c, b, -, rfl⟩ := hshape.response task (hitems ▸ List.mem_cons_self)
  have hb : (⟨.responded, c, b⟩ : Motion.Flight) ∈ flights s :=
    mem_flights_of_response (hitems ▸ List.mem_cons_self) rfl
  have hqueued : queued s i = _ := queued_selectQueue hinv hshape hpoll hs
  rcases hround with ⟨hnone, rfl⟩ | ⟨j, s₁, completed, hj, hset, rfl⟩
  · have hclosed := hreg.isValid_eq_false hlen hc hnone
    by_cases hci : c = i
    · subst hci
      refine h.close fun hopen => ?_
      rw [hopen client hc] at hclosed
      cases hclosed
    · rw [if_neg hci] at hqueued
      exact h.keep ⟨rfl, fun _ _ _ _ => rfl⟩ hqueued.symm
  · obtain rfl : j = c := hreg.eq_of_lookup hinv.connected hlen hc hj
    obtain ⟨client', hc', hvalid, -⟩ := hinv.connected _ _ hj
    obtain rfl := Option.some.inj (hc.symm.trans hc')
    obtain ⟨hnone, -⟩ | ⟨b', hb', rfl, rfl⟩ :=
      Broker.setResponse_eq_some (s := { s with responseQueue }) hc hvalid hset
    · cases hnone
    obtain rfl := Option.some.inj hb'
    by_cases hci : j = i
    · subst hci
      obtain ⟨raw, hraw⟩ : ∃ raw, s.heap[b]? = some raw :=
        ⟨_, List.getElem?_eq_getElem (lt_of_flight hinv hb)⟩
      have hframe : responseFrame s.heap (⟨j, none, some b⟩ : Task) = raw.flip.rest := by
        unfold responseFrame viewSlot
        rw [Option.bind_some, hraw]
        rfl
      rw [if_pos rfl, hframe] at hqueued
      exact h.setResponse hc hvalid (hok _ _ client hpoll rfl hc) hraw
        (ne_flight hinv hc (mem_clientSlots_rx hvalid) hb) rfl rfl hqueued
    · rw [if_neg hci] at hqueued
      refine h.keep ⟨List.getElem?_set_ne hci, fun other hi b' hb' => ?_⟩ hqueued.symm
      exact List.getElem?_modify_ne _ _ (ne_flight hinv hi hb' hb)

/-- A read on another connection leaves no entry. -/
theorem record_read_of_ne {j : ℕ} {chunk : Option (List UInt8)} (hne : j ≠ i)
    (hs : s.selectRead config j chunk = some s') :
    T.record i s s' (.read j chunk : Label ε) = T := by
  have htasks : tasksOf i (s'.requestQueue.items.drop s.requestQueue.items.length) = [] := by
    rcases requestQueue_selectRead hs with ⟨hreq, -⟩ | ⟨client, -, -, -, hadd⟩
    · rw [hreq, List.drop_length]
      rfl
    · rw [(BoundedQueue.add_eq_some_iff.mp hadd).2.2, List.drop_left]
      exact List.filter_cons_of_neg (by simp [WorkerTask.new, hne])
  unfold Ledger.record
  dsimp only
  rw [if_neg hne, htasks, List.map_nil, List.append_nil]

/-- **Every undisturbed step preserves the invariant.** -/
theorem Flows.step {J : Journal ε} (h : Flows stream s i T) (hgood : Good stream (s, J))
    (hs : Step config stream s l s') (hok : Undisturbed i s l)
    (hlen : s'.clients.length < 2 ^ 32) : Flows stream s' i (T.record i s s' l) := by
  obtain ⟨hinv, hshape, hreg, hrouted⟩ := hgood.step hs
  have hlen₀ := (length_clients_of_step hgood.inv hs).trans_lt hlen
  have hkeep : (l = .accept → i < s.clients.length) → (∀ chunk, l ≠ .read i chunk) →
      (∀ byteCount, l ≠ .write i byteCount) → l ≠ .fails i → (∀ w, l ≠ .post w) →
      l ≠ .selectQueue → Flows stream s' i T := fun haccept hread hwrite hfails hpost hqueue =>
    h.keep (kept_of_step hgood.inv hs haccept hread hwrite hfails hqueue)
      (queued_of_step hgood.inv hgood.shape hs hpost hqueue)
  cases l with
  | accept =>
    by_cases hi : i < s.clients.length
    · exact hkeep (fun _ => hi) (by simp) (by simp) (by simp) (by simp) (by simp)
    · have hqueued := queued_of_step (i := i) hgood.inv hgood.shape hs (by simp) (by simp)
      obtain rfl := Option.some.inj hs.2
      exact h.accept hgood.inv (List.getElem?_eq_none_iff.mpr (not_lt.mp hi)) hqueued
  | read j chunk =>
    by_cases hj : j = i
    · subst hj
      cases chunk with
      | none => exact h.readEnd hs.2
      | some bytes =>
        obtain ⟨hroom, payload, hlt, rfl⟩ := hok rfl bytes rfl
        exact h.read hgood.inv hgood.shape hroom hlt hs
    · rw [record_read_of_ne hj hs.2]
      exact hkeep (by simp) (by simp [hj]) (by simp) (by simp) (by simp) (by simp)
  | write j byteCount =>
    by_cases hj : j = i
    · subst hj
      exact h.write hgood.inv hgood.shape hs
    · rw [show T.record i s s' (.write j byteCount : Label ε) = T from if_neg hj]
      exact hkeep (by simp) (by simp) (by simp [hj]) (by simp) (by simp) (by simp)
  | fails j =>
    by_cases hj : j = i
    · subst hj
      obtain ⟨client, hi, -, rfl⟩ := Broker.selectFails_eq_some hs.2
      exact h.close (not_open_disconnectCLient hi)
    · exact hkeep (by simp) (by simp) (by simp) (by simp [hj]) (by simp) (by simp)
  | selectQueue => exact h.selectQueue hgood.inv hgood.shape hgood.registered hlen₀ hok hs.2
  | post w => exact h.post hgood.inv (hrouted hlen) hshape hs
  | _ => exact hkeep (by simp) (by simp) (by simp) (by simp) (by simp) (by simp)

theorem flows_init (config : BrokerConfiguration) (stream : ObjectStream ε) (i : ℕ) :
    Flows stream (init config) i .empty where
  tasks := ⟨[], by simp, rfl, rfl⟩
  frames bytes hbytes := absurd hbytes List.not_mem_nil
  written := List.nil_prefix
  balance _ := rfl
  receiving client hi := by cases hi

theorem flows_of_run {J : Journal ε}
    (h : Run (Restrict (Step config stream) (Undisturbed i)) s ls s') (hflows : Flows stream s i T)
    (hgood : Good stream (s, J)) (hlen : s'.clients.length < 2 ^ 32) :
    Flows stream s' i (traffic config stream i s ls T) := by
  induction h generalizing T J with
  | nil s => exact hflows
  | @cons s s₁ s' l ls hstep hrest ih =>
    have hgood₁ := hgood.step hstep.1
    have hlen₁ := (length_clients_of_run hrest.of_restrict hgood₁.inv).trans_lt hlen
    have htraffic : traffic config stream i s (l :: ls) T =
        traffic config stream i s₁ ls (T.record i s s₁ l) := by
      show (next config stream s l).elim T _ = _
      rw [hstep.1.2]
      rfl
    rw [htraffic]
    exact ih (hflows.step hgood hstep.1 hstep.2 hlen₁) hgood₁ hlen

/-- **Several requests at once are safe while nothing disturbs them**: while every read on a
connection brings one frame for which the request queue has room, and every response finds the
previous one written, each frame becomes a task, in the order of the frames, and the bytes written
are those of the accepted responses, one behind the other. -/
theorem pipelined_of_run (h : Run (Restrict (Step config stream) (Undisturbed i)) (init config) ls s)
    (hlen : s.clients.length < 2 ^ 32) :
    Pipelined stream s i (traffic config stream i (init config) ls .empty) :=
  (flows_of_run h (flows_init config stream i) (good_init config stream) hlen).pipelined

/-- A request queue of three places. -/
def roomy : BrokerConfiguration := { smallConfiguration with requestQueueSize := 3 }

/-- A client connects and sends two requests before it gets a response. Each response is written
before the next one is set. -/
def twoRequests : List (Label Empty) :=
  let request (name : String) := some (frame (requestPayload.enc (.registration ⟨some name⟩)))
  let answered (id : Int64) (name : String) : List (Label Empty) :=
    [.take 0, .decode 0, .answer 0 (.ok (.registration ⟨some ⟨id, some name⟩, true⟩)), .post 0,
      .wake 0, .select, .keysDone, .selectQueue, .selectQueue, .select, .write 0 10, .write 0 13,
      .keysDone, .selectQueue]
  [.select, .accept, .keysDone, .selectQueue, .select, .read 0 (request "a"), .read 0 (request "b"),
    .keysDone, .selectQueue] ++ answered 1 "a" ++ answered 2 "b"

/-- A step with room in the request queue, and with the response before it written. -/
theorem undisturbed (hroom : l.reactor = some .keys → s.requestQueue.HasRoom)
    (hwritten : l.reactor = some .queue → s.responseQueue.items ≠ [] →
      ∀ client ∈ s.clients[i]?, client.selectionKey.opWrite = false)
    (hframe : ∀ bytes, l = .read i (some bytes) →
      ∃ payload : List UInt8, payload.length < 2 ^ 31 ∧ bytes = frame payload) :
    Undisturbed i s l := by
  cases l with
  | read j chunk =>
    rintro rfl bytes hbytes
    exact ⟨hroom rfl, hframe bytes (congrArg _ hbytes)⟩
  | selectQueue =>
    intro task responseQueue client hpoll _ hi
    refine hwritten rfl ?_ client hi
    rw [(BoundedQueue.poll_eq_some_iff.mp hpoll).2]
    exact List.cons_ne_nil _ _
  | _ => trivial

/-- There are two tasks, and both responses have been written. -/
theorem pipelined_twoRequests : ∃ s T, Run (Step roomy nullStream) (init roomy) twoRequests s ∧
    T = traffic roomy nullStream 0 (init roomy) twoRequests .empty ∧ T.tasks.length = 2 ∧
    T.accepted.length = 2 ∧ T.written = T.accepted.flatten ∧ Pipelined nullStream s 0 T := by
  have hrun : (followIf (next roomy nullStream) (fun s l => (∀ r ∈ l.reactor, s.reactor = r) ∧
      (l.reactor = some .keys → s.requestQueue.HasRoom) ∧
      (l.reactor = some .queue → s.responseQueue.items ≠ [] →
        ∀ client ∈ s.clients[0]?, client.selectionKey.opWrite = false))
      (init roomy) twoRequests).any (fun s => s.clients.length < 2 ^ 32) = true := by
    decide +kernel
  simp only [Option.any_eq_true, decide_eq_true_eq] at hrun
  obtain ⟨s, hs, hlen⟩ := hrun
  have hmeets := run_of_followIf_next (fun _ _ => id) hs
  have hframes : ∀ l ∈ twoRequests, ∀ bytes, l = .read 0 (some bytes) →
      ∃ payload : List UInt8, payload.length < 2 ^ 31 ∧ bytes = frame payload := by
    simp only [twoRequests, List.forall_mem_append, List.forall_mem_cons, reduceCtorEq,
      false_imp_iff, implies_true, and_true, true_and, List.not_mem_nil, Label.read.injEq, Option.some.injEq]
    constructor <;> rintro _ rfl <;> exact ⟨_, by decide, rfl⟩
  have hundisturbed : Run (Restrict (Step roomy nullStream) (Undisturbed 0)) (init roomy)
      twoRequests s := by
    refine (run_restrict_iff.mpr ⟨hmeets, hframes⟩).mono (P := fun _ => True)
      (fun _ _ _ _ _ => trivial) ?_ trivial
    rintro s l s' - ⟨⟨hstep, hroom, hwritten⟩, hframe⟩
    exact ⟨hstep, undisturbed hroom hwritten hframe⟩
  refine ⟨s, _, hundisturbed.of_restrict, rfl, ?_, ?_, ?_, pipelined_of_run hundisturbed hlen⟩ <;>
    decide +kernel

/-- A client connects and sends the bytes with one read. -/
def sends (bytes : List UInt8) : List (Label Empty) :=
  [.select, .accept, .keysDone, .selectQueue, .select, .read 0 (some bytes)]

/-- Two frames that come with one read become one task. -/
theorem not_pipelined_twoFrames : ¬ ∀ (ls : List (Label Empty)) (s : Broker),
    Run (Step smallConfiguration nullStream) (init smallConfiguration) ls s →
    (∀ bytes, .read 0 (some bytes) ∈ ls → ∃ payloads : List (List UInt8), payloads ≠ [] ∧
      (∀ payload ∈ payloads, payload.length < 2 ^ 31) ∧ bytes = payloads.flatMap frame) →
    Pipelined nullStream s 0
      (traffic smallConfiguration nullStream 0 (init smallConfiguration) ls .empty) := by
  intro h
  have hrun : (follow smallConfiguration nullStream (init smallConfiguration)
      (sends (frame [] ++ frame []))).isSome = true := by decide +kernel
  obtain ⟨s, hs⟩ := Option.isSome_iff_exists.mp hrun
  obtain ⟨payloads, -, hreceived, htasks⟩ := (h _ s (follow_eq_some_iff.mp hs) (by
    intro bytes hbytes
    refine ⟨[[], []], by simp, by simp, ?_⟩
    simpa [sends] using hbytes)).tasks
  rw [List.flatMap_def, ← htasks] at hreceived
  revert hreceived
  decide +kernel

end Mlmq.Server.Pipelining
