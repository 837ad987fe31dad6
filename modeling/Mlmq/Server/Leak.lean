import Mlmq.Server.Flight

/-! # Buffers that are lost

A buffer that has been allocated is to have an owner for ever: whoever gives up his reference closes
the buffer, which puts it back into the pool. The code does so when a task is taken out of the
response queue and when a connection is closed. It does not when the request queue refuses a task,
when a request cannot be decoded, when a response cannot be encoded, and when the response queue
refuses a task: then the last reference is dropped (`Loses`).

`Balance` is the account of a step: each buffer that is lost is allocated and not held. Every step
balances, and it loses a buffer iff it is one of those (`balance_of_step`). So all buffers have an
owner throughout a run iff none of its steps loses one (`allOwned_iff`). -/

namespace Mlmq.Server.Leak

open Mlmq.Lib.Nio Mlmq.Lib.Slots Mlmq.Lib.Transition Mlmq.Net.Requests Mlmq.Net.Responses
open Mlmq.Net.Factory Mlmq.Net.RoundTrip Mlmq.Server.Connection Mlmq.Server.Worker
open Mlmq.Server.System Mlmq.Server.Ownership Mlmq.Server.Contents Mlmq.Server.Flight
open Mlmq.Lib.Queue (BoundedQueue)
open Mlmq.Util.ByteBufferUtil (ObjectStream)

variable {ε : Type} {s s' s'' : Broker} {i w lost lost' : ℕ} {client : Client}
  {config : BrokerConfiguration} {stream : ObjectStream ε} {l : Label ε}

/-! ### Owners and accounts -/

/-- Every buffer that has been allocated has an owner. -/
def AllOwned (s : Broker) : Prop := ∀ b < s.heap.length, b ∈ held s

/-- A request that can be decoded stands at the position of the buffer. -/
def Decodable (b : ByteBuffer) : Prop :=
  ∃ request, ∃ bs ∈ requestPayload.wire request, bs <+: b.rest

/-- **The steps that lose a buffer**: a message that the full request queue refuses, a request that
cannot be decoded, a response that cannot be encoded or does not fit, and the end of the work on a
task that the full response queue has refused. -/
def Loses (config : BrokerConfiguration) (stream : ObjectStream ε) (s : Broker) : Label ε → Prop
  | .read i chunk => Receives s i chunk ∧ ¬ s.requestQueue.HasRoom
  | .decode w => ∃ c buffer b, s.workers[w]? = some (.taken ⟨c, some buffer, none⟩) ∧
      s.heap[buffer]? = some b ∧ ¬ Decodable b
  | .answer _ outcome => ¬ Fits stream (responseOf outcome) config.maxMessageSize
  | .wake w => ∃ task, s.workers[w]? = some (.posted (some task))
  | _ => False

/-- From `s` to `s'` the buffers that are neither held nor new are `lost` many. -/
def Balance (s s' : Broker) (lost : ℕ) : Prop :=
  Multiset.card (held s') + lost + s.heap.length = Multiset.card (held s) + s'.heap.length

theorem Balance.refl (s : Broker) : Balance s s 0 := rfl

theorem Balance.trans (h : Balance s s' lost) (h' : Balance s' s'' lost') :
    Balance s s'' (lost + lost') := by
  unfold Balance at *
  omega

/-- What is held is held by others. -/
theorem Balance.of_held (hheld : held s' = held s) (hheap : s'.heap.length = s.heap.length) :
    Balance s s' 0 := by
  unfold Balance
  rw [hheld, hheap, add_zero]

/-! ### The accounts of the operations -/

/-- The buffer that comes out of the pool is not held any more, or it is new. -/
theorem balance_aquire : Balance s (s.aquire config).2 1 := by
  unfold Balance Broker.aquire
  split
  · rename_i buffer pooledBuffers hpool
    have hcard : Multiset.card (s.pooledBuffers : Multiset ℕ) = pooledBuffers.length + 1 := by
      rw [hpool]
      rfl
    unfold held
    dsimp only
    rw [List.length_modify]
    simp only [Multiset.card_add, hcard, Multiset.coe_card]
    omega
  · dsimp only
    rw [List.length_append, List.length_singleton]
    show Multiset.card (held s) + 1 + s.heap.length = Multiset.card (held s) + (s.heap.length + 1)
    omega

theorem balance_disconnectCLient (hi : s.clients[i]? = some client)
    (hvalid : client.selectionKey.isValid = true) : Balance s (s.disconnectCLient i) 0 :=
  .of_held (held_disconnectCLient hi hvalid) (by rw [heap_disconnectCLient])

/-- The new connection holds both buffers. -/
theorem balance_selectAccept : Balance s (s.selectAccept config) 0 := by
  set s₀ : Broker := { s with
    clientCounter := s.clientCounter + 1
    connectedClients :=
      Function.update s.connectedClients (s.clientCounter + 1) (some s.clients.length) }
  have h₀ : Balance s ((s₀.aquire config).2.aquire config).2 (1 + 1) :=
    Balance.trans (s := s) (balance_aquire (s := s₀)) balance_aquire
  have hheld : held (s.selectAccept config) = held ((s₀.aquire config).2.aquire config).2 +
      {(s₀.aquire config).1} + {((s₀.aquire config).2.aquire config).1} := by
    have hslots : clientSlots ⟨⟨s.clientCounter + 1⟩, (s₀.aquire config).1,
        some ((s₀.aquire config).2.aquire config).1, ⟨true, false⟩⟩ =
        {(s₀.aquire config).1} + {((s₀.aquire config).2.aquire config).1} := rfl
    unfold Broker.selectAccept held
    dsimp only
    rw [List.map_append, List.sum_append, List.map_singleton, List.sum_singleton, hslots]
    abel
  unfold Balance at h₀ ⊢
  rw [hheld, Multiset.card_add, Multiset.card_add, Multiset.card_singleton,
    Multiset.card_singleton]
  exact (by omega : _ = _).trans h₀

/-- The message is lost iff the queue is full. -/
theorem balance_takeMessage (hi : s.clients[i]? = some client)
    (hvalid : client.selectionKey.isValid = true) :
    Balance s (s.takeMessage config i client) (if s.requestQueue.HasRoom then 0 else 1) := by
  have hi₁ : (s.aquire config).2.clients[i]? = some client := by rw [clients_aquire, hi]
  have h₂ := held_setClient hi₁ (client.swapRxBuffer (s.aquire config).1).2
  rw [clientSlots_of_valid hvalid, clientSlots_of_valid
    (show (client.swapRxBuffer (s.aquire config).1).2.selectionKey.isValid = true from hvalid)] at h₂
  have hcard := congrArg Multiset.card h₂
  have h₁ : Balance s (s.aquire config).2 1 := balance_aquire
  have hreq : (s.aquire config).2.requestQueue = s.requestQueue := requestQueue_aquire
  simp only [Multiset.card_add, Multiset.card_singleton] at hcard
  unfold Balance at h₁ ⊢
  rw [heap_takeMessage]
  unfold Broker.takeMessage Broker.onMessage
  dsimp only
  split
  · rename_i requestQueue hadd
    have hroom : s.requestQueue.HasRoom :=
      hreq ▸ (BoundedQueue.add_eq_some_iff.mp hadd).1
    rw [held_addRequest hadd, if_pos hroom, Multiset.card_add]
    have hslots : Multiset.card (taskSlots (WorkerTask.new i
        (client.swapRxBuffer (s.aquire config).1).1)) = 1 := rfl
    rw [hslots]
    simp only [ConnectedClient.swapRxBuffer] at hcard ⊢
    omega
  · rename_i hadd
    have hroom : ¬ s.requestQueue.HasRoom :=
      hreq ▸ BoundedQueue.add_eq_none_iff.mp hadd
    rw [if_neg hroom]
    simp only [ConnectedClient.swapRxBuffer] at hcard ⊢
    omega

/-- A step with a balance that loses a buffer iff `P`. -/
def Loss (s s' : Broker) (P : Prop) : Prop := ∃ lost, Balance s s' lost ∧ (lost = 0 ↔ ¬ P)

theorem Balance.noLoss {P : Prop} (h : Balance s s' 0) (hP : ¬ P) : Loss s s' P :=
  ⟨0, h, iff_of_true rfl hP⟩

theorem Balance.oneLoss {P : Prop} (h : Balance s s' 1) (hP : P) : Loss s s' P :=
  ⟨1, h, iff_of_false one_ne_zero (not_not_intro hP)⟩

theorem loss_selectRead {chunk : Option (List UInt8)} (hs : s.selectRead config i chunk = some s') :
    Loss s s' (Receives s i chunk ∧ ¬ s.requestQueue.HasRoom) := by
  obtain ⟨client, rxBuffer, s₁, hi, hvalid, hrx, hs₁, rfl⟩ := Broker.selectRead_eq_some hs
  have h₁ : Balance s s₁ 0 := by
    refine .of_held ?_ ?_
    · rw [hs₁]
      rfl
    · rw [hs₁]
      exact List.length_set
  have hi₁ : s₁.clients[i]? = some client := hs₁ ▸ hi
  by_cases hc : Complete (rxBuffer.write (chunk.getD []))
  · have hreceives : Receives s i chunk := ⟨client, rxBuffer, hi, hrx, hc⟩
    have hroom : s₁.requestQueue.HasRoom ↔ s.requestQueue.HasRoom := by rw [hs₁]
    have h₂ : Balance s₁ (s₁.takeMessage config i client)
        (if s₁.requestQueue.HasRoom then 0 else 1) := balance_takeMessage hi₁ hvalid
    have h₃ : Balance (s₁.takeMessage config i client)
        (if chunk.isNone then (s₁.takeMessage config i client).disconnectCLient i
          else s₁.takeMessage config i client) 0 := by
      split_ifs
      · exact balance_disconnectCLient (getElem?_takeMessage hi₁) hvalid
      · exact .refl _
    have hall := (h₁.trans h₂).trans h₃
    rw [if_pos hc]
    by_cases hfull : s.requestQueue.HasRoom
    · rw [if_pos (hroom.mpr hfull)] at hall
      exact hall.noLoss fun h => h.2 hfull
    · rw [if_neg (hfull ∘ hroom.mp)] at hall
      exact hall.oneLoss ⟨hreceives, hfull⟩
  · rw [if_neg hc]
    have hP : ¬ (Receives s i chunk ∧ ¬ s.requestQueue.HasRoom) := by
      rintro ⟨⟨client', rxBuffer', hi', hrx', hc'⟩, -⟩
      obtain rfl := Option.some.inj (hi.symm.trans hi')
      obtain rfl := Option.some.inj (hrx.symm.trans hrx')
      exact hc hc'
    split_ifs
    · exact (h₁.trans (balance_disconnectCLient hi₁ hvalid)).noLoss hP
    · exact h₁.noLoss hP

theorem balance_selectWrite {byteCount : ℕ} (hs : s.selectWrite i byteCount = some s') :
    Balance s s' 0 := by
  obtain ⟨client, hi, hvalid, ⟨-, rfl⟩ | ⟨tx, txBuffer, htx, -, -, rfl⟩⟩ :=
    Broker.selectWrite_eq_some hs
  · exact balance_disconnectCLient hi hvalid
  · unfold Broker.afterWrite
    split_ifs
    · exact .of_held rfl List.length_set
    · refine .of_held ?_ List.length_set
      -- the send buffer goes from the connection to the pool
      have h₁ := held_setClient
        (s := { s with heap := s.heap.set tx (txBuffer.skip byteCount) })
        hi { client with selectionKey := ⟨true, false⟩, txBuffer := none }
      rw [clientSlots_of_valid hvalid, clientSlots_of_valid rfl, htx] at h₁
      rw [held_release]
      refine add_right_cancel (b := {client.rxBuffer}) (Eq.trans ?_ (h₁.trans ?_))
      · simp only [Option.toList_some, Multiset.coe_singleton]
        abel
      · simp only [Option.toList_none, Multiset.coe_nil, add_zero]
        rfl

/-- What `selectQueue` takes out of the response queue, it closes or sets as a response. -/
theorem balance_selectQueue (hinv : Inv s 0) (hshape : Shaped s) (hs : s.selectQueue = some s') :
    Balance s s' 0 := by
  obtain ⟨-, rfl⟩ | ⟨task, responseQueue, client, hpoll, -, ⟨-, rfl⟩ | ⟨j, s₁, completed, hj, hset,
    rfl⟩⟩ := Broker.selectQueue_eq_some hs
  · exact .refl s
  · refine .of_held ?_ rfl
    exact (held_release _ _).trans (held_pollResponse hpoll)
  · obtain ⟨client', hj', hvalid, -⟩ := hinv.connected _ _ hj
    obtain ⟨c, b, -, rfl⟩ := hshape.response task
      ((BoundedQueue.poll_eq_some_iff.mp hpoll).2 ▸ List.mem_cons_self)
    obtain ⟨hnone, -⟩ | ⟨buffer, hbuffer, rfl, rfl⟩ :=
      Broker.setResponse_eq_some (s := { s with responseQueue }) hj' hvalid hset
    · cases hnone
    · obtain rfl := Option.some.inj hbuffer
      have h₁ := held_setClient (s := { s with responseQueue }.release client'.txBuffer.toList) hj'
        { client' with txBuffer := some b, selectionKey := ⟨true, true⟩ }
      rw [clientSlots_of_valid hvalid, clientSlots_of_valid rfl, held_release] at h₁
      have h₂ : held { s with responseQueue } + {b} = held s := held_pollResponse hpoll
      refine .of_held ?_ ?_
      · have hnil : ((WorkerTask.close (⟨c, none, none⟩ : Task) : List ℕ) : Multiset ℕ) = 0 := rfl
        rw [if_pos rfl, held_release, hnil, add_zero, ← h₂]
        refine add_right_cancel (b := {client'.rxBuffer} + (client'.txBuffer.toList : Multiset ℕ)) ?_
        refine h₁.trans ?_
        simp only [Option.toList_some, Multiset.coe_singleton]
        abel
      · exact List.length_modify ..

/-! ### The accounts of the workers -/

theorem balance_take (hs : s.take w = some s') : Balance s s' 0 := by
  obtain ⟨task, requestQueue, hw, hpoll, rfl⟩ := Broker.take_eq_some hs
  refine .of_held ?_ rfl
  have h₁ := held_setWorker (s := { s with requestQueue }) hw (.taken task)
  exact (add_zero _).symm.trans (h₁.trans (held_pollRequest hpoll))

/-- The worker gives up the reference to its buffer. -/
theorem balance_giveUp {worker : WorkerState} (hw : s.workers[w]? = some worker)
    (hslots : Multiset.card (workerSlots worker) = 1) : Balance s (s.setWorker w .idle) 1 := by
  have hcard := congrArg Multiset.card (held_setWorker hw .idle)
  rw [Multiset.card_add, Multiset.card_add, hslots] at hcard
  unfold Balance
  rw [hcard]
  rfl

/-- The worker keeps its buffer. -/
theorem balance_keep {worker : WorkerState} (hw : s.workers[w]? = some worker)
    (worker' : WorkerState) (hslots : workerSlots worker' = workerSlots worker) : Balance s (s.setWorker w worker') 0 := by
  have h₁ := held_setWorker hw worker'
  rw [hslots] at h₁
  exact .of_held (add_right_cancel h₁) rfl

theorem balance_setHeap {heap : List ByteBuffer} (hlen : heap.length = s.heap.length) :
    Balance s { s with heap } 0 := .of_held rfl hlen

theorem decodable_iff {b : ByteBuffer} :
    Decodable b ↔ ∃ request b', deserializeRequest b = .ok request b' := by
  constructor
  · rintro ⟨request, bs, hbs, hpre⟩
    exact ⟨request, _, (reads_deserializeRequest.ok_iff _ _ _).mpr ⟨bs, hbs, hpre, rfl⟩⟩
  · rintro ⟨request, b', h⟩
    obtain ⟨bs, hbs, hpre, -⟩ := (reads_deserializeRequest.ok_iff _ _ _).mp h
    exact ⟨request, bs, hbs, hpre⟩

theorem loss_decode (hshape : Shaped s) (hs : s.decode w = some s') :
    Loss s s' (Loses config stream s (.decode w : Label ε)) := by
  obtain ⟨task, hw, hdecode⟩ := Broker.decode_eq_some hs
  obtain ⟨c, b, -, rfl⟩ : IsRequest _ task := hshape.worker w _ hw
  obtain ⟨hnone, -⟩ | ⟨buffer, raw, raw', worker, hbuffer, hraw, rfl, hworker⟩ := hdecode
  · cases hnone
  · obtain rfl := Option.some.inj hbuffer
    have h₁ : Balance s { s with heap := s.heap.set b raw' } 0 := balance_setHeap List.length_set
    rcases hworker with ⟨request, hd, rfl⟩ | ⟨e, hd, rfl⟩
    · refine (h₁.trans (balance_keep (s := { s with heap := s.heap.set b raw' }) hw
        (.processing ⟨c, none, none⟩ b request) rfl)).noLoss ?_
      rintro ⟨c', buffer', raw₁, hw', hraw', hnot⟩
      obtain ⟨rfl, rfl⟩ : c = c' ∧ b = buffer' := by simpa using hw.symm.trans hw'
      obtain rfl := Option.some.inj (hraw.symm.trans hraw')
      exact hnot (decodable_iff.mpr ⟨request, raw', hd⟩)
    · refine (h₁.trans (balance_giveUp (s := { s with heap := s.heap.set b raw' }) hw rfl)).oneLoss ?_
      refine ⟨c, b, raw, hw, hraw, fun hdec => ?_⟩
      obtain ⟨request, b', hok⟩ := decodable_iff.mp hdec
      rw [hd] at hok
      cases hok

theorem loss_answer {outcome : Except ε (Response ε)} (hshape : Shaped s)
    (hsized : Sized config s) (hs : s.answer stream w outcome = some s') :
    Loss s s' (Loses config stream s (.answer w outcome)) := by
  obtain ⟨task, buffer, request, raw, raw', worker, hw, hraw, rfl, hworker⟩ :=
    Broker.answer_eq_some hs
  obtain ⟨c, -, rfl⟩ := hshape.worker w _ hw
  have h₁ : Balance s { s with heap := s.heap.set buffer raw' } 0 := balance_setHeap List.length_set
  have hfits : (∃ b', respond stream outcome raw = .ok b') ↔
      Fits stream (responseOf outcome) config.maxMessageSize := by
    rw [isOk_respond_iff, hsized.of_getElem? hraw]
  rcases hworker with ⟨hr, rfl⟩ | ⟨e, hr, rfl⟩
  · have hok : respond stream outcome raw = .ok raw' := by
      unfold respond
      rw [hr]
    exact (h₁.trans (balance_keep (s := { s with heap := s.heap.set buffer raw' }) hw
      (.answered ⟨c, none, some buffer⟩) rfl)).noLoss
      (not_not_intro (hfits.mp ⟨raw', hok⟩))
  · refine (h₁.trans (balance_giveUp (s := { s with heap := s.heap.set buffer raw' }) hw
      rfl)).oneLoss fun hok => ?_
    obtain ⟨b', hok⟩ := hfits.mpr hok
    unfold respond at hok
    rw [hr] at hok
    cases hok

theorem balance_post (hs : s.post w = some s') : Balance s s' 0 := by
  obtain ⟨task, hw, ⟨responseQueue, hadd, rfl⟩ | ⟨-, rfl⟩⟩ := Broker.post_eq_some hs
  · refine .of_held ?_ rfl
    have h₁ := held_setWorker (s := { s with responseQueue }) hw (.posted none)
    rw [held_addResponse hadd] at h₁
    exact add_right_cancel (h₁.trans (add_zero _))
  · exact balance_keep hw (.posted (some task)) rfl

theorem loss_wake (hshape : Shaped s) (hs : s.wake w = some s') :
    Loss s s' (Loses config stream s (.wake w : Label ε)) := by
  obtain ⟨dropped, hw, rfl⟩ := Broker.wake_eq_some hs
  have h₁ : Balance s { s with wakeup := true } 0 := .of_held rfl rfl
  cases dropped with
  | none =>
    refine (h₁.trans (balance_keep (s := { s with wakeup := true }) hw .idle rfl)).noLoss ?_
    rintro ⟨task, hw'⟩
    cases hw.symm.trans hw'
  | some task =>
    have htask : IsResponse _ task := hshape.worker w _ hw task rfl
    obtain ⟨c, b, -, rfl⟩ := htask
    exact (h₁.trans (balance_giveUp (s := { s with wakeup := true }) hw rfl)).oneLoss ⟨_, hw⟩

/-! ### Runs -/

/-- **Every step balances**, and loses a buffer iff it is one of `Loses`. -/
theorem balance_of_step (hinv : Inv s 0) (hshape : Shaped s) (hsized : Sized config s)
    (hs : Step config stream s l s') : Loss s s' (Loses config stream s l) := by
  have hnot : ¬ False := id
  obtain ⟨-, hs⟩ := hs
  cases l with
  | select => exact Option.some.inj hs ▸ Balance.noLoss (.refl s) hnot
  | accept => exact Option.some.inj hs ▸ balance_selectAccept.noLoss hnot
  | acceptFails => exact Option.some.inj hs ▸ Balance.noLoss (.refl s) hnot
  | read i chunk => exact loss_selectRead hs
  | write i byteCount => exact (balance_selectWrite hs).noLoss hnot
  | fails i =>
    obtain ⟨client, hi, hvalid, rfl⟩ := Broker.selectFails_eq_some hs
    exact (balance_disconnectCLient hi hvalid).noLoss hnot
  | keysDone => exact Option.some.inj hs ▸ Balance.noLoss (.refl s) hnot
  | selectQueue => exact (balance_selectQueue hinv hshape hs).noLoss hnot
  | take w => exact (balance_take hs).noLoss hnot
  | decode w => exact loss_decode hshape hs
  | answer w outcome => exact loss_answer hshape hsized hs
  | post w => exact (balance_post hs).noLoss hnot
  | wake w => exact loss_wake hshape hs

/-- As many buffers are held as there are. -/
theorem allOwned_iff_card (h : Inv s 0) : AllOwned s ↔ Multiset.card (held s) = s.heap.length := by
  have hexclusive := h.exclusive
  rw [add_zero] at hexclusive
  exact hexclusive.forall_mem_iff

/-- A step keeps all buffers owned iff it loses none. -/
theorem allOwned_step_iff (hinv : Inv s 0) (hshape : Shaped s) (hsized : Sized config s)
    (hall : AllOwned s) (hs : Step config stream s l s') :
    AllOwned s' ↔ ¬ Loses config stream s l := by
  obtain ⟨lost, hbalance, hlost⟩ := balance_of_step hinv hshape hsized hs
  rw [allOwned_iff_card hinv] at hall
  rw [allOwned_iff_card (hinv.step hs), ← hlost]
  unfold Balance at hbalance
  omega

/-- **No buffer is lost throughout a run iff no step of it loses one.** -/
theorem allOwned_iff {ls : List (Label ε)} (h : Run (Step config stream) (init config) ls s) :
    Throughout (Step config stream) AllOwned (init config) ls ↔
      Run (Restrict (Step config stream) fun s l => ¬ Loses config stream s l) (init config) ls s := by
  refine h.throughout_iff (I := fun s => (Inv s 0 ∧ Shaped s) ∧ Sized config s)
    (step_deterministic config stream) ?_ ?_ ?_ ?_
  · rintro s l s' ⟨⟨hinv, hshape⟩, hsized⟩ hs
    exact ⟨⟨hinv.step hs, hshape.step hinv hs⟩, hsized.step hinv.connected hs⟩
  · rintro s l s' ⟨⟨hinv, hshape⟩, hsized⟩ hall hs
    exact allOwned_step_iff hinv hshape hsized hall hs
  · exact ⟨⟨inv_init config, shaped_init config⟩, fun b hb => absurd hb List.not_mem_nil⟩
  · exact fun b hb => absurd hb (Nat.not_lt_zero b)

/-- A client connects and sends two messages of four bytes, for which the request queue has one slot.
The worker does not come to the first one in between. -/
def twoMessages : List (Label Empty) :=
  [.select, .accept, .keysDone, .selectQueue, .select, .read 0 (some [0, 0, 0, 0]),
    .keysDone, .selectQueue, .select, .read 0 (some [0, 0, 0, 0])]

/-- As long as the first message is in the request queue all buffers are owned. -/
theorem allOwned_oneMessage :
    Throughout (Step smallConfiguration nullStream) AllOwned (init smallConfiguration)
      (twoMessages.take 6) := by
  have hroom : acceptedBroker.requestQueue.HasRoom := by decide
  obtain ⟨s, hs⟩ := Option.isSome_iff_exists.mp (show (next smallConfiguration nullStream
    { acceptedBroker with reactor := .keys } (.read 0 (some [0, 0, 0, 0]))).isSome
      from by decide +kernel)
  have hreactor : ∀ {r' : ReactorState}, ∀ r ∈ some r', r' = r := fun r hr => Option.mem_some.mp hr
  have hrun : Run (Restrict (Step smallConfiguration nullStream) fun s l =>
      ¬ Loses smallConfiguration nullStream s l) (init smallConfiguration) (twoMessages.take 6) s :=
    .cons ⟨⟨hreactor, rfl⟩, id⟩ <| .cons ⟨⟨hreactor, rfl⟩, id⟩ <| .cons ⟨⟨hreactor, rfl⟩, id⟩ <|
      .cons ⟨⟨hreactor, rfl⟩, id⟩ <| .cons ⟨⟨hreactor, rfl⟩, id⟩ <|
      .cons ⟨⟨hreactor, hs⟩, fun h => h.2 hroom⟩ (.nil s)
  exact (allOwned_iff hrun.of_restrict).mpr hrun

/-- The second one is lost. -/
theorem not_allOwned_twoMessages : ¬ ∀ s, Reaches smallConfiguration nullStream s → AllOwned s := by
  intro h
  have hrun : (follow smallConfiguration nullStream (init smallConfiguration) twoMessages).any
      (fun s => 2 < s.heap.length ∧ 2 ∉ held s) = true := by decide +kernel
  simp only [Option.any_eq_true, decide_eq_true_eq] at hrun
  obtain ⟨s, hs, hlt, hlost⟩ := hrun
  exact hlost (h s ⟨_, twoMessages, rfl, follow_eq_some_iff.mp hs⟩ 2 hlt)

end Mlmq.Server.Leak
