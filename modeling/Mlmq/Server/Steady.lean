import Mlmq.Server.Channel
import Mlmq.Server.Drain

/-! # Steps that lose nothing

A buffer on its way is given up when its request cannot be decoded, when its response does not fit,
and when a queue is full; a response that arrives is given up when its connection is closed. Every
other step keeps what is on its way (`travelling_le_of_step`), and a round of `selectQueue` sets the
response of an open connection (`travelling_le_of_selectQueue`). -/

namespace Mlmq.Server.Steady

open Mlmq.Lib.Nio Mlmq.Net.Requests Mlmq.Net.Responses Mlmq.Net.Factory Mlmq.Net.RoundTrip
open Mlmq.Server.Connection Mlmq.Server.Worker Mlmq.Server.System Mlmq.Server.Ownership
open Mlmq.Server.Contents Mlmq.Server.Flight Mlmq.Server.Motion Mlmq.Server.Handles
open Mlmq.Server.Traffic Mlmq.Server.Pipelining Mlmq.Server.Routing Mlmq.Server.Channel
open Mlmq.Server.Drain (Abandons WakeupPending connectedClient reactor_selectAccept
  reactor_selectRead reactor_selectWrite reactor_disconnectCLient)
open Mlmq.Lib.Queue (BoundedQueue)
open Mlmq.Util.ByteBufferUtil (ObjectStream)

variable {ε : Type} {s s' : Broker} {i w : ℕ} {client : Client} {config : BrokerConfiguration}
  {stream : ObjectStream ε} {l : Label ε} {J : Journal ε}

/-! ### Open connections -/

theorem open_of_kept (h : Open s' i) (hkept : Kept s s' i) : Open s i := fun client hi =>
  h client (hkept.clients.trans hi)

/-- **A connection that is open has been open before.** -/
theorem open_of_step (hinv : Inv s 0) (hs : Step config stream s l s') (h : Open s' i) :
    Open s i := by
  by_cases hqueue : l = .selectQueue
  · subst hqueue
    obtain ⟨-, rfl⟩ | ⟨task, responseQueue, client, -, -, ⟨-, rfl⟩ | ⟨j, s₁, completed, hj, hset,
      rfl⟩⟩ := Broker.selectQueue_eq_some hs.2
    · exact h
    · exact h
    · obtain ⟨client', hj', hvalid, -⟩ := hinv.connected _ _ hj
      by_cases hji : j = i
      · exact open_of_valid (hji ▸ hj') hvalid
      · have hclients : s₁.clients[i]? = s.clients[i]? := by
          obtain ⟨-, -, rfl⟩ | ⟨buffer, -, -, rfl⟩ :=
            Broker.setResponse_eq_some (s := { s with responseQueue }) hj' hvalid hset
          · exact List.getElem?_set_ne hji
          · exact List.getElem?_set_ne hji
        intro client hi
        refine h client ?_
        split_ifs
        · exact hclients.trans hi
        · exact hclients.trans hi
  · by_cases hread : ∃ chunk, l = .read i chunk
    · obtain ⟨chunk, rfl⟩ := hread
      obtain ⟨client, rxBuffer, -, hi, hvalid, -⟩ := Broker.selectRead_eq_some hs.2
      exact open_of_valid hi hvalid
    · by_cases hwrite : ∃ byteCount, l = .write i byteCount
      · obtain ⟨byteCount, rfl⟩ := hwrite
        obtain ⟨client, hi, hvalid, -⟩ := Broker.selectWrite_eq_some hs.2
        exact open_of_valid hi hvalid
      · rcases aside_cases hinv hs ⟨fun chunk heq => hread ⟨chunk, heq⟩,
          fun byteCount heq => hwrite ⟨byteCount, heq⟩, hqueue⟩ with hkept | ⟨client, hi, rfl⟩ |
            ⟨hi, -⟩
        · exact open_of_kept h hkept
        · exact absurd h (not_open_disconnectCLient hi)
        · intro client hi'
          rw [hi] at hi'
          cases hi'

/-- What an open connection is sending is known. -/
theorem exists_sends (s : Broker) (i : ℕ) : ∃ rest, Sends s i rest := by
  refine ⟨(s.clients[i]?).elim [] (sending s.heap), fun hnone => by rw [hnone]; rfl,
    fun client hi _ => ?_⟩
  rw [hi]
  rfl

theorem sends_eq {rest rest' : List UInt8} (h : Sends s i rest) (h' : Sends s i rest')
    (hopen : Open s i) : rest = rest' := by
  cases hi : s.clients[i]? with
  | none => rw [h.accepted hi, h'.accepted hi]
  | some client =>
    rw [← h.sending client hi (hopen client hi), h'.sending client hi (hopen client hi)]

/-! ### Keys that wait for the socket -/

/-- A key waits for the socket only while there is something to be sent. -/
def Writes (s : Broker) : Prop :=
  ∀ (i : ℕ) (client : Client), s.clients[i]? = some client →
    client.selectionKey.isValid = true → client.selectionKey.opWrite = true →
      sending s.heap client ≠ []

theorem Writes.of_kept (h : Writes s) (hkept : Kept s s' i) (hi' : s'.clients[i]? = some client)
    (hvalid : client.selectionKey.isValid = true) (hop : client.selectionKey.opWrite = true) :
    sending s'.heap client ≠ [] := by
  have hi := hkept.clients.symm.trans hi'
  rw [sending_congr fun b hb => hkept.heap client hi b (mem_clientSlots_tx hvalid hb)]
  exact h i client hi hvalid hop

/-- A read leaves the key and the send buffer. -/
theorem Writes.read {chunk : Option (List UInt8)} (h : Writes s) (hinv : Inv s 0)
    (hs : s.selectRead config i chunk = some s') (hi' : s'.clients[i]? = some client)
    (hvalid : client.selectionKey.isValid = true) (hop : client.selectionKey.opWrite = true) :
    sending s'.heap client ≠ [] := by
  obtain ⟨client₀, rxBuffer, s₁, hi, hvalid₀, hrx, hs₁, heq⟩ := Broker.selectRead_eq_some hs
  have hi₁ : s₁.clients[i]? = some client₀ := hs₁ ▸ hi
  have hopen : chunk.isNone = false := by
    by_contra hnone
    rw [Bool.not_eq_false, Option.isNone_iff_eq_none] at hnone
    subst hnone
    exact not_open_readEnd hs (open_of_valid hi' hvalid)
  have hkey : client.selectionKey = client₀.selectionKey := by
    rw [hopen] at heq
    simp only [Bool.false_eq_true, if_false] at heq
    subst heq
    split_ifs at hi'
    · rw [getElem?_takeMessage hi₁] at hi'
      rw [← Option.some.inj hi']
    · rw [← Option.some.inj (hi₁.symm.trans hi')]
  obtain ⟨rest, hrest⟩ := exists_sends s i
  have hrest' := sends_selectRead hrest hinv hs
  rw [hrest'.sending client hi' hvalid, ← hrest.sending client₀ hi hvalid₀]
  exact h i client₀ hi hvalid₀ (hkey ▸ hop)

/-- The key waits on if not all has been written. -/
theorem Writes.write {byteCount : ℕ} (hs : s.selectWrite i byteCount = some s')
    (hi' : s'.clients[i]? = some client) (hvalid : client.selectionKey.isValid = true)
    (hop : client.selectionKey.opWrite = true) : sending s'.heap client ≠ [] := by
  obtain ⟨client₀, hi, hvalid₀, ⟨-, rfl⟩ | ⟨tx, txBuffer, htx, hheap, -, rfl⟩⟩ :=
    Broker.selectWrite_eq_some hs
  · exact absurd (open_of_valid hi' hvalid) (not_open_disconnectCLient hi)
  · unfold Broker.afterWrite at hi' ⊢
    split_ifs at hi' ⊢ with hremaining
    · obtain rfl := Option.some.inj (hi.symm.trans hi')
      unfold sending Views.viewSlot
      rw [if_pos hop, htx, Option.bind_some,
        List.getElem?_set_self (List.getElem?_eq_some_iff.mp hheap).1]
      show (txBuffer.skip byteCount).rest ≠ []
      rw [ByteBuffer.hasRemaining, decide_eq_true_eq] at hremaining
      rw [← List.length_pos_iff, ByteBuffer.length_rest, ByteBuffer.remaining]
      omega
    · have hlt := (List.getElem?_eq_some_iff.mp hi).1
      have hkey := hi'.symm.trans (List.getElem?_set_self hlt)
      rw [Option.some.inj hkey] at hop
      cases hop

/-- **A key waits for the socket only while there is something to be sent**, provided the responses
that are set are not empty. -/
theorem Writes.step (h : Writes s) (hinv : Inv s 0) (hshape : Shaped s) (hreg : Registered s)
    (hlen : s.clients.length < 2 ^ 32) (hs : Step config stream s l s')
    (hset : l = .selectQueue → ∀ d ∈ J.delivery s, d.response.flip.rest ≠ []) : Writes s' := by
  intro i client hi' hvalid hop
  by_cases hqueue : l = .selectQueue
  · subst hqueue
    rcases round_cases (J := J) (i := i) hinv hshape hreg hlen hs.2 with ⟨-, hkept⟩ |
      ⟨b, raw, client₀, hraw, hdelivery, -, -, -, -, hi, hheap⟩
    · exact h.of_kept hkept hi' hvalid hop
    · obtain rfl := Option.some.inj (hi.symm.trans hi')
      unfold sending Views.viewSlot
      rw [if_pos hop, Option.bind_some, hheap, List.getElem?_modify_eq, hraw]
      exact hset rfl _ hdelivery
  · by_cases hread : ∃ chunk, l = .read i chunk
    · obtain ⟨chunk, rfl⟩ := hread
      exact h.read hinv hs.2 hi' hvalid hop
    · by_cases hwrite : ∃ byteCount, l = .write i byteCount
      · obtain ⟨byteCount, rfl⟩ := hwrite
        exact Writes.write hs.2 hi' hvalid hop
      · rcases aside_cases hinv hs ⟨fun chunk heq => hread ⟨chunk, heq⟩,
          fun byteCount heq => hwrite ⟨byteCount, heq⟩, hqueue⟩ with hkept | ⟨other, hi, rfl⟩ |
            ⟨hi, rfl⟩
        · exact h.of_kept hkept hi' hvalid hop
        · exact absurd (open_of_valid hi' hvalid) (not_open_disconnectCLient hi)
        · rw [(client_selectAccept hinv hi hi').1] at hop
          cases hop

/-! ### What is on its way -/

/-- The request of a worker can be decoded. -/
def Decodable (s : Broker) (w : ℕ) : Prop :=
  ∀ c b raw, s.workers[w]? = some (.taken ⟨c, some b, none⟩) → s.heap[b]? = some raw →
    ∃ request raw', deserializeRequest raw = .ok request raw'

theorem mem_flights_of_requested {c b : ℕ}
    (h : (⟨c, some b, none⟩ : Task) ∈ s.requestQueue.items) :
    (⟨.requested, c, b⟩ : Motion.Flight) ∈ flights s := by
  obtain ⟨k, hk⟩ := List.getElem?_of_mem h
  unfold flights
  refine Multiset.mem_add.mpr (.inl (Multiset.mem_add.mpr (.inl (Lib.Slots.mem_sum hk ?_))))
  exact Multiset.mem_singleton_self _

theorem travelling_congr (h : flights s' = flights s) : travelling s' i = travelling s i := by
  unfold travelling
  rw [h]

/-- **A worker decodes a request** that can be decoded. -/
theorem travelling_decode (hshape : Shaped s) (h : Decodable s w) (hs : s.decode w = some s') :
    travelling s' i = travelling s i := by
  obtain ⟨task, hw, hdecode⟩ := Broker.decode_eq_some hs
  obtain ⟨c, b, -, rfl⟩ : IsRequest _ task := hshape.worker w _ hw
  obtain ⟨hnone, -⟩ | ⟨buffer, raw, raw', worker, hbuffer, hraw, rfl, hworker⟩ := hdecode
  · cases hnone
  · obtain rfl := Option.some.inj hbuffer
    obtain ⟨request, raw'', hok⟩ := h c b raw hw hraw
    obtain ⟨request', -, rfl⟩ | ⟨e, hd, -⟩ := hworker
    · set s₁ : Broker := { s with heap := s.heap.set b raw' }
      have hidle : flights s = ⟨.requested, c, b⟩ ::ₘ flights (s₁.setWorker w .idle) :=
        flights_eq_add_idle (s := s₁) hw
      have hnext : flights (s₁.setWorker w (.processing ⟨c, none, none⟩ b request')) =
          ⟨.processing request', c, b⟩ ::ₘ flights (s₁.setWorker w .idle) :=
        flights_setWorker_eq_add_idle (s := s₁) hw (.processing ⟨c, none, none⟩ b request')
      rw [travelling_of_cons hnext, travelling_of_cons hidle]
    · rw [hok] at hd
      cases hd

/-- **A worker answers** with a response that fits. -/
theorem travelling_answer {outcome : Except ε (Response ε)} (hshape : Shaped s)
    (hsized : Sized config s) (h : Fits stream (responseOf outcome) config.maxMessageSize)
    (hs : s.answer stream w outcome = some s') : travelling s' i = travelling s i := by
  obtain ⟨task, b, request, raw, raw', worker, hw, hraw, rfl, hworker⟩ := Broker.answer_eq_some hs
  obtain ⟨c, -, rfl⟩ := hshape.worker w _ hw
  obtain ⟨-, rfl⟩ | ⟨e, hr, -⟩ := hworker
  · set s₁ : Broker := { s with heap := s.heap.set b raw' }
    have hidle : flights s = ⟨.processing request, c, b⟩ ::ₘ flights (s₁.setWorker w .idle) :=
      flights_eq_add_idle (s := s₁) hw
    have hnext : flights (s₁.setWorker w (.answered ⟨c, none, some b⟩)) =
        ⟨.responded, c, b⟩ ::ₘ flights (s₁.setWorker w .idle) :=
      flights_setWorker_eq_add_idle (s := s₁) hw (.answered ⟨c, none, some b⟩)
    exact (travelling_of_cons hnext).trans (travelling_of_cons hidle).symm
  · have hcapacity : raw.capacity = config.maxMessageSize := hsized.of_getElem? hraw
    obtain ⟨payload, hp, hfit⟩ := h
    have hroom : (frame payload).length ≤ raw.clear.remaining := by
      rw [ByteBuffer.remaining_clear, hcapacity]
      exact hfit
    rw [serializeResponseWithHeader_ok hp hroom] at hr
    cases hr

/-- **A worker posts a response** that finds room. -/
theorem travelling_post (h : s.responseQueue.HasRoom) (hs : s.post w = some s') :
    travelling s' i = travelling s i := by
  obtain ⟨task, hw, ⟨responseQueue, hadd, rfl⟩ | ⟨hnone, -⟩⟩ := Broker.post_eq_some hs
  · refine travelling_congr ?_
    have h₁ := flights_setWorker (s := { s with responseQueue }) hw (.posted none)
    rw [flights_addResponse hadd] at h₁
    exact add_right_cancel (h₁.trans (add_zero _))
  · exact absurd h (BoundedQueue.add_eq_none_iff.mp hnone)

/-- What a step must meet to lose nothing that is on its way. -/
def Keeps (config : BrokerConfiguration) (stream : ObjectStream ε) (s : Broker) : Label ε → Prop
  | .decode w => Decodable s w
  | .answer _ outcome => Fits stream (responseOf outcome) config.maxMessageSize
  | .post _ => s.responseQueue.HasRoom
  | .selectQueue => False
  | _ => True

/-- **What is on its way stays there.** -/
theorem travelling_le_of_step (hinv : Inv s 0) (hshape : Shaped s) (hsized : Sized config s)
    (hs : Step config stream s l s') (h : Keeps config stream s l) :
    travelling s i ≤ travelling s' i := by
  obtain ⟨-, hs⟩ := hs
  cases l with
  | select => exact Option.some.inj hs ▸ le_rfl
  | accept =>
    obtain rfl := Option.some.inj hs
    exact (travelling_congr (flights_congr requestQueue_selectAccept responseQueue_selectAccept
      workers_selectAccept)).ge
  | acceptFails => exact Option.some.inj hs ▸ le_rfl
  | read j chunk =>
    obtain ⟨client, rxBuffer, -, hj, -, hrx, -⟩ := Broker.selectRead_eq_some hs
    rcases travelling_read (i := i) hinv hs hj hrx with heq | ⟨-, -, heq⟩
    · exact heq.ge
    · rw [heq]
      exact Multiset.le_cons_self _ _
  | write j byteCount =>
    obtain ⟨hreq, hresp, -⟩ := queues_selectWrite hs
    exact (travelling_congr (flights_congr hreq hresp (workers_selectWrite hs))).ge
  | fails j =>
    obtain ⟨client, -, -, rfl⟩ := Broker.selectFails_eq_some hs
    exact (travelling_congr (flights_congr requestQueue_disconnectCLient
      responseQueue_disconnectCLient workers_disconnectCLient)).ge
  | keysDone => exact Option.some.inj hs ▸ le_rfl
  | selectQueue => exact h.elim
  | take w =>
    obtain ⟨task, requestQueue, hw, hpoll, rfl⟩ := Broker.take_eq_some hs
    refine (travelling_congr ?_).ge
    have h₁ := flights_setWorker (s := { s with requestQueue }) hw (.taken task)
    exact (add_zero _).symm.trans (h₁.trans (flights_pollRequest hpoll))
  | decode w => exact (travelling_decode hshape h hs).ge
  | answer w outcome => exact (travelling_answer hshape hsized h hs).ge
  | post w => exact (travelling_post h hs).ge
  | wake w =>
    obtain ⟨dropped, hw, rfl⟩ := Broker.wake_eq_some hs
    refine (travelling_congr ?_).ge
    exact add_right_cancel (flights_setWorker (s := { s with wakeup := true }) hw .idle)

/-- **A response for an open connection is set** when it is taken out of the queue; what is on its
way to the connection otherwise stays there. -/
theorem travelling_le_of_selectQueue (hinv : Inv s 0) (hshape : Shaped s) (hreg : Registered s)
    (hlen : s.clients.length < 2 ^ 32) (hs : s.selectQueue = some s') (hopen : Open s i)
    (hnone : ∀ d ∈ J.delivery s, d.connection ≠ i) : travelling s i ≤ travelling s' i := by
  obtain ⟨-, h, -⟩ | ⟨c, b, responseQueue, hpoll, hcons, -⟩ := flights_selectQueue hinv hshape hs
  · exact (travelling_congr h).ge
  · have hci : c ≠ i := by
      rintro rfl
      have hflight : (⟨.responded, c, b⟩ : Motion.Flight) ∈ flights s :=
        hcons ▸ Multiset.mem_cons_self _ _
      have hlt := lt_of_flight hinv hflight
      obtain ⟨c', b', hc, heq⟩ := hshape.response _
        ((BoundedQueue.poll_eq_some_iff.mp hpoll).2 ▸ List.mem_cons_self)
      injection heq with hctx
      obtain rfl := hctx
      have hi := List.getElem?_eq_getElem hc
      have hlookup := hreg.lookup hlen c _ hi (hopen _ hi)
      rw [← hreg.handle hi] at hlookup
      exact hnone _ (delivery_poll hpoll hi hlookup (List.getElem?_eq_getElem hlt)) rfl
    rw [travelling_of_cons hcons, if_neg hci, zero_add]
    exact le_rfl

/-! ### Decidability -/

instance (worker : WorkerState) : Decidable (∃ dropped, worker = .posted dropped) :=
  match worker with
  | .posted dropped => isTrue ⟨dropped, rfl⟩
  | .idle | .taken _ | .processing _ _ _ | .answered _ => isFalse (by rintro ⟨_, h⟩; cases h)

instance (s : Broker) : Decidable (WakeupPending s) :=
  decidable_of_iff
      (s.wakeup = true ∨ ∃ worker ∈ s.workers, ∃ dropped, worker = .posted dropped) <| by
    refine or_congr_right ⟨?_, ?_⟩
    · rintro ⟨_, hworker, dropped, rfl⟩
      obtain ⟨w, hw⟩ := List.getElem?_of_mem hworker
      exact ⟨w, dropped, hw⟩
    · rintro ⟨w, dropped, hw⟩
      exact ⟨_, List.mem_of_getElem? hw, dropped, rfl⟩

instance (s : Broker) : (l : Label ε) → Decidable (Abandons s l)
  | .selectQueue =>
    decidable_of_iff (¬ WakeupPending s ∧ ∃ polled ∈ s.responseQueue.poll,
        connectedClient s polled.1 = none ∧ polled.2.items ≠ [])
      ⟨fun ⟨hpending, ⟨task, responseQueue⟩, hpoll, hnone, hne⟩ =>
        ⟨hpending, task, responseQueue, hpoll, hnone, hne⟩,
       fun ⟨hpending, task, responseQueue, hpoll, hnone, hne⟩ =>
        ⟨hpending, ⟨task, responseQueue⟩, hpoll, hnone, hne⟩⟩
  | .select | .accept | .acceptFails | .read _ _ | .write _ _ | .fails _ | .keysDone | .take _
  | .decode _ | .answer _ _ | .post _ | .wake _ => isFalse id

/-! ### The threads -/

/-- **A worker** leaves the reactor and the connections alone, and the number of workers. -/
theorem worker_cases (hs : Step config stream s l s') (hl : (actor l).isSome) :
    ∃ heap requestQueue responseQueue workers wakeup,
      s' = { s with heap, requestQueue, responseQueue, workers, wakeup } ∧
        workers.length = s.workers.length := by
  obtain ⟨-, hs⟩ := hs
  cases l with
  | take w =>
    obtain ⟨task, requestQueue, -, -, rfl⟩ := Broker.take_eq_some hs
    exact ⟨_, _, _, _, _, rfl, List.length_set⟩
  | decode w =>
    obtain ⟨task, -, ⟨-, rfl⟩ | ⟨buffer, rawRequest, rawRequest', worker, -, -, rfl, -⟩⟩ :=
      Broker.decode_eq_some hs <;> exact ⟨_, _, _, _, _, rfl, List.length_set⟩
  | answer w outcome =>
    obtain ⟨task, buffer, request, rawRequest, rawRequest', worker, -, -, rfl, -⟩ :=
      Broker.answer_eq_some hs
    exact ⟨_, _, _, _, _, rfl, List.length_set⟩
  | post w =>
    obtain ⟨task, -, ⟨responseQueue, -, rfl⟩ | ⟨-, rfl⟩⟩ := Broker.post_eq_some hs <;>
      exact ⟨_, _, _, _, _, rfl, List.length_set⟩
  | wake w =>
    obtain ⟨dropped, -, rfl⟩ := Broker.wake_eq_some hs
    exact ⟨_, _, _, _, _, rfl, List.length_set⟩
  | _ => cases hl

theorem reactor_worker (hs : Step config stream s l s') (hl : (actor l).isSome) :
    s'.reactor = s.reactor := by
  obtain ⟨_, _, _, _, _, rfl, -⟩ := worker_cases hs hl
  rfl

theorem length_workers_of_step (hinv : Inv s 0) (hs : Step config stream s l s') :
    s'.workers.length = s.workers.length := by
  by_cases hl : (actor l).isSome
  · obtain ⟨_, _, _, _, _, rfl, hlength⟩ := worker_cases hs hl
    exact hlength
  · obtain ⟨-, hs⟩ := hs
    cases l with
    | select => exact Option.some.inj hs ▸ rfl
    | accept => exact Option.some.inj hs ▸ congrArg List.length workers_selectAccept
    | acceptFails => exact Option.some.inj hs ▸ rfl
    | read j chunk => rw [workers_selectRead hs]
    | write j byteCount => rw [workers_selectWrite hs]
    | fails j =>
      obtain ⟨client, -, -, rfl⟩ := Broker.selectFails_eq_some hs
      rw [workers_disconnectCLient]
    | keysDone => exact Option.some.inj hs ▸ rfl
    | selectQueue => rw [workers_selectQueue hinv.connected hs]
    | _ => exact absurd rfl hl

@[simp] theorem wakeup_aquire : (s.aquire config).2.wakeup = s.wakeup := by
  unfold Broker.aquire
  split <;> rfl

@[simp] theorem wakeup_disconnectCLient : (s.disconnectCLient i).wakeup = s.wakeup := by
  unfold Broker.disconnectCLient
  split <;> rfl

@[simp] theorem wakeup_takeMessage : (s.takeMessage config i client).wakeup = s.wakeup := by
  unfold Broker.takeMessage Broker.onMessage
  dsimp only
  split <;> exact wakeup_aquire

theorem wakeup_selectRead {chunk : Option (List UInt8)}
    (hs : s.selectRead config i chunk = some s') : s'.wakeup = s.wakeup := by
  obtain ⟨client, rxBuffer, s₁, -, -, -, hs₁, rfl⟩ := Broker.selectRead_eq_some hs
  have h₁ : s₁.wakeup = s.wakeup := by rw [hs₁]
  split_ifs <;> simp only [wakeup_disconnectCLient, wakeup_takeMessage, h₁]

theorem wakeup_selectWrite {byteCount : ℕ} (hs : s.selectWrite i byteCount = some s') :
    s'.wakeup = s.wakeup := by
  obtain ⟨client, -, -, ⟨-, rfl⟩ | ⟨tx, txBuffer, -, -, -, rfl⟩⟩ := Broker.selectWrite_eq_some hs
  · exact wakeup_disconnectCLient
  · unfold Broker.afterWrite
    split_ifs <;> rfl

/-- **The reactor stops only** when a connection cannot be accepted. -/
theorem running_of_step (hinv : Inv s 0) (hshape : Shaped s) (h : s.reactor ≠ .stopped)
    (hs : Step config stream s l s') (hl : l ≠ .acceptFails) : s'.reactor ≠ .stopped := by
  have hsame : s'.reactor = s.reactor → s'.reactor ≠ .stopped := fun heq => heq ▸ h
  by_cases hworker : (actor l).isSome
  · exact hsame (reactor_worker hs hworker)
  · obtain ⟨-, hs⟩ := hs
    cases l with
    | select => exact Option.some.inj hs ▸ by simp
    | accept => exact hsame (Option.some.inj hs ▸ reactor_selectAccept)
    | acceptFails => exact absurd rfl hl
    | read j chunk => exact hsame (reactor_selectRead hs)
    | write j byteCount => exact hsame (reactor_selectWrite hs)
    | fails j =>
      obtain ⟨client, -, -, rfl⟩ := Broker.selectFails_eq_some hs
      exact hsame reactor_disconnectCLient
    | keysDone => exact Option.some.inj hs ▸ by simp
    | selectQueue =>
      rcases Drain.selectQueue_cases hinv hshape hs with ⟨-, rfl⟩ | ⟨c, b, responseQueue, -, -, -,
        -, -, -, -, ⟨-, hselect, -⟩ | ⟨-, heq⟩⟩
      · simp
      · rw [hselect]
        simp
      · exact hsame heq
    | _ => exact absurd rfl hworker

/-! ### What can go on -/

theorem exists_take (hw : s.workers[w]? = some .idle) (hne : s.requestQueue.items ≠ []) :
    ∃ s', s.take w = some s' := by
  obtain ⟨⟨task, requestQueue⟩, hpoll⟩ := Option.ne_none_iff_exists'.mp
    (mt BoundedQueue.poll_eq_none_iff.mp hne)
  refine ⟨{ s with requestQueue }.setWorker w (.taken task), ?_⟩
  unfold Broker.take
  simp only [hw, hpoll, Option.bind_eq_bind, Option.bind_some]
  rfl

theorem exists_decode (hinv : Inv s 0) (hshape : Shaped s) {task : Task}
    (hw : s.workers[w]? = some (.taken task)) : ∃ s', s.decode w = some s' := by
  obtain ⟨c, b, -, rfl⟩ := hshape.worker w _ hw
  have hlt := lt_of_flight hinv (mem_flights_of_worker hw (Multiset.mem_singleton_self _))
  unfold Broker.decode WorkerTask.getAndRemoveRequestBuffer
  simp only [hw, List.getElem?_eq_getElem hlt, Option.bind_eq_bind, Option.bind_some]
  split <;> exact ⟨_, rfl⟩

theorem exists_post {task : Task} (hw : s.workers[w]? = some (.answered task)) :
    ∃ s', s.post w = some s' := by
  unfold Broker.post
  simp only [hw, Option.bind_eq_bind, Option.bind_some]
  split <;> exact ⟨_, rfl⟩

theorem exists_selectQueue (hinv : Inv s 0) (hshape : Shaped s) :
    ∃ s', s.selectQueue = some s' := by
  unfold Broker.selectQueue
  split
  · exact ⟨_, rfl⟩
  · rename_i task responseQueue hpoll
    obtain ⟨c, b, hc, rfl⟩ := hshape.response task
      ((BoundedQueue.poll_eq_some_iff.mp hpoll).2 ▸ List.mem_cons_self)
    simp only [List.getElem?_eq_getElem hc, Option.bind_eq_bind, Option.bind_some]
    split
    · exact ⟨_, rfl⟩
    · rename_i j hj
      obtain ⟨client, hclient, hvalid, -⟩ := hinv.connected _ _ hj
      unfold Broker.setResponse
      simp only [hclient, hvalid, if_true, WorkerTask.getAndRemoveResponseBuffer,
        Option.bind_eq_bind, Option.bind_some]
      exact ⟨_, rfl⟩

theorem exists_answer {task : Task} {b : ℕ} {request : Request} (hinv : Inv s 0) (hshape : Shaped s)
    (hw : s.workers[w]? = some (.processing task b request)) (stream : ObjectStream ε)
    (outcome : Except ε (Response ε)) : ∃ s', s.answer stream w outcome = some s' := by
  obtain ⟨c, -, rfl⟩ := hshape.worker w _ hw
  have hlt := lt_of_flight hinv (mem_flights_of_worker hw (Multiset.mem_singleton_self _))
  unfold Broker.answer
  simp only [hw, List.getElem?_eq_getElem hlt, Option.bind_eq_bind, Option.bind_some]
  split <;> exact ⟨_, rfl⟩

theorem exists_wake {dropped : Option Task} (hw : s.workers[w]? = some (.posted dropped)) :
    ∃ s', s.wake w = some s' := by
  unfold Broker.wake
  simp only [hw, Option.bind_eq_bind, Option.bind_some]
  exact ⟨_, rfl⟩

theorem exists_selectRead (config : BrokerConfiguration) {chunk : List UInt8}
    {rxBuffer : ByteBuffer}
    (hi : s.clients[i]? = some client) (hvalid : client.selectionKey.isValid = true)
    (hrx : s.heap[client.rxBuffer]? = some rxBuffer) (hroom : chunk.length ≤ rxBuffer.remaining) :
    ∃ s', s.selectRead config i (some chunk) = some s' := by
  unfold Broker.selectRead
  simp only [hi, hrx, Option.bind_eq_bind, Option.bind_some, receive_eq]
  rw [if_pos ⟨hvalid, hroom⟩]
  exact ⟨_, rfl⟩

/-- A connection with something to send writes the first byte. -/
theorem exists_selectWrite (hi : s.clients[i]? = some client)
    (hvalid : client.selectionKey.isValid = true) (hop : client.selectionKey.opWrite = true)
    (hne : sending s.heap client ≠ []) : ∃ s', s.selectWrite i 1 = some s' := by
  unfold sending Views.viewSlot at hne
  rw [if_pos hop] at hne
  unfold Broker.selectWrite
  simp only [hi, Option.bind_eq_bind, Option.bind_some]
  rw [if_pos ⟨hvalid, hop⟩]
  cases htx : client.txBuffer with
  | none => exact ⟨_, rfl⟩
  | some tx =>
    rw [htx, Option.bind_some] at hne
    cases hheap : s.heap[tx]? with
    | none =>
      rw [hheap] at hne
      exact absurd rfl hne
    | some txBuffer =>
      rw [hheap, Option.elim_some, ← List.length_pos_iff, ByteBuffer.length_rest] at hne
      simp only [hheap, Option.bind_some]
      rw [if_pos (show 1 ≤ txBuffer.remaining from hne)]
      exact ⟨_, rfl⟩

end Mlmq.Server.Steady
