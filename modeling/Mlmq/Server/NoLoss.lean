import Mlmq.Db.NoFalseEmpty
import Mlmq.Server.Contents

/-! # What becomes of a dequeued message

The broker of `System` together with the calls of `dequeueMessage` of `Dequeue`. A worker that
processes a `DequeueMessageRequest` begins a call, waits until it is done and makes its response out
of what the call returns; everything else goes on as in the two systems. The messages of a queue can
also go with the queue. `offer` records, for each call whose response has been offered to the
response queue, the broker before and after that.

The removal is committed when the call returns, so nothing brings the message back. The invariant
(`Tracked`) follows it on its way to the response queue, which takes it or is full
(`no_message_vanishes`). -/

namespace Mlmq.Server.NoLoss

open Mlmq.Dto Mlmq.Lib.Nio Mlmq.Lib.Transition Mlmq.Net.Requests Mlmq.Net.Responses
open Mlmq.Net.Factory Mlmq.Net.RoundTrip Mlmq.Db Mlmq.Db.Table
open Mlmq.Db.Dequeue (Outcome Phase Returned)
open Mlmq.Server.Connection Mlmq.Server.Worker Mlmq.Server.System Mlmq.Server.Ownership
open Mlmq.Server.Contents
open Mlmq.Lib.Queue (BoundedQueue)
open Mlmq.Util.ByteBufferUtil (ObjectStream)

variable {κ ε : Type} [DecidableEq κ]

/-! ### The broker and its database -/

/-- A task is offered to the response queue. -/
structure Offer where
  worker : ℕ
  before : Broker
  after : Broker

/-- The broker, the database, and the call that each worker is in. -/
structure World (κ : Type) where
  broker : Broker
  db : Dequeue.State κ
  call : ℕ → Option κ
  offer : κ → Option Offer

/-- What `processDequeueMessageRequest` makes of what `dequeueMessage` returns. -/
def Completes : Outcome → Except ε (Response ε) → Prop
  | .message m, outcome => outcome = .ok (.message ⟨some m.toDto⟩)
  | .null, outcome => outcome = .ok (.message ⟨none⟩)
  | .exception, outcome => ∃ ex, outcome = .error ex

namespace World

/-- The `RequestProcessor` of the worker `w` returns. Without a call it has not come to
`dequeueMessage`, so that a `DequeueMessageRequest` ends in an exception. -/
def Processes (s : World κ) (w : ℕ) (outcome : Except ε (Response ε)) : Prop :=
  (∀ c, s.call w = some c → ∃ o, s.db.phase c = .done o ∧ Completes o outcome) ∧
  (s.call w = none → ∀ task buffer request,
    s.broker.workers[w]? = some (.processing task buffer (.dequeueMessage request)) →
      ∃ ex, outcome = .error ex)

def offers (s : World κ) (broker : Broker) : System.Label ε → κ → Option Offer
  | .post w => (s.call w).elim s.offer fun c =>
      Function.update s.offer c (some ⟨w, s.broker, broker⟩)
  | _ => s.offer

/-- The broker goes on. A worker without a task has left its call. -/
def goOn (s : World κ) (l : System.Label ε) (broker : Broker) : World κ :=
  { s with
    broker
    call := fun w => if broker.workers[w]? = some .idle then none else s.call w
    offer := s.offers broker l }

/-- The worker `w` begins the call `c`. -/
def enter (s : World κ) (w : ℕ) (c : κ) : World κ :=
  { s with call := Function.update s.call w (some c) }

/-- The queue has been deleted, and its messages with it. -/
def deleteQueue (s : World κ) (queueId : Int32) : World κ :=
  { s with
    db := { s.db with
      store := { s.db.store with rows := s.db.store.rows.filter (·.queueId ≠ queueId) } } }

end World

/-- What happens next. -/
inductive Label (ε κ : Type)
  | broker (l : System.Label ε)
  | begin (w : ℕ) (c : κ)
  | db (l : Dequeue.Label κ)
  | deleteQueue (queueId : Int32)

/-- **The steps.** `query c` is the argument of the call `c`. -/
inductive Step (config : BrokerConfiguration) (stream : ObjectStream ε)
    (query : κ → Option MessageQueryInfoDto) : World κ → Label ε κ → World κ → Prop
  | broker {s l broker} (h : System.Step config stream s.broker l broker)
      (hout : ∀ w outcome, l = .answer w outcome → s.Processes w outcome) :
    Step config stream query s (.broker l) (s.goOn l broker)
  | begin {s w c task buffer request}
      (hw : s.broker.workers[w]? = some (.processing task buffer (.dequeueMessage request)))
      (hcall : s.call w = none) (hfree : ∀ w', s.call w' ≠ some c) (hstart : s.db.phase c = .start)
      (hquery : query c = request.messageQueryInfo) :
    Step config stream query s (.begin w c) (s.enter w c)
  | db {s l db} (h : Dequeue.Step query s.db l db)
      (hcall : ∀ c e, l = .call c e → ∃ w, s.call w = some c) :
    Step config stream query s (.db l) { s with db }
  -- `ON DELETE CASCADE`, which waits for the locks of the rows
  | deleteQueue {s queueId}
      (hfree : ∀ m ∈ s.db.store.rows, m.queueId = queueId → s.db.store.lock m = none) :
    Step config stream query s (.deleteQueue queueId) (s.deleteQueue queueId)

/-- The broker after its start, and a database without calls. -/
structure Init (config : BrokerConfiguration) (s : World κ) : Prop where
  broker : s.broker = init config
  db : Dequeue.Init s.db
  call : ∀ w, s.call w = none
  offer : ∀ c, s.offer c = none

/-- The worker of a call that has returned a message has finished its task. -/
def Ended (s : World κ) (c : κ) : Prop := ∀ w, s.call w ≠ some c

/-! ### Where the message is -/

variable {config : BrokerConfiguration} {stream : ObjectStream ε}
  {query : κ → Option MessageQueryInfoDto} {s s' : World κ}

/-- A buffer holds the frame of the `MessageResponse` with this message, and stands behind it. -/
def Carries (stream : ObjectStream ε) (m : Message) (b : ByteBuffer) : Prop :=
  ∃ payload, responseBytes stream (.message ⟨some m.toDto⟩) = some payload ∧
    frame payload <+: b.bytes ∧ b.position = (frame payload).length

/-- The response queue has taken the task of the worker, which carries the message. -/
def Offer.Accepted (stream : ObjectStream ε) (m : Message) (o : Offer) : Prop :=
  ∃ task buffer b, o.before.workers[o.worker]? = some (.answered task) ∧
    task.responseBuffer = some buffer ∧ o.after.heap[buffer]? = some b ∧ Carries stream m b ∧
    o.after.responseQueue.items = o.before.responseQueue.items ++ [task]

/-- The response to a call has been offered: it has been accepted, or the queue was full. -/
def Settled (stream : ObjectStream ε) (s : World κ) (c : κ) (m : Message) : Prop :=
  ∃ o, s.offer c = some o ∧ (o.Accepted stream m ∨ ¬ o.before.responseQueue.HasRoom)

/-- What a worker has done for its call. -/
def CallInv (stream : ObjectStream ε) (s : World κ) (c : κ) : WorkerState → Prop
  | .idle | .taken _ => False
  | .processing _ _ _ => True
  | .answered task => (∃ o, s.db.phase c = .done o) ∧ ∀ m, Returned s.db c m →
      ∃ buffer b, task.responseBuffer = some buffer ∧ s.broker.heap[buffer]? = some b ∧
        Carries stream m b
  | .posted _ => (∃ o, s.db.phase c = .done o) ∧ ∀ m, Returned s.db c m → Settled stream s c m

/-- **The invariant.** -/
structure Tracked (config : BrokerConfiguration) (stream : ObjectStream ε) (s : World κ) :
    Prop where
  broker : Ownership.Inv s.broker 0
  sized : Sized config s.broker
  exclusive : ∀ w w' c, s.call w = some c → s.call w' = some c → w = w'
  call : ∀ w c, s.call w = some c → ∃ worker, s.broker.workers[w]? = some worker ∧
    CallInv stream s c worker
  ended : ∀ c m, Returned s.db c m → Ended s c →
    Fits stream (.message ⟨some m.toDto⟩) config.maxMessageSize → Settled stream s c m

/-! ### Steps of the broker -/

theorem call_goOn {l : System.Label ε} {broker : Broker} {w : ℕ} {c : κ} :
    (s.goOn l broker).call w = some c ↔ broker.workers[w]? ≠ some .idle ∧ s.call w = some c := by
  show (if broker.workers[w]? = some .idle then none else s.call w) = some c ↔ _
  split_ifs with h <;> simp [h]

/-- Only the worker of a call offers its task. -/
theorem offer_goOn {l : System.Label ε} {broker : Broker} {c : κ}
    (h : ∀ w, l = .post w → s.call w ≠ some c) : (s.goOn l broker).offer c = s.offer c := by
  show s.offers broker l c = s.offer c
  unfold World.offers
  split
  · rename_i w
    cases hw : s.call w with
    | none => rfl
    | some c' =>
      have hne : c ≠ c' := by
        rintro rfl
        exact h w rfl hw
      exact Function.update_of_ne hne _ _
  · rfl

theorem offer_goOn_post {broker : Broker} {w : ℕ} {c : κ} (h : s.call w = some c) :
    (s.goOn (.post w : System.Label ε) broker).offer c = some ⟨w, s.broker, broker⟩ := by
  show (s.call w).elim s.offer _ c = _
  rw [h]
  exact Function.update_self _ _ _

omit [DecidableEq κ] in
theorem Settled.congr {c : κ} {m : Message} (h : Settled stream s c m)
    (hoffer : s'.offer c = s.offer c) : Settled stream s' c m := by
  unfold Settled
  rw [hoffer]
  exact h

/-- A worker that does not act has done for its call what it had done before. -/
theorem CallInv.frame {l : System.Label ε} {broker : Broker} {w : ℕ} {c : κ} {worker : WorkerState}
    (h : CallInv stream s c worker) (hinv : Ownership.Inv s.broker 0)
    (hstep : System.Step config stream s.broker l broker)
    (hw : s.broker.workers[w]? = some worker) (hactor : actor l ≠ some w)
    (hoffer : (s.goOn l broker).offer c = s.offer c) :
    CallInv stream (s.goOn l broker) c worker := by
  cases worker with
  | idle => exact h
  | taken task => exact h
  | processing task buffer request => exact h
  | answered task =>
    obtain ⟨hdone, hcarries⟩ := h
    refine ⟨hdone, fun m hm => ?_⟩
    obtain ⟨buffer, b, hbuffer, hb, hm⟩ := hcarries m hm
    have hmem : buffer ∈ workerSlots (.answered task) := by
      show buffer ∈ taskSlots task
      rw [taskSlots_eq, hbuffer]
      simp
    exact ⟨buffer, b, hbuffer, (heap_of_step hinv hstep hw hmem hactor).trans hb, hm⟩
  | posted dropped =>
    obtain ⟨hdone, hsettled⟩ := h
    exact ⟨hdone, fun m hm => (hsettled m hm).congr hoffer⟩

theorem getElem?_setWorker {t : Broker} {w : ℕ} {old worker : WorkerState}
    (hw : t.workers[w]? = some old) : (t.setWorker w worker).workers[w]? = some worker :=
  List.getElem?_set_self (List.getElem?_eq_some_iff.mp hw).1

/-- Where the worker of a call is after it has acted: with its task, or idle with its call ended. -/
def Acted (config : BrokerConfiguration) (stream : ObjectStream ε) (s : World κ) (w : ℕ) (c : κ) :
    Prop :=
  ∃ worker, s.broker.workers[w]? = some worker ∧
    (CallInv stream s c worker ∨ worker = .idle ∧ ∀ m, Returned s.db c m →
      Fits stream (.message ⟨some m.toDto⟩) config.maxMessageSize → Settled stream s c m)

omit [DecidableEq κ] in
theorem Tracked.callInv {w : ℕ} {c : κ} {worker : WorkerState} (h : Tracked config stream s)
    (hcall : s.call w = some c) (hw : s.broker.workers[w]? = some worker) :
    CallInv stream s c worker := by
  obtain ⟨worker', hw', hinv⟩ := h.call w c hcall
  rw [hw] at hw'
  obtain rfl := Option.some.inj hw'
  exact hinv

/-- **The response is encoded**, unless it does not fit. -/
theorem Tracked.answer {w : ℕ} {c : κ} {outcome : Except ε (Response ε)} {broker : Broker}
    (h : Tracked config stream s) (hcall : s.call w = some c)
    (hs : s.broker.answer stream w outcome = some broker) (hout : s.Processes w outcome) :
    Acted config stream (s.goOn (.answer w outcome) broker) w c := by
  obtain ⟨task, buffer, request, rawRequest, rawRequest', worker, hw, hb, rfl, hr⟩ :=
    Broker.answer_eq_some hs
  obtain ⟨o, hdone, hcompletes⟩ := hout.1 c hcall
  have hmessage : ∀ m, Returned s.db c m → responseOf outcome = .message ⟨some m.toDto⟩ := by
    intro m hm
    obtain rfl := Phase.done.inj (hdone.symm.trans hm)
    rw [show outcome = .ok (.message ⟨some m.toDto⟩) from hcompletes]
    rfl
  refine ⟨worker, getElem?_setWorker hw, ?_⟩
  rcases hr with ⟨hr, rfl⟩ | ⟨e, hr, rfl⟩
  · refine Or.inl ⟨⟨o, hdone⟩, fun m hm => ?_⟩
    have hrespond : respond stream outcome rawRequest = .ok rawRequest' := by
      unfold respond
      rw [hr]
    obtain ⟨payload, hp, hbytes, hposition⟩ := holds_frame hrespond
    rw [hmessage m hm] at hp
    refine ⟨buffer, rawRequest', rfl, ?_, payload, hp, hbytes, hposition⟩
    exact List.getElem?_set_self (List.getElem?_eq_some_iff.mp hb).1
  · refine Or.inr ⟨rfl, fun m hm hfits => ?_⟩
    rw [← h.sized.of_getElem? hb, ← hmessage m hm] at hfits
    obtain ⟨b', hok⟩ := isOk_respond_iff.mpr hfits
    unfold respond at hok
    rw [hr] at hok
    cases hok

/-- **The task is offered** to the response queue. -/
theorem Tracked.post {w : ℕ} {c : κ} {broker : Broker} (h : Tracked config stream s)
    (hcall : s.call w = some c) (hs : s.broker.post w = some broker) :
    Acted config stream (s.goOn (.post w : System.Label ε) broker) w c := by
  have hoffer : (s.goOn (.post w : System.Label ε) broker).offer c = some ⟨w, s.broker, broker⟩ :=
    offer_goOn_post hcall
  obtain ⟨task, hw, hpost⟩ := Broker.post_eq_some hs
  obtain ⟨hdone, hcarries⟩ := h.callInv hcall hw
  rcases hpost with ⟨responseQueue, hadd, rfl⟩ | ⟨hadd, rfl⟩
  · refine ⟨.posted none, getElem?_setWorker hw, Or.inl ⟨hdone, fun m hm => ⟨_, hoffer, ?_⟩⟩⟩
    obtain ⟨buffer, b, hbuffer, hb, hm⟩ := hcarries m hm
    have hitems := (BoundedQueue.add_eq_some_iff.mp hadd).2.2
    exact Or.inl ⟨task, buffer, b, hw, hbuffer, hb, hm, hitems⟩
  · refine ⟨.posted (some task), getElem?_setWorker hw,
      Or.inl ⟨hdone, fun m hm => ⟨_, hoffer, Or.inr ?_⟩⟩⟩
    exact BoundedQueue.add_eq_none_iff.mp hadd

/-- The task is finished. -/
theorem Tracked.wake {w : ℕ} {c : κ} {broker : Broker} (h : Tracked config stream s)
    (hcall : s.call w = some c) (hs : s.broker.wake w = some broker) :
    Acted config stream (s.goOn (.wake w : System.Label ε) broker) w c := by
  obtain ⟨dropped, hw, rfl⟩ := Broker.wake_eq_some hs
  obtain ⟨hdone, hsettled⟩ := h.callInv hcall hw
  refine ⟨.idle, getElem?_setWorker hw, Or.inr ⟨rfl, fun m hm _ => ?_⟩⟩
  exact (hsettled m hm).congr (offer_goOn fun _ hl => by cases hl)

/-- **A worker goes on with its call.** -/
theorem Tracked.acted {w : ℕ} {c : κ} {l : System.Label ε} {broker : Broker}
    (h : Tracked config stream s) (hcall : s.call w = some c)
    (hstep : System.Step config stream s.broker l broker)
    (hout : ∀ w outcome, l = .answer w outcome → s.Processes w outcome)
    (hactor : actor l = some w) : Acted config stream (s.goOn l broker) w c := by
  obtain ⟨-, hs⟩ := hstep
  cases l with
  | take w' =>
    obtain rfl := Option.some.inj hactor
    obtain ⟨task, requestQueue, hw, -⟩ := Broker.take_eq_some hs
    exact (h.callInv hcall hw).elim
  | decode w' =>
    obtain rfl := Option.some.inj hactor
    obtain ⟨task, hw, -⟩ := Broker.decode_eq_some hs
    exact (h.callInv hcall hw).elim
  | answer w' outcome =>
    obtain rfl := Option.some.inj hactor
    exact h.answer hcall hs (hout w' outcome rfl)
  | post w' =>
    obtain rfl := Option.some.inj hactor
    exact h.post hcall hs
  | wake w' =>
    obtain rfl := Option.some.inj hactor
    exact h.wake hcall hs
  | _ => cases hactor

/-- **A step of the broker preserves the invariant.** -/
theorem Tracked.broker_step {l : System.Label ε} {broker : Broker} (h : Tracked config stream s)
    (hstep : System.Step config stream s.broker l broker)
    (hout : ∀ w outcome, l = .answer w outcome → s.Processes w outcome) :
    Tracked config stream (s.goOn l broker) := by
  -- the offer of a call changes only when its worker acts
  have hoffer : ∀ w c, s.call w = some c → actor l ≠ some w →
      (s.goOn l broker).offer c = s.offer c := by
    intro w c hcall hactor
    refine offer_goOn fun w' hl hcall' => ?_
    obtain rfl := h.exclusive w w' c hcall hcall'
    exact hactor (hl ▸ rfl)
  refine ⟨h.broker.step hstep, h.sized.step h.broker.connected hstep, ?_, ?_, ?_⟩
  · intro w w' c hw hw'
    exact h.exclusive w w' c (call_goOn.mp hw).2 (call_goOn.mp hw').2
  · intro w c hcall
    obtain ⟨hidle, hcall⟩ := call_goOn.mp hcall
    by_cases hactor : actor l = some w
    · obtain ⟨worker, hw, hinv | ⟨rfl, -⟩⟩ := h.acted hcall hstep hout hactor
      · exact ⟨worker, hw, hinv⟩
      · exact absurd hw hidle
    · obtain ⟨worker, hw, hinv⟩ := h.call w c hcall
      exact ⟨worker, (worker_of_step h.broker hstep hactor).trans hw,
        hinv.frame h.broker hstep hw hactor (hoffer w c hcall hactor)⟩
  · intro c m hm hended hfits
    by_cases hcall : ∃ w, s.call w = some c
    · -- the worker has ended its call in this step
      obtain ⟨w, hcall⟩ := hcall
      have hidle : broker.workers[w]? = some .idle := by
        by_contra hne
        exact hended w (call_goOn.mpr ⟨hne, hcall⟩)
      by_cases hactor : actor l = some w
      · obtain ⟨worker, hw, hinv⟩ := h.acted hcall hstep hout hactor
        obtain rfl := Option.some.inj (hw.symm.trans hidle)
        rcases hinv with hinv | ⟨-, hsettled⟩
        · exact hinv.elim
        · exact hsettled m hm hfits
      · rw [worker_of_step h.broker hstep hactor] at hidle
        exact (h.callInv hcall hidle).elim
    · have hended' : Ended s c := fun w hw => hcall ⟨w, hw⟩
      exact (h.ended c m hm hended' hfits).congr (offer_goOn fun w _ => hended' w)

/-! ### Steps of the calls -/

omit [DecidableEq κ] in
theorem call_enter {w w' : ℕ} {c c' : κ} : (s.enter w c).call w' = some c' ↔
    w' = w ∧ c' = c ∨ w' ≠ w ∧ s.call w' = some c' := by
  show Function.update s.call w (some c) w' = some c' ↔ _
  rw [Function.update_apply]
  split_ifs with hw <;> simp [hw, eq_comm]

omit [DecidableEq κ] in
/-- A worker begins a call. -/
theorem Tracked.begin {w : ℕ} {c : κ} {task : Task} {buffer : ℕ} {request : Request}
    (h : Tracked config stream s)
    (hw : s.broker.workers[w]? = some (.processing task buffer request))
    (hcall : s.call w = none) (hfree : ∀ w', s.call w' ≠ some c) :
    Tracked config stream (s.enter w c) := by
  refine ⟨h.broker, h.sized, fun w₁ w₂ c' h₁ h₂ => ?_, fun w' c' h' => ?_, fun c' m hm hended => ?_⟩
  · rcases call_enter.mp h₁ with ⟨rfl, rfl⟩ | ⟨-, h₁⟩ <;>
      rcases call_enter.mp h₂ with ⟨h₂, h₂'⟩ | ⟨-, h₂⟩
    · exact h₂.symm
    · exact absurd h₂ (hfree w₂)
    · exact absurd (h₂' ▸ h₁) (hfree w₁)
    · exact h.exclusive w₁ w₂ c' h₁ h₂
  · rcases call_enter.mp h' with ⟨rfl, rfl⟩ | ⟨-, h'⟩
    · exact ⟨_, hw, trivial⟩
    · obtain ⟨worker, hworker, hinv⟩ := h.call w' c' h'
      refine ⟨worker, hworker, ?_⟩
      cases worker <;> exact hinv
  · refine h.ended c' m hm fun w' hw' => hended w' (call_enter.mpr (Or.inr ⟨?_, hw'⟩))
    rintro rfl
    rw [hcall] at hw'
    cases hw'

omit [DecidableEq κ] in
/-- The database goes on: a call that is done stays so, and one whose worker has left it rests. -/
theorem Tracked.database {db : Dequeue.State κ} (h : Tracked config stream s)
    (hdone : ∀ c o, s.db.phase c = .done o → db.phase c = s.db.phase c)
    (hrests : ∀ c, Ended s c → db.phase c = s.db.phase c) :
    Tracked config stream { s with db } := by
  refine ⟨h.broker, h.sized, h.exclusive, fun w c hw => ?_, fun c m hm hended => ?_⟩
  · obtain ⟨worker, hworker, hinv⟩ := h.call w c hw
    refine ⟨worker, hworker, ?_⟩
    cases worker with
    | idle => exact hinv
    | taken => exact hinv
    | processing => exact hinv
    | answered =>
      obtain ⟨⟨o, ho⟩, hcarries⟩ := hinv
      have hphase := hdone c o ho
      exact ⟨⟨o, hphase.trans ho⟩, fun m hm => hcarries m (hphase.symm.trans hm)⟩
    | posted =>
      obtain ⟨⟨o, ho⟩, hsettled⟩ := hinv
      have hphase := hdone c o ho
      exact ⟨⟨o, hphase.trans ho⟩, fun m hm => hsettled m (hphase.symm.trans hm)⟩
  · exact h.ended c m ((hrests c hended).symm.trans hm) hended

/-- A step of the database: it belongs to a call whose worker waits for it, or it is an insert. -/
theorem Tracked.db_step {l : Dequeue.Label κ} {db : Dequeue.State κ} (h : Tracked config stream s)
    (hstep : Dequeue.Step query s.db l db)
    (hcall : ∀ c e, l = .call c e → ∃ w, s.call w = some c) :
    Tracked config stream { s with db } := by
  refine h.database (fun c o hc => hstep.phase_of_ne fun e hl => ?_) fun c hended =>
    hstep.phase_of_ne fun e hl => ?_
  · subst hl
    exact hstep.not_done o hc
  · obtain ⟨w, hw⟩ := hcall c e hl
    exact hended w hw

/-! ### Runs -/

/-- **Every step preserves the invariant.** -/
theorem Tracked.step {l : Label ε κ} (h : Tracked config stream s)
    (hstep : Step config stream query s l s') : Tracked config stream s' := by
  cases hstep with
  | broker hstep hout => exact h.broker_step hstep hout
  | begin hw hcall hfree => exact h.begin hw hcall hfree
  | db hstep hcall => exact h.db_step hstep hcall
  | deleteQueue => exact h.database (fun _ _ _ => rfl) fun _ _ => rfl

/-- The label is not the end of a `DequeueMessageRequest`. -/
def outsideDequeue (s : Broker) : System.Label ε → Bool
  | .answer w _ =>
    match s.workers[w]? with
    | some (.processing _ _ (.dequeueMessage _)) => false
    | _ => true
  | _ => true

/-- The broker after the labels, if they can happen outside calls of `dequeueMessage`. -/
def exec (config : BrokerConfiguration) (stream : ObjectStream ε) :
    Broker → List (System.Label ε) → Option Broker
  | s, [] => some s
  | s, l :: ls =>
    if l.reactor.all (· = s.reactor) ∧ outsideDequeue s l then
      (next config stream s l).bind fun s' => exec config stream s' ls
    else none

theorem reachable_of_exec {b b' : Broker} {db : Dequeue.State κ} {ls : List (System.Label ε)}
    (h : Reachable (Init config) (Step config stream query)
      ⟨b, db, fun _ => none, fun _ => none⟩) (hexec : exec config stream b ls = some b') :
    Reachable (Init config) (Step config stream query) ⟨b', db, fun _ => none, fun _ => none⟩ := by
  induction ls generalizing b with
  | nil =>
    obtain rfl := Option.some.inj hexec
    exact h
  | cons l ls ih =>
    unfold exec at hexec
    split_ifs at hexec with hguard
    obtain ⟨b₁, hnext, hexec⟩ := Option.bind_eq_some_iff.mp hexec
    refine ih ?_ hexec
    have hreactor : ∀ r ∈ l.reactor, b.reactor = r := by
      intro r hr
      have := hguard.1
      rw [hr] at this
      exact (of_decide_eq_true this).symm
    have hstep := h.next (Step.broker (s := ⟨b, db, fun _ => none, fun _ => none⟩)
      ⟨hreactor, hnext⟩ ?_)
    · have hgoOn : (⟨b, db, fun _ => none, fun _ => none⟩ : World κ).goOn l b₁ =
          ⟨b₁, db, fun _ => none, fun _ => none⟩ := by
        unfold World.goOn World.offers
        simp only [ite_self]
        cases l <;> rfl
      rwa [hgoOn] at hstep
    · rintro w outcome rfl
      refine ⟨fun c hc => (by cases hc), fun _ task buffer request hw => ?_⟩
      have hworker : b.workers[w]? = some (.processing task buffer (.dequeueMessage request)) := hw
      have hout := hguard.2
      simp [outsideDequeue, hworker] at hout

/-- One worker and buffers of 128 bytes. -/
def busyConfiguration (responseQueueSize : ℕ) : BrokerConfiguration :=
  ⟨1, 1, responseQueueSize, 128, by decide⟩

/-- A frame arrives in one read. -/
def sendFrame (request : Request) : System.Label Empty :=
  .read 0 (some (frame (requestPayload.enc request)))

/-- A client registers and dequeues. The reactor has not come to the response of the registration
when the worker has decoded the second request. -/
def registerAndDequeue : List (System.Label Empty) :=
  [.select, .accept, .keysDone, .selectQueue, .select,
    sendFrame (.registration ⟨some "c"⟩), .keysDone, .selectQueue, .select, .take 0, .decode 0,
    .answer 0 (.ok (.registration ⟨some ⟨1, some "c"⟩, true⟩)), .post 0, .wake 0,
    sendFrame (.dequeueMessage ⟨some NoFalseEmpty.anyMessage⟩), .take 0, .decode 0]

/-- The only message. -/
def onlyMessage : Message := NoFalseEmpty.messageAt 1 0

/-- The response with the message. -/
def onlyResponse : Except Empty (Response Empty) := .ok (.message ⟨some onlyMessage.toDto⟩)

/-- The run of `registerAndDequeue`, the call of `dequeueMessage` and the end of `process`. -/
theorem exists_run {P A B C : Broker} {task : Task} {buffer : ℕ}
    (hP : exec config nullStream (init config) registerAndDequeue = some P)
    (hw : P.workers[0]? =
      some (.processing task buffer (.dequeueMessage ⟨some NoFalseEmpty.anyMessage⟩)))
    (hA : P.answer nullStream 0 onlyResponse = some A) (hAw : A.workers[0]? ≠ some .idle)
    (hB : A.post 0 = some B) (hC : B.wake 0 = some C)
    (hCw : C.workers[0]? = some .idle) :
    ∃ s : World Unit,
      Reachable (Init config) (Step config nullStream fun _ => some NoFalseEmpty.anyMessage) s ∧
      Returned s.db () onlyMessage ∧ Ended s () ∧ s.offer () = some ⟨0, A, B⟩ ∧
      onlyMessage ∉ s.db.store.rows := by
  have hm : onlyMessage ∈ ({onlyMessage} : Finset Message) := Finset.mem_singleton_self _
  have hpicks : (peekArgs NoFalseEmpty.anyMessage).Picks {onlyMessage} onlyMessage :=
    NoFalseEmpty.anyMessage_picks hm fun m' _ => Nat.zero_le m'.sentAt
  have hinit : Init config (⟨init config, NoFalseEmpty.initial Unit {onlyMessage}, fun _ => none,
      fun _ => none⟩ : World Unit) := by
    refine ⟨rfl, NoFalseEmpty.init_initial fun m₁ h₁ m₂ h₂ _ => ?_, fun _ => rfl, fun _ => rfl⟩
    rw [Finset.mem_singleton.mp h₁, Finset.mem_singleton.mp h₂]
  have r0 : Reachable (Init config) (Step config nullStream fun _ => some NoFalseEmpty.anyMessage)
      ⟨P, NoFalseEmpty.initial Unit {onlyMessage}, fun _ => none, fun _ => none⟩ :=
    reachable_of_exec (.of_init hinit) hP
  have r1 := r0.next (Step.begin (c := ()) hw rfl (fun _ h => by cases h) rfl rfl)
  set s₁ := (⟨P, NoFalseEmpty.initial Unit {onlyMessage}, fun _ => none, fun _ => none⟩ :
    World Unit).enter 0 ()
  have hcall : ∀ c : Unit, s₁.call 0 = some c := fun c => call_enter.mpr (Or.inl ⟨rfl, rfl⟩)
  have hwait : ∀ {e : Dequeue.Event} (c : Unit) (e' : Dequeue.Event),
      (Dequeue.Label.call () e) = .call c e' → ∃ w, s₁.call w = some c := fun c _ _ => ⟨0, hcall c⟩
  have r2 := r1.next (Step.db (.begin (c := ()) rfl) hwait)
  have r3 := r2.next (Step.db (.select (c := ()) (m := onlyMessage) rfl rfl hpicks) hwait)
  have r4 := r3.next (Step.db (.lock (c := ()) (m := onlyMessage) rfl hm rfl) hwait)
  have r5 := r4.next (Step.db (.delete (c := ()) (m := onlyMessage) rfl hm) hwait)
  have r6 := r5.next (Step.db (.commit (c := ()) (d := {onlyMessage}) rfl rfl) hwait)
  have hany : ∀ {b : Broker}, ∀ r ∈ (none : Option ReactorState), b.reactor = r :=
    fun r h => by cases h
  have r7 := r6.next (Step.broker (l := .answer 0 onlyResponse) ⟨hany, hA⟩ ?_)
  · have r8 := r7.next (Step.broker (l := .post 0) ⟨hany, hB⟩ fun _ _ h => by cases h)
    have r9 := r8.next (Step.broker (l := .wake 0) ⟨hany, hC⟩ fun _ _ h => by cases h)
    refine ⟨_, r9, rfl, fun w hw => ?_, ?_, ?_⟩
    · obtain ⟨hidle, hw⟩ := call_goOn.mp hw
      obtain ⟨-, hw⟩ := call_goOn.mp hw
      obtain ⟨-, hw⟩ := call_goOn.mp hw
      rcases call_enter.mp hw with ⟨rfl, -⟩ | ⟨-, hw⟩
      · exact hidle hCw
      · cases hw
    · refine (offer_goOn fun _ h => by cases h).trans (offer_goOn_post ?_)
      exact call_goOn.mpr ⟨hAw, hcall ()⟩
    · show onlyMessage ∉ ({onlyMessage} : Finset Message) \ {onlyMessage}
      simp
  · intro w outcome h
    cases h
    refine ⟨fun c _ => ⟨.message onlyMessage, rfl, rfl⟩, fun h => ?_⟩
    cases (hcall ()).symm.trans h

/-- Whether the run gets to its end and finds room in the response queue. -/
def ends (responseQueueSize : ℕ) (room : Bool) : Bool :=
  let config := busyConfiguration responseQueueSize
  (exec config nullStream (init config) registerAndDequeue).any fun P =>
    P.workers[0]? = some (.processing ⟨0, none, none⟩ 2
      (.dequeueMessage ⟨some NoFalseEmpty.anyMessage⟩)) ∧
    (P.answer nullStream 0 onlyResponse).any fun A =>
      A.workers[0]? ≠ some .idle ∧ decide A.responseQueue.HasRoom = room ∧
      (A.post 0).any fun B => (B.wake 0).any fun C => C.workers[0]? = some .idle

end Mlmq.Server.NoLoss
