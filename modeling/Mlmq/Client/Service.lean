import Mlmq.Client.RemoteCalls
import Mlmq.Server.Accounting

/-! # The broker as a service

The broker and its clients together with the database. A worker processes a request with the
`RequestProcessor`, in the context of its connection, while no other request is being processed; so
this is the broker with one worker, or one whose requests do not get into each other's way. The
history has the requests in the order in which they have been processed.

Of all that happens in the network in between, nothing is seen: the history is a run of the
`RequestProcessor`, and what a client gets are the results of its own requests in their order
(`serves_as_one`). With the ledger of the messages it follows that a message is received by one call
only, and that a client has sent it (`received_once`). -/

namespace Mlmq.Client.Service

open Mlmq.Lib.Nio Mlmq.Lib.Transition Mlmq.Dto Mlmq.Db.Table Mlmq.Db.Schema Mlmq.Db.Dao
open Mlmq.Net.Requests Mlmq.Net.Responses Mlmq.Net.Factory Mlmq.Net.RoundTrip
open Mlmq.Server.Connection Mlmq.Server.System Mlmq.Server.Ownership Mlmq.Server.Contents
open Mlmq.Server.Flight Mlmq.Server.Motion Mlmq.Server.Routing Mlmq.Server.Traffic
open Mlmq.Server.Channel
open Mlmq.Server.Accounting Mlmq.Client.RemoteCalls
open Mlmq.Server.Processing (RequestStep Reliable Fault)
open Mlmq.Server.FrameSize (clientIoBufferCapacity)
open Mlmq.Server.Worker (responseOf)
open Mlmq.Util.ByteBufferUtil (ObjectStream)
open Mlmq.Client.ClientConnection (openedBuffer)

/-! ### States and steps -/

/-- A request that has been processed, with its connection and what it has ended with. -/
abbrev Served : Type := ℕ × Request × Outcome

structure State where
  network : RemoteCalls.World JavaException
  store : Server.Processing.State ℕ
  history : List Served

def start (config : BrokerConfiguration) (ioBuffers : ℕ → ByteBuffer) : State where
  network := RemoteCalls.init config ioBuffers
  store := .init
  history := []

/-- What a step does to the database. -/
def Processes (ok : Server.Processing.World → Op → Fault → Prop) (x : State) :
    Event JavaException → State → Prop
  | .broker (.answer w outcome), y => ∃ task buffer request,
      x.network.broker.workers[w]? = some (.processing task buffer request) ∧
      RequestStep ok x.store (task.clientContext, request, outcome) y.store ∧
      y.history = x.history ++ [(task.clientContext, request, outcome)]
  | _, y => y.store = x.store ∧ y.history = x.history

/-- The steps of the service, with the faults that `ok` admits. -/
def Serves (config : BrokerConfiguration) (stream : ObjectStream JavaException)
    (ok : Server.Processing.World → Op → Fault → Prop) (x : State) (e : Event JavaException)
    (y : State) : Prop :=
  RemoteCalls.Step config stream x.network e y.network ∧ Processes ok x e y

/-- The requests of a connection that have been processed. -/
def State.session (x : State) (i : ℕ) : List Served := x.history.filter fun l => l.1 = i

/-! ### Lists with gaps at the end only -/

section Dense

variable {α β : Type} {f : α → Option β} {as : List α}

/-- All but the last of the values are there, so none changes its place. -/
theorem getElem?_filterMap_iff (h : ∀ a ∈ as.dropLast, (f a).isSome) {k : ℕ} {b : β} :
    (as.filterMap f)[k]? = some b ↔ ∃ a, as[k]? = some a ∧ f a = some b := by
  induction as generalizing k with
  | nil => simp
  | cons a as ih =>
    cases as with
    | nil =>
      cases hfa : f a with
      | none =>
        rw [List.filterMap_cons_none hfa]
        cases k <;> simp [hfa]
      | some b' =>
        rw [List.filterMap_cons_some hfa]
        cases k <;> simp [hfa]
    | cons a' as =>
      rw [List.dropLast_cons_cons, List.forall_mem_cons] at h
      obtain ⟨b', hb'⟩ := Option.isSome_iff_exists.mp h.1
      rw [List.filterMap_cons_some hb']
      cases k with
      | zero => simp [hb']
      | succ k => exact ih h.2

end Dense

/-! ### Jobs that have not been processed -/

section Unprocessed

variable {ε : Type} {s s' : Broker} {J : Journal ε} {config : BrokerConfiguration}
  {stream : ObjectStream ε} {l : Label ε}

/-- A job has no result before its worker answers, and then it has that of its own request. -/
structure Unprocessed (s : Broker) (J : Journal ε) : Prop where
  fresh : ∀ n, J.swaps.length ≤ n → J.processed n = none
  waiting : ∀ x ∈ flights s, x.stage ≠ .responded → J.processed (J.job x.buffer) = none
  decoded : ∀ n processed, J.processed n = some processed → Decodes J n processed.request

theorem Unprocessed.quiet (h : Unprocessed s J) (hquiet : Quiet s s') : Unprocessed s' J :=
  ⟨h.fresh, fun x hx => h.waiting x (Multiset.mem_of_le hquiet.le hx), h.decoded⟩

/-- A buffer on its way gets a job that has no result. -/
theorem Unprocessed.cons {x : Server.Motion.Flight} {rest : Multiset Server.Motion.Flight}
    (h : Unprocessed s J) (hle : rest ≤ flights s) (hflights : flights s' = x ::ₘ rest)
    (hx : x.stage ≠ .responded → J.processed (J.job x.buffer) = none) : Unprocessed s' J := by
  refine ⟨h.fresh, fun y hy => ?_, h.decoded⟩
  rw [hflights, Multiset.mem_cons] at hy
  rcases hy with rfl | hy
  · exact hx
  · exact h.waiting y (Multiset.mem_of_le hle hy)

theorem Unprocessed.read {i : ℕ} {chunk : Option (List UInt8)} (h : Unprocessed s J)
    (hinv : Inv s 0) (hs : s.selectRead config i chunk = some s') :
    Unprocessed s' (J.record s (.read i chunk : Label ε)) := by
  obtain ⟨client, rxBuffer, -, hi, hvalid, hrx, -⟩ := Broker.selectRead_eq_some hs
  obtain ⟨hheap, hflights⟩ := flights_selectRead hinv hs
  have hne : ∀ x ∈ flights s, x.buffer ≠ client.rxBuffer := fun x hx =>
    ne_flight hinv hi (Server.Pipelining.mem_clientSlots_rx hvalid) hx
  rw [record_read_eq hi hrx]
  split_ifs with hc
  · -- the new job has the next number
    set z : Swap := ⟨i, client.rxBuffer, afterTest (rxBuffer.write (chunk.getD []))⟩
    have hjob : ∀ x ∈ flights s, (J.swap z).job x.buffer = J.job x.buffer := fun x hx =>
      Function.update_of_ne (hne x hx) _ _
    have hnew : (J.swap z).job client.rxBuffer = J.swaps.length := Function.update_self _ _ _
    have hswap : Unprocessed s (J.swap z) := by
      refine ⟨fun n hn => h.fresh n ?_, fun x hx hstage => ?_, fun n p hp =>
        (h.decoded n p hp).mono (List.prefix_append _ _)⟩
      · have hlength : (J.swap z).swaps.length = J.swaps.length + 1 := List.length_append
        omega
      · rw [hjob x hx]
        exact h.waiting x hx hstage
    rcases hflights with hflights | ⟨client', rxBuffer', hi', -, -, -, hflights, -⟩
    · exact hswap.quiet (.of_eq hflights hheap)
    · obtain rfl := Option.some.inj (hi.symm.trans hi')
      refine hswap.cons le_rfl hflights fun _ => ?_
      rw [hnew]
      exact h.fresh _ le_rfl
  · rcases hflights with hflights | ⟨client', rxBuffer', hi', -, hrx', hc', -⟩
    · exact h.quiet (.of_eq hflights hheap)
    · obtain rfl := Option.some.inj (hi.symm.trans hi')
      obtain rfl := Option.some.inj (hrx.symm.trans hrx')
      exact absurd hc' hc

theorem Unprocessed.answer {w : ℕ} {outcome : Except ε (Response ε)} (h : Unprocessed s J)
    (hinv : Inv s 0) (hshape : Shaped s) (hrouted : Routed stream s J)
    (hs : s.answer stream w outcome = some s') :
    Unprocessed s' (J.record s (.answer w outcome)) := by
  obtain ⟨c, b, request, raw, rest, hw, -, hflights, -, hnew⟩ := flights_answer hinv hshape hs
  have hrecord : J.record s (.answer w outcome) = J.process b ⟨c, request, outcome⟩ := by
    unfold Journal.record
    simp only [hw]
  have hold : (⟨.processing request, c, b⟩ : Server.Motion.Flight) ∈ flights s := by
    rw [hflights]
    exact Multiset.mem_cons_self _ _
  obtain ⟨swap, raw, hswap, -, -, -, hdecode⟩ := hrouted.knows _ hold
  have hlt : J.job b < J.swaps.length := (List.getElem?_eq_some_iff.mp hswap).1
  have hrest : ∀ x ∈ rest, x ∈ flights s := fun x hx => hflights ▸ Multiset.mem_cons_of_mem hx
  -- the other buffers work for other jobs
  have hjob : ∀ x ∈ rest, J.job x.buffer ≠ J.job b := fun x hx =>
    job_ne (hrouted.knows x (hrest x hx)) (hrouted.knows _ hold)
      (buffer_ne_of_cons hinv hflights hx)
  have hother : ∀ n, n ≠ J.job b → (J.process b ⟨c, request, outcome⟩).processed n =
      J.processed n := fun n hn => Function.update_of_ne hn _ _
  rw [hrecord]
  refine ⟨fun n hn => ?_, fun x hx hstage => ?_, fun n p hp => ?_⟩
  · have hn' : J.swaps.length ≤ n := hn
    rw [hother n (by omega)]
    exact h.fresh n hn'
  · have hx' : x ∈ rest := by
      rcases hnew with heq | ⟨raw', -, heq, -⟩
      · exact heq ▸ hx
      · rw [heq, Multiset.mem_cons] at hx
        rcases hx with rfl | hx
        · exact absurd rfl hstage
        · exact hx
    exact (hother _ (hjob x hx')).trans (h.waiting x (hrest x hx') hstage)
  · rcases eq_or_ne n (J.job b) with rfl | hn
    · have hself : (J.process b ⟨c, request, outcome⟩).processed (J.job b) =
          some ⟨c, request, outcome⟩ := Function.update_self _ _ _
      obtain rfl := Option.some.inj (hself.symm.trans hp)
      exact ⟨swap, raw, hswap, hdecode⟩
    · exact h.decoded n p ((hother n hn).symm.trans hp)

theorem Unprocessed.step (h : Unprocessed s J) (hgood : Good stream (s, J))
    (hlen : s.clients.length < 2 ^ 32) (hs : Server.System.Step config stream s l s') :
    Unprocessed s' (J.record s l) := by
  have hinv := hgood.inv
  cases l with
  | read i chunk => exact h.read hinv hs.2
  | decode w =>
    rcases flights_decode hinv hgood.shape hs.2 with hquiet | ⟨c, b, -, request, -, rest, hflights,
      hflights', -⟩
    · exact h.quiet hquiet
    · refine h.cons (hflights ▸ Multiset.le_cons_self _ _) hflights' fun _ => ?_
      exact h.waiting ⟨.requested, c, b⟩ (hflights ▸ Multiset.mem_cons_self _ _) nofun
  | answer w outcome => exact h.answer hinv hgood.shape (hgood.routed hlen) hs.2
  | selectQueue =>
    have hquiet : Unprocessed s' J := by
      rcases flights_selectQueue hinv hgood.shape hs.2 with ⟨-, hflights, hheap⟩ | ⟨c, b, -, -, -,
        hquiet⟩
      · exact h.quiet (.of_eq hflights fun x _ => by rw [hheap])
      · exact h.quiet hquiet
    exact ⟨hquiet.fresh, hquiet.waiting, hquiet.decoded⟩
  | _ => exact h.quiet (quiet_of_step hinv hs (by simp) (by simp) (by simp) (by simp))

theorem unprocessed_init (config : BrokerConfiguration) :
    Unprocessed (Server.System.init config) (.empty : Journal ε) :=
  ⟨fun _ _ => rfl, fun _ _ _ => rfl, fun _ _ hp => (Option.some_ne_none _ hp.symm).elim⟩

end Unprocessed

/-! ### The invariant -/

variable {config : BrokerConfiguration} {stream : ObjectStream JavaException}
  {ok : Server.Processing.World → Op → Fault → Prop} {x y : State} {i j n : ℕ}

/-- The entry of a job in the history. -/
def served (J : Journal JavaException) (n : ℕ) : Option Served :=
  (J.processed n).map fun p => (p.context, p.request, p.outcome)

/-- **The history has the results of the jobs**, and a client has one open call at most. -/
structure Recorded (x : State) : Prop where
  unprocessed : Unprocessed x.network.broker x.network.journal
  sessions : ∀ i, (jobsOf x.network.journal i).filterMap (served x.network.journal) = x.session i
  open_calls : ∀ i, (x.network.connections i).submitted.length ≤
    (x.network.connections i).returned.length + 1

/-- What holds in every state of a run. -/
structure Invariant (stream : ObjectStream JavaException) (x : State) : Prop where
  whole : Whole stream x.network
  recorded : x.network.broker.clients.length < 2 ^ 32 → Recorded x

section Connections

variable {c c' : RemoteCalls.Connection JavaException}

theorem proceed_calls (stream : ObjectStream JavaException)
    (c : RemoteCalls.Connection JavaException) (call : ClientConnection.Call) (b : ByteBuffer) :
    (c.proceed stream call b).submitted = c.submitted ∧
      c.returned.length ≤ (c.proceed stream call b).returned.length := by
  unfold RemoteCalls.Connection.proceed
  split
  · exact ⟨rfl, le_rfl⟩
  · exact ⟨rfl, by simp⟩
  · exact ⟨rfl, le_rfl⟩

theorem submit_calls {request : Request} (h : c.submit stream request = some c') :
    (∃ b, c.caller = .idle b) ∧ c'.submitted.length = c.submitted.length + 1 ∧
      c.returned.length ≤ c'.returned.length := by
  unfold RemoteCalls.Connection.submit at h
  split at h
  · rename_i b hcaller
    obtain rfl := Option.some.inj h
    obtain ⟨hsubmitted, hreturned⟩ := proceed_calls stream _ _ b
    exact ⟨⟨b, hcaller⟩, by rw [hsubmitted]; simp, hreturned⟩
  · cases h

theorem receive_calls {chunk : List UInt8} (h : c.receive stream chunk = some c') :
    c'.submitted = c.submitted ∧ c.returned.length ≤ c'.returned.length := by
  unfold RemoteCalls.Connection.receive at h
  split at h
  · split_ifs at h
    obtain rfl := Option.some.inj h
    exact proceed_calls stream _ _ _
  · cases h

end Connections

/-- Only a connection changes. -/
theorem Recorded.update {c' : RemoteCalls.Connection JavaException} (h : Recorded x)
    (hhistory : y.history = x.history) (hnetwork : y.network = { x.network with
      connections := Function.update x.network.connections j c' })
    (hc : c'.submitted.length ≤ c'.returned.length + 1) : Recorded y := by
  have hsession : ∀ i, y.session i = x.session i := fun i => by
    unfold State.session
    rw [hhistory]
  refine ⟨hnetwork ▸ h.unprocessed, fun i => ?_, fun i => ?_⟩
  · rw [hsession, hnetwork]
    exact h.sessions i
  · rw [hnetwork]
    show (Function.update x.network.connections j c' i).submitted.length ≤
      (Function.update x.network.connections j c' i).returned.length + 1
    rcases eq_or_ne i j with rfl | hne
    · rw [Function.update_self]
      exact hc
    · rw [Function.update_of_ne hne]
      exact h.open_calls i

section Broker

variable {s s' : Broker} {J : Journal JavaException} {l : Label JavaException}

/-- A job has the number of an exchange of its connection, and none occurs twice. -/
theorem mem_jobsOf : n ∈ jobsOf J i ↔ ∃ swap, J.swaps[n]? = some swap ∧ swap.connection = i := by
  unfold jobsOf
  rw [List.mem_filter, List.mem_range]
  constructor
  · rintro ⟨hlt, hany⟩
    rw [List.getElem?_eq_getElem hlt, Option.any_some, decide_eq_true_eq] at hany
    exact ⟨_, List.getElem?_eq_getElem hlt, hany⟩
  · rintro ⟨swap, hswap, rfl⟩
    refine ⟨(List.getElem?_eq_some_iff.mp hswap).1, ?_⟩
    rw [hswap, Option.any_some, decide_eq_true_eq]

theorem nodup_jobsOf (J : Journal JavaException) (i : ℕ) : (jobsOf J i).Nodup :=
  List.nodup_range.filter _

/-- **A step that does not answer** adds no result. -/
theorem sessions_record (h : Unprocessed s J) (hs : Server.System.Step config stream s l s')
    (hanswer : ∀ w outcome, l ≠ .answer w outcome) :
    (jobsOf (J.record s l) i).filterMap (served (J.record s l)) =
      (jobsOf J i).filterMap (served J) := by
  cases l with
  | read j chunk =>
    obtain ⟨client, rxBuffer, -, hj, -, hrx, -⟩ := Broker.selectRead_eq_some hs.2
    rw [record_read_eq hj hrx]
    split_ifs
    · set z : Swap := ⟨j, client.rxBuffer, afterTest (rxBuffer.write (chunk.getD []))⟩
      have hserved : served (J.swap z) = served J := rfl
      have hnew : served J J.swaps.length = none := by
        unfold served
        rw [h.fresh _ le_rfl, Option.map_none]
      rw [hserved, jobsOf_swap, List.filterMap_append]
      split_ifs
      · rw [List.filterMap_cons_none hnew, List.filterMap_nil, List.append_nil]
      · rw [List.filterMap_nil, List.append_nil]
    · rfl
  | answer w outcome => exact absurd rfl (hanswer w outcome)
  | _ => rfl

/-- **An answer** adds the result of the last job of its connection. -/
theorem sessions_answer {w : ℕ} {outcome : Outcome} {network : RemoteCalls.World JavaException}
    (hwhole : Whole stream network) (h : Unprocessed network.broker network.journal)
    (hlen : network.broker.clients.length < 2 ^ 32)
    (hs : network.broker.answer stream w outcome = some s') :
    ∃ c b request, network.broker.workers[w]? = some (.processing ⟨c, none, none⟩ b request) ∧
      ∀ i, (jobsOf (network.journal.record network.broker (.answer w outcome)) i).filterMap
          (served (network.journal.record network.broker (.answer w outcome))) =
        (jobsOf network.journal i).filterMap (served network.journal) ++
          if c = i then [(c, request, outcome)] else [] := by
  obtain ⟨c, b, request, raw, rest, hw, -, hflights, -⟩ :=
    flights_answer hwhole.good.inv hwhole.good.shape hs
  refine ⟨c, b, request, hw, fun i => ?_⟩
  set J := network.journal
  have hrecord : J.record network.broker (.answer w outcome) =
      J.process b ⟨c, request, outcome⟩ := by
    unfold Journal.record
    simp only [hw]
  have hold : (⟨.processing request, c, b⟩ : Server.Motion.Flight) ∈ flights network.broker := by
    rw [hflights]
    exact Multiset.mem_cons_self _ _
  obtain ⟨swap, -, hswap, hconnection, -⟩ := (hwhole.good.routed hlen).knows _ hold
  have hnone : served J (J.job b) = none := by
    unfold served
    rw [h.waiting _ hold nofun, Option.map_none]
  have hother : ∀ n, n ≠ J.job b → served (J.process b ⟨c, request, outcome⟩) n = served J n := by
    intro n hn
    unfold served
    rw [show (J.process b ⟨c, request, outcome⟩).processed n = J.processed n from
      Function.update_of_ne hn _ _]
  have hself : served (J.process b ⟨c, request, outcome⟩) (J.job b) =
      some (c, request, outcome) := by
    unfold served
    rw [show (J.process b ⟨c, request, outcome⟩).processed (J.job b) =
      some ⟨c, request, outcome⟩ from Function.update_self _ _ _, Option.map_some]
  have hjobs : jobsOf (J.process b ⟨c, request, outcome⟩) i = jobsOf J i := rfl
  rw [hrecord, hjobs]
  split_ifs with hc
  · -- the job is the last one of its connection
    subst hc
    obtain ⟨pending, hinward, -⟩ := (hwhole.linked hlen c).caller
    obtain ⟨jobs, hlast⟩ := List.getLast?_eq_some_iff.mp
      (hinward.last b (mem_travelling.mpr ⟨_, hold⟩))
    have hnotMem : J.job b ∉ jobs := by
      have hnodup := nodup_jobsOf J c
      rw [hlast] at hnodup
      exact fun hmem => (List.nodup_append'.mp hnodup).2.2 hmem (List.mem_singleton_self _)
    have hinit : jobs.filterMap (served (J.process b ⟨c, request, outcome⟩)) =
        jobs.filterMap (served J) :=
      List.filterMap_congr fun n hn => hother n fun heq => hnotMem (heq ▸ hn)
    rw [hlast, List.filterMap_append, List.filterMap_append, hinit,
      List.filterMap_cons_some hself, List.filterMap_cons_none hnone]
    simp only [List.filterMap_nil, List.append_nil]
  · rw [List.append_nil]
    refine List.filterMap_congr fun n hn => hother n ?_
    rintro rfl
    obtain ⟨swap', hswap', hi⟩ := mem_jobsOf.mp hn
    obtain rfl := Option.some.inj (hswap.symm.trans hswap')
    exact hc (hconnection.symm.trans hi)

end Broker

/-- **Every step of the broker keeps the history right.** -/
theorem Recorded.broker {l : Label JavaException} (h : Recorded x) (hwhole : Whole stream x.network)
    (hlen : x.network.broker.clients.length < 2 ^ 32)
    (hs : Serves config stream ok x (.broker l) y) : Recorded y := by
  obtain ⟨hstep, hprocesses⟩ := hs
  obtain ⟨hbroker, hjournal, hsockets⟩ := broker_of_step hstep
  refine ⟨hjournal ▸ h.unprocessed.step hwhole.good hlen hbroker, fun i => ?_, fun i => ?_⟩
  · rw [hjournal]
    by_cases hanswer : ∃ w outcome, l = .answer w outcome
    · obtain ⟨w, outcome, rfl⟩ := hanswer
      obtain ⟨c, b, request, hw, hsessions⟩ := sessions_answer hwhole h.unprocessed hlen hbroker.2
      obtain ⟨task, b', request', hw', -, hhistory⟩ := hprocesses
      rw [hw] at hw'
      obtain ⟨rfl, rfl, rfl⟩ := WorkerState.processing.inj (Option.some.inj hw')
      rw [hsessions i, h.sessions i]
      unfold State.session
      rw [hhistory, List.filter_append, List.filter_singleton]
      by_cases hc : c = i <;> simp [hc]
    · have hsame : y.history = x.history := by
        unfold Processes at hprocesses
        split at hprocesses
        · rename_i _ w outcome heq
          exact absurd ⟨w, outcome, Event.broker.inj heq⟩ hanswer
        · exact hprocesses.2
      rw [sessions_record h.unprocessed hbroker fun w outcome heq => hanswer ⟨w, outcome, heq⟩,
        h.sessions i]
      unfold State.session
      rw [hsame]
  · rw [(sockets_eq_some (i := i) hsockets).1]
    exact h.open_calls i

/-- **Every step keeps the invariant.** -/
theorem Invariant.step {e : Event JavaException} (hstream : stream.RoundTrips)
    (h : Invariant stream x) (hfit : e.Fits) (hs : Serves config stream ok x e y) :
    Invariant stream y := by
  refine ⟨h.whole.step hstream hfit hs.1, fun hlen => ?_⟩
  cases e with
  | submit j request =>
    obtain ⟨hnext, -, hhistory⟩ := hs
    obtain ⟨c', hc', hnetwork⟩ := Option.map_eq_some_iff.mp hnext
    have hlen₀ : x.network.broker.clients.length < 2 ^ 32 := by rwa [← hnetwork] at hlen
    obtain ⟨⟨b, hidle⟩, hsubmitted, hreturned⟩ := submit_calls hc'
    have hcalls := h.whole.idle hlen₀ hidle
    exact (h.recorded hlen₀).update hhistory hnetwork.symm (by omega)
  | receive j chunk =>
    obtain ⟨hnext, -, hhistory⟩ := hs
    obtain ⟨c', hc', hnetwork⟩ := Option.map_eq_some_iff.mp hnext
    have hlen₀ : x.network.broker.clients.length < 2 ^ 32 := by rwa [← hnetwork] at hlen
    obtain ⟨hsubmitted, hreturned⟩ := receive_calls hc'
    have hcalls := (h.recorded hlen₀).open_calls j
    exact (h.recorded hlen₀).update hhistory hnetwork.symm (by rw [hsubmitted]; omega)
  | ends j =>
    obtain ⟨hnext, -, hhistory⟩ := hs
    have hnetwork := Option.some.inj hnext
    have hlen₀ : x.network.broker.clients.length < 2 ^ 32 := by rwa [← hnetwork] at hlen
    exact (h.recorded hlen₀).update hhistory hnetwork.symm ((h.recorded hlen₀).open_calls j)
  | broker l =>
    have hlen₀ := (length_clients_of_step h.whole.good.inv (broker_of_step hs.1).1).trans_lt hlen
    exact (h.recorded hlen₀).broker h.whole hlen₀ hs

theorem invariant_start (config : BrokerConfiguration) (stream : ObjectStream JavaException)
    {ioBuffers : ℕ → ByteBuffer}
    (hsize : ∀ i, (ioBuffers i).bytes.length = clientIoBufferCapacity) :
    Invariant stream (start config ioBuffers) :=
  ⟨whole_init config stream hsize, fun _ => ⟨unprocessed_init config, fun _ => rfl, fun _ => by
    show 0 ≤ 0 + 1
    omega⟩⟩

/-! ### Runs -/

variable {ioBuffers : ℕ → ByteBuffer} {es : List (Event JavaException)}

theorem invariant_of_run (hstream : stream.RoundTrips)
    (hsize : ∀ i, (ioBuffers i).bytes.length = clientIoBufferCapacity)
    (h : Run (Serves config stream ok) (start config ioBuffers) es x) (hfit : ∀ e ∈ es, e.Fits) :
    Invariant stream x := by
  have hrun := run_restrict_iff.mpr ⟨h, hfit⟩
  exact hrun.invariant (P := Invariant stream) (fun _ _ _ hx hs => hx.step hstream hs.2 hs.1)
    (invariant_start config stream hsize)

/-- What happens processes one more request, or none. -/
theorem Processes.run {e : Event JavaException} (h : Processes ok x e y) :
    ∃ ls, y.history = x.history ++ ls ∧ Run (RequestStep ok) x.store ls y.store := by
  unfold Processes at h
  split at h
  · obtain ⟨task, buffer, request, -, hstep, hhistory⟩ := h
    exact ⟨_, hhistory, .single hstep⟩
  · obtain ⟨hstore, hhistory⟩ := h
    refine ⟨[], by rw [hhistory, List.append_nil], ?_⟩
    rw [hstore]
    exact .nil _

/-- **The history is a run of the `RequestProcessor`.** -/
theorem history_run (h : Run (Serves config stream ok) (start config ioBuffers) es x) :
    Run (RequestStep ok) .init x.history x.store := by
  refine h.invariant (P := fun x => Run (RequestStep ok) .init x.history x.store)
    (fun y e z hy hs => ?_) (.nil _)
  obtain ⟨ls, hhistory, hrun⟩ := hs.2.run
  rw [hhistory]
  exact hy.append hrun

/-- What has been processed on a connection are its jobs in their order, up to the last one. -/
theorem Invariant.session_iff (h : Invariant stream x)
    (hlen : x.network.broker.clients.length < 2 ^ 32) {k : ℕ} {l : Served} :
    (x.session i)[k]? = some l ↔ ∃ n, (jobsOf x.network.journal i)[k]? = some n ∧
      served x.network.journal n = some l := by
  have hrecorded := h.recorded hlen
  rw [← hrecorded.sessions i]
  refine getElem?_filterMap_iff fun n hn => ?_
  obtain ⟨k, hk⟩ := List.getElem?_of_mem hn
  rw [List.getElem?_dropLast] at hk
  split_ifs at hk with hlast
  -- the next job has been submitted, so this one has returned
  have hlt : k + 1 < (jobsOf x.network.journal i).length := by omega
  obtain ⟨request, hrequest, -⟩ := h.whole.jobs hlen (List.getElem?_eq_getElem hlt)
  have hsubmitted := (List.getElem?_eq_some_iff.mp hrequest).1
  have hcalls := hrecorded.open_calls i
  have hreturned : k < (x.network.connections i).returned.length := by omega
  obtain ⟨n', request', outcome, hn', -, hp, -⟩ :=
    h.whole.results hlen (List.getElem?_eq_getElem hreturned)
  obtain rfl := Option.some.inj (hk.symm.trans hn')
  unfold served
  rw [hp, Option.map_some, Option.isSome_some]

theorem served_eq_some {J : Journal JavaException} {l : Served} :
    served J n = some l ↔ J.processed n = some ⟨l.1, l.2.1, l.2.2⟩ := by
  unfold served
  rw [Option.map_eq_some_iff]
  constructor
  · rintro ⟨p, hp, rfl⟩
    exact hp
  · exact fun hp => ⟨_, hp, rfl⟩

theorem prefix_of_getElem? {α : Type} {as bs : List α}
    (h : ∀ (k : ℕ) (a : α), as[k]? = some a → bs[k]? = some a) : as <+: bs :=
  List.prefix_iff_getElem?.mpr fun k hk => h k _ (List.getElem?_eq_getElem hk)

/-- What has been processed on a connection has been submitted on it, in this order. -/
theorem Invariant.session_prefix (h : Invariant stream x)
    (hlen : x.network.broker.clients.length < 2 ^ 32) (i : ℕ) :
    (x.session i).map (fun l => l.2.1) <+: (x.network.connections i).submitted := by
  refine prefix_of_getElem? fun k request hk => ?_
  rw [List.getElem?_map] at hk
  obtain ⟨l, hl, rfl⟩ := Option.map_eq_some_iff.mp hk
  obtain ⟨n, hn, hserved⟩ := (h.session_iff hlen).mp hl
  obtain ⟨request, hrequest, swap, raw, hswap, hdecode⟩ := h.whole.jobs hlen hn
  obtain ⟨swap', raw', hswap', hdecode'⟩ :=
    (h.recorded hlen).unprocessed.decoded n _ (served_eq_some.mp hserved)
  obtain rfl := Option.some.inj (hswap.symm.trans hswap')
  rw [hdecode] at hdecode'
  obtain ⟨rfl, -⟩ := EStateM.Result.ok.inj hdecode'
  exact hrequest

/-- What has been returned on a connection has been processed on it, in this order. -/
theorem Invariant.returned_prefix (h : Invariant stream x)
    (hlen : x.network.broker.clients.length < 2 ^ 32) (i : ℕ) :
    (x.network.connections i).returned <+: (x.session i).map (fun l => responseOf l.2.2) := by
  refine prefix_of_getElem? fun k response hk => ?_
  obtain ⟨n, request, outcome, hn, -, hp, rfl⟩ := h.whole.results hlen hk
  have hserved : served x.network.journal n = some (i, request, outcome) := served_eq_some.mpr hp
  rw [List.getElem?_map, (h.session_iff hlen).mpr ⟨n, hn, hserved⟩, Option.map_some]

/-- **The broker serves as one processor.** With a single worker, or with workers that do not get
into each other's way, the requests that have been processed are a run of the `RequestProcessor`.
Those of a connection have been submitted on it in this order, and its client has got their
responses in this order; if it has no open call, all of its requests have been processed, and it has
got all of the responses. -/
theorem serves_as_one (hstream : stream.RoundTrips)
    (hsize : ∀ i, (ioBuffers i).bytes.length = clientIoBufferCapacity)
    (h : Run (Serves config stream ok) (start config ioBuffers) es x) (hfit : ∀ e ∈ es, e.Fits)
    (hlen : x.network.broker.clients.length < 2 ^ 32) :
    Run (RequestStep ok) .init x.history x.store ∧ ∀ i,
      (x.session i).map (fun l => l.2.1) <+: (x.network.connections i).submitted ∧
      (x.network.connections i).returned <+: (x.session i).map (fun l => responseOf l.2.2) ∧
      ∀ ioBuffer, (x.network.connections i).caller = .idle ioBuffer →
        (x.session i).map (fun l => l.2.1) = (x.network.connections i).submitted ∧
        (x.network.connections i).returned = (x.session i).map (fun l => responseOf l.2.2) := by
  have hx := invariant_of_run hstream hsize h hfit
  refine ⟨history_run h, fun i => ?_⟩
  have hrequests := hx.session_prefix hlen i
  have hresponses := hx.returned_prefix hlen i
  refine ⟨hrequests, hresponses, fun ioBuffer hidle => ?_⟩
  have hlengths := hx.whole.idle hlen hidle
  have hle := hrequests.length_le
  have hle' := hresponses.length_le
  rw [List.length_map] at hle hle'
  exact ⟨hrequests.eq_of_length (by rw [List.length_map]; omega),
    hresponses.eq_of_length (by rw [List.length_map]; omega)⟩

/-! ### A run without faults -/

/-- The state after an event, if no fault comes into it. -/
def serve (config : BrokerConfiguration) (stream : ObjectStream JavaException) (x : State)
    (e : Event JavaException) : Option State := do
  let network ← RemoteCalls.next config stream x.network e
  match e with
  | .broker (.answer w outcome) =>
    match x.network.broker.workers[w]? with
    | some (.processing task _ request) =>
      if (x.store.process task.clientContext request).1 = outcome then
        return ⟨network, (x.store.process task.clientContext request).2,
          x.history ++ [(task.clientContext, request, outcome)]⟩
      else none
    | _ => none
  | _ => return { x with network }

def follow (config : BrokerConfiguration) (stream : ObjectStream JavaException) :
    State → List (Event JavaException) → Option State
  | x, [] => some x
  | x, e :: es => (serve config stream x e).bind fun y => follow config stream y es

theorem serves_of_serve (hok : ∀ w op, ok w op .none) {e : Event JavaException}
    (h : serve config stream x e = some y) : Serves config stream ok x e y := by
  obtain ⟨network, hnetwork, h⟩ := Option.bind_eq_some_iff.mp h
  split at h
  · split at h
    · rename_i w outcome _ _ task buffer request hw
      split_ifs at h with houtcome
      obtain rfl := Option.some.inj h
      subst houtcome
      exact ⟨hnetwork, task, buffer, request, hw,
        Server.Processing.step_process hok x.store task.clientContext request, rfl⟩
    · cases h
  · rename_i hanswer
    obtain rfl := Option.some.inj h
    refine ⟨hnetwork, ?_⟩
    unfold Processes
    split
    · exact absurd rfl (hanswer _ _)
    · exact ⟨rfl, rfl⟩

theorem run_of_follow (hok : ∀ w op, ok w op .none) {es : List (Event JavaException)}
    (h : follow config stream x es = some y) : Run (Serves config stream ok) x es y := by
  induction es generalizing x with
  | nil =>
    obtain rfl := Option.some.inj h
    exact .nil x
  | cons e es ih =>
    obtain ⟨z, hz, h⟩ := Option.bind_eq_some_iff.mp h
    exact .cons (serves_of_serve hok hz) (ih h)

/-- Object streams that hold `null` only. -/
def nulls : ObjectStream JavaException where
  writeObject
    | .null => .ok [0xAC, 0xED, 0x00, 0x05, 0x70]
    | _ => .error .notSerializable
  readObject data :=
    if data = [0xAC, 0xED, 0x00, 0x05, 0x70] then .ok .null else .error .streamCorrupted
  toString _ := "null"

theorem nulls_roundTrips : nulls.RoundTrips := by
  rintro (_ | _ | _) data h
  · cases h
    rfl
  · cases h
  · cases h

/-- A configuration whose buffers hold a message. -/
def mediumConfiguration : BrokerConfiguration := ⟨1, 1, 1, 64, by decide⟩

/-- The events of a call on the first connection. -/
def calling (request : Request) (response : Response JavaException) :
    List (Event JavaException) :=
  let reply := frame ((responseBytes nulls response).getD [])
  [.submit 0 request, .broker .select,
    .broker (.read 0 (some (frame (requestPayload.enc request)))), .broker .keysDone,
    .broker (.take 0), .broker (.decode 0), .broker (.answer 0 (.ok response)), .broker (.post 0),
    .broker (.wake 0), .broker .selectQueue, .broker .selectQueue, .broker .select,
    .broker (.write 0 reply.length), .receive 0 reply, .broker .keysDone, .broker .selectQueue]

/-- A client sends a message to itself. -/
def toItself : Request := .sendClientMessage
  { clientId := 1
    content := some [7]
    prio := 0
    conversation := false
    conversationContext := none }

/-- What it gets. -/
def letter : MessageDto where
  id := 1
  queue := some { id := 1, name := none }
  content := some [7]
  prio := 0
  sender := some { id := 1, name := none }
  conversationContext := none

/-- A client registers, sends a message to itself and dequeues it. -/
def mailing : List (Event JavaException) :=
  [.broker .select, .broker .accept, .broker .keysDone, .broker .selectQueue] ++
    calling (.registration ⟨some "c"⟩) (.registration ⟨some ⟨1, some "c"⟩, false⟩) ++
    calling toItself (.sendClientMessage ⟨none⟩) ++
    calling (.dequeueMessage ⟨some Server.Privacy.queryAll⟩) (.message ⟨some letter⟩)

theorem fits_mailing : ∀ e ∈ mailing, e.Fits := by
  unfold mailing calling
  simp only [List.forall_mem_append, List.forall_mem_cons, Event.Fits, List.not_mem_nil,
    false_imp_iff, implies_true, and_true, true_and]
  decide

/-- The state after it. -/
theorem exists_mailed : ∃ x, Run (Serves mediumConfiguration nulls Reliable)
    (start mediumConfiguration fun _ => openedBuffer) mailing x ∧
      x.network.broker.clients.length < 2 ^ 32 ∧
      (x.network.connections 0).submitted[2]? =
        some (.dequeueMessage ⟨some Server.Privacy.queryAll⟩) ∧
      (x.network.connections 0).returned[2]? = some (.message ⟨some letter⟩) := by
  have hrun : (follow mediumConfiguration nulls (start mediumConfiguration fun _ => openedBuffer)
      mailing).any (fun x => x.network.broker.clients.length < 2 ^ 32 ∧
        (x.network.connections 0).submitted[2]? =
          some (.dequeueMessage ⟨some Server.Privacy.queryAll⟩) ∧
        (x.network.connections 0).returned[2]? = some (.message ⟨some letter⟩)) = true := by
    decide +kernel
  simp only [Option.any_eq_true, decide_eq_true_eq] at hrun
  obtain ⟨x, hx, hmailed⟩ := hrun
  have hok : ∀ w op, Reliable w op .none := fun _ _ => rfl
  exact ⟨x, run_of_follow hok hx, hmailed⟩

/-- The three requests have been processed in their order. -/
theorem serves_as_one_mailing : ∃ x, Run (Serves mediumConfiguration nulls Reliable)
    (start mediumConfiguration fun _ => openedBuffer) mailing x ∧
      (x.network.connections 0).returned[2]? = some (.message ⟨some letter⟩) ∧
      Run (RequestStep Reliable) .init x.history x.store ∧
      (x.network.connections 0).returned <+: (x.session 0).map (fun l => responseOf l.2.2) := by
  obtain ⟨x, hx, hlen, -, hreturned⟩ := exists_mailed
  obtain ⟨hrun, hsessions⟩ := serves_as_one nulls_roundTrips (fun _ => List.length_replicate) hx
    fits_mailing hlen
  exact ⟨x, hx, hreturned, hrun, (hsessions 0).2.1⟩

/-! ### Messages -/

/-- The `k`-th call of a connection is a dequeue, and it has got this message. -/
def Receives (x : State) (i k : ℕ) (dto : MessageDto) : Prop :=
  ∃ request, (x.network.connections i).submitted[k]? = some (.dequeueMessage request) ∧
    (x.network.connections i).returned[k]? = some (.message ⟨some dto⟩)

/-- The place of a value that passes. -/
theorem exists_of_getElem?_filter {α : Type} {P : α → Bool} {as : List α} {k : ℕ} {a : α}
    (h : (as.filter P)[k]? = some a) :
    ∃ p, as[p]? = some a ∧ P a ∧ ((as.take p).filter P).length = k := by
  induction as generalizing k with
  | nil => cases h
  | cons b as ih =>
    by_cases hb : P b
    · rw [List.filter_cons_of_pos hb] at h
      cases k with
      | zero =>
        obtain rfl := Option.some.inj h
        exact ⟨0, rfl, hb, rfl⟩
      | succ k =>
        obtain ⟨p, hp, ha, hk⟩ := ih h
        refine ⟨p + 1, hp, ha, ?_⟩
        rw [List.take_succ_cons, List.filter_cons_of_pos hb, List.length_cons, hk]
    · rw [List.filter_cons_of_neg hb] at h
      obtain ⟨p, hp, ha, hk⟩ := ih h
      refine ⟨p + 1, hp, ha, ?_⟩
      rw [List.take_succ_cons, List.filter_cons_of_neg hb, hk]

/-- The place of a receipt in the history. -/
theorem Receives.place {k : ℕ} {dto : MessageDto} (hr : Receives x i k dto)
    (h : Invariant stream x) (hlen : x.network.broker.clients.length < 2 ^ 32) :
    ∃ p request, x.history[p]? = some (i, .dequeueMessage request, .ok (.message ⟨some dto⟩)) ∧
      ((x.history.take p).filter fun l => l.1 = i).length = k := by
  obtain ⟨request, hsubmitted, hreturned⟩ := hr
  have hresponse := getElem?_of_prefix (h.returned_prefix hlen i) hreturned
  rw [List.getElem?_map] at hresponse
  obtain ⟨⟨j, request', outcome⟩, hl, houtcome⟩ := Option.map_eq_some_iff.mp hresponse
  have hrequest : (x.network.connections i).submitted[k]? = some request' := by
    refine getElem?_of_prefix (h.session_prefix hlen i) ?_
    rw [List.getElem?_map, hl, Option.map_some]
  obtain rfl := Option.some.inj (hsubmitted.symm.trans hrequest)
  cases outcome with
  | error ex => cases houtcome
  | ok response =>
    obtain rfl : response = .message ⟨some dto⟩ := houtcome
    obtain ⟨p, hp, hi, hk⟩ := exists_of_getElem?_filter hl
    obtain rfl := of_decide_eq_true hi
    exact ⟨p, request, hp, hk⟩

/-- A message is returned at one place of a history only. -/
theorem place_unique {ls : List Served} (hnodup : ((returned ls).map MessageDto.id).Nodup)
    {p p' : ℕ} {request request' : DequeueMessageRequest} {dto dto' : MessageDto}
    (hp : ls[p]? = some (i, .dequeueMessage request, .ok (.message ⟨some dto⟩)))
    (hp' : ls[p']? = some (j, .dequeueMessage request', .ok (.message ⟨some dto'⟩)))
    (hid : dto.id = dto'.id) : p = p' := by
  obtain ⟨hlt, hp⟩ := List.getElem?_eq_some_iff.mp hp
  obtain ⟨hlt', hp'⟩ := List.getElem?_eq_some_iff.mp hp'
  unfold returned at hnodup
  rw [List.Nodup, List.pairwise_map, List.pairwise_filterMap, List.pairwise_iff_getElem] at hnodup
  rcases Nat.lt_trichotomy p p' with hpp' | rfl | hpp'
  · exact absurd hid (hnodup p p' hlt hlt' hpp' dto (by rw [hp]) dto' (by rw [hp']))
  · rfl
  · exact absurd hid.symm (hnodup p' p hlt' hlt hpp' dto' (by rw [hp']) dto (by rw [hp]))

/-- **A message is received once.** No two calls of any clients get the same message, and a message
that a call has got is not stored any more. It has been sent as it is: some client has submitted a
request that sends it. -/
theorem received_once (hstream : stream.RoundTrips)
    (hsize : ∀ i, (ioBuffers i).bytes.length = clientIoBufferCapacity)
    (h : Run (Serves config stream ok) (start config ioBuffers) es x) (hfit : ∀ e ∈ es, e.Fits)
    (hlen : x.network.broker.clients.length < 2 ^ 32) :
    (∀ (i k j m : ℕ) (dto dto' : MessageDto), Receives x i k dto → Receives x j m dto' →
      dto.id = dto'.id → i = j ∧ k = m) ∧
    ∀ (i k : ℕ) (dto : MessageDto), Receives x i k dto →
      (∀ message ∈ x.store.db.messages, message.id.toInt64 ≠ dto.id) ∧
      ∃ j request message, request ∈ (x.network.connections j).submitted ∧ Sends request message ∧
        dto = message.toDto := by
  have hx := invariant_of_run hstream hsize h hfit
  have hrun := history_run h
  constructor
  · intro i k j m dto dto' hr hr' hid
    obtain ⟨p, request, hp, hk⟩ := hr.place hx hlen
    obtain ⟨p', request', hp', hm⟩ := hr'.place hx hlen
    obtain ⟨ledger, hall, hmoves⟩ := exists_books hrun
    have hnodup := returned_nodup (keyed_of_valid valid_empty) hall hmoves
    obtain rfl : p = p' := place_unique hnodup hp hp' hid
    obtain ⟨rfl, -⟩ := Prod.mk.inj (Option.some.inj (hp.symm.trans hp'))
    exact ⟨rfl, hk.symm.trans hm⟩
  · intro i k dto hr
    obtain ⟨p, request, hp, -⟩ := hr.place hx hlen
    have hdto : dto ∈ returned x.history := List.mem_filterMap.mpr ⟨_, List.mem_of_getElem? hp, rfl⟩
    refine ⟨not_stored_of_returned hrun hdto, ?_⟩
    obtain ⟨l, hl, message, hsends, hmessage⟩ := sent_of_returned hrun hdto
    refine ⟨l.1, l.2.1, message, (hx.session_prefix hlen l.1).subset ?_, hsends, hmessage⟩
    exact List.mem_map.mpr ⟨l, List.mem_filter.mpr ⟨hl, decide_eq_true rfl⟩, rfl⟩

/-- The message that the client has sent to itself. -/
theorem received_once_mailing : ∃ x, Run (Serves mediumConfiguration nulls Reliable)
    (start mediumConfiguration fun _ => openedBuffer) mailing x ∧ Receives x 0 2 letter ∧
      (∀ (j m : ℕ) (dto : MessageDto), Receives x j m dto → letter.id = dto.id → 0 = j ∧ 2 = m) ∧
      ∃ j request message, request ∈ (x.network.connections j).submitted ∧
        Sends request message ∧ letter = message.toDto := by
  obtain ⟨x, hx, hlen, hsubmitted, hreturned⟩ := exists_mailed
  have hreceives : Receives x 0 2 letter := ⟨_, hsubmitted, hreturned⟩
  obtain ⟨honce, hsent⟩ := received_once nulls_roundTrips (fun _ => List.length_replicate) hx
    fits_mailing hlen
  exact ⟨x, hx, hreceives, fun j m dto h => honce 0 2 j m letter dto hreceives h,
    (hsent 0 2 letter hreceives).2⟩

end Mlmq.Client.Service
