import Mlmq.Server.Handles
import Mlmq.Server.Motion

/-! # Which connection a response goes to

The journal of a run keeps what the broker itself forgets: the request buffers that have been
exchanged, in their order (the number of an entry is its job), what the `RequestProcessor` has made
of each job and in which context, and the calls of `setResponse`. A buffer that is on its way works
for the last job it was exchanged for.

The invariant (`Routed`) follows each job on its way. It rests on handles that are not given out
twice, so it holds while fewer than `2 ^ 32` connections have been accepted. -/

namespace Mlmq.Server.Routing

open Mlmq.Lib.Nio Mlmq.Lib.Transition Mlmq.Net.Requests Mlmq.Net.Responses Mlmq.Net.Factory
open Mlmq.Net.RoundTrip Mlmq.Server.Connection Mlmq.Server.Worker Mlmq.Server.System
open Mlmq.Server.Ownership Mlmq.Server.Contents Mlmq.Server.Flight Mlmq.Server.Handles
open Mlmq.Server.Motion
open Mlmq.Lib.Queue (BoundedQueue)
open Mlmq.Util.ByteBufferUtil (ObjectStream)

variable {ε : Type} {s s' : Broker} {i w n : ℕ} {config : BrokerConfiguration}
  {stream : ObjectStream ε} {l : Label ε} {ls : List (Label ε)}

/-! ### The journal -/

/-- A request buffer that `selectRead` has exchanged for another one. -/
structure Swap where
  connection : ℕ
  buffer : ℕ
  request : ByteBuffer

/-- What the `RequestProcessor` has made of a request, in the context of a connection. -/
structure Processed (ε : Type) where
  context : ℕ
  request : Request
  outcome : Except ε (Response ε)

/-- A call of `setResponse` on a connection. -/
structure Delivery where
  job : ℕ
  connection : ℕ
  response : ByteBuffer

structure Journal (ε : Type) where
  swaps : List Swap
  job : ℕ → ℕ
  processed : ℕ → Option (Processed ε)
  deliveries : List Delivery

namespace Journal

def empty : Journal ε := ⟨[], fun _ => 0, fun _ => none, []⟩

def swap (J : Journal ε) (x : Swap) : Journal ε :=
  { J with swaps := J.swaps ++ [x], job := Function.update J.job x.buffer J.swaps.length }

def process (J : Journal ε) (buffer : ℕ) (x : Processed ε) : Journal ε :=
  { J with processed := Function.update J.processed (J.job buffer) (some x) }

/-- The request buffer that is exchanged in this read. -/
def swapped (s : Broker) (i : ℕ) (chunk : Option (List UInt8)) : Option Swap := do
  let client ← s.clients[i]?
  let rxBuffer ← s.heap[client.rxBuffer]?
  if Complete (rxBuffer.write (chunk.getD [])) then
    return ⟨i, client.rxBuffer, afterTest (rxBuffer.write (chunk.getD []))⟩
  else none

/-- The call of `setResponse` in this round of `selectQueue`. -/
def delivery (J : Journal ε) (s : Broker) : Option Delivery := do
  let (task, _) ← s.responseQueue.poll
  let client ← s.clients[task.clientContext]?
  let j ← s.connectedClients client.clientApplicationContext.clientNetworkHandle
  let buffer ← task.responseBuffer
  let response ← s.heap[buffer]?
  return ⟨J.job buffer, j, response⟩

/-- The entries for a step. -/
def record (J : Journal ε) (s : Broker) : Label ε → Journal ε
  | .read i chunk => (swapped s i chunk).elim J J.swap
  | .answer w outcome =>
    match s.workers[w]? with
    | some (.processing task buffer request) =>
      J.process buffer ⟨task.clientContext, request, outcome⟩
    | _ => J
  | .selectQueue => { J with deliveries := J.deliveries ++ (J.delivery s).toList }
  | _ => J

end Journal

/-- The journal of a run. -/
def journal (config : BrokerConfiguration) (stream : ObjectStream ε) :
    Broker → List (Label ε) → Journal ε → Journal ε
  | _, [], J => J
  | s, l :: ls, J =>
    (next config stream s l).elim J fun s' => journal config stream s' ls (J.record s l)

/-- The broker with its journal. -/
def Logged (config : BrokerConfiguration) (stream : ObjectStream ε) (x : Broker × Journal ε)
    (l : Label ε) (y : Broker × Journal ε) : Prop :=
  Step config stream x.1 l y.1 ∧ y.2 = x.2.record x.1 l

theorem run_logged (h : Run (Step config stream) s ls s') (J : Journal ε) :
    Run (Logged config stream) (s, J) ls (s', journal config stream s ls J) := by
  induction h generalizing J with
  | nil s => exact .nil _
  | @cons s s₁ s' l ls hstep _ ih =>
    have hlogged : Logged config stream (s, J) l (s₁, J.record s l) := ⟨hstep, rfl⟩
    refine .cons hlogged ?_
    have hjournal : journal config stream s (l :: ls) J =
        journal config stream s₁ ls (J.record s l) := by
      show (next config stream s l).elim J _ = _
      rw [hstep.2]
      rfl
    rw [hjournal]
    exact ih _

/-! ### The way of a job -/

/-- The buffer `b` is the encoded result of processing the request of the job `n`, which came from
the connection `c`, in the context of that connection. -/
def Answers (stream : ObjectStream ε) (J : Journal ε) (n c : ℕ) (b : ByteBuffer) : Prop :=
  ∃ swap processed raw, J.swaps[n]? = some swap ∧ swap.connection = c ∧
    J.processed n = some processed ∧ processed.context = c ∧
    deserializeRequest swap.request = .ok processed.request raw ∧
    respond stream processed.outcome raw = .ok b

/-- What a buffer on its way holds. -/
def Holds (stream : ObjectStream ε) (J : Journal ε) (x : Motion.Flight) (swap : Swap)
    (b : ByteBuffer) : Prop :=
  match x.stage with
  | .requested => swap.request = b
  | .processing request => deserializeRequest swap.request = .ok request b
  | .responded => Answers stream J (J.job x.buffer) x.connection b

/-- A buffer on its way works for a job of its connection. -/
def Knows (stream : ObjectStream ε) (J : Journal ε) (heap : List ByteBuffer) (x : Motion.Flight) :
    Prop :=
  ∃ swap b, J.swaps[J.job x.buffer]? = some swap ∧ swap.connection = x.connection ∧
    swap.buffer = x.buffer ∧ heap[x.buffer]? = some b ∧ Holds stream J x swap b

/-- **The invariant.** -/
structure Routed (stream : ObjectStream ε) (s : Broker) (J : Journal ε) : Prop where
  knows : ∀ x ∈ flights s, Knows stream J s.heap x
  pending : ∀ x ∈ flights s, J.job x.buffer ∉ J.deliveries.map Delivery.job
  right : ∀ d ∈ J.deliveries, Answers stream J d.job d.connection d.response
  once : (J.deliveries.map Delivery.job).Nodup

variable {J J' : Journal ε} {x y : Motion.Flight}

theorem getElem?_of_prefix {α : Type} {as as' : List α} {a : α} (h : as <+: as')
    (ha : as[n]? = some a) : as'[n]? = some a := by
  obtain ⟨bs, rfl⟩ := h
  rwa [List.getElem?_append_left (List.getElem?_eq_some_iff.mp ha).1]

/-- New entries of the journal leave what a job has got. -/
theorem Answers.mono {c : ℕ} {b : ByteBuffer} (h : Answers stream J n c b)
    (hswaps : J.swaps <+: J'.swaps) (hprocessed : J'.processed n = J.processed n) :
    Answers stream J' n c b := by
  obtain ⟨swap, processed, raw, h1, h2, h3, h4⟩ := h
  exact ⟨swap, processed, raw, getElem?_of_prefix hswaps h1, h2, hprocessed.trans h3, h4⟩

theorem Knows.mono {heap heap' : List ByteBuffer} (h : Knows stream J heap x)
    (hswaps : J.swaps <+: J'.swaps) (hjob : J'.job x.buffer = J.job x.buffer)
    (hprocessed : J'.processed (J.job x.buffer) = J.processed (J.job x.buffer))
    (hheap : heap'[x.buffer]? = heap[x.buffer]?) : Knows stream J' heap' x := by
  obtain ⟨swap, b, h1, h2, h3, h4, h5⟩ := h
  refine ⟨swap, b, ?_, h2, h3, hheap.trans h4, ?_⟩
  · rw [hjob]
    exact getElem?_of_prefix hswaps h1
  · unfold Holds at h5 ⊢
    cases hstage : x.stage with
    | requested =>
      rw [hstage] at h5
      exact h5
    | processing request =>
      rw [hstage] at h5
      exact h5
    | responded =>
      rw [hstage] at h5
      rw [hjob]
      exact h5.mono hswaps hprocessed

/-- Different buffers work for different jobs. -/
theorem job_ne {heap : List ByteBuffer} (hx : Knows stream J heap x) (hy : Knows stream J heap y)
    (hne : x.buffer ≠ y.buffer) : J.job x.buffer ≠ J.job y.buffer := by
  obtain ⟨swap, -, h1, -, h2, -⟩ := hx
  obtain ⟨swap', -, h1', -, h2', -⟩ := hy
  intro heq
  rw [heq, h1'] at h1
  obtain rfl := Option.some.inj h1
  exact hne (h2.symm.trans h2')

/-- Buffers on their way are dropped. -/
theorem Routed.quiet (h : Routed stream s J) (hquiet : Quiet s s') : Routed stream s' J where
  knows x hx := (h.knows x (Multiset.mem_of_le hquiet.le hx)).mono (List.prefix_refl _) rfl rfl
    (hquiet.heap x hx)
  pending x hx := h.pending x (Multiset.mem_of_le hquiet.le hx)
  right := h.right
  once := h.once

theorem lt_of_answers {c : ℕ} {b : ByteBuffer} (h : Answers stream J n c b) :
    n < J.swaps.length := by
  obtain ⟨swap, -, -, hswap, -⟩ := h
  exact (List.getElem?_eq_some_iff.mp hswap).1

/-- A buffer that is not on its way gets a new job. -/
theorem Routed.swap {z : Swap} (h : Routed stream s J)
    (hz : ∀ x ∈ flights s, x.buffer ≠ z.buffer)
    (hflights : flights s' = flights s ∨
      flights s' = ⟨.requested, z.connection, z.buffer⟩ ::ₘ flights s ∧
        s'.heap[z.buffer]? = some z.request)
    (hheap : ∀ x ∈ flights s, s'.heap[x.buffer]? = s.heap[x.buffer]?) :
    Routed stream s' (J.swap z) := by
  have hswaps : J.swaps <+: (J.swap z).swaps := List.prefix_append _ _
  have hjob : ∀ x ∈ flights s, (J.swap z).job x.buffer = J.job x.buffer := fun x hx =>
    Function.update_of_ne (hz x hx) _ _
  have hnew : (J.swap z).job z.buffer = J.swaps.length := Function.update_self _ _ _
  have hmem : ∀ x ∈ flights s', x ∈ flights s ∨ x = ⟨.requested, z.connection, z.buffer⟩ ∧
      s'.heap[z.buffer]? = some z.request := by
    intro x hx
    rcases hflights with hflights | ⟨hflights, hb⟩
    · exact Or.inl (hflights ▸ hx)
    · rw [hflights, Multiset.mem_cons] at hx
      exact hx.elim (fun heq => Or.inr ⟨heq, hb⟩) Or.inl
  refine ⟨fun x hx => ?_, fun x hx => ?_, fun d hd => (h.right d hd).mono hswaps rfl, h.once⟩
  · rcases hmem x hx with hx | ⟨rfl, hb⟩
    · exact (h.knows x hx).mono hswaps (hjob x hx) rfl (hheap x hx)
    · refine ⟨z, z.request, ?_, rfl, rfl, hb, rfl⟩
      rw [hnew]
      exact List.getElem?_concat_length
  · rcases hmem x hx with hx | ⟨rfl, -⟩
    · rw [hjob x hx]
      exact h.pending x hx
    · rw [hnew]
      intro hd
      obtain ⟨d, hd, heq⟩ := List.mem_map.mp hd
      exact absurd (lt_of_answers (h.right d hd)) (heq ▸ lt_irrefl _)

theorem Routed.selectRead {chunk : Option (List UInt8)} (h : Routed stream s J) (hinv : Inv s 0)
    (hs : s.selectRead config i chunk = some s') :
    Routed stream s' (J.record s (.read i chunk : Label ε)) := by
  obtain ⟨client, rxBuffer, -, hi, hvalid, hrx, -⟩ := Broker.selectRead_eq_some hs
  obtain ⟨hheap, hflights⟩ := flights_selectRead hinv hs
  have hz : ∀ x ∈ flights s, x.buffer ≠ client.rxBuffer := by
    intro x hx heq
    refine (notMem_of_flight hinv hx).2 i client hi ?_
    rw [clientSlots_of_valid hvalid, heq]
    simp
  have hswapped : Journal.swapped s i chunk =
      if Complete (rxBuffer.write (chunk.getD [])) then
        some ⟨i, client.rxBuffer, afterTest (rxBuffer.write (chunk.getD []))⟩
      else none := by
    unfold Journal.swapped
    simp only [hi, hrx, Option.bind_eq_bind, Option.bind_some]
    rfl
  unfold Journal.record
  dsimp only
  rw [hswapped]
  by_cases hc : Complete (rxBuffer.write (chunk.getD []))
  · rw [if_pos hc]
    refine h.swap hz ?_ hheap
    rcases hflights with hflights | ⟨client', rxBuffer', hi', -, hrx', -, hflights, hb⟩
    · exact Or.inl hflights
    · obtain rfl := Option.some.inj (hi.symm.trans hi')
      obtain rfl := Option.some.inj (hrx.symm.trans hrx')
      exact Or.inr ⟨hflights, hb⟩
  · rw [if_neg hc]
    rcases hflights with hflights | ⟨client', rxBuffer', hi', -, hrx', hc', -⟩
    · exact h.quiet (.of_eq hflights hheap)
    · obtain rfl := Option.some.inj (hi.symm.trans hi')
      obtain rfl := Option.some.inj (hrx.symm.trans hrx')
      exact absurd hc' hc

theorem Routed.decode (h : Routed stream s J) (hinv : Inv s 0) (hshape : Shaped s)
    (hs : s.decode w = some s') : Routed stream s' J := by
  rcases flights_decode hinv hshape hs with hquiet | ⟨c, b, raw, request, raw', rest, hflights,
    hflights', hraw, hd, hraw', hrest⟩
  · exact h.quiet hquiet
  · have hold : (⟨.requested, c, b⟩ : Motion.Flight) ∈ flights s := by
      rw [hflights]
      exact Multiset.mem_cons_self _ _
    have hstay : ∀ x ∈ rest, x ∈ flights s := by
      rw [hflights]
      exact fun x hx => Multiset.mem_cons_of_mem hx
    refine ⟨fun x hx => ?_, fun x hx => ?_, h.right, h.once⟩
    · rw [hflights', Multiset.mem_cons] at hx
      rcases hx with rfl | hx
      · obtain ⟨swap, raw₁, h1, h2, h3, h4, h5⟩ := h.knows _ hold
        obtain rfl := Option.some.inj (hraw.symm.trans h4)
        have hswap : swap.request = raw := h5
        exact ⟨swap, raw', h1, h2, h3, hraw', by rw [← hswap] at hd; exact hd⟩
      · exact (h.knows x (hstay x hx)).mono (List.prefix_refl _) rfl rfl (hrest x hx)
    · rw [hflights', Multiset.mem_cons] at hx
      rcases hx with rfl | hx
      · exact h.pending ⟨.requested, c, b⟩ hold
      · exact h.pending x (hstay x hx)

/-- **The result of processing** is entered for the job of the buffer. -/
theorem Routed.answer {outcome : Except ε (Response ε)} (h : Routed stream s J) (hinv : Inv s 0)
    (hshape : Shaped s) (hs : s.answer stream w outcome = some s') :
    Routed stream s' (J.record s (.answer w outcome)) := by
  obtain ⟨c, b, request, raw, rest, hw, hraw, hflights, hrest, hnew⟩ :=
    flights_answer hinv hshape hs
  have hrecord : J.record s (.answer w outcome) = J.process b ⟨c, request, outcome⟩ := by
    unfold Journal.record
    simp only [hw]
  rw [hrecord]
  have hold : (⟨.processing request, c, b⟩ : Motion.Flight) ∈ flights s := by
    rw [hflights]
    exact Multiset.mem_cons_self _ _
  have hstay : ∀ x ∈ rest, x ∈ flights s := by
    rw [hflights]
    exact fun x hx => Multiset.mem_cons_of_mem hx
  -- the job of the buffer is neither the one of another buffer nor a delivered one
  have hknows : ∀ x ∈ rest, Knows stream (J.process b ⟨c, request, outcome⟩) s'.heap x := by
    intro x hx
    have hne : x.buffer ≠ b := buffer_ne_of_cons hinv hflights hx
    refine (h.knows x (hstay x hx)).mono (List.prefix_refl _) rfl ?_ (hrest x hx)
    exact Function.update_of_ne (job_ne (h.knows x (hstay x hx)) (h.knows _ hold) hne) _ _
  have hright : ∀ d ∈ J.deliveries,
      Answers stream (J.process b ⟨c, request, outcome⟩) d.job d.connection d.response := by
    intro d hd
    refine (h.right d hd).mono (List.prefix_refl _) (Function.update_of_ne ?_ _ _)
    exact fun heq => h.pending _ hold (heq ▸ List.mem_map_of_mem hd)
  rcases hnew with hflights' | ⟨raw', hrespond, hflights', hraw'⟩
  · rw [← hflights'] at hstay hknows
    exact ⟨hknows, fun x hx => h.pending x (hstay x hx), hright, h.once⟩
  · refine ⟨fun x hx => ?_, fun x hx => ?_, hright, h.once⟩
    · rw [hflights', Multiset.mem_cons] at hx
      rcases hx with rfl | hx
      · obtain ⟨swap, raw₁, h1, h2, h3, h4, h5⟩ := h.knows _ hold
        obtain rfl := Option.some.inj (hraw.symm.trans h4)
        refine ⟨swap, raw', h1, h2, h3, hraw', ?_⟩
        exact ⟨swap, _, raw, h1, h2, Function.update_self _ _ _, rfl, h5, hrespond⟩
      · exact hknows x hx
    · rw [hflights', Multiset.mem_cons] at hx
      rcases hx with rfl | hx
      · exact h.pending ⟨.processing request, c, b⟩ hold
      · exact h.pending x (hstay x hx)

/-- There is no call when the queue is empty. -/
theorem delivery_empty (hpoll : s.responseQueue.poll = none) : J.delivery s = none := by
  unfold Journal.delivery
  rw [hpoll]
  rfl

/-- There is no call for a connection that is closed. -/
theorem delivery_closed {task : Task} {responseQueue : BoundedQueue Task} {client : Client}
    (hpoll : s.responseQueue.poll = some (task, responseQueue))
    (hc : s.clients[task.clientContext]? = some client)
    (hnone : s.connectedClients client.clientApplicationContext.clientNetworkHandle = none) :
    J.delivery s = none := by
  unfold Journal.delivery
  simp only [hpoll, hc, hnone, Option.bind_eq_bind, Option.bind_some, Option.bind_none]

/-- The call of `setResponse` in a round is entered with the connection of the task. -/
theorem delivery_poll {b c : ℕ} {raw : ByteBuffer} {responseQueue : BoundedQueue Task}
    {client : Client} {handle : ℕ}
    (hpoll : s.responseQueue.poll = some (⟨c, none, some b⟩, responseQueue))
    (hc : s.clients[c]? = some client)
    (hj : s.connectedClients client.clientApplicationContext.clientNetworkHandle = some handle)
    (hb : s.heap[b]? = some raw) : J.delivery s = some ⟨J.job b, handle, raw⟩ := by
  unfold Journal.delivery
  simp [hpoll, hc, hj, hb]

/-- The call of `setResponse` in a round of `selectQueue` is for the connection of the task, as long
as handles are not given out twice. -/
theorem delivery_eq {c b : ℕ} {responseQueue : BoundedQueue Task} {response : ByteBuffer}
    (hreg : Registered s) (hconn : Connected s) (hlen : s.clients.length < 2 ^ 32)
    (hpoll : s.responseQueue.poll = some (⟨c, none, some b⟩, responseQueue))
    (hb : s.heap[b]? = some response) {d : Delivery} (hd : J.delivery s = some d) :
    d = ⟨J.job b, c, response⟩ := by
  unfold Journal.delivery at hd
  simp only [hpoll, Option.bind_eq_bind, Option.bind_some, hb, Option.bind_eq_some_iff] at hd
  obtain ⟨client, hc, j, hj, hd⟩ := hd
  rw [hreg.eq_of_lookup hconn hlen hc hj] at hd
  exact (Option.some.inj hd).symm

/-- **A response is set** on the connection whose request it answers. -/
theorem Routed.selectQueue (h : Routed stream s J) (hinv : Inv s 0) (hshape : Shaped s)
    (hreg : Registered s) (hlen : s.clients.length < 2 ^ 32) (hs : s.selectQueue = some s') :
    Routed stream s' (J.record s (.selectQueue : Label ε)) := by
  rcases flights_selectQueue hinv hshape hs with ⟨hpoll, hflights, hheap⟩ | ⟨c, b, responseQueue,
    hpoll, hflights, hquiet⟩
  · have hnone : J.delivery s = none := delivery_empty hpoll
    have hrecord : J.record s (.selectQueue : Label ε) = J := by
      show ({ J with deliveries := J.deliveries ++ (J.delivery s).toList } : Journal ε) = J
      rw [hnone, Option.toList_none, List.append_nil]
    rw [hrecord]
    exact h.quiet (.of_eq hflights fun x _ => by rw [hheap])
  · have hold : (⟨.responded, c, b⟩ : Motion.Flight) ∈ flights s := by
      rw [hflights]
      exact Multiset.mem_cons_self _ _
    obtain ⟨swap, response, hswap, hc, hbuffer, hb, hanswers⟩ := h.knows _ hold
    cases hd : J.delivery s with
    | none =>
      have hrecord : J.record s (.selectQueue : Label ε) = J := by
        show ({ J with deliveries := J.deliveries ++ (J.delivery s).toList } : Journal ε) = J
        rw [hd, Option.toList_none, List.append_nil]
      rw [hrecord]
      exact h.quiet hquiet
    | some d =>
      obtain rfl := delivery_eq hreg hinv.connected hlen hpoll hb hd
      have hrecord : J.record s (.selectQueue : Label ε) =
          { J with deliveries := J.deliveries ++ [⟨J.job b, c, response⟩] } := by
        show ({ J with deliveries := J.deliveries ++ (J.delivery s).toList } : Journal ε) = _
        rw [hd, Option.toList_some]
      rw [hrecord]
      have hq := h.quiet hquiet
      refine ⟨fun x hx => hq.knows x hx, fun x hx => ?_, fun d hd => ?_, ?_⟩
      · rw [List.map_append, List.mem_append, not_or]
        refine ⟨hq.pending x hx, ?_⟩
        have hne : x.buffer ≠ b := buffer_ne_of_cons hinv hflights hx
        have hx' : x ∈ flights s := hflights ▸ Multiset.mem_cons_of_mem hx
        rw [List.map_singleton, List.mem_singleton]
        exact job_ne (h.knows x hx') (h.knows _ hold) hne
      · rcases List.mem_append.mp hd with hd | hd
        · exact h.right d hd
        · obtain rfl := List.mem_singleton.mp hd
          exact hanswers
      · rw [List.map_append, List.nodup_append']
        refine ⟨h.once, List.nodup_singleton _, ?_⟩
        rw [List.map_singleton, List.disjoint_singleton]
        exact h.pending _ hold

/-- A call of `setResponse` is entered in the journal. -/
theorem exists_delivery {task : Task} {responseQueue : BoundedQueue Task} {client : Client} {j : ℕ}
    (hinv : Inv s 0) (hshape : Shaped s)
    (hpoll : s.responseQueue.poll = some (task, responseQueue))
    (hclient : s.clients[task.clientContext]? = some client)
    (hj : s.connectedClients client.clientApplicationContext.clientNetworkHandle = some j) :
    ∃ b response, task.responseBuffer = some b ∧ s.heap[b]? = some response ∧
      J.delivery s = some ⟨J.job b, j, response⟩ := by
  obtain ⟨c, b, -, rfl⟩ := hshape.response task
    ((BoundedQueue.poll_eq_some_iff.mp hpoll).2 ▸ List.mem_cons_self)
  have hmem : (⟨.responded, c, b⟩ : Motion.Flight) ∈ flights s := by
    rw [← flights_pollResponse hpoll]
    exact Multiset.mem_add.mpr (Or.inr (Multiset.mem_singleton_self _))
  obtain ⟨response, hb⟩ : ∃ response, s.heap[b]? = some response :=
    ⟨_, List.getElem?_eq_getElem (lt_of_flight hinv hmem)⟩
  exact ⟨b, response, rfl, hb, delivery_poll hpoll hclient hj hb⟩

/-- From `s` to `s'` the response at the head of the queue has been set on its connection, to be
written from its start, and all other connections are as they were. -/
def SetOn (s s' : Broker) (d : Delivery) : Prop :=
  ∃ (task : Task) (responseQueue : BoundedQueue Task) (b : ℕ) (client : Client),
    s.responseQueue.poll = some (task, responseQueue) ∧ task.responseBuffer = some b ∧
    s.heap[b]? = some d.response ∧ s'.heap[b]? = some d.response.flip ∧
    s.clients[d.connection]? = some client ∧ client.selectionKey.isValid = true ∧
    s'.clients = s.clients.set d.connection
      { client with txBuffer := some b, selectionKey := ⟨true, true⟩ }

/-- **What a round leaves on the connections** is what the journal has of it. -/
theorem setOn_delivery (hinv : Inv s 0) (hshape : Shaped s) (hs : s.selectQueue = some s') :
    (J.delivery s).elim (s'.clients = s.clients) (SetOn s s') := by
  obtain ⟨hpoll, rfl⟩ | ⟨task, responseQueue, client, hpoll, hclient, ⟨hnone, rfl⟩ |
    ⟨j, s₁, completed, hj, hset, rfl⟩⟩ := Broker.selectQueue_eq_some hs
  · rw [delivery_empty hpoll]
    rfl
  · rw [delivery_closed hpoll hclient hnone]
    rfl
  · obtain ⟨b, response, htask, hb, hdelivery⟩ :=
      exists_delivery (J := J) hinv hshape hpoll hclient hj
    obtain ⟨client', hj', hvalid, -⟩ := hinv.connected _ _ hj
    rw [hdelivery]
    rw [htask] at hset
    obtain ⟨hnull, -⟩ | ⟨buffer, hbuffer, rfl, rfl⟩ :=
      Broker.setResponse_eq_some (s := { s with responseQueue }) hj' hvalid hset
    · cases hnull
    · obtain rfl := Option.some.inj hbuffer
      refine ⟨task, responseQueue, b, client', hpoll, htask, hb, ?_, hj', hvalid, rfl⟩
      show (s.heap.modify b ByteBuffer.flip)[b]? = some response.flip
      rw [List.getElem?_modify_eq, hb]
      rfl

/-! ### Runs -/

/-- **Every step preserves the invariant.** -/
theorem Routed.step (h : Routed stream s J) (hinv : Inv s 0) (hshape : Shaped s)
    (hreg : Registered s) (hlen : s.clients.length < 2 ^ 32) (hs : Step config stream s l s') :
    Routed stream s' (J.record s l) := by
  cases l with
  | read i chunk => exact h.selectRead hinv hs.2
  | decode w => exact h.decode hinv hshape hs.2
  | answer w outcome => exact h.answer hinv hshape hs.2
  | selectQueue => exact h.selectQueue hinv hshape hreg hlen hs.2
  | _ => exact h.quiet (quiet_of_step hinv hs (by simp) (by simp) (by simp) (by simp))

/-- What holds in every state of a run, with its journal. -/
structure Good (stream : ObjectStream ε) (x : Broker × Journal ε) : Prop where
  inv : Inv x.1 0
  shape : Shaped x.1
  registered : Registered x.1
  routed : x.1.clients.length < 2 ^ 32 → Routed stream x.1 x.2

theorem Good.step (h : Good stream (s, J)) (hs : Step config stream s l s') :
    Good stream (s', J.record s l) := by
  obtain ⟨hinv, hshape, hreg, hrouted⟩ := h
  have hlen := length_clients_of_step hinv hs
  exact ⟨hinv.step hs, hshape.step hinv hs, hreg.step hinv.connected hs, fun hlt =>
    (hrouted (hlen.trans_lt hlt)).step hinv hshape hreg (hlen.trans_lt hlt) hs⟩

theorem good_init (config : BrokerConfiguration) (stream : ObjectStream ε) :
    Good stream (init config, Journal.empty) := by
  refine ⟨inv_init config, shaped_init config, registered_init config, fun _ => ?_⟩
  have hidle : workerFlights .idle = 0 := rfl
  have hnone : flights (init config) = 0 := by
    unfold flights init
    simp [BoundedQueue.empty, hidle]
  refine ⟨fun x hx => ?_, fun x hx => ?_, fun d hd => absurd hd List.not_mem_nil,
    List.nodup_nil⟩ <;>
  · dsimp only at hx
    rw [hnone] at hx
    exact absurd hx (Multiset.notMem_zero x)

theorem good_of_run (h : Run (Step config stream) (init config) ls s) :
    Good stream (s, journal config stream (init config) ls .empty) := by
  refine (run_logged h .empty).invariant (P := Good stream) ?_ (good_init config stream)
  rintro ⟨s, J⟩ l ⟨s', J'⟩ hgood ⟨hs, hJ⟩
  obtain rfl : J' = J.record s l := hJ
  exact hgood.step hs

/-- **Responses go to the connection whose request they answer.** Each call of `setResponse` in a
run with fewer than `2 ^ 32` connections passes the encoded result of processing, in the context of
this connection, a request buffer that has been exchanged on it. No exchanged buffer is answered
twice, and a response for a connection that is closed is discarded. The connections are left as the
calls that are entered say. -/
theorem responses_to_their_connection (h : Run (Step config stream) (init config) ls s)
    (hlen : s.clients.length < 2 ^ 32) :
    (∀ d ∈ (journal config stream (init config) ls .empty).deliveries,
      Answers stream (journal config stream (init config) ls .empty) d.job d.connection
        d.response) ∧
    ((journal config stream (init config) ls .empty).deliveries.map Delivery.job).Nodup ∧
    (∀ (task : Task) responseQueue client,
      s.responseQueue.poll = some (task, responseQueue) →
      s.clients[task.clientContext]? = some client → client.selectionKey.isValid = false →
        s.selectQueue =
          some { { s with responseQueue }.release task.close with reactor := .select }) ∧
    ∀ s', s.selectQueue = some s' →
      ((journal config stream (init config) ls .empty).delivery s).elim (s'.clients = s.clients)
        (SetOn s s') := by
  obtain ⟨hinv, hshape, hreg, hrouted⟩ := good_of_run h
  refine ⟨(hrouted hlen).right, (hrouted hlen).once, ?_, fun s' hs => setOn_delivery hinv hshape hs⟩
  intro task responseQueue client hpoll hc hclosed
  have hnone : s.connectedClients client.clientApplicationContext.clientNetworkHandle = none := by
    by_contra hsome
    obtain ⟨j, hj⟩ := Option.ne_none_iff_exists'.mp hsome
    obtain ⟨client', hc', hvalid, -⟩ := hinv.connected _ _ hj
    rw [hreg.eq_of_lookup hinv.connected hlen hc hj, hc] at hc'
    obtain rfl := Option.some.inj hc'
    rw [hclosed] at hvalid
    cases hvalid
  unfold Broker.selectQueue
  simp only [hpoll, hc, hnone, Option.bind_eq_bind, Option.bind_some]
  rfl

/-- Two clients register, the second one first. The last round of `selectQueue` is still to come. -/
def register : List (Label Empty) :=
  let request (name : String) := some (frame (requestPayload.enc (.registration ⟨some name⟩)))
  let answered (id : Int64) (name : String) : List (Label Empty) :=
    [.take 0, .decode 0, .answer 0 (.ok (.registration ⟨some ⟨id, some name⟩, true⟩)), .post 0,
      .wake 0]
  [.select, .accept, .accept, .keysDone, .selectQueue, .select, .read 1 (request "b"), .keysDone] ++
    answered 1 "b" ++ [.selectQueue, .selectQueue, .select, .read 0 (request "a"), .keysDone] ++
    answered 2 "a"

/-- The first response has been set on the second connection, and the next one is on the first. -/
theorem responses_to_their_connection_register :
    ∃ s s' d d', Run (Step smallConfiguration nullStream) (init smallConfiguration) register s ∧
      s.selectQueue = some s' ∧
      (journal smallConfiguration nullStream (init smallConfiguration) register .empty).deliveries =
        [d] ∧ d.connection = 1 ∧
      Answers nullStream (journal smallConfiguration nullStream (init smallConfiguration) register
        .empty) d.job 1 d.response ∧
      d'.connection = 0 ∧ SetOn s s' d' := by
  have hrun : (follow smallConfiguration nullStream (init smallConfiguration) register).any
      (fun s => s.clients.length < 2 ^ 32 ∧ s.selectQueue.isSome ∧
        ((journal smallConfiguration nullStream (init smallConfiguration) register
          .empty).delivery s).any (fun d => d.connection = 0)) = true := by decide +kernel
  simp only [Option.any_eq_true, decide_eq_true_eq] at hrun
  obtain ⟨s, hs, hlen, hselect, d', hd', hzero⟩ := hrun
  obtain ⟨s', hs'⟩ := Option.isSome_iff_exists.mp hselect
  have hd : (journal smallConfiguration nullStream (init smallConfiguration) register
      .empty).deliveries.map Delivery.connection = [1] := by decide +kernel
  obtain ⟨d, hdeliveries, hone⟩ := List.map_eq_singleton_iff.mp hd
  have htheorem := responses_to_their_connection (follow_eq_some_iff.mp hs) hlen
  have hanswers := htheorem.1 d (hdeliveries ▸ List.mem_singleton_self d)
  have hset := htheorem.2.2.2 s' hs'
  rw [hd'] at hset
  rw [hone] at hanswers
  exact ⟨s, s', d, d', follow_eq_some_iff.mp hs, hs', hdeliveries, hone, hanswers, hzero, hset⟩

end Mlmq.Server.Routing
