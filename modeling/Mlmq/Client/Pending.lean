import Mlmq.Client.ClosedLoop
import Mlmq.Server.Steady

/-! # Calls that go on

A call may hang: its request or its response may not fit a buffer, a part of the payload may be read
without the rest, a response may be left behind in the queue, and the reactor may stop. In a run of
steps that do none of this (`Smooth`), a call that waits on an open connection is always somewhere:
bytes of its request are in the socket, or its job is on its way through the broker, or bytes of its
response are on their way back (`Present`, `steady_of_run`). -/

namespace Mlmq.Client.Pending

open Mlmq.Lib.BigEndian Mlmq.Lib.Nio Mlmq.Lib.Transition Mlmq.Net.Requests Mlmq.Net.Responses
open Mlmq.Net.Factory Mlmq.Net.RoundTrip Mlmq.Server.Connection Mlmq.Server.System
open Mlmq.Server.Ownership Mlmq.Server.Contents Mlmq.Server.Flight Mlmq.Server.Motion
open Mlmq.Server.Routing Mlmq.Server.Traffic Mlmq.Server.Pipelining Mlmq.Server.Channel
open Mlmq.Server.Steady
open Mlmq.Server.Drain (Abandons NoneStranded noneStranded_step_iff)
open Mlmq.Server.FrameSize (clientIoBufferCapacity)
open Mlmq.Server.Worker (responseOf)
open Mlmq.Server.Reassembly (Holds holds_clear)
open Mlmq.Lib.Queue (BoundedQueue)
open Mlmq.Util.ByteBufferUtil (ObjectStream)
open Mlmq.Client.ClientConnection Mlmq.Client.ResponseReassembly Mlmq.Client.RemoteCalls
open Mlmq.Client.ClosedLoop

variable {ε : Type} {config : BrokerConfiguration} {stream : ObjectStream ε} {x y : World ε}
  {s s' : Broker} {J : Journal ε} {l : Label ε} {e : Event ε} {i : ℕ}

theorem frame_ne_nil (payload : List UInt8) : frame payload ≠ [] := by
  intro hnil
  have hlength := congrArg List.length hnil
  rw [length_frame, List.length_nil] at hlength
  omega

/-! ### Steps after which calls go on -/

/-- The response fits the buffers of the broker and of the client. -/
def Suits (config : BrokerConfiguration) (stream : ObjectStream ε)
    (outcome : Except ε (Response ε)) : Prop :=
  ∃ payload, responseBytes stream (responseOf outcome) = some payload ∧
    Server.FrameSize.Fits config.maxMessageSize payload

/-- No more than the length field has been read. -/
def Short (s : Broker) (i : ℕ) (chunk : List UInt8) : Prop :=
  ∀ client rxBuffer, s.clients[i]? = some client → s.heap[client.rxBuffer]? = some rxBuffer →
    rxBuffer.position + chunk.length ≤ lenghFieldLenght

/-- **The steps after which calls go on.** -/
def Smooth (config : BrokerConfiguration) (stream : ObjectStream ε) (x : World ε) :
    Event ε → Prop
  | .submit _ request => Server.FrameSize.Fits config.maxMessageSize (requestPayload.enc request)
  -- the payload comes with the last read
  | .broker (.read i (some chunk)) =>
    chunk = (x.connections i).toBroker ∨ Short x.broker i chunk
  | .broker (.answer _ outcome) => Suits config stream outcome
  | .broker .selectQueue => ¬ Abandons x.broker (.selectQueue : Label ε)
  | .broker .acceptFails => False
  | _ => True

instance (outcome : Except ε (Response ε)) : Decidable (Suits config stream outcome) :=
  inferInstanceAs (Decidable (∃ payload ∈ responseBytes stream (responseOf outcome),
    _ ∧ (frame payload).length ≤ clientIoBufferCapacity))

instance (s : Broker) (i : ℕ) (chunk : List UInt8) : Decidable (Short s i chunk) :=
  decidable_of_iff (∀ client ∈ s.clients[i]?, ∀ rxBuffer ∈ s.heap[client.rxBuffer]?,
      rxBuffer.position + chunk.length ≤ lenghFieldLenght)
    ⟨fun h client rxBuffer hi hrx => h client hi rxBuffer hrx,
      fun h client hi rxBuffer hrx => h client rxBuffer hi hrx⟩

instance (x : World ε) : (e : Event ε) → Decidable (Smooth config stream x e)
  | .submit _ _ => inferInstanceAs (Decidable (_ ∧ _))
  | .broker (.read _ (some _)) => inferInstanceAs (Decidable (_ ∨ Short _ _ _))
  | .broker (.answer _ outcome) => inferInstanceAs (Decidable (Suits config stream outcome))
  | .broker .selectQueue => inferInstanceAs (Decidable (¬ Abandons _ _))
  | .broker .acceptFails => isFalse id
  | .receive _ _ | .ends _ | .broker .select | .broker .accept => isTrue trivial
  | .broker (.read _ none) => isTrue trivial
  | .broker (.write _ _) | .broker (.fails _) | .broker .keysDone => isTrue trivial
  | .broker (.take _) | .broker (.decode _) | .broker (.post _) | .broker (.wake _) =>
    isTrue trivial

theorem Smooth.fits (h : Smooth config stream x e) : e.Fits := by
  cases e with
  | submit j request => exact h.2
  | _ => trivial

/-- The queues have room for each connection. -/
structure Roomy (config : BrokerConfiguration) (s : Broker) : Prop where
  handles : s.clients.length < 2 ^ 32
  requests : s.clients.length ≤ config.requestQueueSize
  responses : s.clients.length ≤ config.responseQueueSize

theorem Roomy.of_le (h : Roomy config s') (hle : s.clients.length ≤ s'.clients.length) :
    Roomy config s :=
  ⟨hle.trans_lt h.handles, hle.trans h.requests, hle.trans h.responses⟩

/-! ### The invariant -/

/-- The receive buffer has a part of the length field, the rest of the frame is in the socket. -/
def Begins (maxMessageSize : ℕ) (toBroker : List UInt8) (rxBuffer : ByteBuffer) : Prop :=
  ∃ w payload, Holds rxBuffer w ∧ w.length ≤ lenghFieldLenght ∧ w ++ toBroker = frame payload ∧
    Server.FrameSize.Fits maxMessageSize payload

/-- The request in the socket can be read. -/
structure Arriving (config : BrokerConfiguration) (s : Broker) (i : ℕ) (toBroker : List UInt8) :
    Prop where
  unaccepted : toBroker ≠ [] → s.clients[i]? = none → ∃ payload, toBroker = frame payload ∧
    Server.FrameSize.Fits config.maxMessageSize payload
  accepted : toBroker ≠ [] → Receiving (Begins config.maxMessageSize toBroker) s i

/-- A call that waits on an open connection has its job with the broker, if none of its bytes is in
the sockets or being sent. -/
def Present (x : World ε) (i : ℕ) : Prop :=
  ∀ call ioBuffer, (x.connections i).caller = .waiting call ioBuffer → Open x.broker i →
    (x.connections i).toBroker = [] → (x.connections i).toClient = [] → Sends x.broker i [] →
      travelling x.broker i ≠ 0

/-- What holds in every state of a run of such steps. -/
structure Steady (config : BrokerConfiguration) (stream : ObjectStream ε) (x : World ε) : Prop where
  whole : Whole stream x
  sized : Sized config x.broker
  capacities : Capacities config x.broker
  workers : x.broker.workers.length = config.workerThreadCount
  running : x.broker.reactor ≠ .stopped
  noneStranded : NoneStranded x.broker
  writes : Writes x.broker
  unaccepted : ∀ i, x.broker.clients[i]? = none → (x.connections i).toClient = []
  outcomes : ∀ n processed, x.journal.processed n = some processed →
    Suits config stream processed.outcome
  arriving : ∀ i, Arriving config x.broker i (x.connections i).toBroker
  present : ∀ i, Present x i

/-! ### The broker -/

/-- **Every request that is on its way can be decoded.** -/
theorem decodable_of_whole (h : Whole stream x) (hlen : x.broker.clients.length < 2 ^ 32) (w : ℕ) :
    Decodable x.broker w := by
  intro c b raw hw hraw
  have hflight : (⟨.requested, c, b⟩ : Server.Motion.Flight) ∈ flights x.broker :=
    mem_flights_of_worker hw (Multiset.mem_singleton_self _)
  obtain ⟨pending, hinward, -⟩ := (h.linked hlen c).caller
  obtain ⟨requests, -, hdecoded⟩ := hinward.decoded
  have hlast := hinward.last b (mem_travelling.mpr ⟨_, hflight⟩)
  obtain ⟨k, hk, hn⟩ := List.getElem_of_mem (List.mem_of_getLast? hlast)
  obtain ⟨swap, raw', hswap, hdecode⟩ := List.Forall₂.get hdecoded hk (hdecoded.length_eq ▸ hk)
  obtain ⟨swap', b', hswap', -, -, hb', hholds⟩ := (h.good.routed hlen).knows _ hflight
  rw [List.get_eq_getElem, hn] at hswap
  obtain rfl := Option.some.inj (hswap.symm.trans hswap')
  obtain rfl := Option.some.inj (hraw.symm.trans hb')
  exact ⟨_, raw', hholds ▸ hdecode⟩

/-- The results that have been noted come from answers. -/
theorem processed_record_cases {n : ℕ} {processed : Processed ε}
    (h : (J.record s l).processed n = some processed) :
    J.processed n = some processed ∨ ∃ w, l = .answer w processed.outcome := by
  unfold Journal.record at h
  split at h
  · rename_i j chunk
    left
    cases hswap : Journal.swapped s j chunk with
    | none => rwa [hswap] at h
    | some swap => rwa [hswap] at h
  · rename_i w outcome
    split at h
    · rename_i task buffer request hw
      unfold Journal.process at h
      dsimp only at h
      by_cases hn : n = J.job buffer
      · subst hn
        rw [Function.update_self] at h
        obtain rfl := Option.some.inj h
        exact Or.inr ⟨w, rfl⟩
      · rw [Function.update_of_ne hn] at h
        exact Or.inl h
    · exact Or.inl h
  · exact Or.inl h
  · exact Or.inl h

/-- **The request in the socket**, in a step that does not read from it. -/
theorem Arriving.of_ne {toBroker : List UInt8} (h : Arriving config s i toBroker)
    (hgood : Good stream (s, J)) (hlen : s.clients.length < 2 ^ 32)
    (hs : Server.System.Step config stream s l s') (hread : ∀ chunk, l ≠ .read i chunk) :
    Arriving config s' i toBroker := by
  refine ⟨fun hne hnone => h.unaccepted hne ?_, fun hne => ?_⟩
  · rw [List.getElem?_eq_none_iff] at hnone ⊢
    exact (length_clients_of_step hgood.inv hs).trans hnone
  · refine receiving_of_step (h.accepted hne) hgood.inv hgood.shape hgood.registered hlen hs hread
      fun hnone b => ?_
    obtain ⟨payload, hframe, hfits⟩ := h.unaccepted hne hnone
    exact ⟨[], payload, holds_clear b, Nat.zero_le _, hframe, hfits⟩

/-- **A short read** leaves a part of the length field in the buffer. -/
theorem Begins.read {maxMessageSize : ℕ} {chunk rest : List UInt8} {rxBuffer : ByteBuffer}
    (h : Begins maxMessageSize (chunk ++ rest) rxBuffer) (hroom : chunk.length ≤ rxBuffer.remaining)
    (hshort : rxBuffer.position + chunk.length ≤ lenghFieldLenght) (hrest : rest ≠ []) :
    ¬ Complete (rxBuffer.write chunk) ∧
      Begins maxMessageSize rest (afterTest (rxBuffer.write chunk)) := by
  obtain ⟨w, payload, hholds, -, hframe, hfits⟩ := h
  have hwrite : Holds (rxBuffer.write chunk) (w ++ chunk) := by
    refine hholds.write ?_
    rw [ByteBuffer.remaining, hholds.limit, hholds.position] at hroom
    have hle := hholds.bytes.length_le
    omega
  have hlength : (w ++ chunk).length ≤ lenghFieldLenght := by
    rw [List.length_append, ← hholds.position]
    exact hshort
  rw [← List.append_assoc] at hframe
  have hpos := List.length_pos_iff.mpr hrest
  have hsum := congrArg List.length hframe
  rw [List.length_append] at hsum
  have hcapacity : clientIoBufferCapacity = 4000 := rfl
  have hsmall := hfits.2
  refine ⟨hwrite.incomplete ⟨rest, hframe⟩ (by omega) ?_, w ++ chunk, payload,
    hwrite.afterTest hlength, hlength, hframe, hfits⟩
  rw [length_frame, hcapacity] at hsmall
  omega

/-- **The last read** brings the rest of the frame. -/
theorem Begins.complete {maxMessageSize : ℕ} {chunk : List UInt8} {rxBuffer : ByteBuffer}
    (h : Begins maxMessageSize chunk rxBuffer) (hroom : chunk.length ≤ rxBuffer.remaining) :
    Complete (rxBuffer.write chunk) := by
  obtain ⟨w, payload, hholds, -, hframe, hfits⟩ := h
  have hwrite : Holds (rxBuffer.write chunk) (w ++ chunk) := by
    refine hholds.write ?_
    rw [ByteBuffer.remaining, hholds.limit, hholds.position] at hroom
    have hle := hholds.bytes.length_le
    omega
  rw [hframe] at hwrite
  have hcapacity : clientIoBufferCapacity = 4000 := rfl
  have hsmall := hfits.2
  refine hwrite.complete ?_
  rw [length_frame, hcapacity] at hsmall
  omega

/-- A read brings no more than there is room for. -/
theorem room_of_read {chunk : List UInt8} {client : Client} {rxBuffer : ByteBuffer}
    (hs : s.selectRead config i (some chunk) = some s') (hi : s.clients[i]? = some client)
    (hrx : s.heap[client.rxBuffer]? = some rxBuffer) : chunk.length ≤ rxBuffer.remaining :=
  Broker.length_le_of_selectRead hs hi hrx

/-- **The request in the socket**, in a read that does not bring the rest of it. -/
theorem Arriving.read {chunk rest : List UInt8} (h : Arriving config s i (chunk ++ rest))
    (hinv : Inv s 0) (hs : s.selectRead config i (some chunk) = some s')
    (hshort : rest ≠ [] → Short s i chunk) : Arriving config s' i rest := by
  obtain ⟨client, rxBuffer, -, hi, hvalid, hrx, -⟩ := Broker.selectRead_eq_some hs
  refine ⟨fun _ hnone => ?_, fun hne => ?_⟩
  · have hlt := (List.getElem?_eq_some_iff.mp hi).1
    rw [List.getElem?_eq_none_iff, length_clients_selectRead hs] at hnone
    omega
  · obtain ⟨rxBuffer', hrx', hbegins⟩ :=
      h.accepted (fun hnil => hne (List.append_eq_nil_iff.mp hnil).2) client hi hvalid
    obtain rfl := Option.some.inj (hrx.symm.trans hrx')
    obtain ⟨hc, hnext⟩ := hbegins.read (room_of_read hs hi hrx) (hshort hne client _ hi hrx) hne
    intro client' hi' hvalid'
    obtain ⟨rxBuffer', hrx', hb⟩ := receiving_selectRead hinv hi hrx hs client' hi' hvalid'
    rw [if_neg hc] at hb
    exact ⟨rxBuffer', hrx', hb ▸ hnext⟩

/-! ### The client -/

section Client

variable {c c' : Connection ε}

/-- The socket of a call that begins has the request, and the broker nothing of it. -/
theorem toBroker_submit {request : Request} (h : Linked stream s J i c)
    (hfit : (frame (requestPayload.enc request)).length ≤ clientIoBufferCapacity)
    (hs : c.submit stream request = some c') :
    c'.toBroker = frame (requestPayload.enc request) ∧ Receiving (Holds · []) s i := by
  obtain ⟨⟨pending, hinward, hcalls⟩, -⟩ := h
  unfold Connection.submit at hs
  split at hs
  · rename_i b hcaller
    rw [hcaller] at hcalls
    obtain ⟨hb, rfl, -⟩ := hcalls
    obtain ⟨hempty, hholds⟩ := hinward.inbound
    let call : Call := ⟨request, []⟩
    have hfit' : (frame (requestPayload.enc call.request)).length ≤ clientIoBufferCapacity := hfit
    have hopen : none ∉ call.reads := List.not_mem_nil
    obtain ⟨b', -, -, heq⟩ := submitRequest_waits stream hb hfit' hopen not_arrived_nil
    refine ⟨?_, hholds⟩
    rw [← Option.some.inj hs]
    unfold Connection.proceed
    rw [heq]
    show c.toBroker ++ _ = _
    rw [hempty, List.nil_append]
  · cases hs

theorem toClient_submit {request : Request} (hs : c.submit stream request = some c') :
    c'.toClient = c.toClient := by
  unfold Connection.submit at hs
  split at hs
  · rw [← Option.some.inj hs]
    unfold Connection.proceed
    split <;> rfl
  · cases hs

/-- A call that reads takes the bytes out of the socket, and goes on. -/
theorem receive_eq_some {chunk : List UInt8} (hs : c.receive stream chunk = some c') :
    ∃ call b rest, c.caller = .waiting call b ∧ c.toClient = chunk ++ rest ∧
      chunk.length ≤ (submitRequest stream call b).ioBuffer.remaining ∧
      c'.toBroker = c.toBroker ∧ c'.toClient = rest ∧
      ∀ call' b', c'.caller = .waiting call' b' →
        call' = { call with reads := call.reads ++ [some chunk] } ∧ b' = b := by
  unfold Connection.receive at hs
  split at hs
  · rename_i call b hcaller
    split_ifs at hs with hchunk
    obtain ⟨⟨rest, hrest⟩, hroom⟩ := hchunk
    have hdrop : c.toClient.drop chunk.length = rest := by rw [← hrest, List.drop_left]
    refine ⟨call, b, rest, hcaller, hrest.symm, hroom, ?_⟩
    rw [← Option.some.inj hs, hdrop]
    unfold Connection.proceed
    split
    · refine ⟨rfl, rfl, fun call' b' heq => ?_⟩
      injection heq with h1 h2
      exact ⟨h1.symm, h2.symm⟩
    · exact ⟨rfl, rfl, fun call' b' heq => by cases heq⟩
    · exact ⟨rfl, rfl, fun call' b' heq => by cases heq⟩
  · cases hs

/-- A call for which no more bytes are there has not read any: the whole response would have
arrived. -/
theorem received_eq_nil {w : List UInt8} {pending : Option Request}
    (h : Outward stream s J i [] w pending) (hw : ¬ Arrived w) (hsends : Sends s i [])
    (hopen : Open s i) : w = [] := by
  cases h with
  | silent hw => exact hw
  | answered payload rest hanswer hpending hidle hrest hbytes =>
    obtain rfl := sends_eq hrest hsends hopen
    rw [List.append_nil, List.append_nil] at hbytes
    exact absurd ((arrived_iff_frame hanswer.length_lt ⟨[], by rw [hbytes, List.append_nil]⟩).mpr
      hbytes) hw

/-- **A call reads on.** -/
theorem Present.receive {chunk : List UInt8} (h : Present x i) (hx : Linked stream x.broker
    x.journal i (x.connections i)) (hy : Linked stream x.broker x.journal i c')
    (hs : (x.connections i).receive stream chunk = some c') :
    Present { x with connections := Function.update x.connections i c' } i := by
  intro call' b' hwaiting hopen htoBroker htoClient hsends
  dsimp only at hwaiting hopen htoBroker htoClient hsends
  rw [Function.update_self] at hwaiting htoBroker htoClient
  obtain ⟨call, b, rest, hcaller, hbytes, hroom, hsame, hrest, hcall⟩ := receive_eq_some hs
  obtain ⟨rfl, rfl⟩ := hcall call' b' hwaiting
  obtain ⟨⟨pending, -, hcalls⟩, -⟩ := hx
  rw [hcaller] at hcalls
  obtain ⟨hb, hfit, hreads, hw, -⟩ := hcalls
  obtain ⟨⟨pending', -, hcalls'⟩, -⟩ := hy
  rw [hwaiting] at hcalls'
  obtain ⟨-, -, -, hw', hout', -⟩ := hcalls'
  rw [htoClient] at hout'
  -- nothing has been read
  have hnil := received_eq_nil hout' hw' hsends hopen
  rw [received_next stream hb hfit hreads hw hroom] at hnil
  obtain ⟨-, rfl⟩ := List.append_eq_nil_iff.mp hnil
  refine h call b' hcaller hopen (hsame ▸ htoBroker) ?_ hsends
  rw [hbytes, ← hrest, htoClient]
  rfl

end Client

/-! ### The broker -/

/-- The rest of a request is read, and its job sets out. -/
theorem travelling_ne_zero_of_read {chunk : List UInt8} (h : Steady config stream x)
    (hroom : Roomy config x.broker) (hs : x.broker.selectRead config i (some chunk) = some s')
    (hne : chunk ≠ []) (hbytes : (x.connections i).toBroker = chunk) : travelling s' i ≠ 0 := by
  obtain ⟨client, rxBuffer, s₁, hi, hvalid, hrx, hs₁, heq⟩ := Broker.selectRead_eq_some hs
  have harriving := (h.arriving i).accepted
  rw [hbytes] at harriving
  obtain ⟨rxBuffer', hrx', hbegins⟩ := harriving hne client hi hvalid
  obtain rfl := Option.some.inj (hrx.symm.trans hrx')
  have hcomplete := hbegins.complete (room_of_read hs hi hrx)
  obtain ⟨⟨pending, hinward, -⟩, -⟩ := h.whole.linked hroom.handles i
  have hidle : travelling x.broker i = 0 := by
    refine hinward.unread fun hnone => hne ?_
    subst hnone
    rw [← hbytes]
    exact hinward.inbound.1
  have hadd := requestQueue_hasRoom h.whole h.capacities hroom.handles hroom.requests
    (List.getElem?_eq_some_iff.mp hi).1 hidle
  rcases requestQueue_selectRead hs with ⟨-, hnone⟩ | ⟨client', hi', -, -, hqueue⟩
  · exact absurd ⟨hadd, client, rxBuffer, hi, hrx, hcomplete⟩ hnone
  · have hmem : (⟨i, some client'.rxBuffer, none⟩ : Task) ∈ s'.requestQueue.items := by
      rw [(BoundedQueue.add_eq_some_iff.mp hqueue).2.2]
      exact List.mem_append_right _ List.mem_cons_self
    have htravelling := mem_travelling.mpr ⟨_, mem_flights_of_requested hmem⟩
    exact fun hzero => Multiset.notMem_zero _ (hzero ▸ htravelling)

/-- The steps lose nothing. -/
theorem keeps_of_smooth (h : Steady config stream x) (hroom : Roomy config x.broker)
    (hs : Server.System.Step config stream x.broker l s')
    (hsmooth : Smooth config stream x (.broker l)) (hqueue : l ≠ .selectQueue) :
    Keeps config stream x.broker l := by
  cases l with
  | selectQueue => exact absurd rfl hqueue
  | decode w => exact decodable_of_whole h.whole hroom.handles w
  | answer w outcome =>
    obtain ⟨payload, hp, hfits⟩ := hsmooth
    exact ⟨payload, hp, hfits.1⟩
  | post w =>
    obtain ⟨task, hw, -⟩ := Broker.post_eq_some hs.2
    exact responseQueue_hasRoom h.whole h.capacities hroom.handles hroom.responses hw
  | _ => trivial

/-- **A step of the broker.** -/
theorem Present.broker (h : Steady config stream x) (hroom' : Roomy config y.broker)
    (hs : RemoteCalls.Step config stream x (.broker l) y)
    (hsmooth : Smooth config stream x (.broker l)) : Present y i := by
  obtain ⟨hbroker, -, hsockets⟩ := broker_of_step hs
  have hroom := hroom'.of_le (length_clients_of_step h.whole.good.inv hbroker)
  have hgood : Good stream (x.broker, x.journal) := h.whole.good
  have hinv := hgood.inv
  have hshape := hgood.shape
  obtain ⟨hc, hread, hother⟩ := sockets_eq_some (i := i) hsockets
  intro call b hwaiting hopen htoBroker htoClient hsends
  have hopen₀ := open_of_step hinv hbroker hopen
  have hcaller : (x.connections i).caller = .waiting call b := by
    rw [hc] at hwaiting
    exact hwaiting
  obtain ⟨hsocket, hwritten⟩ : (x.connections i).toClient = [] ∧ written x.broker i l = [] := by
    rw [hc] at htoClient
    exact List.append_eq_nil_iff.mp htoClient
  by_cases hempty : (x.connections i).toBroker = []
  · obtain ⟨rest, hrest⟩ := exists_sends x.broker i
    by_cases hqueue : l = .selectQueue
    · subst hqueue
      have hrecv : Receiving (fun _ => True) x.broker i := by
        intro client hi hvalid
        have hlt := (apart_client hinv hi (mem_clientSlots_rx hvalid)).1
        exact ⟨_, List.getElem?_eq_getElem hlt, trivial⟩
      obtain ⟨-, ⟨hnone, hrest'⟩ | ⟨b', raw, hraw, hdelivery, -, hframe⟩⟩ :=
        selectQueue_cases (J := x.journal) hinv hshape hgood.registered hroom.handles hbroker.2
          hrest hrecv
      · obtain rfl := sends_eq hrest' hsends hopen
        have hle := travelling_le_of_selectQueue hinv hshape hgood.registered hroom.handles
          hbroker.2 hopen₀ hnone
        intro hzero
        rw [hzero, Multiset.le_zero] at hle
        exact h.present i call b hcaller hopen₀ hempty hsocket hrest hle
      · -- a response that is set has bytes to be sent
        obtain ⟨-, processed, payload, -, -, hrest', -⟩ :=
          rest_flip_of_delivery hgood hroom'.handles hbroker hdelivery
        have hnil := sends_eq hframe hsends hopen
        rw [hrest'] at hnil
        exact absurd hnil (frame_ne_nil payload)
    · have hkeeps := keeps_of_smooth h hroom hbroker hsmooth hqueue
      obtain ⟨-, hrest'⟩ := sends_of_step hinv hbroker hqueue hrest
      rw [hwritten, List.length_nil, List.drop_zero] at hrest'
      obtain rfl := sends_eq hrest' hsends hopen
      have hle := travelling_le_of_step (i := i) hinv hshape h.sized hbroker hkeeps
      intro hzero
      rw [hzero, Multiset.le_zero] at hle
      exact h.present i call b hcaller hopen₀ hempty hsocket hrest hle
  · -- the request has just been read
    have hl : ∃ chunk, l = .read i (some chunk) := by
      by_contra hne
      exact hempty ((hother fun chunk heq => hne ⟨chunk, heq⟩) ▸ htoBroker)
    obtain ⟨chunk, rfl⟩ := hl
    have hbytes := hread chunk rfl
    rw [htoBroker, List.append_nil] at hbytes
    exact travelling_ne_zero_of_read h hroom hbroker.2 (hbytes ▸ hempty) hbytes

/-- **The requests in the sockets**, in any step of the broker. -/
theorem Arriving.broker (h : Steady config stream x) (hlen : x.broker.clients.length < 2 ^ 32)
    (hs : RemoteCalls.Step config stream x (.broker l) y)
    (hsmooth : Smooth config stream x (.broker l)) :
    Arriving config y.broker i (y.connections i).toBroker := by
  obtain ⟨hbroker, -, hsockets⟩ := broker_of_step hs
  have hgood : Good stream (x.broker, x.journal) := h.whole.good
  obtain ⟨-, hread, hother⟩ := sockets_eq_some (i := i) hsockets
  have harriving := h.arriving i
  by_cases hchunk : ∃ chunk, l = .read i (some chunk)
  · obtain ⟨chunk, rfl⟩ := hchunk
    have hbytes := hread chunk rfl
    rw [hbytes] at harriving
    refine harriving.read hgood.inv hbroker.2 fun hne => ?_
    refine Or.resolve_left hsmooth fun hall => hne ?_
    rw [hbytes] at hall
    exact List.append_right_eq_self.mp hall.symm
  · have hsame := hother fun chunk heq => hchunk ⟨chunk, heq⟩
    rw [hsame]
    by_cases hend : l = .read i none
    · -- the connection is closed
      subst hend
      refine ⟨fun hne hnone => harriving.unaccepted hne ?_, fun _ =>
        receiving_of_not_open (not_open_readEnd hbroker.2)⟩
      rw [List.getElem?_eq_none_iff, length_clients_selectRead hbroker.2] at hnone
      exact List.getElem?_eq_none hnone
    · refine harriving.of_ne hgood hlen hbroker fun chunk heq => ?_
      cases chunk with
      | none => exact hend heq
      | some chunk => exact hchunk ⟨chunk, heq⟩

/-- Nothing is written to a connection that has not been accepted. -/
theorem Steady.toClient_broker (h : Steady config stream x)
    (hs : RemoteCalls.Step config stream x (.broker l) y) (hi : y.broker.clients[i]? = none) :
    (y.connections i).toClient = [] := by
  obtain ⟨hbroker, -, hsockets⟩ := broker_of_step hs
  have hi₀ : x.broker.clients[i]? = none := by
    rw [List.getElem?_eq_none_iff] at hi ⊢
    exact (length_clients_of_step h.whole.good.inv hbroker).trans hi
  have hwritten : written x.broker i l = [] := by
    unfold written
    split
    · unfold sendBuffer
      rw [hi₀, Option.elim_none, List.take_nil]
      exact ite_self _
    · rfl
  rw [(sockets_eq_some (i := i) hsockets).1]
  show (x.connections i).toClient ++ written x.broker i l = []
  rw [h.unaccepted i hi₀, hwritten]
  rfl

/-! ### Runs -/

/-- A client has taken a step. -/
theorem Steady.client {c' : Connection ε} (h : Steady config stream x)
    (hwhole : Whole stream { x with connections := Function.update x.connections i c' })
    (harriving : Arriving config x.broker i c'.toBroker)
    (htoClient : (x.connections i).toClient = [] → c'.toClient = [])
    (hpresent : Present { x with connections := Function.update x.connections i c' } i) :
    Steady config stream { x with connections := Function.update x.connections i c' } where
  whole := hwhole
  sized := h.sized
  capacities := h.capacities
  workers := h.workers
  running := h.running
  noneStranded := h.noneStranded
  writes := h.writes
  unaccepted j hj := by
    show (Function.update x.connections i c' j).toClient = []
    rcases eq_or_ne j i with rfl | hne
    · rw [Function.update_self]
      exact htoClient (h.unaccepted j hj)
    · rw [Function.update_of_ne hne]
      exact h.unaccepted j hj
  outcomes := h.outcomes
  arriving j := by
    show Arriving config x.broker j (Function.update x.connections i c' j).toBroker
    rcases eq_or_ne j i with rfl | hne
    · rwa [Function.update_self]
    · rw [Function.update_of_ne hne]
      exact h.arriving j
  present j := by
    rcases eq_or_ne j i with rfl | hne
    · exact hpresent
    · intro call b hwaiting hopen htoBroker htoClient hsends
      dsimp only at hwaiting hopen htoBroker htoClient hsends
      rw [Function.update_of_ne hne] at hwaiting htoBroker htoClient
      exact h.present j call b hwaiting hopen htoBroker htoClient hsends

/-- **Every such step keeps the invariant.** -/
theorem Steady.step (hstream : stream.RoundTrips) (h : Steady config stream x)
    (hroom : Roomy config y.broker) (hs : RemoteCalls.Step config stream x e y)
    (hsmooth : Smooth config stream x e) : Steady config stream y := by
  have hwhole := h.whole.step hstream hsmooth.fits hs
  cases e with
  | submit j request =>
    obtain ⟨c', hc', rfl⟩ := Option.map_eq_some_iff.mp hs
    obtain ⟨hbytes, hholds⟩ := toBroker_submit (h.whole.linked hroom.handles j) hsmooth.2 hc'
    have hne : c'.toBroker ≠ [] := hbytes ▸ frame_ne_nil _
    refine h.client hwhole ⟨fun _ _ => ⟨_, hbytes, hsmooth⟩, fun _ client hi hvalid => ?_⟩
      (fun hnil => (toClient_submit hc').trans hnil) ?_
    · obtain ⟨rxBuffer, hrx, hnil⟩ := hholds client hi hvalid
      exact ⟨rxBuffer, hrx, [], _, hnil, Nat.zero_le _, hbytes, hsmooth⟩
    · intro call b _ _ hnil
      dsimp only at hnil
      rw [Function.update_self] at hnil
      exact absurd hnil hne
  | receive j chunk =>
    obtain ⟨c', hc', rfl⟩ := Option.map_eq_some_iff.mp hs
    obtain ⟨-, -, rest, -, hbytes, -, hsame, hrest, -⟩ := receive_eq_some hc'
    have hlinked := hwhole.linked hroom.handles j
    dsimp only at hlinked
    rw [Function.update_self] at hlinked
    exact h.client hwhole (hsame ▸ h.arriving j)
      (fun hnil => hrest.trans (List.append_eq_nil_iff.mp (hbytes.symm.trans hnil)).2)
      ((h.present j).receive (h.whole.linked hroom.handles j) hlinked hc')
  | ends j =>
    obtain rfl := Option.some.inj hs
    refine h.client hwhole (h.arriving j) id fun call b hwaiting => ?_
    dsimp only at hwaiting
    rw [Function.update_self] at hwaiting
    cases hwaiting
  | broker l =>
    obtain ⟨hbroker, hjournal, -⟩ := broker_of_step hs
    have hinv := h.whole.good.inv
    have hshape := h.whole.good.shape
    have hle := length_clients_of_step hinv hbroker
    have hfails : l ≠ .acceptFails := by
      rintro rfl
      exact hsmooth
    refine ⟨hwhole, h.sized.step hinv.connected hbroker, h.capacities.step hinv hbroker, ?_,
      running_of_step hinv hshape h.running hbroker hfails, ?_, ?_,
      fun j hj => Steady.toClient_broker h hs hj, fun n processed hn => ?_,
      fun j => Arriving.broker h (hle.trans_lt hroom.handles) hs hsmooth,
      fun j => Present.broker h hroom hs hsmooth⟩
    · rw [length_workers_of_step hinv hbroker, h.workers]
    · refine (noneStranded_step_iff hinv hshape h.noneStranded hbroker).mpr fun habandons => ?_
      cases l with
      | selectQueue => exact hsmooth habandons
      | _ => exact habandons
    · refine h.writes.step hinv hshape h.whole.good.registered (hle.trans_lt hroom.handles) hbroker
        (J := x.journal) fun hl d hd => ?_
      subst hl
      obtain ⟨-, processed, payload, -, -, hrest, -⟩ :=
        rest_flip_of_delivery h.whole.good hroom.handles hbroker hd
      exact hrest ▸ frame_ne_nil payload
    · rw [hjournal] at hn
      rcases processed_record_cases hn with hn | ⟨w, rfl⟩
      · exact h.outcomes n processed hn
      · exact hsmooth

theorem steady_init (config : BrokerConfiguration) (stream : ObjectStream ε)
    {ioBuffers : ℕ → ByteBuffer}
    (hsize : ∀ i, (ioBuffers i).bytes.length = clientIoBufferCapacity) :
    Steady config stream (RemoteCalls.init config ioBuffers) where
  whole := whole_init config stream hsize
  sized b hb := absurd hb List.not_mem_nil
  capacities := ⟨rfl, rfl⟩
  workers := List.length_replicate
  running := by
    show ReactorState.select ≠ .stopped
    simp
  noneStranded _ _ := rfl
  writes i client hi := by cases hi
  unaccepted _ _ := rfl
  outcomes n processed hn := by cases hn
  arriving i := ⟨fun hne => absurd rfl hne, fun hne => absurd rfl hne⟩
  present i call b hwaiting := by cases hwaiting

theorem inv_of_step (hinv : Inv x.broker 0) (hs : RemoteCalls.Step config stream x e y) :
    Inv y.broker 0 := by
  rcases broker_cases hs with hsame | ⟨l, -, hbroker⟩
  · exact hsame ▸ hinv
  · exact hinv.step hbroker

/-- The connections only become more. -/
theorem Roomy.before (h : Roomy config y.broker) (hinv : Inv x.broker 0)
    (hs : RemoteCalls.Step config stream x e y) : Roomy config x.broker := by
  rcases broker_cases hs with hsame | ⟨l, -, hbroker⟩
  · exact hsame ▸ h
  · exact h.of_le (length_clients_of_step hinv hbroker)

/-- **The invariant holds at the end of a run** of steps after which calls go on. -/
theorem steady_of_run (hstream : stream.RoundTrips) {ioBuffers : ℕ → ByteBuffer}
    {es : List (Event ε)} (hsize : ∀ i, (ioBuffers i).bytes.length = clientIoBufferCapacity)
    (h : Run (Restrict (RemoteCalls.Step config stream) (Smooth config stream))
      (RemoteCalls.init config ioBuffers) es x) (hroom : Roomy config x.broker) :
    Steady config stream x := by
  obtain ⟨-, hrun⟩ := Run.of_last (P := fun x : World ε => Inv x.broker 0)
    (Q := fun x : World ε => Roomy config x.broker) (fun _ _ _ hinv hs => inv_of_step hinv hs.1)
    (fun _ _ _ hinv hs hroom => hroom.before hinv hs.1) h (inv_init config) hroom
  exact hrun.invariant (P := Steady config stream)
    (fun _ _ _ hx hs => hx.step hstream hs.2 hs.1.1 hs.1.2) (steady_init config stream hsize)

end Mlmq.Client.Pending
