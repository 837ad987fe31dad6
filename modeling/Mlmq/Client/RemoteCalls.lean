import Mlmq.Client.ResponseReassembly
import Mlmq.Server.Channel

/-! # Remote calls

The broker and its clients, each with a socket of its own: what a call of `submitRequest` writes is
what the broker reads from the connection, piece by piece, and what the broker writes is what the
call receives. A client has one call at a time. The bytes that have not been read yet stay in the
socket. The broker takes its steps as `System` has them, and the socket of a client may end at any
time, by `close`, by the timer of a call or because the broker has closed it; a client that connects
again is another connection.

The journal of the broker follows the run, so that it can be said which result a response is: the
response that the `k`-th call returns is the result of processing the `k`-th request, and that has
been processed once (`returns_its_result`). -/

namespace Mlmq.Client.RemoteCalls

open Mlmq.Lib.BigEndian Mlmq.Lib.Nio Mlmq.Lib.Transition Mlmq.Lib.Cursor Mlmq.Net.Requests
open Mlmq.Net.Responses Mlmq.Net.Factory Mlmq.Net.RoundTrip Mlmq.Server.Connection
open Mlmq.Server.System
open Mlmq.Server.Ownership Mlmq.Server.Contents Mlmq.Server.Flight Mlmq.Server.Motion
open Mlmq.Server.Routing Mlmq.Server.Traffic Mlmq.Server.Channel
open Mlmq.Server.FrameSize (clientIoBufferCapacity)
open Mlmq.Server.Worker (responseOf respond holds_frame)
open Mlmq.Server.Reassembly (Holds)
open Mlmq.Util.ByteBufferUtil (ObjectStream)
open Mlmq.Client.ClientConnection Mlmq.Client.ResponseReassembly

variable {ε : Type} {config : BrokerConfiguration} {stream : ObjectStream ε}

/-! ### States -/

/-- What a client is doing. -/
inductive Caller
  | idle (ioBuffer : ByteBuffer)
  /-- `submitRequest` waits; `call` has what it has read so far, and `ioBuffer` is what it found -/
  | waiting (call : Call) (ioBuffer : ByteBuffer)
  /-- the socket has ended, and with it every further call -/
  | ended

/-- A client with its socket, the requests it has submitted and the responses it has got. -/
structure Connection (ε : Type) where
  caller : Caller
  toBroker : List UInt8
  toClient : List UInt8
  submitted : List Request
  returned : List (Response ε)

structure World (ε : Type) where
  broker : Broker
  journal : Journal ε
  connections : ℕ → Connection ε

/-- `connect`. -/
def Connection.connect (ioBuffer : ByteBuffer) : Connection ε :=
  ⟨.idle ioBuffer.clear, [], [], [], []⟩

def init (config : BrokerConfiguration) (ioBuffers : ℕ → ByteBuffer) : World ε where
  broker := Server.System.init config
  journal := .empty
  connections i := .connect (ioBuffers i)

/-! ### Steps -/

/-- What happens next. -/
inductive Event (ε : Type)
  | submit (i : ℕ) (request : Request)
  | receive (i : ℕ) (chunk : List UInt8)
  | ends (i : ℕ)
  | broker (l : Label ε)

namespace Connection

/-- The call after what it has read so far. -/
def proceed (stream : ObjectStream ε) (c : Connection ε) (call : Call) (ioBuffer : ByteBuffer) :
    Connection ε :=
  match submitRequest stream call ioBuffer with
  | ⟨_, .ok none, _⟩ => { c with caller := .waiting call ioBuffer }
  | ⟨_, .ok (some response), b⟩ =>
    { c with caller := .idle b, returned := c.returned ++ [response] }
  | ⟨_, .error _, b⟩ => { c with caller := .idle b }

def submit (stream : ObjectStream ε) (c : Connection ε) (request : Request) :
    Option (Connection ε) :=
  match c.caller with
  | .idle ioBuffer =>
    let call := ⟨request, []⟩
    some ({ c with toBroker := c.toBroker ++ (submitRequest stream call ioBuffer).written,
                   submitted := c.submitted ++ [request] }.proceed stream call ioBuffer)
  | _ => none

/-- The call reads `chunk`, which is in the socket and fits the buffer. -/
def receive (stream : ObjectStream ε) (c : Connection ε) (chunk : List UInt8) :
    Option (Connection ε) :=
  match c.caller with
  | .waiting call ioBuffer =>
    if chunk <+: c.toClient ∧
        chunk.length ≤ (submitRequest stream call ioBuffer).ioBuffer.remaining then
      some ({ c with toClient := c.toClient.drop chunk.length }.proceed stream
        { call with reads := call.reads ++ [some chunk] } ioBuffer)
    else none
  | _ => none

end Connection

/-- What a step of the broker does to the sockets. -/
def sockets (s : Broker) (connections : ℕ → Connection ε) : Label ε → Option (ℕ → Connection ε)
  | .read i (some chunk) =>
    if chunk <+: (connections i).toBroker then
      some (Function.update connections i
        { connections i with toBroker := (connections i).toBroker.drop chunk.length })
    else none
  | .write i byteCount =>
    some (Function.update connections i
      { connections i with
        toClient := (connections i).toClient ++ (sendBuffer s i).take byteCount })
  | _ => some connections

/-- The state after what happens. -/
def next (config : BrokerConfiguration) (stream : ObjectStream ε) (x : World ε) :
    Event ε → Option (World ε)
  | .submit i request =>
    ((x.connections i).submit stream request).map fun c =>
      { x with connections := Function.update x.connections i c }
  | .receive i chunk =>
    ((x.connections i).receive stream chunk).map fun c =>
      { x with connections := Function.update x.connections i c }
  | .ends i =>
    some { x with connections :=
      Function.update x.connections i { x.connections i with caller := .ended } }
  | .broker l => do
    let connections ← sockets x.broker x.connections l
    if ∀ r ∈ l.reactor, x.broker.reactor = r then
      let broker ← Server.System.next config stream x.broker l
      return ⟨broker, x.journal.record x.broker l, connections⟩
    else none

def Step (config : BrokerConfiguration) (stream : ObjectStream ε) (x : World ε) (e : Event ε)
    (y : World ε) : Prop :=
  next config stream x e = some y

/-- The state after some events, if they can happen. -/
def follow (config : BrokerConfiguration) (stream : ObjectStream ε) :
    World ε → List (Event ε) → Option (World ε)
  | x, [] => some x
  | x, e :: es => (next config stream x e).bind fun y => follow config stream y es

theorem run_of_follow {x y : World ε} {es : List (Event ε)}
    (h : follow config stream x es = some y) : Run (Step config stream) x es y := by
  induction es generalizing x with
  | nil =>
    obtain rfl := Option.some.inj h
    exact .nil x
  | cons e es ih =>
    obtain ⟨z, hz, h⟩ := Option.bind_eq_some_iff.mp h
    exact .cons hz (ih h)

/-! ### What a step does -/

variable {x y : World ε} {i j n : ℕ}

theorem broker_of_step {l : Label ε} (h : Step config stream x (.broker l) y) :
    Server.System.Step config stream x.broker l y.broker ∧ y.journal = x.journal.record x.broker l ∧
      sockets x.broker x.connections l = some y.connections := by
  unfold Step next at h
  simp only [Option.bind_eq_bind, Option.bind_eq_some_iff] at h
  obtain ⟨connections, hsockets, h⟩ := h
  split_ifs at h with hreactor
  obtain ⟨broker, hnext, h⟩ := Option.bind_eq_some_iff.mp h
  obtain rfl := Option.some.inj h
  exact ⟨⟨hreactor, hnext⟩, rfl, hsockets⟩

/-- The clients leave the broker alone. -/
theorem broker_cases {e : Event ε} (h : Step config stream x e y) :
    y.broker = x.broker ∨
      ∃ l, e = .broker l ∧ Server.System.Step config stream x.broker l y.broker := by
  cases e with
  | submit j request | receive j chunk =>
    obtain ⟨c', -, rfl⟩ := Option.map_eq_some_iff.mp h
    exact .inl rfl
  | ends j =>
    obtain rfl := Option.some.inj h
    exact .inl rfl
  | broker l => exact .inr ⟨l, rfl, (broker_of_step h).1⟩

/-- The bytes that a step of the broker writes to the socket of the connection. -/
def written (s : Broker) (i : ℕ) : Label ε → List UInt8
  | .write j byteCount => if j = i then (sendBuffer s i).take byteCount else []
  | _ => []

/-- **The socket of a connection** loses what is read from it and gets what is written to it. -/
theorem sockets_eq_some {s : Broker} {connections connections' : ℕ → Connection ε} {l : Label ε}
    (h : sockets s connections l = some connections') :
    connections' i = { connections i with
      toBroker := (connections' i).toBroker
      toClient := (connections i).toClient ++ written s i l } ∧
    (∀ chunk, l = .read i (some chunk) →
      (connections i).toBroker = chunk ++ (connections' i).toBroker) ∧
    ((∀ chunk, l ≠ .read i (some chunk)) →
      (connections' i).toBroker = (connections i).toBroker) := by
  have hnone : (connections i).toClient ++ [] = (connections i).toClient := List.append_nil _
  unfold sockets at h
  split at h
  · rename_i j chunk
    split_ifs at h with hpre
    obtain rfl := Option.some.inj h
    have hwritten : written s i (.read j (some chunk) : Label ε) = [] := rfl
    by_cases hji : j = i
    · subst hji
      rw [Function.update_self]
      refine ⟨by rw [hwritten, hnone], fun chunk' heq => ?_, fun hread => absurd rfl (hread chunk)⟩
      injection heq with _ heq
      obtain rfl := Option.some.inj heq
      obtain ⟨rest, hrest⟩ := hpre
      rw [← hrest, List.drop_left]
    · rw [Function.update_of_ne (Ne.symm hji)]
      refine ⟨by rw [hwritten, hnone], fun chunk' heq => ?_, fun _ => rfl⟩
      injection heq with heq
      exact absurd heq hji
  · rename_i j byteCount
    obtain rfl := Option.some.inj h
    have hread : ∀ chunk, (.write j byteCount : Label ε) ≠ .read i (some chunk) := by simp
    by_cases hji : j = i
    · subst hji
      rw [Function.update_self]
      have hwritten : written s j (.write j byteCount : Label ε) =
          (sendBuffer s j).take byteCount := if_pos rfl
      exact ⟨by rw [hwritten], fun chunk heq => absurd heq (hread chunk), fun _ => rfl⟩
    · rw [Function.update_of_ne (Ne.symm hji)]
      have hwritten : written s i (.write j byteCount : Label ε) = [] := if_neg hji
      exact ⟨by rw [hwritten, hnone], fun chunk heq => absurd heq (hread chunk), fun _ => rfl⟩
  · rename_i hread hwrite
    obtain rfl := Option.some.inj h
    have hwritten : written s i l = [] := by
      unfold written
      split
      · exact absurd rfl (hwrite _ _)
      · rfl
    refine ⟨by rw [hwritten, hnone], fun chunk heq => absurd heq (hread i chunk), fun _ => rfl⟩

/-! ### What a call has read -/

variable {b : ByteBuffer} {call : Call} {w payload : List UInt8}

/-- An empty `ioBuffer`. -/
def Fresh (b : ByteBuffer) : Prop := Cleared b ∧ b.bytes.length = clientIoBufferCapacity

theorem received_concat {reads : List (Option (List UInt8))} (hopen : none ∉ reads)
    (hw : ¬ Arrived (received w reads)) (chunk : List UInt8) :
    received w (reads ++ [some chunk]) =
      received w reads ++ chunk.take (clientIoBufferCapacity - (received w reads).length) := by
  induction reads generalizing w with
  | nil =>
    exact ite_self _
  | cons read reads ih =>
    cases read with
    | none => exact absurd List.mem_cons_self hopen
    | some piece =>
      set w' := w ++ piece.take (clientIoBufferCapacity - w.length) with hw'
      have heq : ∀ reads', received w (some piece :: reads') =
          if Arrived w' then w' else received w' reads' := fun _ => rfl
      have hnot : ¬ Arrived w' := by
        intro harrived
        rw [heq, if_pos harrived] at hw
        exact hw harrived
      rw [heq, if_neg hnot] at hw
      rw [List.cons_append, heq, heq, if_neg hnot, if_neg hnot]
      exact ih (fun hmem => hopen (List.mem_cons_of_mem _ hmem)) hw

/-- **The call after some reads**: it decodes once the response has arrived, and waits before. -/
theorem submitRequest_eq (stream : ObjectStream ε) (hb : Fresh b)
    (hfit : (frame (requestPayload.enc call.request)).length ≤ clientIoBufferCapacity)
    (hopen : none ∉ call.reads) :
    ∃ b', Holds b' (received [] call.reads) ∧ b'.bytes.length = clientIoBufferCapacity ∧
      submitRequest stream call b =
        match (if Arrived (received [] call.reads) then decode stream b' else .ok none b') with
        | .error e ioBuffer => ⟨frame (requestPayload.enc call.request), .error e, ioBuffer⟩
        | .ok response ioBuffer =>
          ⟨frame (requestPayload.enc call.request), .ok response, ioBuffer⟩ := by
  obtain ⟨b₁, hwrite, hempty₁, hcapacity₁⟩ := writeToSocket_of_le call.request hb.1 (hb.2 ▸ hfit)
  obtain ⟨b₂, hholds, hcapacity₂, hawait⟩ := awaitResponse_eq stream (cleared_iff_holds.mp hempty₁)
    (hcapacity₁.trans hb.2) not_arrived_nil hopen
  refine ⟨b₂, hholds, hcapacity₂, ?_⟩
  unfold submitRequest
  rw [hwrite, ← hawait]
  rfl

theorem submitRequest_waits (stream : ObjectStream ε) (hb : Fresh b)
    (hfit : (frame (requestPayload.enc call.request)).length ≤ clientIoBufferCapacity)
    (hopen : none ∉ call.reads) (hw : ¬ Arrived (received [] call.reads)) :
    ∃ b', Holds b' (received [] call.reads) ∧ b'.bytes.length = clientIoBufferCapacity ∧
      submitRequest stream call b = ⟨frame (requestPayload.enc call.request), .ok none, b'⟩ := by
  obtain ⟨b', hholds, hcapacity, heq⟩ := submitRequest_eq stream hb hfit hopen
  rw [if_neg hw] at heq
  exact ⟨b', hholds, hcapacity, heq⟩

/-- What fits the buffer is read as a whole. -/
theorem received_next (stream : ObjectStream ε) (hb : Fresh b)
    (hfit : (frame (requestPayload.enc call.request)).length ≤ clientIoBufferCapacity)
    (hopen : none ∉ call.reads) (hw : ¬ Arrived (received [] call.reads)) {chunk : List UInt8}
    (hroom : chunk.length ≤ (submitRequest stream call b).ioBuffer.remaining) :
    received [] (call.reads ++ [some chunk]) = received [] call.reads ++ chunk := by
  obtain ⟨b₁, hholds, hcapacity, heq⟩ := submitRequest_waits stream hb hfit hopen hw
  rw [heq] at hroom
  dsimp only at hroom
  rw [ByteBuffer.remaining, hholds.limit, hholds.position, hcapacity] at hroom
  rw [received_concat hopen hw, List.take_of_length_le hroom]

/-- The response has arrived with the last byte of its frame, however long that is. -/
theorem arrived_iff_frame (hlt : (frame payload).length < 2 ^ 31) (hw : w <+: frame payload) :
    Arrived w ↔ w = frame payload := by
  rw [length_frame] at hlt
  have hlength : lenghFieldLenght = 4 := rfl
  have hend : (Int32.ofNat lenghFieldLenght + Int32.ofNat payload.length).toInt =
      4 + payload.length := by
    rw [hlength, show Int32.ofNat 4 + Int32.ofNat payload.length = Int32.ofNat (4 + payload.length)
      from (Int32.ofNat_add ..).symm, toInt_ofNat (by omega)]
    push_cast
    rfl
  constructor
  · rintro ⟨h4, -, hle⟩
    rw [intOf_take_frame hw h4, hend] at hle
    refine hw.eq_of_length_le ?_
    rw [length_frame]
    omega
  · rintro rfl
    have h4 : 4 ≤ (frame payload).length := by
      rw [length_frame]
      omega
    have hfield := intOf_take_frame hw h4
    refine ⟨h4, fun hminus => ?_, ?_⟩
    · have hnat := toInt_ofNat (show payload.length < 2 ^ 31 by omega)
      rw [← hfield, hminus] at hnat
      have hneg : (-1 : Int32).toInt = -1 := rfl
      omega
    · rw [hfield, hend, length_frame]
      push_cast
      omega

/-! ### The invariant -/

/-- The response that has been set on a connection for its last job. -/
structure Answer (stream : ObjectStream ε) (J : Journal ε) (i : ℕ) (payload : List UInt8) :
    Prop where
  delivered : ∃ n, (jobsOf J i).getLast? = some n ∧ n ∈ J.deliveries.map Delivery.job ∧
    ∃ processed, J.processed n = some processed ∧
      responseBytes stream (responseOf processed.outcome) = some payload
  length_lt : (frame payload).length < 2 ^ 31

/-- What a call that has read `w` waits for: nothing has been sent to it yet, or it waits for the
rest of a response. -/
inductive Outward (stream : ObjectStream ε) (s : Broker) (J : Journal ε) (i : ℕ)
    (toClient w : List UInt8) (pending : Option Request) : Prop
  | silent (hw : w = []) (hsocket : toClient = []) (hsends : Sends s i [])
  | answered (payload rest : List UInt8) (h : Answer stream J i payload) (hpending : pending = none)
      (hidle : travelling s i = 0) (hsends : Sends s i rest)
      (hbytes : w ++ toClient ++ rest = frame payload)

/-- The result of a job that has been delivered. -/
def Result (J : Journal ε) (n : ℕ) (response : Response ε) : Prop :=
  n ∈ J.deliveries.map Delivery.job ∧
    ∃ processed, J.processed n = some processed ∧ response = responseOf processed.outcome

/-- What holds of the client. -/
def Calls (stream : ObjectStream ε) (s : Broker) (J : Journal ε) (i : ℕ) (c : Connection ε)
    (pending : Option Request) : Caller → Prop
  | .idle b => Fresh b ∧ pending = none ∧ travelling s i = 0 ∧ c.toClient = [] ∧ Sends s i [] ∧
      c.returned.length = c.submitted.length
  | .waiting call b => Fresh b ∧
      (frame (requestPayload.enc call.request)).length ≤ clientIoBufferCapacity ∧
      none ∉ call.reads ∧ ¬ Arrived (received [] call.reads) ∧
      Outward stream s J i c.toClient (received [] call.reads) pending ∧
      c.returned.length + 1 = c.submitted.length
  | .ended => True

/-- **The invariant of a connection.** -/
structure Linked (stream : ObjectStream ε) (s : Broker) (J : Journal ε) (i : ℕ) (c : Connection ε) :
    Prop where
  caller : ∃ pending, Inward s J i c.toBroker c.submitted pending ∧
    Calls stream s J i c pending c.caller
  returned : ∀ (k : ℕ) (response : Response ε), c.returned[k]? = some response →
    ∃ n, (jobsOf J i)[k]? = some n ∧ Result J n response

variable {s s' : Broker} {J J' : Journal ε} {l : Label ε} {c : Connection ε} {rest : List UInt8}
  {pending : Option Request}

theorem Answer.mono (h : Answer stream J i payload) (hjobs : jobsOf J' i = jobsOf J i)
    (hdeliveries : J.deliveries <+: J'.deliveries)
    (hprocessed : ∀ n ∈ J.deliveries.map Delivery.job, J'.processed n = J.processed n) :
    Answer stream J' i payload := by
  obtain ⟨⟨n, hlast, hn, processed, hp, hbytes⟩, hlt⟩ := h
  refine ⟨⟨n, hjobs ▸ hlast, ?_, processed, (hprocessed n hn).trans hp, hbytes⟩, hlt⟩
  exact (hdeliveries.map _).subset hn

theorem Result.mono {response : Response ε} (h : Result J n response)
    (hdeliveries : J.deliveries <+: J'.deliveries)
    (hprocessed : ∀ n ∈ J.deliveries.map Delivery.job, J'.processed n = J.processed n) :
    Result J' n response := by
  obtain ⟨hn, processed, hp, hresponse⟩ := h
  exact ⟨(hdeliveries.map _).subset hn, processed, (hprocessed n hn).trans hp, hresponse⟩

/-- The connection sends on, and a part of what it sends goes to the socket. -/
theorem Outward.of_sends {taken toClient : List UInt8} {pending' : Option Request}
    (h : Outward stream s J i toClient w pending)
    (hsends : ∀ rest, Sends s i rest → taken <+: rest ∧ Sends s' i (rest.drop taken.length))
    (hjobs : pending = none → pending' = none ∧ jobsOf J' i = jobsOf J i ∧
      travelling s' i ≤ travelling s i)
    (hdeliveries : J.deliveries <+: J'.deliveries)
    (hprocessed : ∀ n ∈ J.deliveries.map Delivery.job, J'.processed n = J.processed n) :
    Outward stream s' J' i (toClient ++ taken) w pending' := by
  cases h with
  | silent hw hsocket hsilent =>
    obtain ⟨htaken, hsilent'⟩ := hsends [] hsilent
    obtain rfl := List.prefix_nil.mp htaken
    exact .silent hw (by rw [hsocket, List.append_nil]) hsilent'
  | answered payload rest h hpending hidle hanswer hbytes =>
    obtain ⟨⟨rest', rfl⟩, hsends'⟩ := hsends rest hanswer
    obtain ⟨hpending', hjobs, htravelling⟩ := hjobs hpending
    rw [List.drop_left] at hsends'
    refine .answered payload rest' (h.mono hjobs hdeliveries hprocessed) hpending' ?_ hsends' ?_
    · rw [hidle] at htravelling
      exact Multiset.le_zero.mp htravelling
    · rw [← hbytes]
      simp only [List.append_assoc]

/-- What is being sent, in every step but a round of `selectQueue`. -/
theorem sends_of_step (hinv : Inv s 0) (hs : Server.System.Step config stream s l s')
    (hqueue : l ≠ .selectQueue) (h : Sends s i rest) :
    written s i l <+: rest ∧ Sends s' i (rest.drop (written s i l).length) := by
  by_cases hread : ∃ chunk, l = .read i chunk
  · obtain ⟨chunk, rfl⟩ := hread
    exact ⟨List.nil_prefix, sends_selectRead h hinv hs.2⟩
  by_cases hwrite : ∃ byteCount, l = .write i byteCount
  · obtain ⟨byteCount, rfl⟩ := hwrite
    obtain ⟨htake, hsends⟩ := sends_selectWrite h hs.2
    have hwritten : written s i (.write i byteCount : Label ε) = rest.take byteCount :=
      (if_pos rfl).trans htake
    rw [hwritten]
    refine ⟨List.take_prefix _ _, ?_⟩
    rw [List.length_take]
    rcases le_total byteCount rest.length with hle | hle
    · rwa [min_eq_left hle]
    · rw [min_eq_right hle, List.drop_length]
      rwa [List.drop_eq_nil_of_le hle] at hsends
  · have hnone : written s i l = [] := by
      unfold written
      split
      · rename_i j byteCount
        exact if_neg fun heq : j = i => hwrite ⟨byteCount, heq ▸ rfl⟩
      · rfl
    rw [hnone]
    exact ⟨List.nil_prefix, h.aside hinv hs ⟨fun chunk heq => hread ⟨chunk, heq⟩,
      fun byteCount heq => hwrite ⟨byteCount, heq⟩, hqueue⟩⟩

/-! ### Steps of the broker -/

/-- **The requests of the connection**, in any step of the broker. -/
theorem inward_of_step {toBroker toBroker' : List UInt8} {submitted : List Request}
    (h : Inward s J i toBroker submitted pending) (hgood : Good stream (s, J))
    (hlen : s.clients.length < 2 ^ 32) (hs : Server.System.Step config stream s l s')
    (hread : ∀ chunk, l = .read i (some chunk) → toBroker = chunk ++ toBroker')
    (hother : (∀ chunk, l ≠ .read i (some chunk)) → toBroker' = toBroker) :
    ∃ pending', Inward s' (J.record s l) i toBroker' submitted pending' ∧
      (pending = none → pending' = none ∧ jobsOf (J.record s l) i = jobsOf J i ∧
        travelling s' i ≤ travelling s i) := by
  by_cases hchunk : ∃ chunk, l = .read i (some chunk)
  · obtain ⟨chunk, rfl⟩ := hchunk
    rw [hread chunk rfl] at h
    obtain ⟨pending', h', hnone⟩ := h.read hgood.inv hs
    refine ⟨pending', h', fun hpending => ?_⟩
    obtain ⟨hpending', hrecord, htravelling⟩ := hnone hpending
    exact ⟨hpending', by rw [hrecord], htravelling.le⟩
  · rw [hother fun chunk heq => hchunk ⟨chunk, heq⟩]
    by_cases hend : l = .read i none
    · subst hend
      obtain ⟨h', hrecord, htravelling⟩ := h.readEnd hgood.inv hs
      exact ⟨pending, h', fun hpending => ⟨hpending, by rw [hrecord], htravelling.le⟩⟩
    · have hne : ∀ chunk, l ≠ .read i chunk := by
        intro chunk heq
        cases chunk with
        | none => exact hend heq
        | some chunk => exact hchunk ⟨chunk, heq⟩
      exact ⟨pending, h.step_of_ne hgood hlen hs hne, fun hpending =>
        ⟨hpending, jobsOf_record hs hne, travelling_of_step hgood.inv hgood.shape hs hne⟩⟩

/-- A response that is set is the whole of what is being sent. -/
theorem rest_flip_of_answers {raw : ByteBuffer} (h : Answers stream J n i raw) :
    ∃ processed payload, J.processed n = some processed ∧
      responseBytes stream (responseOf processed.outcome) = some payload ∧
      raw.flip.rest = frame payload ∧ (frame payload).length < 2 ^ 31 := by
  obtain ⟨-, processed, b', -, -, hprocessed, -, -, hrespond⟩ := h
  obtain ⟨payload, hpayload, hbytes, hposition⟩ := holds_frame hrespond
  refine ⟨processed, payload, hprocessed, hpayload, ?_, ?_⟩
  · unfold ByteBuffer.rest
    rw [ByteBuffer.bytes_flip, ByteBuffer.limit_flip, ByteBuffer.position_flip, List.drop_zero,
      hposition]
    exact (List.prefix_iff_eq_take.mp hbytes).symm
  · exact hbytes.length_le.trans_lt raw.capacity_lt

/-- The response that is set in a round of `selectQueue`. -/
theorem rest_flip_of_delivery {d : Delivery} (hgood : Good stream (s, J))
    (hlen : s'.clients.length < 2 ^ 32)
    (hs : Server.System.Step config stream s .selectQueue s') (hd : J.delivery s = some d) :
    d.job ∈ (J.record s (.selectQueue : Label ε)).deliveries.map Delivery.job ∧
      ∃ processed payload, (J.record s (.selectQueue : Label ε)).processed d.job = some processed ∧
        responseBytes stream (responseOf processed.outcome) = some payload ∧
        d.response.flip.rest = frame payload ∧ (frame payload).length < 2 ^ 31 := by
  have hmem : d ∈ (J.record s (.selectQueue : Label ε)).deliveries := by
    show _ ∈ J.deliveries ++ (J.delivery s).toList
    rw [hd]
    exact List.mem_append_right _ (List.mem_singleton_self _)
  exact ⟨List.mem_map_of_mem hmem, rest_flip_of_answers (((hgood.step hs).routed hlen).right _ hmem)⟩

/-- **A round of `selectQueue`** sets the response that the call waits for, or nothing. -/
theorem Outward.selectQueue {toBroker toClient : List UInt8} {submitted : List Request}
    (h : Outward stream s J i toClient w pending)
    (hinward : Inward s J i toBroker submitted pending)
    (hgood : Good stream (s, J)) (hlen : s'.clients.length < 2 ^ 32)
    (hs : Server.System.Step config stream s .selectQueue s') :
    Outward stream s' (J.record s (.selectQueue : Label ε)) i toClient w pending := by
  have hlen₀ := (length_clients_of_step hgood.inv hs).trans_lt hlen
  have hprocessed : ∀ n ∈ J.deliveries.map Delivery.job,
      (J.record s (.selectQueue : Label ε)).processed n = J.processed n := fun n hn =>
    processed_record hgood.inv hgood.shape (hgood.routed hlen₀) hs hn
  have htravelling : travelling s' i ≤ travelling s i :=
    travelling_of_step hgood.inv hgood.shape hs (by simp)
  -- what is being sent, if no response is set
  have hkeep : (∀ rest, Sends s i rest → Sends s' i rest) →
      Outward stream s' (J.record s (.selectQueue : Label ε)) i toClient w pending := by
    intro hsends
    have houtward : Outward stream s' (J.record s (.selectQueue : Label ε)) i (toClient ++ []) w
        pending :=
      h.of_sends (fun rest hrest => ⟨List.nil_prefix, hsends rest hrest⟩)
        (fun hpending => ⟨hpending, rfl, htravelling⟩) (prefix_record J s .selectQueue).2 hprocessed
    rwa [List.append_nil] at houtward
  have hrecv : Receiving (fun _ => True) s i := by
    intro client hi hvalid
    have hlt := (apart_client hgood.inv hi (Server.Pipelining.mem_clientSlots_rx hvalid)).1
    exact ⟨_, List.getElem?_eq_getElem hlt, trivial⟩
  have hcases := fun rest (hrest : Sends s i rest) =>
    (selectQueue_cases (J := J) hgood.inv hgood.shape hgood.registered hlen₀ hs.2 hrest hrecv).2
  cases h with
  | answered payload rest hanswer hpending hidle hsends hbytes =>
    rcases hcases rest hsends with ⟨-, hsends'⟩ | ⟨b, raw, -, -, hcons, -⟩
    · refine .answered payload rest (hanswer.mono rfl (prefix_record J s .selectQueue).2 hprocessed)
        hpending ?_ hsends' hbytes
      rw [hidle] at htravelling
      exact Multiset.le_zero.mp htravelling
    · rw [hidle] at hcons
      exact absurd hcons.symm (Multiset.cons_ne_zero)
  | silent hw hsocket hsends =>
    rcases hcases [] hsends with ⟨-, hsends'⟩ | ⟨b, raw, hraw, hdelivery, hcons, hsends'⟩
    · exact .silent hw hsocket hsends'
    · -- the response of the last job is set
      have hb : b ∈ travelling s i := hcons ▸ Multiset.mem_cons_self _ _
      have hempty : travelling s' i = 0 := by
        have hsingle := hinward.single
        rw [hcons, Multiset.card_cons] at hsingle
        exact Multiset.card_eq_zero.mp (by omega)
      have hpending : pending = none := by
        by_contra hne
        rw [hinward.unread hne] at hb
        exact Multiset.notMem_zero b hb
      obtain ⟨hjob, processed, payload, hp, hpayload, hrest, hlt⟩ :=
        rest_flip_of_delivery hgood hlen hs hdelivery
      refine .answered payload _ ⟨⟨J.job b, hinward.last b hb, hjob, processed, hp, hpayload⟩, hlt⟩
        hpending hempty hsends' ?_
      rw [hw, hsocket, hrest]
      rfl

/-- **A step of the broker.** -/
theorem Linked.broker {connections connections' : ℕ → Connection ε}
    (h : Linked stream s J i (connections i)) (hgood : Good stream (s, J))
    (hlen : s'.clients.length < 2 ^ 32) (hs : Server.System.Step config stream s l s')
    (hsockets : sockets s connections l = some connections') :
    Linked stream s' (J.record s l) i (connections' i) := by
  have hlen₀ := (length_clients_of_step hgood.inv hs).trans_lt hlen
  obtain ⟨hc, hread, hother⟩ := sockets_eq_some (i := i) hsockets
  obtain ⟨⟨pending, hinward, hcalls⟩, hreturned⟩ := h
  obtain ⟨pending', hinward', hpending⟩ := inward_of_step hinward hgood hlen₀ hs hread hother
  have hdeliveries := (prefix_record J s l).2
  have hprocessed : ∀ n ∈ J.deliveries.map Delivery.job,
      (J.record s l).processed n = J.processed n :=
    fun n hn => processed_record hgood.inv hgood.shape (hgood.routed hlen₀) hs hn
  have hjobs : jobsOf J i <+: jobsOf (J.record s l) i := by
    obtain ⟨requests, hsubmitted, hdecoded⟩ := hinward.decoded
    by_cases hne : ∃ chunk, l = .read i chunk
    · obtain ⟨chunk, rfl⟩ := hne
      obtain ⟨client, rxBuffer, -, hi, -, hrx, -⟩ := Broker.selectRead_eq_some hs.2
      rw [record_read_eq hi hrx]
      split_ifs
      · rw [jobsOf_swap]
        exact List.prefix_append _ _
      · exact List.prefix_refl _
    · rw [jobsOf_record hs fun chunk heq => hne ⟨chunk, heq⟩]
  rw [hc]
  refine ⟨⟨pending', hinward', ?_⟩, fun k response hk => ?_⟩
  · -- what is being sent, and what the call waits for
    have houtward : ∀ {w : List UInt8},
        Outward stream s J i (connections i).toClient w pending →
        Outward stream s' (J.record s l) i ((connections i).toClient ++ written s i l) w
          pending' := by
      intro w houtward
      by_cases hqueue : l = .selectQueue
      · subst hqueue
        have hnone : written s i (.selectQueue : Label ε) = [] := rfl
        have hset := houtward.selectQueue hinward hgood hlen hs
        rw [hnone, List.append_nil]
        cases hset with
        | silent hw hsocket hsends => exact .silent hw hsocket hsends
        | answered payload rest h hpending₀ hidle hsends hbytes =>
          exact .answered payload rest h (hpending hpending₀).1 hidle hsends hbytes
      · exact houtward.of_sends (fun rest hrest => sends_of_step hgood.inv hs hqueue hrest) hpending
          hdeliveries hprocessed
    show Calls stream s' (J.record s l) i _ pending' (connections i).caller
    cases hcaller : (connections i).caller with
    | ended => trivial
    | idle b =>
      rw [hcaller] at hcalls
      obtain ⟨hb, hpending₀, hidle, hsocket, hsends, hlength⟩ := hcalls
      obtain ⟨hpending', -, htravelling⟩ := hpending hpending₀
      rw [hidle, Multiset.le_zero] at htravelling
      -- nothing is on its way to be sent
      have hstill : written s i l = [] ∧ Sends s' i [] := by
        by_cases hqueue : l = .selectQueue
        · subst hqueue
          have hrecv : Receiving (fun _ => True) s i := by
            intro client hi hvalid
            have hlt := (apart_client hgood.inv hi (Server.Pipelining.mem_clientSlots_rx hvalid)).1
            exact ⟨_, List.getElem?_eq_getElem hlt, trivial⟩
          obtain ⟨-, ⟨-, hsends'⟩ | ⟨b, raw, -, -, hcons, -⟩⟩ := selectQueue_cases (J := J)
            hgood.inv hgood.shape hgood.registered hlen₀ hs.2 hsends hrecv
          · exact ⟨rfl, hsends'⟩
          · rw [hidle] at hcons
            exact absurd hcons.symm Multiset.cons_ne_zero
        · obtain ⟨hnil, hsends'⟩ := sends_of_step hgood.inv hs hqueue hsends
          exact ⟨List.prefix_nil.mp hnil, by rwa [List.drop_nil] at hsends'⟩
      refine ⟨hb, hpending', htravelling, ?_, hstill.2, hlength⟩
      show (connections i).toClient ++ written s i l = []
      rw [hsocket, hstill.1]
      rfl
    | waiting call b =>
      rw [hcaller] at hcalls
      obtain ⟨hb, hfit, hopen, hw, hout, hlength⟩ := hcalls
      exact ⟨hb, hfit, hopen, hw, houtward hout, hlength⟩
  · obtain ⟨n, hn, hresult⟩ := hreturned k response hk
    exact ⟨n, getElem?_of_prefix hjobs hn, hresult.mono hdeliveries hprocessed⟩

/-! ### Steps of the client -/

/-- **A call begins.** -/
theorem Linked.submit {request : Request} {c' : Connection ε} (h : Linked stream s J i c)
    (hfit : (frame (requestPayload.enc request)).length ≤ clientIoBufferCapacity)
    (hs : c.submit stream request = some c') : Linked stream s J i c' := by
  obtain ⟨⟨pending, hinward, hcalls⟩, hreturned⟩ := h
  unfold Connection.submit at hs
  split at hs
  · rename_i b hcaller
    rw [hcaller] at hcalls
    obtain ⟨hb, rfl, hidle, hsocket, hsends, hlength⟩ := hcalls
    have hempty : c.toBroker = [] := hinward.inbound.1
    let call : Call := ⟨request, []⟩
    have hfit' : (frame (requestPayload.enc call.request)).length ≤ clientIoBufferCapacity := hfit
    have hopen : none ∉ call.reads := List.not_mem_nil
    have hw : ¬ Arrived (received [] call.reads) := not_arrived_nil
    obtain ⟨b', hholds, -, heq⟩ := submitRequest_waits stream hb hfit' hopen hw
    rw [← Option.some.inj hs]
    unfold Connection.proceed
    rw [heq]
    dsimp only
    have hcapacity : clientIoBufferCapacity = 4000 := rfl
    rw [hempty] at hinward ⊢
    refine ⟨⟨some request, hinward.submit hidle ?_, hb, hfit, List.not_mem_nil, not_arrived_nil,
      .silent rfl hsocket hsends, ?_⟩, hreturned⟩
    · show (requestPayload.enc request).length < 2 ^ 31
      rw [length_frame, hcapacity] at hfit
      omega
    · rw [List.length_append, ← hlength]
      rfl
  · cases hs

/-- **A call reads on.** What it returns is the result of the last job. -/
theorem Linked.receive (hstream : stream.RoundTrips) {chunk : List UInt8} {c' : Connection ε}
    (h : Linked stream s J i c) (hs : c.receive stream chunk = some c') :
    Linked stream s J i c' := by
  obtain ⟨⟨pending, hinward, hcalls⟩, hreturned⟩ := h
  unfold Connection.receive at hs
  split at hs
  · rename_i call b hcaller
    rw [hcaller] at hcalls
    obtain ⟨hb, hfit, hopen, hw, hout, hlength⟩ := hcalls
    split_ifs at hs with hchunk
    obtain ⟨⟨rest, hrest⟩, hroom⟩ := hchunk
    set w := received [] call.reads
    set call' : Call := { call with reads := call.reads ++ [some chunk] }
    have hopen' : none ∉ call'.reads := by
      show none ∉ call.reads ++ [some chunk]
      simpa using hopen
    have hfit' : (frame (requestPayload.enc call'.request)).length ≤ clientIoBufferCapacity := hfit
    have hreads : received [] call'.reads = w ++ chunk :=
      received_next stream hb hfit hopen hw hroom
    obtain ⟨b₂, hholds₂, hcapacity₂, heq₂⟩ := submitRequest_eq stream hb hfit' hopen'
    rw [hreads] at hholds₂ heq₂
    have hdrop : c.toClient.drop chunk.length = rest := by rw [← hrest, List.drop_left]
    rw [← Option.some.inj hs]
    unfold Connection.proceed
    rw [heq₂, hdrop]
    have hmore : ∀ (hw' : ¬ Arrived (w ++ chunk)), Outward stream s J i rest (w ++ chunk) pending →
        Linked stream s J i { c with toClient := rest, caller := .waiting call' b } :=
      fun hw' hout' => ⟨⟨pending, hinward, hb, hfit, hopen', by rwa [hreads], by rwa [hreads],
        hlength⟩, hreturned⟩
    cases hout with
    | silent hnil hsocket hsends =>
      -- nothing is there to be read
      rw [hsocket] at hrest
      obtain ⟨rfl, rfl⟩ := List.append_eq_nil_iff.mp hrest
      rw [List.append_nil] at hmore ⊢
      rw [if_neg hw]
      exact hmore hw (.silent hnil rfl hsends)
    | answered payload more hanswer hpending hidle hsends hbytes =>
      have hframe : w ++ chunk ++ (rest ++ more) = frame payload := by
        rw [← hbytes, ← hrest]
        simp only [List.append_assoc]
      have harrived := arrived_iff_frame hanswer.length_lt
        (⟨_, hframe⟩ : w ++ chunk <+: frame payload)
      by_cases hall : w ++ chunk = frame payload
      · -- the response has arrived as a whole
        rw [hall] at hframe hholds₂
        obtain ⟨rfl, rfl⟩ := List.append_eq_nil_iff.mp (List.append_right_eq_self.mp hframe)
        obtain ⟨⟨n, hlast, hn, processed, hp, hpayload⟩, hlt⟩ := hanswer
        have hlt' : payload.length < 2 ^ 31 := by
          rw [length_frame] at hlt
          omega
        obtain ⟨b₃, hdecode, hcleared, hsize⟩ :=
          decode_frame hholds₂ (responseBytes_mem hstream hpayload hlt')
        rw [if_pos (harrived.mpr hall), hdecode]
        refine ⟨⟨pending, hinward, ⟨hcleared, hsize.trans hcapacity₂⟩, hpending, hidle, rfl, hsends,
          ?_⟩, fun k response hk => ?_⟩
        · show (c.returned ++ [_]).length = c.submitted.length
          rw [List.length_append]
          exact hlength
        · rcases Nat.lt_or_ge k c.returned.length with hlt | hge
          · rw [List.getElem?_append_left hlt] at hk
            exact hreturned k response hk
          · -- the response that has just been returned is the one of the last job
            rw [List.getElem?_append_right hge] at hk
            have hzero : k - c.returned.length = 0 := by
              have := (List.getElem?_eq_some_iff.mp hk).1
              rw [List.length_singleton] at this
              omega
            rw [hzero] at hk
            obtain rfl := Option.some.inj hk
            obtain ⟨requests, hsubmitted, hdecoded⟩ := hinward.decoded
            have hlengths := hdecoded.length_eq
            rw [hpending, Option.toList_none, List.append_nil] at hsubmitted
            rw [hsubmitted, ← hlengths] at hlength
            refine ⟨n, ?_, hn, processed, hp, rfl⟩
            rw [← hlast, List.getLast?_eq_getElem?]
            congr 1
            omega
      · rw [if_neg fun hw' => hall (harrived.mp hw')]
        exact hmore (fun hw' => hall (harrived.mp hw'))
          (.answered payload more hanswer hpending hidle hsends (by
            rw [← hframe]
            simp only [List.append_assoc]))
  · cases hs

/-! ### Runs -/

/-- A request that is submitted fits an empty `ioBuffer`. -/
def Event.Fits : Event ε → Prop
  | .submit _ request => (frame (requestPayload.enc request)).length ≤ clientIoBufferCapacity
  | _ => True

/-- What holds in every state of a run. -/
structure Whole (stream : ObjectStream ε) (x : World ε) : Prop where
  good : Good stream (x.broker, x.journal)
  linked : x.broker.clients.length < 2 ^ 32 → ∀ i,
    Linked stream x.broker x.journal i (x.connections i)

theorem Whole.update {c c' : Connection ε} (h : Whole stream x) (hc : x.connections j = c)
    (hstep : Linked stream x.broker x.journal j c → Linked stream x.broker x.journal j c') :
    Whole stream { x with connections := Function.update x.connections j c' } where
  good := h.good
  linked hlen i := by
    show Linked stream x.broker x.journal i (Function.update x.connections j c' i)
    rcases eq_or_ne i j with rfl | hne
    · rw [Function.update_self]
      exact hstep (hc ▸ h.linked hlen i)
    · rw [Function.update_of_ne hne]
      exact h.linked hlen i

/-- **Every step preserves the invariant.** -/
theorem Whole.step (hstream : stream.RoundTrips) {e : Event ε} (h : Whole stream x) (hfit : e.Fits)
    (hs : Step config stream x e y) : Whole stream y := by
  cases e with
  | submit j request =>
    obtain ⟨c', hc', rfl⟩ := Option.map_eq_some_iff.mp hs
    exact h.update rfl fun hlinked => hlinked.submit hfit hc'
  | receive j chunk =>
    obtain ⟨c', hc', rfl⟩ := Option.map_eq_some_iff.mp hs
    exact h.update rfl fun hlinked => hlinked.receive hstream hc'
  | ends j =>
    obtain rfl := Option.some.inj hs
    refine h.update rfl fun hlinked => ?_
    obtain ⟨pending, hinward, -⟩ := hlinked.caller
    exact ⟨⟨pending, hinward, trivial⟩, hlinked.returned⟩
  | broker l =>
    obtain ⟨hbroker, hjournal, hsockets⟩ := broker_of_step hs
    refine ⟨hjournal ▸ h.good.step hbroker, fun hlen i => ?_⟩
    have hlen₀ := (length_clients_of_step h.good.inv hbroker).trans_lt hlen
    rw [hjournal]
    exact (h.linked hlen₀ i).broker h.good hlen hbroker hsockets

theorem whole_init (config : BrokerConfiguration) (stream : ObjectStream ε)
    {ioBuffers : ℕ → ByteBuffer}
    (hsize : ∀ i, (ioBuffers i).bytes.length = clientIoBufferCapacity) :
    Whole stream (init config ioBuffers) := by
  refine ⟨good_init config stream, fun _ i => ?_⟩
  have hnone : (Server.System.init config).clients[i]? = none := rfl
  have hidle : travelling (Server.System.init config) i = 0 := by
    have hworker : workerFlights .idle = 0 := rfl
    unfold travelling flights Server.System.init
    simp [Mlmq.Lib.Queue.BoundedQueue.empty, hworker]
  have hsends : Sends (Server.System.init config) i [] :=
    ⟨fun _ => rfl, fun client hi => absurd (hnone.symm.trans hi) (by simp)⟩
  refine ⟨⟨none, ⟨⟨[], rfl, .nil⟩, ⟨rfl, fun client hi => ?_⟩, by simp, by simp, ?_, ?_⟩,
    ⟨⟨rfl, rfl⟩, (ByteBuffer.bytes_clear _).symm ▸ hsize i⟩, rfl, hidle, rfl, hsends, rfl⟩,
    fun k response hk => ?_⟩
  · exact absurd (hnone.symm.trans hi) (by simp)
  · rw [show (init (ε := ε) config ioBuffers).broker = Server.System.init config from rfl, hidle]
    exact Nat.zero_le _
  · intro b hb
    rw [show (init (ε := ε) config ioBuffers).broker = Server.System.init config from rfl,
      hidle] at hb
    exact absurd hb (Multiset.notMem_zero b)
  · cases hk

variable {ioBuffers : ℕ → ByteBuffer} {es : List (Event ε)}

theorem whole_of_run (hstream : stream.RoundTrips)
    (hsize : ∀ i, (ioBuffers i).bytes.length = clientIoBufferCapacity)
    (h : Run (Step config stream) (init config ioBuffers) es x) (hfit : ∀ e ∈ es, e.Fits) :
    Whole stream x := by
  have hrun := run_restrict_iff.mpr ⟨h, hfit⟩
  exact hrun.invariant (P := Whole stream) (fun _ _ _ hx hs => hx.step hstream hs.2 hs.1)
    (whole_init config stream hsize)

/-- The requests that have become jobs. -/
theorem Whole.jobs (h : Whole stream x) (hlen : x.broker.clients.length < 2 ^ 32) {k n : ℕ}
    (hk : (jobsOf x.journal i)[k]? = some n) : ∃ request,
      (x.connections i).submitted[k]? = some request ∧ Decodes x.journal n request := by
  obtain ⟨pending, hinward, -⟩ := (h.linked hlen i).caller
  obtain ⟨requests, hsubmitted, hdecoded⟩ := hinward.decoded
  have hlt := (List.getElem?_eq_some_iff.mp hk).1
  have hlt' : k < requests.length := hdecoded.length_eq ▸ hlt
  refine ⟨requests[k], ?_, ?_⟩
  · rw [hsubmitted, List.getElem?_append_left hlt', List.getElem?_eq_getElem hlt']
  · rw [← (List.getElem?_eq_some_iff.mp hk).2]
    exact List.Forall₂.get hdecoded hlt hlt'

/-- The results that have been returned. -/
theorem Whole.results (h : Whole stream x) (hlen : x.broker.clients.length < 2 ^ 32) {k : ℕ}
    {response : Response ε} (hk : (x.connections i).returned[k]? = some response) :
    ∃ n request outcome, (jobsOf x.journal i)[k]? = some n ∧
      (x.connections i).submitted[k]? = some request ∧
      x.journal.processed n = some ⟨i, request, outcome⟩ ∧ response = responseOf outcome := by
  obtain ⟨n, hn, hdelivered, processed, hp, hresponse⟩ := (h.linked hlen i).returned k response hk
  obtain ⟨request, hrequest, swap, raw, hswap, hdecode⟩ := h.jobs hlen hn
  obtain ⟨d, hd, rfl⟩ := List.mem_map.mp hdelivered
  obtain ⟨swap', processed', raw', hswap', hc, hp', hcontext, hdecode', -⟩ :=
    (h.good.routed hlen).right d hd
  obtain rfl := Option.some.inj (hp.symm.trans hp')
  obtain rfl := Option.some.inj (hswap.symm.trans hswap')
  -- the job is one of this connection
  have hi : swap.connection = i := by
    have hmem := (List.mem_filter.mp (List.mem_of_getElem? hn)).2
    rw [hswap, Option.any_some, decide_eq_true_eq] at hmem
    exact hmem
  rw [hdecode] at hdecode'
  obtain ⟨hrequest', -⟩ := EStateM.Result.ok.inj hdecode'
  refine ⟨d.job, request, processed.outcome, hn, hrequest, ?_, hresponse⟩
  rw [hp, ← hi, hrequest', hc, ← hcontext]

theorem Whole.idle (h : Whole stream x) (hlen : x.broker.clients.length < 2 ^ 32)
    {ioBuffer : ByteBuffer} (hidle : (x.connections i).caller = .idle ioBuffer) :
    (x.connections i).returned.length = (x.connections i).submitted.length := by
  obtain ⟨pending, -, hcalls⟩ := (h.linked hlen i).caller
  rw [hidle] at hcalls
  exact hcalls.2.2.2.2.2

/-- **A call returns its own result.** The requests that have been submitted on a connection have
become jobs in their order, each of them once, up to the last one. The `k`-th response that has been
returned is the result of processing the `k`-th request, and a client without an open call has got a
response to each of its requests: as long as its socket lasts, no call fails. -/
theorem returns_its_result (hstream : stream.RoundTrips)
    (hsize : ∀ i, (ioBuffers i).bytes.length = clientIoBufferCapacity)
    (h : Run (Step config stream) (init config ioBuffers) es x) (hfit : ∀ e ∈ es, e.Fits)
    (hlen : x.broker.clients.length < 2 ^ 32) (i : ℕ) :
    (∀ (k n : ℕ), (jobsOf x.journal i)[k]? = some n →
      ∃ request, (x.connections i).submitted[k]? = some request ∧ Decodes x.journal n request) ∧
    (∀ (k : ℕ) (response : Response ε), (x.connections i).returned[k]? = some response →
      ∃ n request outcome, (jobsOf x.journal i)[k]? = some n ∧
        (x.connections i).submitted[k]? = some request ∧
        x.journal.processed n = some ⟨i, request, outcome⟩ ∧ response = responseOf outcome) ∧
    ∀ ioBuffer, (x.connections i).caller = .idle ioBuffer →
      (x.connections i).returned.length = (x.connections i).submitted.length := by
  have hwhole := whole_of_run hstream hsize h hfit
  exact ⟨fun _ _ hk => hwhole.jobs hlen hk, fun _ _ hk => hwhole.results hlen hk,
    fun _ hidle => hwhole.idle hlen hidle⟩

/-- A client registers; the response comes in two pieces. -/
def registering : List (Event Empty) :=
  [.broker .select, .broker .accept, .broker .keysDone, .broker .selectQueue,
    .submit 0 (.registration ⟨some "c"⟩), .broker .select,
    .broker (.read 0 (some (frame (requestPayload.enc (.registration ⟨some "c"⟩))))),
    .broker .keysDone, .broker (.take 0), .broker (.decode 0),
    .broker (.answer 0 (.ok (.registration ⟨some ⟨1, some "c"⟩, true⟩))), .broker (.post 0),
    .broker (.wake 0), .broker .selectQueue, .broker .selectQueue, .broker .select,
    .broker (.write 0 5), .receive 0 [0, 0, 0], .broker (.write 0 18),
    .receive 0 ([19, 9, 199, 133, 232, 0, 0, 0, 0, 0, 0, 0, 0, 1, 0, 0, 0, 1, 99, 0])]

/-- The client has got the result of its registration. -/
theorem returns_its_result_registering :
    ∃ x, follow smallConfiguration nullStream (init smallConfiguration fun _ => openedBuffer)
      registering = some x ∧ (x.connections 0).returned.length = 1 ∧
      ∀ response, (x.connections 0).returned[0]? = some response → ∃ n request outcome,
        (jobsOf x.journal 0)[0]? = some n ∧ (x.connections 0).submitted[0]? = some request ∧
        x.journal.processed n = some ⟨0, request, outcome⟩ ∧ response = responseOf outcome := by
  have hrun : (follow smallConfiguration nullStream (init smallConfiguration fun _ => openedBuffer)
      registering).any (fun x => x.broker.clients.length < 2 ^ 32 ∧
        (x.connections 0).returned.length = 1) = true := by decide +kernel
  simp only [Option.any_eq_true, decide_eq_true_eq] at hrun
  obtain ⟨x, hx, hlen, hone⟩ := hrun
  have hfit : ∀ e ∈ registering, e.Fits := by
    unfold registering
    simp only [List.forall_mem_cons, Event.Fits, List.not_mem_nil, false_imp_iff, implies_true,
      and_true, true_and]
    decide
  exact ⟨x, hx, hone, (returns_its_result nullStream_roundTrips
    (fun _ => List.length_replicate) (run_of_follow hx) hfit hlen 0).2.1 0⟩

end Mlmq.Client.RemoteCalls
