import Mlmq.Log.PerformanceLog
import Mlmq.Server.Conversations
import Mlmq.Server.Worker

/-! # `PairedClient`

Two clients that exchange numbers: the requesting one sends its counter and waits for the reply with
the conversation context of its last request, the responding one replies to every message in its
queue with the successor of the number. A call may time out, after its request has been executed or
before; then the client registers again over a new connection and goes on with what it was doing,
and the old request may still be executed.

Whatever is lost, repeated or late, a reply that the requesting client gets holds the successor of
its counter (`reply_is_successor`): a context belongs to one request, and the client waits for the
context of a request with its present counter. -/

namespace Mlmq.Scenario.Pair

open Mlmq.Dto Mlmq.Db.Table Mlmq.Db.Schema Mlmq.Db.Dao Mlmq.Net.Requests Mlmq.Net.Responses
open Mlmq.Server.RequestProcessor Mlmq.Server.Processing Mlmq.Server.Conversations
open Mlmq.Lib.Programs Mlmq.Lib.Programs.Program Mlmq.Lib.Transition
open Mlmq.Lib.Text (showInt)
open Mlmq.Lib.Utf8 (getBytes newString)
open Mlmq.Log.PerformanceLog (parseInt parseInt_showInt)
open Mlmq.Server.Worker (responseOf)

/-! ### The functions of the source -/

structure PairedClient where
  messageCounter : Int32
  sending : Bool
  context : Int64
  myQueue : QueueDto
  partnerClient : Option ClientDto
deriving DecidableEq, Repr

/-- `("" + n).getBytes()`. -/
def numberBytes (n : Int32) : List UInt8 := getBytes (String.ofList (showInt n.toInt))

/-- `Integer.parseInt(new String(content))`; none if it throws. -/
def parseContent (content : List UInt8) : Option Int32 :=
  (parseInt (newString content).toList).toOption

/-- `sendRequestToClient`. -/
def sendRequestToClient (clientId : Int64) (content : List UInt8) (prio : Int32) : Request :=
  .sendClientMessage
    { clientId, prio, conversation := true, conversationContext := none, content := some content }

/-- `sendResponseToClient`. -/
def sendResponseToClient (clientId context : Int64) (content : List UInt8) (prio : Int32) :
    Request :=
  .sendClientMessage
    { clientId, prio, conversation := true, conversationContext := some context,
      content := some content }

namespace PairedClient

/-- The client before the loop of `run`. -/
def start (requesting : Bool) (myQueue : QueueDto) : PairedClient where
  messageCounter := 0
  sending := requesting
  context := 0
  myQueue
  partnerClient := none

variable (c : PairedClient)

/-- The request of `respondingAction`. -/
def respondingAction (partner : ClientDto) (prio : Int32) : Request :=
  if c.sending then
    sendResponseToClient partner.id c.context (numberBytes c.messageCounter) prio
  else .dequeueMessage ⟨some
    { queue := some c.myQueue, sender := none, shouldOrderByPriority := false,
      conversationContext := none }⟩

/-- The request of `requestingAction`. -/
def requestingAction (partner : ClientDto) (prio : Int32) : Request :=
  if c.sending then sendRequestToClient partner.id (numberBytes c.messageCounter) prio
  else .dequeueMessage ⟨some
    { queue := some { id := c.myQueue.id, name := none }, sender := none,
      shouldOrderByPriority := false, conversationContext := some c.context.toInt32 }⟩

/-- The next request of the loop of `run`. -/
def nextRequest (requesting : Bool) (partnerName : String) (prio : Int32) : Request :=
  match c.partnerClient with
  | none => .lookupClient ⟨some partnerName⟩
  | some partner =>
    if requesting then c.requestingAction partner prio else c.respondingAction partner prio

/-- The client behind the call of `respondingAction`, or none if an exception is thrown. A response
of another class than the call expects is a `ClassCastException`. -/
def responded : Response JavaException → Option PairedClient
  | .sendClientMessage response => do
    guard c.sending
    let _ ← response.conversationContext
    return { c with sending := false }
  | .message response => do
    guard !c.sending
    match response.messageDto with
    | none => return c
    | some msg =>
      let msgContent ← msg.content
      let received ← parseContent msgContent
      let context ← msg.conversationContext
      return { c with messageCounter := received + 1, context := context.toInt64, sending := true }
  | _ => none

/-- The client behind the call of `requestingAction`. -/
def requested : Response JavaException → Option PairedClient
  | .sendClientMessage response => do
    guard c.sending
    let context ← response.conversationContext
    return { c with context, sending := false }
  | .message response => do
    guard !c.sending
    match response.messageDto with
    | none => return c
    | some responseMsg =>
      let responseContext ← responseMsg.content
      let responseCounter ← parseContent responseContext
      return { c with messageCounter := responseCounter + 1, sending := true }
  | _ => none

/-- The client behind a call of the loop, or none if an exception ends the loop. -/
def receive (requesting : Bool) (response : Response JavaException) : Option PairedClient :=
  match c.partnerClient, response with
  | none, .client response => some { c with partnerClient := response.client }
  | none, _ => none
  | some _, response => if requesting then c.requested response else c.responded response

end PairedClient

/-! ### The system -/

variable {η : Type} [DecidableEq η]

/-- Where a client is. -/
inductive Phase (η : Type)
  -- connected, and at the top of the loop
  | looping (h : η)
  -- in a call, whose request may have been executed
  | calling (h : η) (request : Request) (response : Option (Response JavaException))
  -- in the handler of a timeout
  | disconnected
  | stopped
deriving DecidableEq

structure Client (η : Type) where
  state : PairedClient
  phase : Phase η

/-- The client behind a response. An exception of `connectClient` in the handler of a timeout, and
any other one than a timeout in the loop, ends `run`. -/
def Client.receive (requesting : Bool) (c : Client η) : Client η :=
  match c.phase with
  | .calling h request (some response) =>
    if Request.isRegistration request then
      match response with
      | .registration _ => { c with phase := .looping h }
      | _ => { c with phase := .stopped }
    else
      match c.state.receive requesting response with
      | some state => ⟨state, .looping h⟩
      | none => { c with phase := .stopped }
  | _ => c

/-- The server, both clients, and the requests that may still be executed although the client has
given up. `client true` is the requesting one. -/
structure System (η : Type) where
  server : State η
  client : Bool → Client η
  late : List (η × Request)

/-- The system with another phase of a client. -/
def System.setPhase (s : System η) (b : Bool) (phase : Phase η) : System η :=
  { s with client := Function.update s.client b { s.client b with phase } }

inductive Label (η : Type)
  | submit (b : Bool) (prio : Int32)
  | execute (b : Bool) (r : Except JavaException (Response JavaException))
  | executeLate (h : η) (request : Request) (r : Except JavaException (Response JavaException))
  | receive (b : Bool)
  | timeout (b : Bool)
  | connect (b : Bool) (h : η)
  | other

/-- Requests with any faults. -/
abbrev Serves : State η → η × Request × Except JavaException (Response JavaException) → State η →
    Prop := RequestStep fun _ _ _ => True

/-- **The steps of the two clients, of the server, and of everybody else**, who may do anything but
write to the two queues. -/
inductive Step (pair : Bool → Member) : System η → Label η → System η → Prop
  | submit {s b h} (prio : Int32) (hprio : 0 ≤ prio.toInt ∧ prio.toInt < 10)
    (hb : (s.client b).phase = .looping h) :
    Step pair s (.submit b prio) (s.setPhase b
      (.calling h ((s.client b).state.nextRequest b (pair !b).name prio) none))
  | execute {s b h request r server} (hb : (s.client b).phase = .calling h request none)
    (hserve : Serves s.server (h, request, r) server) :
    Step pair s (.execute b r)
      { s.setPhase b (.calling h request (some (responseOf r))) with server }
  | executeLate {s h request r server} (hlate : (h, request) ∈ s.late)
    (hserve : Serves s.server (h, request, r) server) :
    Step pair s (.executeLate h request r) { s with server, late := s.late.erase (h, request) }
  | receive {s b h request response}
    (hb : (s.client b).phase = .calling h request (some response)) :
    Step pair s (.receive b)
      { s with client := Function.update s.client b ((s.client b).receive b) }
  | timeout {s b h request response} (hb : (s.client b).phase = .calling h request response)
    (hrequest : Request.isRegistration request = false) :
    Step pair s (.timeout b) { s.setPhase b .disconnected with
      late := s.late ++ if response.isNone then [(h, request)] else [] }
  | connect {s b} (h : η) (hb : (s.client b).phase = .disconnected)
    (hnew : s.server.context h = .empty) :
    Step pair s (.connect b h)
      (s.setPhase b (.calling h (.registration ⟨some (pair b).name⟩) none))
  | other {s request context r w}
    (hrun : Runs anySem (process request) ⟨s.server.db, none, context⟩ r w)
    (hwrite : ∀ m ∈ w.db.messages, (∃ b, m.queueId = (pair b).queueId) →
      m ∈ s.server.db.messages) :
    Step pair s .other { s with server := { s.server with db := w.db } }

/-- Both clients are known and have an empty queue, and come to the loop of `run`. -/
structure Init (pair : Bool → Member) (s : System η) : Prop where
  distinct : (pair true).id ≠ (pair false).id
  belongs : ∀ b, Belongs s.server.db (pair b)
  empty : ∀ m ∈ s.server.db.messages, ∀ b, m.queueId ≠ (pair b).queueId
  started : ∀ b, ∃ h name, s.client b =
    ⟨.start b { id := (pair b).queueId.toInt64, name }, .looping h⟩
  late : s.late = []

/-- **The requesting client gets a reply with this counter.** -/
def Observes (s : System η) (responseCounter : Int32) : Prop :=
  (s.client true).state.partnerClient.isSome ∧ (s.client true).state.sending = false ∧
    ∃ h request response responseMsg responseContext,
      (s.client true).phase = .calling h request (some (.message response)) ∧
      Request.isRegistration request = false ∧ response.messageDto = some responseMsg ∧
      responseMsg.content = some responseContext ∧
      parseContent responseContext = some responseCounter

/-! ### What holds of the clients -/

theorem parseContent_numberBytes (n : Int32) : parseContent (numberBytes n) = some n := by
  unfold parseContent numberBytes
  rw [Mlmq.Lib.Utf8.newString_getBytes, String.toList_ofList, parseInt_showInt]
  rfl

/-- A reply holds the successor of the number in the request. -/
def successor : Reply := fun asked content =>
  ∃ c, parseContent asked = some c ∧ content = numberBytes (c + 1)

variable {pair : Bool → Member} {asked asked' : ℕ → List UInt8} {n n' : ℕ} {s s' : System η}
  {b : Bool}

/-- **What a client knows of its conversation**: the requesting one waits for the reply to a request
with its counter, and the responding one sends the successor of what it has been asked. -/
structure Knows (asked : ℕ → List UInt8) (n : ℕ) (b : Bool) (c : PairedClient) : Prop where
  waiting : b = true → c.sending = false → ∃ k < n, IsContext (some c.context) k ∧
    asked k = numberBytes c.messageCounter
  replying : b = false → c.sending = true → ∃ k < n, IsContext (some c.context) k ∧
    ∃ received, parseContent (asked k) = some received ∧ c.messageCounter = received + 1

/-- The client in its loop. -/
structure Follows (pair : Bool → Member) (asked : ℕ → List UInt8) (n : ℕ) (b : Bool)
    (c : Client η) : Prop where
  queue : c.state.myQueue.id = (pair b).queueId.toInt64
  partner : ∀ p ∈ c.state.partnerClient, p.id = (pair !b).id.toInt64
  knows : Knows asked n b c.state
  request : ∀ h request response, c.phase = .calling h request response →
    Request.isRegistration request = true ∨
      ∃ prio, request = c.state.nextRequest b (pair !b).name prio
  response : ∀ h request x, c.phase = .calling h request (some x) →
    Answers successor pair asked n request x

/-- **The invariant.** -/
structure Invariant (pair : Bool → Member) (asked : ℕ → List UInt8) (n : ℕ) (s : System η) :
    Prop where
  distinct : (pair true).id ≠ (pair false).id
  settled : Settled pair n s.server.db
  messages : ∀ m ∈ s.server.db.messages, Fine successor pair asked n m
  late : ∀ e ∈ s.late, Allowed successor pair asked n e.2
  follows : ∀ b, Follows pair asked n b (s.client b)

omit [DecidableEq η] in
theorem Invariant.ne (h : Invariant pair asked n s) (b : Bool) : (pair b).id ≠ (pair !b).id := by
  cases b
  · exact h.distinct.symm
  · exact h.distinct

theorem Knows.grows {c : PairedClient} (h : Knows asked n b c) (hg : Grows asked n asked' n') :
    Knows asked' n' b c where
  waiting hb hc := by
    obtain ⟨k, hk, hcontext, hasked⟩ := h.waiting hb hc
    exact ⟨k, hk.trans_le hg.le, hcontext, by rw [hg.eq k hk]; exact hasked⟩
  replying hb hc := by
    obtain ⟨k, hk, hcontext, received, hparse, hcounter⟩ := h.replying hb hc
    exact ⟨k, hk.trans_le hg.le, hcontext, received, by rw [hg.eq k hk]; exact hparse, hcounter⟩

omit [DecidableEq η] in
theorem Follows.grows {c : Client η} (h : Follows pair asked n b c)
    (hg : Grows asked n asked' n') : Follows pair asked' n' b c :=
  ⟨h.queue, h.partner, h.knows.grows hg, h.request, fun i request x hx =>
    (h.response i request x hx).grows hg⟩

omit [DecidableEq η] in
/-- What a client calls is a request of the conversation. -/
theorem Follows.allowed {c : Client η} {i : η} {request : Request}
    {response : Option (Response JavaException)} (h : Follows pair asked n b c)
    (hc : c.phase = .calling i request response) : Allowed successor pair asked n request := by
  rcases h.request i request response hc with hrequest | ⟨prio, rfl⟩
  · cases request <;> trivial
  · unfold PairedClient.nextRequest
    cases hpartner : c.state.partnerClient with
    | none => trivial
    | some partner =>
      have hid := h.partner partner hpartner
      dsimp only
      cases b with
      | true =>
        rw [if_pos rfl]
        unfold PairedClient.requestingAction
        cases hsending : c.state.sending with
        | true => exact .inl ⟨hid, rfl, rfl, rfl⟩
        | false => trivial
      | false =>
        rw [if_neg Bool.false_ne_true]
        unfold PairedClient.respondingAction
        cases hsending : c.state.sending with
        | true =>
          obtain ⟨k, hk, hcontext, received, hparse, hcounter⟩ := h.knows.replying rfl hsending
          refine .inr ⟨hid, k, hk, hcontext, _, rfl, received, hparse, by rw [hcounter]⟩
        | false => trivial

/-! ### Responses -/

section Responses

variable {c c' : PairedClient} {prio : Int32} {partner : ClientDto}

/-- **What `requestingAction` does with a response.** -/
theorem requested_cases {x : Response JavaException} (h : c.requested x = some c') :
    (∃ response context, x = .sendClientMessage response ∧ c.sending = true ∧
      response.conversationContext = some context ∧ c' = { c with context, sending := false }) ∨
    ∃ response, x = .message response ∧ c.sending = false ∧
      (response.messageDto = none ∧ c' = c ∨
        ∃ responseCounter, c' = { c with messageCounter := responseCounter + 1, sending := true }) := by
  cases x with
  | sendClientMessage response =>
    simp only [PairedClient.requested, Option.bind_eq_bind, Option.bind_eq_some_iff,
      Option.guard_eq_some'] at h
    obtain ⟨-, hsending, context, hcontext, hc⟩ := h
    exact .inl ⟨response, context, rfl, hsending, hcontext, (Option.some.inj hc).symm⟩
  | message response =>
    simp only [PairedClient.requested, Option.bind_eq_bind, Option.bind_eq_some_iff,
      Option.guard_eq_some', Bool.not_eq_true'] at h
    obtain ⟨-, hsending, h⟩ := h
    refine .inr ⟨response, rfl, hsending, ?_⟩
    cases hmsg : response.messageDto with
    | none =>
      rw [hmsg] at h
      exact .inl ⟨rfl, (Option.some.inj h).symm⟩
    | some msg =>
      rw [hmsg] at h
      simp only [Option.bind_eq_some_iff] at h
      obtain ⟨content, -, counter, -, hc⟩ := h
      exact .inr ⟨counter, (Option.some.inj hc).symm⟩
  | _ => cases h

/-- **What `respondingAction` does with a response.** -/
theorem responded_cases {x : Response JavaException} (h : c.responded x = some c') :
    c.sending = true ∧ c' = { c with sending := false } ∨
    ∃ response, x = .message response ∧ c.sending = false ∧
      (c' = c ∨ ∃ msg content received context, response.messageDto = some msg ∧
        msg.content = some content ∧ parseContent content = some received ∧
        msg.conversationContext = some context ∧ c' =
          { c with messageCounter := received + 1, context := context.toInt64, sending := true }) := by
  cases x with
  | sendClientMessage response =>
    simp only [PairedClient.responded, Option.bind_eq_bind, Option.bind_eq_some_iff,
      Option.guard_eq_some'] at h
    obtain ⟨-, hsending, context, -, hc⟩ := h
    exact .inl ⟨hsending, (Option.some.inj hc).symm⟩
  | message response =>
    simp only [PairedClient.responded, Option.bind_eq_bind, Option.bind_eq_some_iff,
      Option.guard_eq_some', Bool.not_eq_true'] at h
    obtain ⟨-, hsending, h⟩ := h
    refine .inr ⟨response, rfl, hsending, ?_⟩
    cases hmsg : response.messageDto with
    | none =>
      rw [hmsg] at h
      exact .inl (Option.some.inj h).symm
    | some msg =>
      rw [hmsg] at h
      simp only [Option.bind_eq_some_iff] at h
      obtain ⟨content, hcontent, received, hreceived, context, hcontext, hc⟩ := h
      exact .inr ⟨msg, content, received, context, rfl, hcontent, hreceived, hcontext,
        (Option.some.inj hc).symm⟩
  | _ => cases h

/-- The response to a request tells the requesting client its context. -/
theorem Knows.requested {response : SendClientMessageResponse}
    (hid : partner.id = (pair false).id.toInt64) (hsending : c.sending = true)
    (hx : Answers successor pair asked n (c.requestingAction partner prio)
      (.sendClientMessage response)) {context : Int64}
    (hcontext : response.conversationContext = some context) :
    Knows asked n true { c with context, sending := false } := by
  refine ⟨fun _ _ => ?_, nofun⟩
  unfold PairedClient.requestingAction at hx
  rw [hsending, if_pos rfl] at hx
  obtain ⟨k, hk, hk', hcontent⟩ := hx ⟨hid, rfl, rfl, rfl⟩
  rw [hcontext] at hk'
  exact ⟨k, hk, hk', (Option.some.inj hcontent).symm⟩

/-- A message that the responding client gets is the request of its context. -/
theorem Knows.responded {response : MessageResponse} {msg : MessageDto} {content : List UInt8}
    {received context : Int32} (hqueue : c.myQueue.id = (pair false).queueId.toInt64)
    (hsending : c.sending = false)
    (hx : Answers successor pair asked n (c.respondingAction partner prio) (.message response))
    (hmsg : response.messageDto = some msg) (hcontent : msg.content = some content)
    (hreceived : parseContent content = some received)
    (hcontext : msg.conversationContext = some context) :
    Knows asked n false
      { c with messageCounter := received + 1, context := context.toInt64, sending := true } := by
  refine ⟨nofun, fun _ _ => ?_⟩
  unfold PairedClient.respondingAction at hx
  rw [hsending, if_neg Bool.false_ne_true] at hx
  obtain ⟨q, hq, m, rfl, hsel, hfine⟩ := hx msg hmsg
  obtain rfl := Option.some.inj hq
  have hmine : m.queueId = (pair false).queueId := by
    have hm : m.queueId = c.myQueue.id.toInt32 := hsel.1 _ rfl
    rw [hm, hqueue, toInt32_toInt64]
  obtain ⟨k, hk, ⟨x, hmcontext, hxk⟩, hmcontent⟩ := hfine.request hmine
  obtain rfl : x = context := Option.some.inj (hmcontext.symm.trans hcontext)
  obtain rfl : asked k = content := Option.some.inj (hmcontent.symm.trans hcontent)
  exact ⟨k, hk, ⟨x, rfl, hxk⟩, received, hreceived, rfl⟩

omit [DecidableEq η] in
/-- **What a client knows behind a response.** -/
theorem Follows.receive_state {c : Client η} {state : PairedClient} {x : Response JavaException}
    (h : Follows pair asked n b c)
    (hx : Answers successor pair asked n (c.state.nextRequest b (pair !b).name prio) x)
    (hstate : c.state.receive b x = some state) :
    state.myQueue.id = (pair b).queueId.toInt64 ∧
      (∀ p ∈ state.partnerClient, p.id = (pair !b).id.toInt64) ∧ Knows asked n b state := by
  unfold PairedClient.nextRequest at hx
  unfold PairedClient.receive at hstate
  cases hpartner : c.state.partnerClient with
  | none =>
    rw [hpartner] at hx hstate
    cases x with
    | client response =>
      obtain rfl := Option.some.inj hstate
      exact ⟨h.queue, fun p hp => hx p hp (!b) rfl, h.knows.waiting, h.knows.replying⟩
    | _ => cases hstate
  | some partner =>
    rw [hpartner] at hx hstate
    have hid := h.partner partner hpartner
    dsimp only at hx hstate
    cases b with
    | true =>
      rw [if_pos rfl] at hx hstate
      obtain ⟨response, context, rfl, hsending, hcontext, rfl⟩ | ⟨response, rfl, hsending, hmsg⟩ :=
        requested_cases hstate
      · exact ⟨h.queue, h.partner, Knows.requested hid hsending hx hcontext⟩
      · obtain ⟨-, rfl⟩ | ⟨counter, rfl⟩ := hmsg
        · exact ⟨h.queue, h.partner, h.knows⟩
        · exact ⟨h.queue, h.partner, nofun, nofun⟩
    | false =>
      rw [if_neg Bool.false_ne_true] at hx hstate
      obtain ⟨hsending, rfl⟩ | ⟨response, rfl, hsending, hmsg⟩ := responded_cases hstate
      · exact ⟨h.queue, h.partner, nofun, nofun⟩
      · obtain rfl | ⟨msg, content, received, context, hmsg, hcontent, hreceived, hcontext, rfl⟩ :=
          hmsg
        · exact ⟨h.queue, h.partner, h.knows⟩
        · exact ⟨h.queue, h.partner,
            Knows.responded h.queue hsending hx hmsg hcontent hreceived hcontext⟩

omit [DecidableEq η] in
/-- A client in another phase than a call. -/
theorem Follows.of_state {state : PairedClient} {phase : Phase η}
    (hqueue : state.myQueue.id = (pair b).queueId.toInt64)
    (hpartner : ∀ p ∈ state.partnerClient, p.id = (pair !b).id.toInt64)
    (hknows : Knows asked n b state)
    (hphase : ∀ i request response, phase ≠ .calling i request response) :
    Follows pair asked n b ⟨state, phase⟩ :=
  ⟨hqueue, hpartner, hknows, fun i request response heq => absurd heq (hphase i request response),
    fun i request _ heq => absurd heq (hphase i request _)⟩

omit [DecidableEq η] in
theorem Follows.of_phase {c : Client η} {phase : Phase η} (h : Follows pair asked n b c)
    (hphase : ∀ i request response, phase ≠ .calling i request response) :
    Follows pair asked n b { c with phase } :=
  .of_state h.queue h.partner h.knows hphase

omit [DecidableEq η] in
theorem Follows.receive {c : Client η} {i : η} {request : Request} {x : Response JavaException}
    (h : Follows pair asked n b c) (hc : c.phase = .calling i request (some x)) :
    Follows pair asked n b (c.receive b) := by
  have hrequest := h.request i request _ hc
  have hresponse := h.response i request x hc
  unfold Client.receive
  rw [hc]
  dsimp only
  cases hregistration : Request.isRegistration request with
  | true =>
    rw [if_pos rfl]
    cases x <;> exact h.of_phase (by rintro _ _ _ ⟨⟩)
  | false =>
    rw [if_neg Bool.false_ne_true]
    obtain ⟨prio, rfl⟩ := hrequest.resolve_left (Bool.eq_false_iff.mp hregistration)
    cases hstate : c.state.receive b x with
    | none => exact h.of_phase (by rintro _ _ _ ⟨⟩)
    | some state =>
      obtain ⟨hqueue, hpartner, hknows⟩ := h.receive_state hresponse hstate
      exact .of_state hqueue hpartner hknows (by rintro _ _ _ ⟨⟩)

end Responses

/-! ### Runs -/

omit [DecidableEq η] in
theorem Invariant.update {c : Client η} (h : Invariant pair asked n s)
    (hc : Follows pair asked n b c) :
    Invariant pair asked n { s with client := Function.update s.client b c } where
  distinct := h.distinct
  settled := h.settled
  messages := h.messages
  late := h.late
  follows b' := by
    change Follows pair asked n b' (Function.update s.client b c b')
    rcases eq_or_ne b' b with rfl | hne
    · rwa [Function.update_self]
    · rw [Function.update_of_ne hne]
      exact h.follows b'

/-- A request that one of the clients has made is processed. -/
theorem Invariant.serve {i : η} {request : Request}
    {r : Except JavaException (Response JavaException)} {server : State η}
    (h : Invariant pair asked n s) (hallowed : Allowed successor pair asked n request)
    (hserve : Serves s.server (i, request, r) server) :
    ∃ asked' n', Invariant pair asked' n' { s with server } ∧
      Answers successor pair asked' n' request (responseOf r) := by
  obtain ⟨w, hrun, rfl⟩ := hserve
  have hgood : Good successor pair asked n (s.server.world i) :=
    ⟨h.settled, h.messages, nofun⟩
  obtain ⟨asked', n', hg, hw, hx⟩ := (wp_process h.ne hallowed hgood).sound hrun
  refine ⟨asked', n', ⟨h.distinct, hw.settled, hw.messages, fun e he => (h.late e he).grows hg,
    fun b => (h.follows b).grows hg⟩, ?_⟩
  rcases r with e | x
  · cases request <;> trivial
  · exact hx x rfl

/-- **Every step keeps the invariant.** -/
theorem Invariant.step {l : Label η} (h : Invariant pair asked n s) (hstep : Step pair s l s') :
    ∃ asked' n', Invariant pair asked' n' s' := by
  cases hstep with
  | @submit b i prio hprio hb =>
    have hc := h.follows b
    refine ⟨asked, n, h.update ⟨hc.queue, hc.partner, hc.knows, ?_, by rintro _ _ _ ⟨⟩⟩⟩
    rintro _ _ _ ⟨⟩
    exact .inr ⟨prio, rfl⟩
  | @execute b i request r server hb hserve =>
    obtain ⟨asked', n', h', hx⟩ := h.serve ((h.follows b).allowed hb) hserve
    have hc := h'.follows b
    refine ⟨asked', n', h'.update ⟨hc.queue, hc.partner, hc.knows, ?_, ?_⟩⟩
    · rintro _ _ _ ⟨⟩
      exact hc.request i request none hb
    · rintro _ _ _ ⟨⟩
      exact hx
  | executeLate hlate hserve =>
    obtain ⟨asked', n', h', -⟩ := h.serve (h.late _ hlate) hserve
    exact ⟨asked', n', h'.distinct, h'.settled, h'.messages,
      fun e he => h'.late e (List.mem_of_mem_erase he), h'.follows⟩
  | @receive b i request response hb =>
    exact ⟨asked, n, h.update ((h.follows b).receive hb)⟩
  | @timeout b i request response hb hrequest =>
    have hc : Follows pair asked n b { s.client b with phase := .disconnected } :=
      (h.follows b).of_phase (by rintro _ _ _ ⟨⟩)
    refine ⟨asked, n, h.distinct, h.settled, h.messages, fun e he => ?_, (h.update hc).follows⟩
    rcases List.mem_append.mp he with he | he
    · exact h.late e he
    · split_ifs at he
      · obtain rfl := List.mem_singleton.mp he
        exact (h.follows b).allowed hb
      · cases he
  | @connect b i hb hnew =>
    have hc := h.follows b
    refine ⟨asked, n, h.update ⟨hc.queue, hc.partner, hc.knows, ?_, by rintro _ _ _ ⟨⟩⟩⟩
    rintro _ _ _ ⟨⟩
    exact .inl rfl
  | other hrun hwrite =>
    refine ⟨asked, n, h.distinct, h.settled.runs hrun, fun m hm => ?_, h.late, h.follows⟩
    by_cases hqueue : ∃ b, m.queueId = (pair b).queueId
    · exact h.messages m (hwrite m hm hqueue)
    · exact ⟨fun hm => absurd ⟨false, hm⟩ hqueue, fun hm => absurd ⟨true, hm⟩ hqueue⟩

omit [DecidableEq η] in
theorem Init.invariant (h : Init pair s) : Invariant pair asked 0 s where
  distinct := h.distinct
  settled := ⟨h.belongs, Nat.zero_le _⟩
  messages m hm := ⟨fun hq => absurd hq (h.empty m hm false), fun hq => absurd hq (h.empty m hm true)⟩
  late := by
    rw [h.late]
    nofun
  follows b := by
    obtain ⟨i, name, hstart⟩ := h.started b
    rw [hstart]
    refine .of_state rfl nofun ⟨?_, ?_⟩ (by rintro _ _ _ ⟨⟩)
    · rintro rfl ⟨⟩
    · rintro rfl ⟨⟩

/-- **A reply that the requesting client gets holds the successor of its counter.** -/
theorem reply_is_successor {responseCounter : Int32}
    (h : Reachable (Init pair) (Step pair) s) (ho : Observes s responseCounter) :
    responseCounter = (s.client true).state.messageCounter + 1 := by
  obtain ⟨asked, n, h⟩ := h.invariant (P := fun s => ∃ asked n, Invariant pair asked n s)
    (fun s hs => ⟨fun _ => [], 0, hs.invariant⟩) fun s l s' ⟨asked, n, h⟩ hstep => h.step hstep
  obtain ⟨hpartner, hsending, i, request, response, msg, content, hphase, hregistration, hmsg,
    hcontent, hparse⟩ := ho
  obtain ⟨partner, hpartner⟩ := Option.isSome_iff_exists.mp hpartner
  have hc := h.follows true
  have hx := hc.response i request _ hphase
  obtain ⟨prio, rfl⟩ :=
    (hc.request i request _ hphase).resolve_left (Bool.eq_false_iff.mp hregistration)
  unfold PairedClient.nextRequest PairedClient.requestingAction at hx
  rw [hpartner] at hx
  dsimp only at hx
  rw [if_pos rfl, hsending, if_neg Bool.false_ne_true] at hx
  obtain ⟨q, hq, m, rfl, hsel, hfine⟩ := hx msg hmsg
  obtain rfl := Option.some.inj hq
  -- The message is a reply to the request whose context the client waits for.
  have hmine : m.queueId = (pair true).queueId := by
    have hm : m.queueId = (s.client true).state.myQueue.id.toInt32 := hsel.1 _ rfl
    rw [hm, hc.queue, toInt32_toInt64]
  obtain ⟨k, -, ⟨x, hmcontext, hxk⟩, content', hmcontent, received, hasked, rfl⟩ :=
    hfine.response hmine
  obtain ⟨k', -, ⟨y, hcontext, hyk⟩, hasked'⟩ := hc.knows.waiting rfl hsending
  have hsame : x = y := by
    have hm : m.context = some (s.client true).state.context.toInt32 := hsel.2.2 _ rfl
    rw [Option.some.inj hcontext, toInt32_toInt64] at hm
    exact Option.some.inj (hmcontext.symm.trans hm)
  obtain rfl : k = k' := by
    rw [hsame] at hxk
    exact Int.ofNat_inj.mp (hxk.symm.trans hyk)
  have hreceived : received = (s.client true).state.messageCounter := by
    rw [hasked', parseContent_numberBytes] at hasked
    exact (Option.some.inj hasked).symm
  obtain rfl := Option.some.inj (hmcontent.symm.trans hcontent)
  rw [parseContent_numberBytes] at hparse
  rw [← Option.some.inj hparse, hreceived]

/-! ### Turns without faults -/

/-- A call of a client in its loop, which is executed. -/
def System.call (pair : Bool → Member) (s : System η) (b : Bool) : System η :=
  match (s.client b).phase with
  | .looping h =>
    let request := (s.client b).state.nextRequest b (pair !b).name 0
    let r := s.server.process h request
    { s.setPhase b (.calling h request (some (responseOf r.1))) with server := r.2 }
  | _ => s

/-- A call and its response. -/
def System.turn (pair : Bool → Member) (s : System η) (b : Bool) : System η :=
  { s.call pair b with
    client := Function.update (s.call pair b).client b (((s.call pair b).client b).receive b) }

theorem reachable_call (h : Reachable (Init pair) (Step pair) s) (b : Bool) :
    Reachable (Init pair) (Step pair) (s.call pair b) := by
  unfold System.call
  split
  · rename_i i hb
    have hsubmit := h.next (.submit 0 ⟨by decide, by decide⟩ hb)
    have hphase : ((s.setPhase b (.calling i
        ((s.client b).state.nextRequest b (pair !b).name 0) none)).client b).phase = .calling i
          ((s.client b).state.nextRequest b (pair !b).name 0) none := by
      change (Function.update s.client b _ b).phase = _
      rw [Function.update_self]
    have hserve : Serves s.server (i, (s.client b).state.nextRequest b (pair !b).name 0, _) _ :=
      step_process (fun _ _ => trivial) s.server i _
    convert hsubmit.next (.execute hphase hserve) using 1
    simp [System.setPhase]
  · exact h

theorem reachable_turn (h : Reachable (Init pair) (Step pair) s) (b : Bool) :
    Reachable (Init pair) (Step pair) (s.turn pair b) := by
  have hcall := reachable_call h b
  unfold System.turn
  rcases hb : ((s.call pair b).client b).phase with i | ⟨i, request, _ | response⟩ | _ | _
  case calling.some => exact hcall.next (.receive hb)
  all_goals
    unfold Client.receive
    rw [hb]
    exact (Function.update_eq_self b (s.call pair b).client).symm ▸ hcall

/-- Two clients that are connected. -/
def twins (b : Bool) : Member where
  name := if b then "requesting" else "responding"
  id := if b then 0 else 1
  queueId := if b then 0 else 1

def System.start : System Bool where
  server :=
    { db := { Database.empty with
        clients := [⟨0, some (twins true).name⟩, ⟨1, some (twins false).name⟩]
        queues := [⟨0, some (twins true).name, some 0⟩, ⟨1, some (twins false).name, some 1⟩]
        clientSeq := 2
        queueSeq := 2 }
      context := fun b =>
        ⟨some ⟨(twins b).id.toInt64, none⟩, some ⟨(twins b).queueId.toInt64, none⟩⟩ }
  client b := ⟨.start b ⟨(twins b).queueId.toInt64, none⟩, .looping b⟩
  late := []

theorem init_start : Init twins System.start where
  distinct := by decide
  belongs b := by
    cases b
    · exact ⟨by decide, by decide, by decide, by decide⟩
    · exact ⟨by decide, by decide, by decide, by decide⟩
  empty := nofun
  started b := ⟨b, none, rfl⟩
  late := rfl

/-- Both clients have found their partner, and the responding one has replied to a request. -/
def System.replied : System Bool :=
  [true, true, false, false, false].foldl (System.turn twins) .start

theorem reachable_replied : Reachable (Init twins) (Step twins) System.replied :=
  List.foldlRecOn _ _ (.of_init init_start) fun _ h b _ => reachable_turn h b

/-- The reply to the first request. -/
def firstReply : MessageDto where
  id := 2
  queue := some ⟨0, none⟩
  content := some [49]
  prio := 0
  sender := some ⟨1, none⟩
  conversationContext := some 1

theorem observes_replied : Observes (System.replied.call twins true) 1 := by
  refine ⟨by decide +kernel, by decide +kernel, true, (System.replied.client true).state.nextRequest
    true "" 0, ⟨some firstReply⟩, firstReply, [49], ?_, ?_, rfl, rfl, ?_⟩
  · decide +kernel
  · decide +kernel
  · decide +kernel

theorem reply_is_successor_replied :
    1 = ((System.replied.call twins true).client true).state.messageCounter + 1 :=
  reply_is_successor (reachable_call reachable_replied true) observes_replied

end Mlmq.Scenario.Pair
