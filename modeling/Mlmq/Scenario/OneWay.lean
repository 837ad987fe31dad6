import Mlmq.Lib.Rpc
import Mlmq.Scenario.Pair
import Mlmq.Server.Accounting

/-! # `OneWayClient`

Clients that send a message each to the queue of another one at random, and then send every message
they get on to another random client, with its counter incremented. A call may time out, after its
request has been executed or before; then the client registers again over a new connection and goes
on, and the old request may still be executed. Everybody else may do anything but write to the
queues of these clients.

A message is a token: it is stored, or a client has it in its hands, and it is lost if the call
that takes or gives it fails. None is ever made: there are at most as many as there are clients, and
their counters add up to no more than the number of messages that have been dequeued
(`one_message_each`). -/

namespace Mlmq.Scenario.OneWay

open Mlmq.Lib Mlmq.Lib.Transition Mlmq.Dto Mlmq.Db.Table Mlmq.Db.Schema Mlmq.Db.Dao
open Mlmq.Net.Requests Mlmq.Net.Responses
open Mlmq.Server.Processing Mlmq.Server.Accounting
open Mlmq.Scenario.Pair (numberBytes parseContent parseContent_numberBytes)
open Mlmq.Server.Worker (responseOf)

/-! ### The functions of the source -/

/-- Where `run` is. -/
inductive Place
  -- `connectClient`
  | register
  -- `connectClient` behind a timeout in the loop
  | reconnect
  | lookupClientQueue (clientDto : ClientDto)
  -- `pickRandomRecipientQueueId`, for a message with this counter
  | pick (msgCount : Int32)
  -- a recipient has been found
  | send (msgCount : Int32) (receipient : Int64)
  -- at the top of the loop
  | loop
  -- an exception has ended it
  | stopped
deriving DecidableEq

structure OneWayClient where
  name : String
  oneWayClientList : List String
  clientNameToQueueMap : List (String × Int64)
  myQueue : Option QueueDto
  running : Bool
  place : Place

/-- `sendMessage`. -/
def sendMessage (queueId : Int64) (content : List UInt8) (prio : Int32) : Request :=
  .sendMessage { queueIds := [some queueId], content := some content, prio }

namespace OneWayClient

/-- The client at the start of `run`. -/
def start (name : String) (oneWayClientList : List String) : OneWayClient where
  name
  oneWayClientList
  clientNameToQueueMap := []
  myQueue := none
  running := false
  place := .register

variable (c : OneWayClient)

/-- The next request of `run`, where `rndReceiver` and `prio` are random. -/
def nextRequest (rndReceiver : String) (prio : Int32) : Option Request :=
  match c.place with
  | .register | .reconnect => some (.registration ⟨some c.name⟩)
  | .lookupClientQueue clientDto => some (.lookupQueue ⟨some clientDto.id, none⟩)
  | .pick msgCount =>
    match c.clientNameToQueueMap.lookup rndReceiver with
    | some queueId => some (sendMessage queueId (numberBytes msgCount) prio)
    | none => some (.lookupQueue ⟨none, some rndReceiver⟩)
  | .send msgCount receipient => some (sendMessage receipient (numberBytes msgCount) prio)
  | .loop => some (.dequeueMessage ⟨some
    { queue := c.myQueue, sender := none, shouldOrderByPriority := false,
      conversationContext := none }⟩)
  | .stopped => none

/-- The client behind a call, or none if an exception is thrown. A response of another class than
the call expects is a `ClassCastException`. -/
def receive (request : Request) (response : Response JavaException) : Option OneWayClient :=
  match c.place, request, response with
  | _, _, .exception ⟨some _⟩ => none
  | .register, .registration _, .registration response => do
    let clientDto ← response.clientDto
    return { c with place := .lookupClientQueue clientDto }
  | .reconnect, .registration _, .registration _ => some { c with place := .loop }
  | .lookupClientQueue _, .lookupQueue _, .queue response =>
    some { c with myQueue := response.queue, place := .pick 0 }
  | .pick msgCount, .lookupQueue request, .queue response =>
    match request.queueName, response.queue with
    | some clientName, some queue =>
      some { c with clientNameToQueueMap := (clientName, queue.id) :: c.clientNameToQueueMap
                    place := .send msgCount queue.id }
    | _, _ => some c
  | .pick _, .sendMessage _, _ | .send _ _, .sendMessage _, _ =>
    some { c with running := true, place := .loop }
  | .loop, .dequeueMessage _, .message response =>
    match response.messageDto with
    | none => some c
    | some msgDto => do
      let content ← msgDto.content
      let msgCount ← parseContent content
      return { c with place := .pick (msgCount + 1) }
  | _, _, _ => none

end OneWayClient

/-! ### The system -/

variable {η : Type} [DecidableEq η]

/-- The calls of everybody, the connections of the clients, and each of the clients with the
connection that it has, or had. -/
structure System (η : Type) where
  rpc : Rpc.State (State η) η Request Outcome
  connections : Finset η
  client : η → OneWayClient
  /-- how many clients have been started -/
  members : ℕ
  /-- how many messages they have dequeued -/
  dequeued : ℕ

def System.start : System η where
  rpc := Rpc.start .init
  connections := ∅
  client _ := .start "" []
  members := 0
  dequeued := 0

inductive Label (η : Type)
  | join (h : η) (name : String) (oneWayClientList : List String)
  | reconnect (h h' : η)
  | act (m : Rpc.Label η Request Outcome)

/-- The request has taken a message. -/
def takes : Request → Outcome → Bool
  | .dequeueMessage _, .ok (.message ⟨some _⟩) => true
  | _, _ => false

/-- A connection that nobody has used. -/
structure Unused (s : System η) (h : η) : Prop where
  notMem : h ∉ s.connections
  idle : s.rpc.caller h = .idle
  context : s.rpc.server.context h = .empty

/-- The clients behind a step of a call. -/
def System.act (s : System η) (m : Rpc.Label η Request Outcome)
    (rpc : Rpc.State (State η) η Request Outcome) : System η :=
  match m with
  | .execute h request outcome =>
    { s with
      rpc
      dequeued := s.dequeued + if h ∈ s.connections ∧ takes request outcome then 1 else 0 }
  | .receive h outcome =>
    match s.rpc.caller h with
    | .answered request _ =>
      let c := (s.client h).receive request (responseOf outcome)
      { s with
        rpc
        client := Function.update s.client h (c.getD { s.client h with place := .stopped }) }
    | _ => { s with rpc }
  | _ => { s with rpc }

/-- What the clients do, and everybody else, who writes nothing to the queues `Q`. These are the
queues that the clients get as their own. -/
def Behaves (Q : Int32 → Prop) (s : System η) (rpc : Rpc.State (State η) η Request Outcome) :
    Rpc.Label η Request Outcome → Prop
  | .submit h request => h ∈ s.connections → ∃ rndReceiver prio,
      (∀ msgCount, (s.client h).place = .pick msgCount →
        rndReceiver ∈ (s.client h).oneWayClientList) ∧
      0 ≤ prio.toInt ∧ prio.toInt < 10 ∧ (s.client h).nextRequest rndReceiver prio = some request
  | .execute h _ _ => h ∉ s.connections → ∀ m ∈ rpc.server.db.messages, Q m.queueId →
      m ∈ s.rpc.server.db.messages
  | .receive h outcome => h ∈ s.connections → ∀ clientDto response,
      (s.client h).place = .lookupClientQueue clientDto → outcome = .ok (.queue response) →
        ∃ queue ∈ response.queue, Q queue.id.toInt32
  | .leave _ => True

/-- **The steps.** An exception of `connectClient` in the handler of a timeout ends `run`. -/
inductive Step (Q : Int32 → Prop) : System η → Label η → System η → Prop
  | join {s h} (name oneWayClientList) (hunused : Unused s h) :
    Step Q s (.join h name oneWayClientList)
      { s with
        connections := insert h s.connections
        client := Function.update s.client h (.start name oneWayClientList)
        members := s.members + 1 }
  | reconnect {s h h' pending} (hh : h ∈ s.connections) (hleft : s.rpc.caller h = .left pending)
    (hrunning : (s.client h).running) (hplace : (s.client h).place ≠ .reconnect)
    (hstopped : (s.client h).place ≠ .stopped) (hunused : Unused s h') :
    Step Q s (.reconnect h h')
      { s with
        connections := insert h' s.connections
        client := Function.update
          (Function.update s.client h { s.client h with place := .stopped })
          h' { s.client h with place := .reconnect } }
  | act {s m rpc} (hrpc : Rpc.Step (RequestStep fun _ _ _ => True) s.rpc m rpc)
    (hbehaves : Behaves Q s rpc m) : Step Q s (.act m) (s.act m rpc)

/-! ### Counters -/

/-- Counters are lost, or one of them is counted up. -/
inductive Evolves (T : Multiset Int32) : ℕ → Multiset Int32 → Prop
  | lose {T'} (n : ℕ) (hle : T' ≤ T) : Evolves T n T'
  | count {T'} (k : Int32) (R : Multiset Int32) (hle : k ::ₘ R ≤ T) (hle' : T' ≤ (k + 1) ::ₘ R) :
    Evolves T 1 T'

/-- There is at most one counter for each of `members`, and they add up to at most `dequeued`. -/
structure Bounded (T : Multiset Int32) (members dequeued : ℕ) : Prop where
  card_le : T.card ≤ members
  nonneg : ∀ k ∈ T, 0 ≤ k.toInt
  sum_le : (T.map Int32.toInt).sum ≤ dequeued

section Counters

variable {T T' R : Multiset Int32} {members dequeued n : ℕ} {k : Int32}

theorem Evolves.add_right (h : Evolves T n T') (R : Multiset Int32) :
    Evolves (T + R) n (T' + R) := by
  cases h with
  | lose n hle => exact .lose n (Multiset.add_le_add_right hle)
  | count k S hle hle' =>
    refine .count k (S + R) ?_ ?_
    · rw [← Multiset.cons_add]
      exact Multiset.add_le_add_right hle
    · rw [← Multiset.cons_add]
      exact Multiset.add_le_add_right hle'

theorem sum_toInt_nonneg (h : ∀ k ∈ T, 0 ≤ k.toInt) : 0 ≤ (T.map Int32.toInt).sum := by
  refine Multiset.sum_nonneg fun n hn => ?_
  obtain ⟨k, hk, rfl⟩ := Multiset.mem_map.mp hn
  exact h k hk

theorem Bounded.mono (h : Bounded T members dequeued) (hle : T' ≤ T) :
    Bounded T' members dequeued := by
  obtain ⟨U, rfl⟩ := Multiset.le_iff_exists_add.mp hle
  have hrest : 0 ≤ (U.map Int32.toInt).sum :=
    sum_toInt_nonneg fun k hk => h.nonneg k (Multiset.mem_add.mpr (.inr hk))
  have hsum := h.sum_le
  rw [Multiset.map_add, Multiset.sum_add] at hsum
  refine ⟨(Multiset.card_le_card hle).trans h.card_le,
    fun k hk => h.nonneg k (Multiset.mem_of_le hle hk), ?_⟩
  omega

theorem Bounded.later (h : Bounded T members dequeued) (n : ℕ) :
    Bounded T members (dequeued + n) := by
  have hsum := h.sum_le
  exact ⟨h.card_le, h.nonneg, by push_cast; omega⟩

/-- A counter is at most the sum. -/
theorem Bounded.le (h : Bounded T members dequeued) (hk : k ∈ T) : k.toInt ≤ dequeued := by
  obtain ⟨U, rfl⟩ := Multiset.exists_cons_of_mem hk
  have hrest : 0 ≤ (U.map Int32.toInt).sum :=
    sum_toInt_nonneg fun k hk => h.nonneg k (Multiset.mem_cons_of_mem hk)
  have hsum := h.sum_le
  rw [Multiset.map_cons, Multiset.sum_cons] at hsum
  omega

theorem toInt_add_one (h0 : 0 ≤ k.toInt) (hlt : k.toInt + 1 < 2 ^ 31) :
    (k + 1).toInt = k.toInt + 1 := by
  have hone : (1 : Int32).toInt = 1 := rfl
  rw [Int32.toInt_add, hone, Int.bmod_eq_of_le (by omega) (by omega)]

/-- **What counters do** keeps the bounds, as long as none overflows. -/
theorem Bounded.evolves (h : Bounded T members dequeued) (hT : Evolves T n T')
    (hlt : dequeued + n < 2 ^ 31) : Bounded T' members (dequeued + n) := by
  cases hT with
  | lose n hle => exact (h.mono hle).later n
  | count k R hle hle' =>
    have hR := h.mono hle
    have h0 := hR.nonneg k (Multiset.mem_cons_self _ _)
    have hk := hR.le (Multiset.mem_cons_self _ _)
    have hsucc : (k + 1).toInt = k.toInt + 1 := toInt_add_one h0 (by omega)
    refine Bounded.mono ⟨?_, ?_, ?_⟩ hle'
    · have hcard := hR.card_le
      rwa [Multiset.card_cons] at hcard ⊢
    · rw [Multiset.forall_mem_cons]
      exact ⟨by omega, fun i hi => hR.nonneg i (Multiset.mem_cons_of_mem hi)⟩
    · have hsum := hR.sum_le
      rw [Multiset.map_cons, Multiset.sum_cons] at hsum ⊢
      push_cast
      omega

end Counters

/-! ### Tokens -/

/-- The counter in the content of a message. -/
def counter (content : Option (List UInt8)) : Option Int32 := content.bind parseContent

/-- The counter of the message that the client sends next. -/
def OneWayClient.count (c : OneWayClient) : Option Int32 :=
  match c.place with
  | .register | .lookupClientQueue _ => some 0
  | .pick msgCount | .send msgCount _ => some msgCount
  | _ => none

/-- What a client has in its hands. -/
def hand (c : OneWayClient) : Rpc.Caller Request Outcome → Option Int32
  | .idle => c.count
  | .waiting (.sendMessage request) => counter request.content
  | .waiting _ => c.count
  | .answered (.sendMessage _) _ => none
  | .answered (.dequeueMessage _) (.ok (.message ⟨some msgDto⟩)) =>
    (counter msgDto.content).map (· + 1)
  | .answered (.dequeueMessage _) _ => none
  | .answered _ _ => c.count
  -- the message may still be stored
  | .left (some (.sendMessage request)) => counter request.content
  | .left _ => none

section Tokens

variable (Q : Int32 → Prop) [DecidablePred Q]

/-- The counter of a message in one of the queues. -/
def tokenOf (m : Message) : Option Int32 := if Q m.queueId then counter m.content else none

def stored (db : Database) : Multiset Int32 :=
  (db.messages : Multiset Message).filterMap (tokenOf Q)

def held (s : System η) (h : η) : Multiset Int32 :=
  (hand (s.client h) (s.rpc.caller h)).toList

/-- All counters that are stored or in the hands of a client. -/
def tokens (s : System η) : Multiset Int32 :=
  stored Q s.rpc.server.db + ∑ h ∈ s.connections, held s h

end Tokens

/-! ### What the clients do -/

section Clients

variable {Q : Int32 → Prop} {c c' : OneWayClient} {request : Request}

/-- The client has found its own queue. -/
def HasQueue (Q : Int32 → Prop) (c : OneWayClient) : Prop :=
  ∃ queue ∈ c.myQueue, Q queue.id.toInt32

structure Knows (Q : Int32 → Prop) (c : OneWayClient) : Prop where
  running : c.running → HasQueue Q c
  place : c.place = .register ∨ (∃ clientDto, c.place = .lookupClientQueue clientDto) ∨
    c.place = .stopped ∨ HasQueue Q c

theorem HasQueue.knows (h : HasQueue Q c) : Knows Q c := ⟨fun _ => h, .inr (.inr (.inr h))⟩

theorem Knows.hasQueue (h : Knows Q c) (hregister : c.place ≠ .register)
    (hlookup : ∀ clientDto, c.place ≠ .lookupClientQueue clientDto)
    (hstopped : c.place ≠ .stopped) : HasQueue Q c := by
  rcases h.place with hplace | ⟨clientDto, hplace⟩ | hplace | hqueue
  · exact absurd hplace hregister
  · exact absurd hplace (hlookup clientDto)
  · exact absurd hplace hstopped
  · exact hqueue

/-- A client that gives up. -/
theorem Knows.stopped (h : Knows Q c) : Knows Q { c with place := .stopped } :=
  ⟨h.running, .inr (.inr (.inl rfl))⟩

/-- A request of one of the clients. -/
def Own (Q : Int32 → Prop) : Request → Prop
  | .registration _ | .lookupQueue _ => True
  | .sendMessage request => request.queueIds.length ≤ 1 ∧
      ∃ msgCount, request.content = some (numberBytes msgCount)
  | .dequeueMessage request => ∃ q ∈ request.messageQueryInfo, ∃ queue ∈ q.queue,
      Q queue.id.toInt32
  | _ => False

theorem counter_numberBytes (msgCount : Int32) :
    counter (some (numberBytes msgCount)) = some msgCount := parseContent_numberBytes msgCount

/-- **A request that a client submits** is its own, and has what the client has in its hands. -/
theorem nextRequest_own (h : Knows Q c) {rndReceiver : String} {prio : Int32}
    (hrequest : c.nextRequest rndReceiver prio = some request) :
    Own Q request ∧ hand c (.waiting request) = c.count := by
  unfold OneWayClient.nextRequest at hrequest
  split at hrequest
  · obtain rfl := Option.some.inj hrequest
    exact ⟨trivial, rfl⟩
  · obtain rfl := Option.some.inj hrequest
    exact ⟨trivial, rfl⟩
  · obtain rfl := Option.some.inj hrequest
    exact ⟨trivial, rfl⟩
  · rename_i msgCount hplace
    have hcount : c.count = some msgCount := by
      unfold OneWayClient.count
      rw [hplace]
    split at hrequest
    · obtain rfl := Option.some.inj hrequest
      exact ⟨⟨le_rfl, msgCount, rfl⟩, (counter_numberBytes msgCount).trans hcount.symm⟩
    · obtain rfl := Option.some.inj hrequest
      exact ⟨trivial, rfl⟩
  · rename_i msgCount receipient hplace
    have hcount : c.count = some msgCount := by
      unfold OneWayClient.count
      rw [hplace]
    obtain rfl := Option.some.inj hrequest
    exact ⟨⟨le_rfl, msgCount, rfl⟩, (counter_numberBytes msgCount).trans hcount.symm⟩
  · rename_i hplace
    obtain rfl := Option.some.inj hrequest
    exact ⟨⟨_, rfl, h.hasQueue (by simp [hplace]) (by simp [hplace]) (by simp [hplace])⟩, rfl⟩
  · cases hrequest

/-- **What a client makes of a response** is no more than it has got with it. -/
theorem receive_cases {outcome : Outcome} (h : Knows Q c)
    (hlookup : ∀ clientDto response, c.place = .lookupClientQueue clientDto →
      outcome = .ok (.queue response) → ∃ queue ∈ response.queue, Q queue.id.toInt32)
    (hc : c.receive request (responseOf outcome) = some c') :
    Knows Q c' ∧ ∀ k ∈ c'.count, hand c (.answered request outcome) = some k := by
  rcases outcome with x | response
  · cases hplace : c.place <;> simp [OneWayClient.receive, responseOf, hplace] at hc
  have hresponse : responseOf (.ok response : Outcome) = response := rfl
  rw [hresponse] at hc
  unfold OneWayClient.receive at hc
  split at hc
  · cases hc
  · -- `register`: the client still has its first message to send
    rename_i hplace
    obtain ⟨clientDto, -, hc⟩ := Option.bind_eq_some_iff.mp hc
    obtain rfl := Option.some.inj hc
    refine ⟨⟨h.running, .inr (.inl ⟨clientDto, rfl⟩)⟩, fun k hk => ?_⟩
    obtain rfl := Option.some.inj hk
    show c.count = some 0
    unfold OneWayClient.count
    rw [hplace]
  · rename_i hplace
    obtain rfl := Option.some.inj hc
    have hqueue : HasQueue Q c :=
      h.hasQueue (by simp [hplace]) (by simp [hplace]) (by simp [hplace])
    exact ⟨HasQueue.knows hqueue, nofun⟩
  · -- its own queue
    rename_i clientDto request response hplace
    obtain rfl := Option.some.inj hc
    have hqueue : ∃ queue ∈ response.queue, Q queue.id.toInt32 :=
      hlookup clientDto response hplace rfl
    refine ⟨HasQueue.knows hqueue, fun k hk => ?_⟩
    obtain rfl := Option.some.inj hk
    show c.count = some 0
    unfold OneWayClient.count
    rw [hplace]
  · -- the queue of a recipient
    rename_i msgCount request response hplace
    have hqueue : HasQueue Q c :=
      h.hasQueue (by simp [hplace]) (by simp [hplace]) (by simp [hplace])
    have hcount : c.count = some msgCount := by
      unfold OneWayClient.count
      rw [hplace]
    split at hc
    · obtain rfl := Option.some.inj hc
      refine ⟨HasQueue.knows hqueue, fun k hk => ?_⟩
      obtain rfl := Option.some.inj hk
      exact hcount
    · obtain rfl := Option.some.inj hc
      exact ⟨h, fun k hk => hk⟩
  · rename_i hplace _
    obtain rfl := Option.some.inj hc
    have hqueue : HasQueue Q c :=
      h.hasQueue (by simp [hplace]) (by simp [hplace]) (by simp [hplace])
    exact ⟨HasQueue.knows hqueue, nofun⟩
  · rename_i hplace _
    obtain rfl := Option.some.inj hc
    have hqueue : HasQueue Q c :=
      h.hasQueue (by simp [hplace]) (by simp [hplace]) (by simp [hplace])
    exact ⟨HasQueue.knows hqueue, nofun⟩
  · -- `performAction`
    rename_i request response hplace
    have hqueue : HasQueue Q c :=
      h.hasQueue (by simp [hplace]) (by simp [hplace]) (by simp [hplace])
    split at hc
    · obtain rfl := Option.some.inj hc
      refine ⟨h, fun k hk => ?_⟩
      have hcount : c.count = none := by
        unfold OneWayClient.count
        rw [hplace]
      rw [hcount] at hk
      cases hk
    · rename_i msgDto hmsg
      obtain ⟨content, hcontent, hc⟩ := Option.bind_eq_some_iff.mp hc
      obtain ⟨msgCount, hmsgCount, hc⟩ := Option.bind_eq_some_iff.mp hc
      obtain rfl := Option.some.inj hc
      refine ⟨HasQueue.knows hqueue, fun k hk => ?_⟩
      obtain rfl := Option.some.inj hk
      obtain ⟨messageDto⟩ := response
      obtain rfl : messageDto = some msgDto := hmsg
      show (counter msgDto.content).map (· + 1) = some (msgCount + 1)
      unfold counter
      rw [hcontent, Option.bind_some, hmsgCount, Option.map_some]
  · cases hc

end Clients

/-! ### What a request does to the counters -/

section Server

variable {Q : Int32 → Prop} [DecidablePred Q] {ok : World → Op → Fault → Prop} {s s' : State η}
  {h : η} {request : Request} {outcome : Outcome} {c : OneWayClient}

theorem stored_moves {e : Ledger.Entry Message} {db db' : Database}
    (hmoves : messageStore.Moves db e db') :
    stored Q db + (e.entered : Multiset Message).filterMap (tokenOf Q) =
      stored Q db' + (e.left : Multiset Message).filterMap (tokenOf Q) := by
  have hperm : (db.messages ++ e.entered : Multiset Message) = db'.messages ++ e.left :=
    Multiset.coe_eq_coe.mpr hmoves.perm
  unfold stored
  rw [← Multiset.filterMap_add, ← Multiset.filterMap_add]
  exact congrArg _ hperm

/-- What a request of a client stores, and what it takes. -/
structure Effect (Q : Int32 → Prop) [DecidablePred Q] (db db' : Database) (request : Request)
    (outcome : Outcome) (stores takes : Multiset Int32) : Prop where
  balance : stored Q db + stores = stored Q db' + takes
  send : ∀ r, request = .sendMessage r → stores ≤ (counter r.content).toList
  other : (∀ r, request ≠ .sendMessage r) → stores = 0
  dequeue : ∀ r msgDto, request = .dequeueMessage r → outcome = .ok (.message ⟨some msgDto⟩) →
    takes = (counter msgDto.content).toList
  letters : ∀ m ∈ db'.messages, m ∈ db.messages ∨
    ∃ msgCount, m.content = some (numberBytes msgCount)

theorem filterMap_tokenOf (m : Message) :
    (([m] : List Message) : Multiset Message).filterMap (tokenOf Q) = (tokenOf Q m).toList := by
  show ((List.filterMap (tokenOf Q) [m] : List Int32) : Multiset Int32) = _
  cases hm : tokenOf Q m with
  | none => rw [List.filterMap_cons_none hm]; rfl
  | some k => rw [List.filterMap_cons_some hm]; rfl

theorem tokenOf_le (m : Message) :
    ((tokenOf Q m).toList : Multiset Int32) ≤ (counter m.content).toList := by
  unfold tokenOf
  split_ifs
  · exact le_rfl
  · exact Multiset.zero_le _

theorem effect_of_step (hvalid : s.db.Valid) (hown : Own Q request)
    (hs : RequestStep ok s (h, request, outcome) s') :
    ∃ stores takes, Effect Q s.db s'.db request outcome stores takes := by
  obtain ⟨e, ⟨henters, hleaves, -⟩, hmoves⟩ := books_of_step hvalid hs
  have hletters : ∀ m ∈ s'.db.messages, m ∈ s.db.messages ∨ m ∈ e.entered := fun m hm =>
    List.mem_append.mp (hmoves.perm.mem_iff.mpr (List.mem_append_left _ hm))
  have hnone : e.entered = [] → (e.entered : Multiset Message).filterMap (tokenOf Q) = 0 := by
    intro hentered
    rw [hentered]
    rfl
  have hkept : e.entered = [] → ∀ m ∈ s'.db.messages, m ∈ s.db.messages := by
    intro hentered m hm
    refine (hletters m hm).resolve_right ?_
    rw [hentered]
    exact List.not_mem_nil
  cases request with
  | sendMessage r =>
    obtain ⟨hlength, msgCount, hcontent⟩ := hown
    obtain ⟨queueIds, hpre, hall, -⟩ := henters
    have hone : e.entered.length ≤ 1 := by
      rw [← hall.length_eq]
      exact hpre.length_le.trans hlength
    have hnumber : ∀ m ∈ e.entered, m.content = r.content := by
      intro m hm
      obtain ⟨queueId, -, hletter⟩ := Tables.exists_of_forall₂ hall hm
      exact hletter.content
    refine ⟨_, _, stored_moves hmoves, ?_, fun hr => absurd rfl (hr r),
      (fun _ _ hr => nomatch hr),
      fun m hm => (hletters m hm).imp_right fun hm => ⟨msgCount, (hnumber m hm).trans hcontent⟩⟩
    rintro r ⟨⟩
    rcases hentered : e.entered with _ | ⟨m, _ | ⟨m', ms⟩⟩
    · exact Multiset.zero_le _
    · rw [filterMap_tokenOf, ← hnumber m (by rw [hentered]; exact List.mem_singleton_self m)]
      exact tokenOf_le m
    · rw [hentered] at hone
      simp at hone
  | dequeueMessage r =>
    refine ⟨_, _, stored_moves hmoves, nofun, fun _ => hnone henters, ?_,
      fun m hm => .inl (hkept henters m hm)⟩
    rintro r msgDto ⟨⟩ rfl
    -- the message that has left is the one that is returned
    obtain ⟨-, hselects, hresponse⟩ := hleaves
    obtain ⟨messageDto, heq, hgone⟩ := hresponse _ rfl
    obtain rfl : messageDto = some msgDto := by
      rw [Response.message.injEq, MessageResponse.mk.injEq] at heq
      exact heq.symm
    obtain ⟨m, hleft, rfl⟩ : ∃ m, e.left = [m] ∧ m.toDto = msgDto := by
      rcases hleft : e.left with _ | ⟨m, _ | ⟨m', ms⟩⟩
      · rw [hleft] at hgone
        cases hgone
      · rw [hleft] at hgone
        exact ⟨m, rfl, List.singleton_injective hgone⟩
      · rw [hleft] at hgone
        cases hgone
    have hQ : Q m.queueId := by
      obtain ⟨q, hq, queue, hqueue, hQ⟩ := hown
      obtain ⟨q', hq', hm, -⟩ := hselects m (by rw [hleft]; exact List.mem_singleton_self m)
      obtain rfl := Option.mem_unique hq hq'
      have hmem : (peekArgs q).queueId = some queue.id.toInt32 := by
        show q.queue.map (fun queue => queue.id.toInt32) = _
        rw [Option.mem_def.mp hqueue, Option.map_some]
      rw [hm _ (Option.mem_def.mpr hmem)]
      exact hQ
    rw [hleft, filterMap_tokenOf, tokenOf, if_pos hQ]
    rfl
  | registration r | lookupQueue r =>
    exact ⟨_, _, stored_moves hmoves, nofun, fun _ => hnone henters, (fun _ _ hr => nomatch hr),
      fun m hm => .inl (hkept henters m hm)⟩
  | _ => exact hown.elim

/-- A dequeue that has taken a message, or has not. -/
theorem dequeue_cases (r : DequeueMessageRequest) (outcome : Outcome) :
    (∃ msgDto, outcome = .ok (.message ⟨some msgDto⟩) ∧ takes (.dequeueMessage r) outcome = true ∧
      hand c (.answered (.dequeueMessage r) outcome) = (counter msgDto.content).map (· + 1)) ∨
    takes (.dequeueMessage r) outcome = false ∧
      hand c (.answered (.dequeueMessage r) outcome) = none := by
  rcases outcome with x | response
  · exact .inr ⟨rfl, rfl⟩
  · cases response with
    | message response =>
      obtain ⟨_ | msgDto⟩ := response
      · exact .inr ⟨rfl, rfl⟩
      · exact .inl ⟨msgDto, rfl, rfl, rfl⟩
    | _ => exact .inr ⟨rfl, rfl⟩

section Effect

variable {db db' : Database} {stores taken : Multiset Int32}

theorem Effect.stored_le (he : Effect Q db db' request outcome stores taken)
    (hrequest : ∀ r, request ≠ .sendMessage r) : stored Q db' ≤ stored Q db := by
  have hbalance := he.balance
  rw [he.other hrequest, add_zero] at hbalance
  rw [hbalance]
  exact Multiset.le_add_right _ _

theorem Effect.send_le {r : SendMessageRequest}
    (he : Effect Q db db' (.sendMessage r) outcome stores taken) :
    stored Q db' ≤ stored Q db + (counter r.content).toList :=
  calc stored Q db' ≤ stored Q db' + taken := Multiset.le_add_right _ _
    _ = stored Q db + stores := he.balance.symm
    _ ≤ stored Q db + (counter r.content).toList := Multiset.add_le_add_left (he.send r rfl)

/-- **The request of a client that waits.** -/
theorem Effect.evolves (he : Effect Q db db' request outcome stores taken) (hown : Own Q request) :
    Evolves (stored Q db + (hand c (.waiting request)).toList)
      (if takes request outcome then 1 else 0)
      (stored Q db' + (hand c (.answered request outcome)).toList) := by
  cases request with
  | sendMessage r =>
    refine .lose _ ?_
    show stored Q db' + 0 ≤ _
    rw [add_zero]
    exact he.send_le
  | dequeueMessage r =>
    have hle : stored Q db' ≤ stored Q db + (hand c (.waiting (.dequeueMessage r))).toList :=
      (he.stored_le nofun).trans (Multiset.le_add_right _ _)
    rcases dequeue_cases (c := c) r outcome with ⟨msgDto, houtcome, htakes, hhand⟩ | ⟨htakes, hhand⟩
    · rw [htakes, hhand, if_pos rfl]
      cases hcounter : counter msgDto.content with
      | none =>
        refine .lose 1 ?_
        show stored Q db' + 0 ≤ _
        rwa [add_zero]
      | some k =>
        -- the message that has been taken is stored no more
        have hbalance := he.balance
        rw [he.other nofun, add_zero, he.dequeue r msgDto rfl houtcome, hcounter] at hbalance
        have hcons : stored Q db = k ::ₘ stored Q db' := by
          rw [hbalance, add_comm]
          rfl
        refine .count k (stored Q db') ?_ ?_
        · rw [← hcons]
          exact Multiset.le_add_right _ _
        · rw [add_comm]
          exact le_rfl
    · rw [htakes, hhand]
      refine .lose _ ?_
      show stored Q db' + 0 ≤ _
      rwa [add_zero]
  | registration r | lookupQueue r =>
    exact .lose _ (Multiset.add_le_add_right (he.stored_le nofun))
  | _ => exact hown.elim

/-- The request of a client that has left. -/
theorem Effect.evolves_late (he : Effect Q db db' request outcome stores taken) (n : ℕ) :
    Evolves (stored Q db + (hand c (.left (some request))).toList) n
      (stored Q db' + (hand c (.left none)).toList) := by
  refine .lose n ?_
  show stored Q db' + 0 ≤ _
  rw [add_zero]
  cases request with
  | sendMessage r => exact he.send_le
  | _ => exact (he.stored_le nofun).trans (Multiset.le_add_right _ _)

end Effect

/-- Everybody else stores nothing in the queues. -/
theorem stored_le_of_subset {db db' : Database} (hvalid : db'.Valid)
    (hwrite : ∀ m ∈ db'.messages, Q m.queueId → m ∈ db.messages) : stored Q db' ≤ stored Q db := by
  have htoken : ∀ db : Database, stored Q db =
      ((db.messages : Multiset Message).filter fun m => Q m.queueId).filterMap (tokenOf Q) := by
    intro db
    unfold stored
    rw [Multiset.filterMap_filter]
    refine congrArg (fun f => Multiset.filterMap f _) (funext fun m => ?_)
    unfold tokenOf
    split_ifs <;> rfl
  rw [htoken, htoken]
  refine Multiset.filterMap_le_filterMap _ ((Multiset.le_iff_subset ?_).mpr fun m hm => ?_)
  · exact (Multiset.coe_nodup.mpr hvalid.messages.nodup).filter _
  · obtain ⟨hm, hQ⟩ := Multiset.mem_filter.mp hm
    exact Multiset.mem_filter.mpr ⟨hwrite m hm hQ, hQ⟩

end Server

/-! ### The invariant -/

section System

variable {Q : Int32 → Prop} [DecidablePred Q] {s s' : System η} {h i : η} {c : OneWayClient}
  {r : Rpc.Caller Request Outcome} {n : ℕ}

/-- What holds in every state of a run. -/
structure Invariant (Q : Int32 → Prop) [DecidablePred Q] (s : System η) : Prop where
  valid : s.rpc.server.db.Valid
  knows : ∀ h ∈ s.connections, Knows Q (s.client h)
  own : ∀ h ∈ s.connections, ∀ request ∈ (s.rpc.caller h).pending, Own Q request
  letters : ∀ m ∈ s.rpc.server.db.messages, Q m.queueId →
    ∃ msgCount, m.content = some (numberBytes msgCount)
  bounded : Bounded (tokens Q s) s.members s.dequeued

/-- A change of the database and of what one client has in its hands. -/
theorem evolves_of_held (hh : h ∈ s.connections) (hconnections : s'.connections = s.connections)
    (hother : ∀ i, i ≠ h → held s' i = held s i)
    (hevolves : Evolves (stored Q s.rpc.server.db + held s h) n
      (stored Q s'.rpc.server.db + held s' h)) : Evolves (tokens Q s) n (tokens Q s') := by
  have hsum : ∀ s : System η, h ∈ s.connections → tokens Q s =
      stored Q s.rpc.server.db + held s h + ∑ i ∈ s.connections.erase h, held s i := by
    intro s hh
    unfold tokens
    rw [← Finset.add_sum_erase _ _ hh, add_assoc]
  have hrest : ∑ i ∈ s'.connections.erase h, held s' i =
      ∑ i ∈ s.connections.erase h, held s i := by
    rw [hconnections]
    exact Finset.sum_congr rfl fun i hi => hother i (Finset.ne_of_mem_erase hi)
  rw [hsum s hh, hsum s' (hconnections ▸ hh), hrest]
  exact hevolves.add_right _

omit [DecidableEq η] in
/-- A change of the database only. -/
theorem evolves_of_stored (hconnections : s'.connections = s.connections)
    (hother : ∀ i ∈ s.connections, held s' i = held s i)
    (hstored : stored Q s'.rpc.server.db ≤ stored Q s.rpc.server.db) :
    Evolves (tokens Q s) n (tokens Q s') := by
  refine .lose n ?_
  unfold tokens
  rw [hconnections, Finset.sum_congr rfl hother]
  exact Multiset.add_le_add_right hstored

theorem held_update (s : System η) (h i : η) (c : OneWayClient) (r : Rpc.Caller Request Outcome)
    (server : State η) (dequeued : ℕ) :
    held { s with
      rpc := { s.rpc.set h r with server }
      client := Function.update s.client h c
      dequeued } i = if i = h then ↑(hand c r).toList else held s i := by
  unfold held Rpc.State.set
  dsimp only
  split_ifs with hi
  · subst hi
    rw [Function.update_self, Function.update_self]
  · rw [Function.update_of_ne hi, Function.update_of_ne hi]

/-- **One caller goes on**, and the server with it. -/
theorem Invariant.update (hinv : Invariant Q s) (server : State η) (dequeued : ℕ)
    (hvalid : server.db.Valid) (hlt : s.dequeued + n < 2 ^ 31)
    (hdequeued : dequeued = s.dequeued + n)
    (hletters : ∀ m ∈ server.db.messages, Q m.queueId → m ∈ s.rpc.server.db.messages ∨
      ∃ msgCount, m.content = some (numberBytes msgCount))
    (hin : h ∈ s.connections → Knows Q c ∧ (∀ request ∈ r.pending, Own Q request) ∧
      Evolves (stored Q s.rpc.server.db + held s h) n
        (stored Q server.db + ((hand c r).toList : Multiset Int32)))
    (hout : h ∉ s.connections → stored Q server.db ≤ stored Q s.rpc.server.db) :
    Invariant Q { s with
      rpc := { s.rpc.set h r with server }
      client := Function.update s.client h c
      dequeued } := by
  have hheld := fun i => held_update s h i c r server dequeued
  refine ⟨hvalid, fun i hi => ?_, fun i hi request hrequest => ?_, fun m hm hQ => ?_, ?_⟩
  · show Knows Q (Function.update s.client h c i)
    rcases eq_or_ne i h with rfl | hne
    · rw [Function.update_self]
      exact (hin hi).1
    · rw [Function.update_of_ne hne]
      exact hinv.knows i hi
  · have hrequest' : request ∈ (Function.update s.rpc.caller h r i).pending := hrequest
    rcases eq_or_ne i h with rfl | hne
    · rw [Function.update_self] at hrequest'
      exact (hin hi).2.1 request hrequest'
    · rw [Function.update_of_ne hne] at hrequest'
      exact hinv.own i hi request hrequest'
  · exact (hletters m hm hQ).elim (fun hm => hinv.letters m hm hQ) id
  · rw [hdequeued]
    refine hinv.bounded.evolves ?_ hlt
    by_cases hh : h ∈ s.connections
    · refine evolves_of_held hh rfl (fun i hi => ?_) ?_
      · rw [← hdequeued]
        exact (hheld i).trans (if_neg hi)
      · rw [← hdequeued, hheld h, if_pos rfl]
        exact (hin hh).2.2
    · refine evolves_of_stored rfl (fun i hi => ?_) (hout hh)
      rw [← hdequeued]
      exact (hheld i).trans (if_neg fun heq : i = h => hh (heq ▸ hi))

/-- A caller that leaves keeps no more than its open request. -/
theorem hand_left_le (c : OneWayClient) (r : Rpc.Caller Request Outcome) :
    ((hand c (.left r.pending)).toList : Multiset Int32) ≤ (hand c r).toList := by
  cases r with
  | idle | answered => exact Multiset.zero_le _
  | waiting request =>
    cases request with
    | sendMessage => exact le_rfl
    | _ => exact Multiset.zero_le _
  | left pending => exact le_rfl

/-- A call goes on without the server. -/
theorem Invariant.quiet (hinv : Invariant Q s) (hlt : s.dequeued < 2 ^ 31)
    (hin : h ∈ s.connections → Knows Q c ∧ (∀ request ∈ r.pending, Own Q request) ∧
      ((hand c r).toList : Multiset Int32) ≤ held s h) :
    Invariant Q { s with rpc := s.rpc.set h r, client := Function.update s.client h c } :=
  hinv.update (n := 0) s.rpc.server s.dequeued hinv.valid hlt rfl
    (fun _ hm _ => .inl hm) (fun hh => ⟨(hin hh).1, (hin hh).2.1, .lose 0
      (Multiset.add_le_add_left (hin hh).2.2)⟩) fun _ => le_rfl

/-- The server executes the open request of a caller. -/
theorem Invariant.serve (hinv : Invariant Q s) {request : Request} {outcome : Outcome}
    {server : State η} {rpc : Rpc.State (State η) η Request Outcome} (hrpc : rpc.server = server)
    (hserves : RequestStep (fun _ _ _ => True) s.rpc.server (h, request, outcome) server)
    (hbehaves : Behaves Q s rpc (.execute h request outcome))
    (hpending : request ∈ (s.rpc.caller h).pending) (hr : r.pending = none)
    (hevolves : Own Q request → ∀ stores taken,
      Effect Q s.rpc.server.db server.db request outcome stores taken →
        Evolves (stored Q s.rpc.server.db + held s h) (if takes request outcome then 1 else 0)
          (stored Q server.db + (hand (s.client h) r).toList))
    (hlt : s.dequeued + (if h ∈ s.connections ∧ takes request outcome then 1 else 0) < 2 ^ 31) :
    Invariant Q { s with
      rpc := { s.rpc.set h r with server }
      dequeued := s.dequeued + if h ∈ s.connections ∧ takes request outcome then 1 else 0 } := by
  have hvalid : server.db.Valid := hserves.valid hinv.valid
  have hupdate := hinv.update (h := h) (c := s.client h) (r := r) server _ hvalid hlt rfl
    (fun m hm hQ => ?_) (fun hh => ?_) fun hh => ?_
  · rwa [Function.update_eq_self] at hupdate
  · by_cases hh : h ∈ s.connections
    · obtain ⟨stores, taken, he⟩ := effect_of_step (Q := Q) hinv.valid
        (hinv.own h hh request hpending) hserves
      exact he.letters m hm
    · exact .inl (hbehaves hh m (hrpc ▸ hm) hQ)
  · have hown := hinv.own h hh request hpending
    obtain ⟨stores, taken, he⟩ := effect_of_step hinv.valid hown hserves
    refine ⟨hinv.knows h hh, ?_, ?_⟩
    · rw [hr]
      exact nofun
    · simpa only [hh, true_and] using hevolves hown stores taken he
  · exact stored_le_of_subset hvalid fun m hm hQ => hbehaves hh m (hrpc ▸ hm) hQ

/-- **Every step of a call keeps the invariant.** -/
theorem Invariant.act {m : Rpc.Label η Request Outcome}
    {rpc : Rpc.State (State η) η Request Outcome} (hinv : Invariant Q s)
    (hrpc : Rpc.Step (RequestStep fun _ _ _ => True) s.rpc m rpc) (hbehaves : Behaves Q s rpc m)
    (hlt : (s.act m rpc).dequeued < 2 ^ 31) : Invariant Q (s.act m rpc) := by
  have hsame : ∀ h, Function.update s.client h (s.client h) = s.client := fun h =>
    Function.update_eq_self h s.client
  cases hrpc with
  | @submit h request hidle =>
    have hquiet := hinv.quiet (h := h) (c := s.client h) (r := .waiting request) hlt fun hh => by
      obtain ⟨rndReceiver, prio, -, -, -, hnext⟩ := hbehaves hh
      obtain ⟨hown, hhand⟩ := nextRequest_own (hinv.knows h hh) hnext
      refine ⟨hinv.knows h hh, fun request' hrequest => ?_, ?_⟩
      · obtain rfl := Option.some.inj hrequest
        exact hown
      · unfold held
        rw [hhand, hidle]
        exact le_rfl
    rwa [hsame] at hquiet
  | @leave h =>
    have hquiet := hinv.quiet (h := h) (c := s.client h) (r := .left (s.rpc.caller h).pending) hlt
      fun hh => ⟨hinv.knows h hh, hinv.own h hh, hand_left_le _ _⟩
    rwa [hsame] at hquiet
  | @receive h request outcome hanswered =>
    have hact : s.act (.receive h outcome) (s.rpc.set h .idle) = { s with
        rpc := s.rpc.set h .idle
        client := Function.update s.client h (((s.client h).receive request
          (responseOf outcome)).getD { s.client h with place := .stopped }) } := by
      unfold System.act
      simp only [hanswered]
    rw [hact] at hlt ⊢
    refine hinv.quiet hlt fun hh => ?_
    have hknows := hinv.knows h hh
    cases hc : (s.client h).receive request (responseOf outcome) with
    | none => exact ⟨hknows.stopped, nofun, Multiset.zero_le _⟩
    | some c =>
      obtain ⟨hknows', hcount⟩ := receive_cases hknows (hbehaves hh) hc
      refine ⟨hknows', nofun, ?_⟩
      unfold held
      rw [hanswered]
      show ((c.count).toList : Multiset Int32) ≤ _
      cases hk : c.count with
      | none => exact Multiset.zero_le _
      | some k => rw [hcount k hk]
  | @execute h request outcome server hwaiting hserves =>
    have hpending : request ∈ (s.rpc.caller h).pending := by
      rw [hwaiting]
      rfl
    refine hinv.serve (r := .answered request outcome) rfl hserves hbehaves hpending rfl
      (fun hown stores taken he => ?_) hlt
    unfold held
    rw [hwaiting]
    exact he.evolves hown
  | @executeLate h request outcome server hleft hserves =>
    have hpending : request ∈ (s.rpc.caller h).pending := by
      rw [hleft]
      rfl
    refine hinv.serve (r := .left none) rfl hserves hbehaves hpending rfl
      (fun hown stores taken he => ?_) hlt
    unfold held
    rw [hleft]
    exact he.evolves_late _

/-- **A client is started** with a message to send. -/
theorem Invariant.join (hinv : Invariant Q s) (hunused : Unused s h) (name : String)
    (oneWayClientList : List String) :
    Invariant Q { s with
      connections := insert h s.connections
      client := Function.update s.client h (.start name oneWayClientList)
      members := s.members + 1 } := by
  set s' : System η := { s with
    connections := insert h s.connections
    client := Function.update s.client h (.start name oneWayClientList)
    members := s.members + 1 }
  have hclient : ∀ i, i ≠ h → s'.client i = s.client i := fun i hi => Function.update_of_ne hi _ _
  have hnew : s'.client h = .start name oneWayClientList := Function.update_self _ _ _
  have hne : ∀ i ∈ s.connections, i ≠ h := fun i hi heq => hunused.notMem (heq ▸ hi)
  refine ⟨hinv.valid, fun i hi => ?_, fun i hi request hrequest => ?_, hinv.letters, ?_⟩
  · rcases Finset.mem_insert.mp hi with rfl | hi
    · rw [hnew]
      exact ⟨nofun, .inl rfl⟩
    · rw [hclient i (hne i hi)]
      exact hinv.knows i hi
  · rcases Finset.mem_insert.mp hi with rfl | hi
    · have hidle : (s.rpc.caller i).pending = none := by rw [hunused.idle]; rfl
      exact absurd (Option.mem_def.mp hrequest) (by rw [hidle]; exact nofun)
    · exact hinv.own i hi request hrequest
  · have hheld : held s' h = {0} := by
      unfold held
      rw [hnew, show s'.rpc.caller h = .idle from hunused.idle]
      rfl
    have hrest : ∑ i ∈ s.connections, held s' i = ∑ i ∈ s.connections, held s i :=
      Finset.sum_congr rfl fun i hi => by
        unfold held
        rw [hclient i (hne i hi)]
    have htokens : tokens Q s' = 0 ::ₘ tokens Q s := by
      unfold tokens
      rw [show s'.connections = insert h s.connections from rfl,
        Finset.sum_insert hunused.notMem, hheld, hrest, add_left_comm, Multiset.singleton_add]
    rw [htokens]
    obtain ⟨hcard, hnonneg, hsum⟩ := hinv.bounded
    refine ⟨?_, Multiset.forall_mem_cons.mpr ⟨le_rfl, hnonneg⟩, ?_⟩
    · rw [Multiset.card_cons]
      exact Nat.succ_le_succ hcard
    · rw [Multiset.map_cons, Multiset.sum_cons, show (0 : Int32).toInt = 0 from rfl, zero_add]
      exact hsum

/-- **A client connects again**, with nothing in its hands. -/
theorem Invariant.reconnect {h' : η} {pending : Option Request} (hinv : Invariant Q s)
    (hh : h ∈ s.connections) (hleft : s.rpc.caller h = .left pending)
    (hrunning : (s.client h).running) (hunused : Unused s h') :
    Invariant Q { s with
      connections := insert h' s.connections
      client := Function.update
        (Function.update s.client h { s.client h with place := .stopped })
        h' { s.client h with place := .reconnect } } := by
  set s' : System η := { s with
    connections := insert h' s.connections
    client := Function.update
      (Function.update s.client h { s.client h with place := .stopped })
      h' { s.client h with place := .reconnect } }
  have hne : ∀ i ∈ s.connections, i ≠ h' := fun i hi heq => hunused.notMem (heq ▸ hi)
  have hnew : s'.client h' = { s.client h with place := .reconnect } :=
    Function.update_self _ _ _
  have hold : s'.client h = { s.client h with place := .stopped } :=
    (Function.update_of_ne (hne h hh) _ _).trans (Function.update_self _ _ _)
  have hclient : ∀ i ∈ s.connections, i ≠ h → s'.client i = s.client i := fun i hi hih =>
    (Function.update_of_ne (hne i hi) _ _).trans (Function.update_of_ne hih _ _)
  refine ⟨hinv.valid, fun i hi => ?_, fun i hi request hrequest => ?_, hinv.letters, ?_⟩
  · rcases Finset.mem_insert.mp hi with rfl | hi
    · rw [hnew]
      exact HasQueue.knows ((hinv.knows h hh).running hrunning)
    · rcases eq_or_ne i h with rfl | hih
      · rw [hold]
        exact (hinv.knows i hh).stopped
      · rw [hclient i hi hih]
        exact hinv.knows i hi
  · rcases Finset.mem_insert.mp hi with rfl | hi
    · have hidle : (s.rpc.caller i).pending = none := by rw [hunused.idle]; rfl
      exact absurd (Option.mem_def.mp hrequest) (by rw [hidle]; exact nofun)
    · exact hinv.own i hi request hrequest
  · have hheld : held s' h' = 0 := by
      unfold held
      rw [hnew, show s'.rpc.caller h' = .idle from hunused.idle]
      rfl
    have hrest : ∑ i ∈ s.connections, held s' i = ∑ i ∈ s.connections, held s i := by
      refine Finset.sum_congr rfl fun i hi => ?_
      unfold held
      rcases eq_or_ne i h with rfl | hih
      · -- what a client has left behind does not depend on what it does now
        rw [show s'.rpc.caller i = .left pending from hleft]
        cases pending with
        | none => rfl
        | some request => cases request <;> rfl
      · rw [hclient i hi hih]
    have htokens : tokens Q s' = tokens Q s := by
      unfold tokens
      rw [show s'.connections = insert h' s.connections from rfl,
        Finset.sum_insert hunused.notMem, hheld, hrest, zero_add]
    rw [htokens]
    exact hinv.bounded

theorem Invariant.step {l : Label η} (hinv : Invariant Q s) (hstep : Step Q s l s')
    (hlt : s'.dequeued < 2 ^ 31) : Invariant Q s' := by
  cases hstep with
  | join name oneWayClientList hunused => exact hinv.join hunused name oneWayClientList
  | reconnect hh hleft hrunning _ _ hunused => exact hinv.reconnect hh hleft hrunning hunused
  | act hrpc hbehaves => exact hinv.act hrpc hbehaves hlt

omit [DecidablePred Q] in
theorem dequeued_le {l : Label η} (hstep : Step Q s l s') : s.dequeued ≤ s'.dequeued := by
  cases hstep with
  | join | reconnect => exact le_rfl
  | @act _ m rpc =>
    unfold System.act
    split
    · exact Nat.le_add_right _ _
    · split <;> exact le_rfl
    · exact le_rfl

omit [DecidableEq η] in
theorem invariant_start : Invariant Q (System.start : System η) where
  valid := valid_empty
  knows _ hh := absurd hh (Finset.notMem_empty _)
  own _ hh := absurd hh (Finset.notMem_empty _)
  letters _ hm := absurd hm List.not_mem_nil
  bounded := ⟨le_rfl, fun _ hk => absurd hk (Multiset.notMem_zero _), le_rfl⟩

/-- **There is one message for each client at most.** In every run, with any faults and timeouts,
the messages that are stored in the queues of the clients or in their hands are no more than the
clients that have been started; all of them are numbers, which count no more than the messages that
the clients have dequeued. -/
theorem one_message_each {ls : List (Label η)} (h : Run (Step Q) System.start ls s)
    (hlt : s.dequeued < 2 ^ 31) :
    (tokens Q s).card ≤ s.members ∧ ((tokens Q s).map Int32.toInt).sum ≤ s.dequeued ∧
      ∀ m ∈ s.rpc.server.db.messages, Q m.queueId → ∃ msgCount,
        m.content = some (numberBytes msgCount) ∧ 0 ≤ msgCount.toInt ∧
          msgCount.toInt ≤ s.dequeued := by
  obtain ⟨hlt₀, hrun⟩ := Run.of_last (P := fun _ => True)
    (Q := fun s : System η => s.dequeued < 2 ^ 31) (fun _ _ _ _ _ => trivial)
    (fun _ _ _ _ hstep hlt => (dequeued_le hstep).trans_lt hlt) h trivial hlt
  have hinv : Invariant Q s := hrun.invariant (P := Invariant Q)
    (fun _ _ _ hinv hstep => hinv.step hstep.1 hstep.2) invariant_start
  refine ⟨hinv.bounded.card_le, hinv.bounded.sum_le, fun m hm hQ => ?_⟩
  obtain ⟨msgCount, hcontent⟩ := hinv.letters m hm hQ
  have htoken : tokenOf Q m = some msgCount := by
    rw [tokenOf, if_pos hQ, hcontent]
    exact counter_numberBytes msgCount
  have hmem : msgCount ∈ tokens Q s := by
    refine Multiset.mem_add.mpr (.inl ?_)
    exact (Multiset.mem_filterMap _ _).mpr ⟨m, hm, htoken⟩
  exact ⟨msgCount, hcontent, hinv.bounded.nonneg _ hmem, hinv.bounded.le hmem⟩

end System

/-! ### Two clients -/

def isIdle : Rpc.Caller Request Outcome → Bool
  | .idle => true
  | _ => false

/-- A client that looks for its own queue gets one of the queues. -/
def getsOwn (Q : Int32 → Prop) [DecidablePred Q] : Place → Outcome → Bool
  | .lookupClientQueue _, .ok (.queue response) =>
    response.queue.any fun queue => Q queue.id.toInt32
  | _, _ => true

/-- The system behind a call without faults. -/
def System.called (s : System η) (h : η) (request : Request) : System η :=
  let r := s.rpc.server.process h request
  let submitted := s.act (.submit h request) (s.rpc.set h (.waiting request))
  let executed := submitted.act (.execute h request r.1)
    { submitted.rpc.set h (.answered request r.1) with server := r.2 }
  executed.act (.receive h r.1) (executed.rpc.set h .idle)

/-- A call of a client, if it may be made. -/
def System.call (Q : Int32 → Prop) [DecidablePred Q] (s : System η) (h : η) (rndReceiver : String) :
    Option (System η) := do
  let request ← (s.client h).nextRequest rndReceiver 0
  if h ∈ s.connections ∧ rndReceiver ∈ (s.client h).oneWayClientList ∧ isIdle (s.rpc.caller h) ∧
      getsOwn Q (s.client h).place (s.rpc.server.process h request).1 then
    return s.called h request
  else none

section Calls

variable {Q : Int32 → Prop} [DecidablePred Q] {s s' : System η} {h : η} {rndReceiver : String}

theorem run_call (hcall : s.call Q h rndReceiver = some s') : ∃ ls, Run (Step Q) s ls s' := by
  obtain ⟨request, hrequest, hcall⟩ := Option.bind_eq_some_iff.mp hcall
  split_ifs at hcall with hif
  obtain ⟨hh, hreceiver, hidle, hown⟩ := hif
  obtain rfl := Option.some.inj hcall
  have hcaller : s.rpc.caller h = .idle := by
    revert hidle
    unfold isIdle
    split
    · rename_i heq
      exact fun _ => heq
    · nofun
  set r := s.rpc.server.process h request
  set submitted := s.act (.submit h request) (s.rpc.set h (.waiting request))
  set executed := submitted.act (.execute h request r.1)
    { submitted.rpc.set h (.answered request r.1) with server := r.2 }
  have hsubmit : Step Q s (.act (.submit h request)) submitted := by
    refine .act (.submit request hcaller) fun _ => ⟨rndReceiver, 0, fun _ _ => hreceiver, le_rfl,
      by decide, hrequest⟩
  have hexecute : Step Q submitted (.act (.execute h request r.1)) executed := by
    refine .act (.execute (Function.update_self _ _ _) ?_) fun hnot => absurd hh hnot
    exact step_process (fun _ _ => trivial) s.rpc.server h request
  have hreceive : Step Q executed (.act (.receive h r.1))
      (executed.act (.receive h r.1) (executed.rpc.set h .idle)) := by
    have hanswered : executed.rpc.caller h = .answered request r.1 := Function.update_self _ _ _
    refine .act (.receive hanswered) ?_
    intro _ clientDto response hplace houtcome
    have hplace' : (s.client h).place = .lookupClientQueue clientDto := hplace
    rw [hplace', houtcome] at hown
    obtain ⟨queue, hqueue, hQ⟩ := (Option.any_eq_true _ _).mp hown
    exact ⟨queue, hqueue, of_decide_eq_true hQ⟩
  exact ⟨_, .cons hsubmit (.cons hexecute (.single hreceive))⟩

/-- The system behind some calls. -/
def System.calls (Q : Int32 → Prop) [DecidablePred Q] : System η → List (η × String) →
    Option (System η)
  | s, [] => some s
  | s, (h, rndReceiver) :: rest => (s.call Q h rndReceiver).bind fun s => s.calls Q rest

theorem run_calls {cs : List (η × String)} (hcalls : s.calls Q cs = some s') :
    ∃ ls, Run (Step Q) s ls s' := by
  induction cs generalizing s with
  | nil =>
    obtain rfl := Option.some.inj hcalls
    exact ⟨[], .nil s⟩
  | cons c cs ih =>
    obtain ⟨s₁, hcall, hcalls⟩ := Option.bind_eq_some_iff.mp hcalls
    obtain ⟨ls, hrun⟩ := run_call hcall
    obtain ⟨ls', hrun'⟩ := ih hcalls
    exact ⟨ls ++ ls', hrun.append hrun'⟩

end Calls

/-- Two clients have been started. -/
def System.pair : System Bool where
  rpc := Rpc.start .init
  connections := {true, false}
  client := Function.update (Function.update (fun _ => .start "" []) false (.start "b" ["a"])) true
    (.start "a" ["b"])
  members := 2
  dequeued := 0

theorem run_pair (Q : Int32 → Prop) :
    Run (Step Q) System.start [.join false "b" ["a"], .join true "a" ["b"]] System.pair :=
  .cons (.join "b" ["a"] ⟨Finset.notMem_empty _, rfl, rfl⟩)
    (.single (.join "a" ["b"] ⟨by decide, rfl, rfl⟩))

/-- Both register, look up their queues, and send a message to each other; then the first one takes
the message of the second one, and sends it back. -/
def exchanges : List (Bool × String) :=
  [(true, "b"), (false, "a"), (true, "b"), (false, "a"), (true, "b"), (true, "b"), (false, "a"),
    (false, "a"), (true, "b"), (true, "b")]

/-- Both messages are stored, and one of them has been counted up. -/
theorem one_message_each_exchanges : ∃ (ls : List (Label Bool)) (s : System Bool),
    Run (Step fun queueId => queueId = 1 ∨ queueId = 2) System.start ls s ∧ s.dequeued = 1 ∧
      s.rpc.server.db.messages.map Message.content = [some [48], some [49]] ∧
      (tokens (fun queueId => queueId = 1 ∨ queueId = 2) s).card ≤ s.members ∧
      ((tokens (fun queueId => queueId = 1 ∨ queueId = 2) s).map Int32.toInt).sum ≤ s.dequeued := by
  have hcalls : (System.pair.calls (fun queueId => queueId = 1 ∨ queueId = 2) exchanges).any
      (fun s => s.dequeued = 1 ∧
        s.rpc.server.db.messages.map Message.content = [some [48], some [49]]) = true := by
    decide +kernel
  simp only [Option.any_eq_true, decide_eq_true_eq] at hcalls
  obtain ⟨s, hs, hdequeued, hmessages⟩ := hcalls
  obtain ⟨ls, hrun⟩ := run_calls hs
  have hall := (run_pair _).append hrun
  obtain ⟨hcard, hsum, -⟩ := one_message_each hall (by rw [hdequeued]; decide)
  exact ⟨_, s, hall, hdequeued, hmessages, hcard, hsum⟩

end Mlmq.Scenario.OneWay
