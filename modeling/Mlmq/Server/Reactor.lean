import Mlmq.Server.Drain

/-! # One pass of the reactor loop

The body of the loop of `BrokerNetworkInterface.run`: it handles the selected keys one after the
other and empties the response queue. An exception of `selectKey` is caught, and `disconnectCLient`
closes the connection of the key. The key the server listens on is handled by the same code: it has
no attachment, and its channel is no `SocketChannel`, so the handler raises a `ClassCastException`,
which leaves the loop.

`Iterate` is the body with the workers running beside it. It survives iff no exception is raised for
the listening key (`survives_iff`). -/

namespace Mlmq.Server.Reactor

open Mlmq.Lib.Nio Mlmq.Lib.Transition Mlmq.Server.Connection Mlmq.Server.System
open Mlmq.Server.Ownership Mlmq.Server.Contents Mlmq.Server.Flight Mlmq.Server.Handles
open Mlmq.Server.Drain
open Mlmq.Net.RoundTrip (nullStream)
open Mlmq.Lib.Queue (BoundedQueue)
open Mlmq.Util.ByteBufferUtil (ObjectStream)

variable {ε α β : Type} {s s' : Broker} {i : ℕ} {config : BrokerConfiguration}
  {stream : ObjectStream ε}

/-! ### Keys -/

/-- What happens when a connection is accepted. -/
inductive Accept
  /-- the connection is set up -/
  | connection
  /-- a test of the key or `accept` raises an exception, or `configureBlocking` does -/
  | fails (e : Throwable)
  /-- `accept` returns null -/
  | null
  /-- the socket has been closed, and `getRemoteAddress` raises an exception -/
  | unaddressed (e : Throwable)
  /-- `register` raises an exception -/
  | unregistered (e : Throwable)
deriving DecidableEq, Repr

/-- A key that has been selected, and what its channel does when the key is handled: an operation
that is ready completes or raises an exception, and so does the test before it. A read delivers
some bytes, or the end of the stream. -/
inductive SelectedKey
  | listening (accept : Accept)
  | connection (i : ℕ) (write : Option (Except Throwable ℕ))
    (read : Option (Except Throwable (Option (List UInt8))))
deriving DecidableEq

/-- The channel of a key. -/
inductive Channel
  | serverSocketChannel
  | socketChannel (i : ℕ)
deriving DecidableEq, Repr

namespace SelectedKey

def channel : SelectedKey → Channel
  | .listening _ => .serverSocketChannel
  | .connection i _ _ => .socketChannel i

/-- The connection that has been attached to the key. -/
def attachment : SelectedKey → Option ℕ
  | .listening _ => none
  | .connection i _ _ => some i

def isValid (s : Broker) : SelectedKey → Bool
  | .listening _ => true
  | .connection i _ _ => (s.clients[i]?).any fun client => client.selectionKey.isValid

/-- The key waits for the socket to take bytes. -/
def opWrite (s : Broker) : SelectedKey → Bool
  | .listening _ => false
  | .connection i _ _ => (s.clients[i]?).any fun client => client.selectionKey.opWrite

def acceptable : SelectedKey → Option Accept
  | .listening accept => some accept
  | .connection _ _ _ => none

def writable : SelectedKey → Option (Except Throwable ℕ)
  | .listening _ => none
  | .connection _ write _ => write

def readable : SelectedKey → Option (Except Throwable (Option (List UInt8)))
  | .listening _ => none
  | .connection _ _ read => read

end SelectedKey

/-! ### The functions of the source -/

/-- The reactor works on the broker and raises exceptions. -/
abbrev React := EStateM Throwable Broker

/-- The cast to `SocketChannel`. -/
def asSocketChannel : Channel → React ℕ
  | .serverSocketChannel => throw .classCast
  | .socketChannel i => pure i

/-- The client that is attached to a key. -/
def clientInstance (key : SelectedKey) : React (ℕ × Client) := do
  let s ← get
  match key.attachment with
  | none => throw .nullPointer
  | some i =>
    match s.clients[i]? with
    | none => throw .nullPointer
    | some client => pure (i, client)

def disconnectCLient (key : SelectedKey) : React Unit := do
  let _ ← asSocketChannel key.channel
  let (i, _) ← clientInstance key
  modify (·.disconnectCLient i)

/-- A connection is counted before its address is asked for, and stands in `connectedClients` before
it is registered. -/
def selectAccept (config : BrokerConfiguration) : Accept → React Unit
  | .connection => modify (·.selectAccept config)
  | .fails e => throw e
  | .null => throw .nullPointer
  | .unaddressed e => do
    modify fun s => { s with clientCounter := s.clientCounter + 1 }
    throw e
  | .unregistered e => do
    modify fun s => { s with
      clientCounter := s.clientCounter + 1
      connectedClients :=
        Function.update s.connectedClients (s.clientCounter + 1) (some s.clients.length) }
    throw e

/-- The buffer behind a reference. -/
def getByteBuffer : Option ℕ → React (ℕ × ByteBuffer)
  | none => throw .nullPointer
  | some buffer => do
    match (← get).heap[buffer]? with
    | none => throw .nullPointer
    | some byteBuffer => pure (buffer, byteBuffer)

def selectWrite (key : SelectedKey) (written : Except Throwable ℕ) : React Unit := do
  let (i, client) ← clientInstance key
  let _ ← asSocketChannel key.channel
  let (tx, txBuffer) ← getByteBuffer client.txBuffer
  let byteCount ← MonadExcept.ofExcept written
  let txBuffer := txBuffer.skip (min byteCount txBuffer.remaining)
  modify fun s => { s with heap := s.heap.set tx txBuffer }.afterWrite i client tx txBuffer

/-- A read takes as many bytes as fit the buffer. -/
def selectRead (config : BrokerConfiguration) (key : SelectedKey)
    (delivered : Except Throwable (Option (List UInt8))) : React Unit := do
  let (i, client) ← clientInstance key
  let _ ← asSocketChannel key.channel
  let (rx, rxBuffer) ← getByteBuffer (some client.rxBuffer)
  let chunk ← MonadExcept.ofExcept delivered
  match receive ((chunk.getD []).take rxBuffer.remaining) rxBuffer with
  | .error e _ => throw e
  | .ok received rxBuffer =>
    modify fun s => { s with heap := s.heap.set rx rxBuffer }
    if received then modify (·.takeMessage config i client)
    if chunk.isNone then disconnectCLient key

/-- An operation on a key that passes the test and is ready. -/
def onReady (test : Broker → Bool) (answer : Option α) (operation : α → React Unit) :
    React Unit := do
  if test (← get) then
    match answer with
    | none => pure ()
    | some answer => operation answer

def whenAcceptable (config : BrokerConfiguration) (key : SelectedKey) : React Unit :=
  onReady (fun s => key.isValid s) key.acceptable (selectAccept config)

def whenWritable (key : SelectedKey) : React Unit :=
  onReady (fun s => key.isValid s && key.opWrite s) key.writable (selectWrite key)

def whenReadable (config : BrokerConfiguration) (key : SelectedKey) : React Unit :=
  onReady (fun s => key.isValid s) key.readable (selectRead config key)

def selectKey (config : BrokerConfiguration) (key : SelectedKey) : React Unit := do
  whenAcceptable config key
  whenWritable key
  whenReadable config key

/-- What the loop does with one key. -/
def handleKey (config : BrokerConfiguration) (key : SelectedKey) : React Unit :=
  tryCatch (selectKey config key) fun _ => disconnectCLient key

/-! ### The body of the loop -/

/-- The broker while the reactor is in the body of the loop, and the keys that it has not handled. -/
structure Iteration where
  broker : Broker
  selectedKeys : List SelectedKey

/-- What happens next: the reactor handles a key, or it does something else, or a worker acts. -/
inductive Turn (ε : Type)
  | key
  | other (l : Label ε)

/-- The turns of the reactor. -/
def Turn.IsReactor : Turn ε → Prop
  | .key => True
  | .other l => actor l = none

/-- The body of the loop, with the workers beside it. The key is removed in any case; an exception
that is not caught closes the network interface. -/
inductive Iterate (config : BrokerConfiguration) (stream : ObjectStream ε) :
    Iteration → Turn ε → Iteration → Prop
  | key {s s' : Broker} {key : SelectedKey} {keys : List SelectedKey} (hkeys : s.reactor = .keys)
    (h : handleKey config key s = .ok () s') : Iterate config stream ⟨s, key :: keys⟩ .key ⟨s', keys⟩
  | escapes {s s' : Broker} {key : SelectedKey} {keys : List SelectedKey} {e : Throwable}
    (hkeys : s.reactor = .keys) (h : handleKey config key s = .error e s') :
    Iterate config stream ⟨s, key :: keys⟩ .key ⟨{ s' with reactor := .stopped }, keys⟩
  | keysDone {s s' : Broker} (h : Step config stream s .keysDone s') :
    Iterate config stream ⟨s, []⟩ (.other .keysDone) ⟨s', []⟩
  | selectQueue {s s' : Broker} {keys : List SelectedKey} (h : Step config stream s .selectQueue s') :
    Iterate config stream ⟨s, keys⟩ (.other .selectQueue) ⟨s', keys⟩
  | worker {s s' : Broker} {keys : List SelectedKey} {l : Label ε} (hl : (actor l).isSome)
    (h : Step config stream s l s') : Iterate config stream ⟨s, keys⟩ (.other l) ⟨s', keys⟩

/-- Handling the key closes its connection: `selectKey` raises an exception, or the stream ends. -/
def Closes (config : BrokerConfiguration) (s : Broker) (key : SelectedKey) : Prop :=
  (∃ e s', selectKey config key s = .error e s') ∨ key.readable = some (.ok none)

/-- A step takes entries out of `connectedClients` only for the connection of a key that it has
handled and that has been closed by this. -/
def LosesOwn (config : BrokerConfiguration) (t : Iteration) (l : Turn ε) (t' : Iteration) : Prop :=
  ∀ handle, t.broker.connectedClients handle ≠ none → t'.broker.connectedClients handle = none →
    ∃ key i client, l = .key ∧ t.selectedKeys.head? = some key ∧ Closes config t.broker key ∧
      key.attachment = some i ∧ t.broker.clients[i]? = some client ∧
      client.clientApplicationContext.clientNetworkHandle = handle

/-- **The reactor survives the keys**: in every run of the body, no exception escapes, the reactor
can always go on to its end, behind all keys and the response queue, and each step loses at most the
connection of a key that fails. -/
def Survives (config : BrokerConfiguration) (stream : ObjectStream ε) (start : Iteration) : Prop :=
  ∀ ls t, Run (Iterate config stream) start ls t →
    t.broker.reactor ≠ .stopped ∧
    (∃ ls' t', Run (Iterate config stream) t ls' t' ∧ (∀ l ∈ ls', l.IsReactor) ∧
      t'.selectedKeys = [] ∧ t'.broker.reactor = .select) ∧
    ∀ l t', Iterate config stream t l t' → LosesOwn config t l t'

/-! ### Runs of a program -/

theorem bind_of_ok {m : React α} {k : α → React β} {a : α} (h : m s = .ok a s') :
    (m >>= k) s = k a s' := by
  change EStateM.bind m k s = _
  unfold EStateM.bind
  rw [h]

theorem get_ok (s : Broker) : (get : React Broker) s = .ok s s := rfl

theorem modify_ok (f : Broker → Broker) (s : Broker) :
    (modify f : React Unit) s = .ok () (f s) := rfl

theorem bind_of_error {m : React α} {k : α → React β} {e : Throwable} (h : m s = .error e s') :
    (m >>= k) s = .error e s' := by
  change EStateM.bind m k s = _
  unfold EStateM.bind
  rw [h]

theorem onReady_of_not {test : Broker → Bool} (h : test s = false) (answer : Option α)
    (operation : α → React Unit) : onReady test answer operation s = .ok () s := by
  unfold onReady
  rw [bind_of_ok (get_ok s), if_neg (Bool.eq_false_iff.mp h)]
  rfl

theorem onReady_none (test : Broker → Bool) (operation : α → React Unit) (s : Broker) :
    onReady test none operation s = .ok () s := by
  unfold onReady
  rw [bind_of_ok (get_ok s)]
  split_ifs <;> rfl

theorem onReady_some {test : Broker → Bool} (h : test s = true) (answer : α)
    (operation : α → React Unit) :
    onReady test (some answer) operation s = operation answer s := by
  unfold onReady
  rw [bind_of_ok (get_ok s), if_pos h]

theorem handleKey_of_ok {key : SelectedKey} (h : selectKey config key s = .ok () s') :
    handleKey config key s = .ok () s' := by
  change EStateM.tryCatch _ _ s = _
  unfold EStateM.tryCatch
  rw [h]

theorem handleKey_of_error {key : SelectedKey} {e : Throwable}
    (h : selectKey config key s = .error e s') :
    handleKey config key s = disconnectCLient key s' := by
  change EStateM.tryCatch _ _ s = _
  unfold EStateM.tryCatch
  rw [h]
  rfl

/-! ### A key of a connection -/

variable {client : Client} {write : Option (Except Throwable ℕ)}
  {read : Option (Except Throwable (Option (List UInt8)))}

theorem clientInstance_connection (hi : s.clients[i]? = some client) :
    clientInstance (.connection i write read) s = .ok (i, client) s := by
  unfold clientInstance
  rw [bind_of_ok (get_ok s)]
  simp only [SelectedKey.attachment, hi]
  rfl

theorem asSocketChannel_connection :
    asSocketChannel (SelectedKey.connection i write read).channel s = .ok i s := rfl

theorem disconnectCLient_connection (hi : s.clients[i]? = some client) :
    disconnectCLient (.connection i write read) s = .ok () (s.disconnectCLient i) := by
  unfold disconnectCLient
  rw [bind_of_ok asSocketChannel_connection, bind_of_ok (clientInstance_connection hi)]
  rfl

theorem connectedClients_disconnectCLient (hi : s.clients[i]? = some client) :
    (s.disconnectCLient i).connectedClients = Function.update s.connectedClients
      client.clientApplicationContext.clientNetworkHandle none := by
  unfold Broker.disconnectCLient
  rw [hi]
  rfl

theorem getByteBuffer_cases (slot : Option ℕ) (s : Broker) :
    getByteBuffer slot s = .error .nullPointer s ∨ ∃ buffer byteBuffer, slot = some buffer ∧
      s.heap[buffer]? = some byteBuffer ∧ getByteBuffer slot s = .ok (buffer, byteBuffer) s := by
  cases slot with
  | none => exact Or.inl rfl
  | some buffer =>
    unfold getByteBuffer
    dsimp only
    rw [bind_of_ok (get_ok s)]
    cases hb : s.heap[buffer]? with
    | none => exact Or.inl rfl
    | some byteBuffer => exact Or.inr ⟨buffer, byteBuffer, rfl, hb, rfl⟩

/-- What a channel answers is the result of the operation. -/
theorem ofExcept_cases (answer : Except Throwable α) (s : Broker) :
    (∃ e, (MonadExcept.ofExcept answer : React α) s = .error e s) ∨
      ∃ a, answer = .ok a ∧ (MonadExcept.ofExcept answer : React α) s = .ok a s := by
  cases answer with
  | error e => exact Or.inl ⟨e, rfl⟩
  | ok a => exact Or.inr ⟨a, rfl, rfl⟩

/-- **A write raises an exception and leaves the broker as it is, or it is a step of the broker.** -/
theorem selectWrite_cases (hi : s.clients[i]? = some client)
    (hvalid : client.selectionKey.isValid = true) (hop : client.selectionKey.opWrite = true)
    (written : Except Throwable ℕ) :
    (∃ e, selectWrite (.connection i write read) written s = .error e s) ∨
      ∃ byteCount s', selectWrite (.connection i write read) written s = .ok () s' ∧
        s.selectWrite i byteCount = some s' ∧ s'.connectedClients = s.connectedClients ∧
        ∃ client', s'.clients[i]? = some client' ∧ client'.selectionKey.isValid = true ∧
          client'.clientApplicationContext = client.clientApplicationContext := by
  unfold selectWrite
  rw [bind_of_ok (clientInstance_connection hi)]
  dsimp only
  rw [bind_of_ok asSocketChannel_connection]
  obtain htx | ⟨tx, txBuffer, htx, hheap, hget⟩ := getByteBuffer_cases client.txBuffer s
  · exact Or.inl ⟨_, bind_of_error htx⟩
  rw [bind_of_ok hget]
  dsimp only
  obtain ⟨e, he⟩ | ⟨byteCount, -, hwritten⟩ := ofExcept_cases written s
  · exact Or.inl ⟨e, bind_of_error he⟩
  rw [bind_of_ok hwritten]
  refine Or.inr ⟨min byteCount txBuffer.remaining, _, rfl, ?_, ?_, ?_⟩
  · unfold Broker.selectWrite
    simp only [hi, htx, hheap, hvalid, hop, min_le_right, Option.bind_eq_bind, Option.bind_some,
      and_self, if_true]
    rfl
  · unfold Broker.afterWrite
    split_ifs <;> rfl
  · unfold Broker.afterWrite
    split_ifs
    · exact ⟨client, hi, hvalid, rfl⟩
    · exact ⟨_, List.getElem?_set_self (List.getElem?_eq_some_iff.mp hi).1, rfl, rfl⟩

/-- **A read raises an exception and leaves the broker as it is, or it is a step of the broker**,
which closes the connection at the end of the stream. -/
theorem selectRead_cases (hi : s.clients[i]? = some client)
    (hvalid : client.selectionKey.isValid = true)
    (delivered : Except Throwable (Option (List UInt8))) :
    (∃ e, selectRead config (.connection i write read) delivered s = .error e s) ∨
      ∃ chunk s', selectRead config (.connection i write read) delivered s = .ok () s' ∧
        s.selectRead config i chunk = some s' ∧
        (delivered ≠ .ok none → s'.connectedClients = s.connectedClients) ∧
        ∀ handle ≠ client.clientApplicationContext.clientNetworkHandle,
          s'.connectedClients handle = s.connectedClients handle := by
  unfold selectRead
  rw [bind_of_ok (clientInstance_connection hi)]
  dsimp only
  rw [bind_of_ok asSocketChannel_connection]
  obtain hrx | ⟨rx, rxBuffer, hrx, hheap, hget⟩ := getByteBuffer_cases (some client.rxBuffer) s
  · exact Or.inl ⟨_, bind_of_error hrx⟩
  obtain rfl := Option.some.inj hrx
  rw [bind_of_ok hget]
  dsimp only
  obtain ⟨e, he⟩ | ⟨chunk, rfl, hdelivered⟩ := ofExcept_cases delivered s
  · exact Or.inl ⟨e, bind_of_error he⟩
  rw [bind_of_ok hdelivered, receive_eq]
  dsimp only
  set bytes := (chunk.getD []).take rxBuffer.remaining with hbytes
  obtain ⟨s₁, hs₁⟩ : ∃ s₁ : Broker, s₁ =
    { s with heap := s.heap.set client.rxBuffer (afterTest (rxBuffer.write bytes)) } := ⟨_, rfl⟩
  obtain ⟨s₂, hs₂⟩ : ∃ s₂ : Broker, s₂ =
    if Complete (rxBuffer.write bytes) then s₁.takeMessage config i client else s₁ := ⟨_, rfl⟩
  obtain ⟨client', hi₂, hcontext⟩ : ∃ client', s₂.clients[i]? = some client' ∧
      client'.clientApplicationContext = client.clientApplicationContext := by
    rw [hs₂]
    split_ifs
    · rw [clients_takeMessage, hs₁]
      exact ⟨_, List.getElem?_set_self (List.getElem?_eq_some_iff.mp hi).1, rfl⟩
    · exact ⟨client, by rw [hs₁, hi], rfl⟩
  have hconn₂ : s₂.connectedClients = s.connectedClients := by
    rw [hs₂]
    split_ifs
    · rw [connectedClients_takeMessage, hs₁]
    · rw [hs₁]
  have hstep : s.selectRead config i (chunk.map (·.take rxBuffer.remaining)) =
      some (if chunk.isNone then s₂.disconnectCLient i else s₂) := by
    have hgetD : (chunk.map (·.take rxBuffer.remaining)).getD [] = bytes := by
      cases chunk with
      | none => exact (List.take_nil).symm
      | some chunk => rfl
    have hlength : bytes.length ≤ rxBuffer.remaining := by
      rw [hbytes, List.length_take]
      exact min_le_left _ _
    unfold Broker.selectRead
    simp only [hi, hheap, Option.bind_eq_bind, Option.bind_some, hgetD, hvalid, hlength, and_self,
      if_true, receive_eq, Option.isNone_map, decide_eq_true_eq, ← hs₁, ← hs₂]
    rfl
  have hafter : (if chunk.isNone = true then disconnectCLient (.connection i write read)
      else pure ()) s₂ = .ok () (if chunk.isNone then s₂.disconnectCLient i else s₂) := by
    split_ifs
    · exact disconnectCLient_connection hi₂
    · rfl
  refine Or.inr ⟨_, _, ?_, hstep, fun hends => ?_, fun handle hne => ?_⟩
  · rw [bind_of_ok (modify_ok _ _), ← hafter, hs₂, ← hs₁]
    by_cases hc : Complete (rxBuffer.write bytes)
    · rw [if_pos (decide_eq_true hc), if_pos hc, bind_of_ok (modify_ok _ _)]
    · rw [if_neg (by simpa using hc), if_neg hc]
  · cases chunk with
    | none => exact absurd rfl hends
    | some chunk => exact hconn₂
  · split_ifs
    · rw [connectedClients_disconnectCLient hi₂, hcontext, Function.update_of_ne hne, hconn₂]
    · rw [hconn₂]

/-- What handling a key of a connection comes to: steps of the broker, of which the last may be one
that closes the connection. -/
structure Handled (config : BrokerConfiguration) (stream : ObjectStream ε) (key : SelectedKey)
    (s s' : Broker) : Prop where
  run : ∃ ls, Run (Step config stream) s ls s'
  reactor : s'.reactor = s.reactor
  loses : ∀ handle, s.connectedClients handle ≠ none → s'.connectedClients handle = none →
    Closes config s key ∧ ∃ i client, key.attachment = some i ∧ s.clients[i]? = some client ∧
      client.clientApplicationContext.clientNetworkHandle = handle

theorem step_of_keys {l : Label ε} (hkeys : s.reactor = .keys) (hl : l.reactor = some .keys)
    (h : next config stream s l = some s') : Step config stream s l s' := by
  refine ⟨fun r hr => ?_, h⟩
  rw [hl] at hr
  rw [hkeys, Option.mem_some_iff.mp hr]

/-- The handler closes the connection of a key that has failed. -/
theorem handled_of_error {e : Throwable} {ls : List (Label ε)} {s₁ : Broker}
    (hkeys : s₁.reactor = .keys) (hreactor : s₁.reactor = s.reactor)
    (hrun : Run (Step config stream) s ls s₁) (hconn : s₁.connectedClients = s.connectedClients)
    (hi : s.clients[i]? = some client) {client' : Client} (hi₁ : s₁.clients[i]? = some client')
    (hvalid : client'.selectionKey.isValid = true)
    (hcontext : client'.clientApplicationContext = client.clientApplicationContext)
    (h : selectKey config (.connection i write read) s = .error e s₁) :
    ∃ s', handleKey config (.connection i write read) s = .ok () s' ∧
      Handled config stream (.connection i write read) s s' := by
  have hfails : s₁.selectFails i = some (s₁.disconnectCLient i) := by
    unfold Broker.selectFails
    simp only [hi₁, hvalid, Option.bind_eq_bind, Option.bind_some, if_true]
    rfl
  refine ⟨_, (handleKey_of_error h).trans (disconnectCLient_connection hi₁), ⟨_,
    hrun.append (.single (step_of_keys (l := .fails i) hkeys rfl hfails))⟩,
    reactor_disconnectCLient.trans hreactor, fun handle hsome hnone =>
    ⟨Or.inl ⟨e, s₁, h⟩, i, client, rfl, hi, ?_⟩⟩
  by_contra hne
  rw [connectedClients_disconnectCLient hi₁, hcontext, Function.update_of_ne (Ne.symm hne),
    hconn] at hnone
  exact hsome hnone

/-- The test of the key of a connection. -/
theorem isValid_connection (hi : s.clients[i]? = some client) :
    (SelectedKey.connection i write read).isValid s = client.selectionKey.isValid := by
  simp only [SelectedKey.isValid, hi, Option.any_some]

theorem opWrite_connection (hi : s.clients[i]? = some client) :
    (SelectedKey.connection i write read).opWrite s = client.selectionKey.opWrite := by
  simp only [SelectedKey.opWrite, hi, Option.any_some]

/-- A write that is ready, or none: an exception, or a step of the broker that keeps the connection
open. -/
theorem whenWritable_cases (hkeys : s.reactor = .keys) (hi : s.clients[i]? = some client)
    (hvalid : client.selectionKey.isValid = true) :
    (∃ e, whenWritable (.connection i write read) s = .error e s) ∨
      ∃ s₁ client₁ ls, whenWritable (.connection i write read) s = .ok () s₁ ∧
        Run (Step config stream) s ls s₁ ∧ s₁.reactor = s.reactor ∧
        s₁.connectedClients = s.connectedClients ∧ s₁.clients[i]? = some client₁ ∧
        client₁.selectionKey.isValid = true ∧
        client₁.clientApplicationContext = client.clientApplicationContext := by
  have htest : ((SelectedKey.connection i write read).isValid s &&
      (SelectedKey.connection i write read).opWrite s) = client.selectionKey.opWrite := by
    rw [isValid_connection hi, opWrite_connection hi, hvalid, Bool.true_and]
  by_cases hop : client.selectionKey.opWrite = true
  · cases write with
    | none => exact Or.inr ⟨s, client, [], onReady_none _ _ s, .nil s, rfl, rfl, hi, hvalid, rfl⟩
    | some written =>
      have hrun : whenWritable (.connection i (some written) read) s =
          selectWrite (.connection i (some written) read) written s :=
        onReady_some (htest.trans hop) written _
      obtain ⟨e, he⟩ | ⟨byteCount, s₁, hok, hstep, hconn, client₁, hi₁, hvalid₁, hcontext⟩ :=
        selectWrite_cases hi hvalid hop written
      · exact Or.inl ⟨e, hrun.trans he⟩
      · exact Or.inr ⟨s₁, client₁, _, hrun.trans hok,
          .single (step_of_keys (l := .write i byteCount) hkeys rfl hstep),
          reactor_selectWrite hstep, hconn, hi₁, hvalid₁, hcontext⟩
  · exact Or.inr ⟨s, client, [], onReady_of_not (htest.trans (Bool.eq_false_iff.mpr hop)) _ _,
      .nil s, rfl, rfl, hi, hvalid, rfl⟩

/-- A read that is ready, or none: an exception, or a step of the broker. -/
theorem whenReadable_cases (hkeys : s.reactor = .keys) (hi : s.clients[i]? = some client)
    (hvalid : client.selectionKey.isValid = true) :
    (∃ e, whenReadable config (.connection i write read) s = .error e s) ∨
      ∃ s₁ ls, whenReadable config (.connection i write read) s = .ok () s₁ ∧
        Run (Step config stream) s ls s₁ ∧ s₁.reactor = s.reactor ∧
        (read ≠ some (.ok none) → s₁.connectedClients = s.connectedClients) ∧
        ∀ handle ≠ client.clientApplicationContext.clientNetworkHandle,
          s₁.connectedClients handle = s.connectedClients handle := by
  cases read with
  | none => exact Or.inr ⟨s, [], onReady_none _ _ s, .nil s, rfl, fun _ => rfl, fun _ _ => rfl⟩
  | some delivered =>
    have hrun : whenReadable config (.connection i write (some delivered)) s =
        selectRead config (.connection i write (some delivered)) delivered s :=
      onReady_some ((isValid_connection hi).trans hvalid) delivered _
    obtain ⟨e, he⟩ | ⟨chunk, s₁, hok, hstep, hconn, hothers⟩ :=
      selectRead_cases hi hvalid
        delivered
    · exact Or.inl ⟨e, hrun.trans he⟩
    · refine Or.inr ⟨s₁, _, hrun.trans hok,
        .single (step_of_keys (l := .read i chunk) hkeys rfl hstep), reactor_selectRead hstep,
        fun hne => hconn fun heq => hne (congrArg some heq), hothers⟩

theorem selectKey_connection (config : BrokerConfiguration) :
    selectKey config (.connection i write read) s =
      (whenWritable (.connection i write read) >>= fun _ =>
        whenReadable config (.connection i write read)) s :=
  bind_of_ok (onReady_none _ _ s)

/-- **A key of a connection is handled in any case**, and only its own connection can be closed. -/
theorem handled_connection (hkeys : s.reactor = .keys) (i : ℕ)
    (write : Option (Except Throwable ℕ))
    (read : Option (Except Throwable (Option (List UInt8)))) :
    ∃ s', handleKey config (.connection i write read) s = .ok () s' ∧
      Handled config stream (.connection i write read) s s' := by
  by_cases hopen : (SelectedKey.connection i write read).isValid s = true
  · obtain ⟨client, hi, hvalid⟩ : ∃ client, s.clients[i]? = some client ∧
        client.selectionKey.isValid = true := by
      unfold SelectedKey.isValid at hopen
      cases hi : s.clients[i]? with
      | none => simp [hi] at hopen
      | some client => exact ⟨client, rfl, by simpa [hi] using hopen⟩
    obtain ⟨e, he⟩ | ⟨s₁, client₁, ls, hwrite, hrun, hreactor, hconn, hi₁, hvalid₁, hcontext⟩ :=
      whenWritable_cases hkeys
        hi hvalid
    · exact handled_of_error hkeys rfl (.nil s) rfl hi hi hvalid rfl
        ((selectKey_connection config).trans (bind_of_error he))
    have hselect := (selectKey_connection config).trans (bind_of_ok hwrite)
    obtain ⟨e, he⟩ | ⟨s₂, ls', hread, hrun', hreactor', hkept, hothers⟩ :=
      whenReadable_cases
        (hreactor.trans hkeys) hi₁ hvalid₁
    · exact handled_of_error (hreactor.trans hkeys) hreactor hrun hconn hi hi₁ hvalid₁ hcontext
        (hselect.trans he)
    · refine ⟨s₂, handleKey_of_ok (hselect.trans hread), ⟨_, hrun.append hrun'⟩,
        hreactor'.trans hreactor, fun handle hsome hnone => ?_⟩
      have hends : read = some (.ok none) := by
        by_contra hne
        rw [hkept hne, hconn] at hnone
        exact hsome hnone
      refine ⟨Or.inr hends, i, client, rfl, hi, ?_⟩
      by_contra hne
      rw [hothers handle (hcontext ▸ Ne.symm hne), hconn] at hnone
      exact hsome hnone
  · -- a key that has been cancelled is passed over
    have hclosed := Bool.eq_false_iff.mpr hopen
    have hselect : selectKey config (.connection i write read) s = .ok () s := by
      have hwrite : whenWritable (.connection i write read) s = .ok () s :=
        onReady_of_not (by rw [hclosed, Bool.false_and]) _ _
      rw [selectKey_connection, bind_of_ok hwrite]
      exact onReady_of_not hclosed _ _
    exact ⟨s, handleKey_of_ok hselect, ⟨[], .nil s⟩, rfl, fun handle hsome hnone =>
      absurd hnone hsome⟩

/-! ### The key the server listens on -/

theorem handleKey_accepts (config : BrokerConfiguration) (s : Broker) :
    handleKey config (.listening .connection) s = .ok () (s.selectAccept config) := rfl

/-- **The handler fails on the listening key.** -/
theorem handleKey_listening {accept : Accept} (h : accept ≠ .connection)
    (config : BrokerConfiguration) (s : Broker) :
    ∃ s', handleKey config (.listening accept) s = .error .classCast s' := by
  cases accept with
  | connection => exact absurd rfl h
  | fails e => exact ⟨_, rfl⟩
  | null => exact ⟨_, rfl⟩
  | unaddressed e => exact ⟨_, rfl⟩
  | unregistered e => exact ⟨_, rfl⟩

/-- A key whose handling lets no exception escape. -/
def Harmless (key : SelectedKey) : Prop := ∀ accept, key = .listening accept → accept = .connection

theorem handled_of_harmless (hkeys : s.reactor = .keys) {key : SelectedKey} (hkey : Harmless key) :
    ∃ s', handleKey config key s = .ok () s' ∧ Handled config stream key s s' := by
  cases key with
  | listening accept =>
    obtain rfl := hkey accept rfl
    refine ⟨_, handleKey_accepts config s, ⟨_, .single (step_of_keys (l := .accept) hkeys rfl rfl)⟩,
      reactor_selectAccept, fun handle hsome hnone => ?_⟩
    have hconn : (s.selectAccept config).connectedClients = Function.update s.connectedClients
        (s.clientCounter + 1) (some s.clients.length) := by
      unfold Broker.selectAccept
      dsimp only
      rw [connectedClients_aquire, connectedClients_aquire]
    rw [hconn] at hnone
    by_cases heq : handle = s.clientCounter + 1
    · rw [heq, Function.update_self] at hnone
      cases hnone
    · rw [Function.update_of_ne heq] at hnone
      exact absurd hnone hsome
  | connection i write read => exact handled_connection hkeys i write read

theorem reactor_of_handleKey (hkeys : s.reactor = .keys) {key : SelectedKey}
    (h : handleKey config key s = .ok () s') : Harmless key ∧ s'.reactor = .keys := by
  have hharmless : Harmless key := by
    rintro accept rfl
    by_contra hne
    obtain ⟨s₁, hs₁⟩ := handleKey_listening hne config s
    rw [h] at hs₁
    cases hs₁
  obtain ⟨s₁, hs₁, hhandled⟩ : ∃ s₁, handleKey config key s = .ok () s₁ ∧
      Handled config nullStream key s s₁ := handled_of_harmless hkeys hharmless
  rw [h] at hs₁
  obtain rfl := (EStateM.Result.ok.inj hs₁).2
  exact ⟨hharmless, hhandled.reactor.trans hkeys⟩

/-! ### The rest of the body -/

/-- The workers leave the connections to the reactor. -/
theorem frame_of_worker {l : Label ε} (hl : (actor l).isSome) (h : Step config stream s l s') :
    s'.reactor = s.reactor ∧ s'.connectedClients = s.connectedClients := by
  obtain ⟨-, h⟩ := h
  cases l with
  | take w =>
    obtain ⟨task, requestQueue, -, -, rfl⟩ := Broker.take_eq_some h
    exact ⟨rfl, rfl⟩
  | decode w =>
    obtain ⟨task, -, ⟨-, rfl⟩ | ⟨buffer, rawRequest, rawRequest', worker, -, -, rfl, -⟩⟩ :=
      Broker.decode_eq_some h
    · exact ⟨rfl, rfl⟩
    · exact ⟨rfl, rfl⟩
  | answer w outcome =>
    obtain ⟨task, buffer, request, rawRequest, rawRequest', worker, -, -, rfl, -⟩ :=
      Broker.answer_eq_some h
    exact ⟨rfl, rfl⟩
  | post w =>
    obtain ⟨task, -, ⟨responseQueue, -, rfl⟩ | ⟨-, rfl⟩⟩ := Broker.post_eq_some h
    · exact ⟨rfl, rfl⟩
    · exact ⟨rfl, rfl⟩
  | wake w =>
    obtain ⟨dropped, -, rfl⟩ := Broker.wake_eq_some h
    exact ⟨rfl, rfl⟩
  | _ => cases hl

/-- A round of `selectQueue` keeps the connections. -/
theorem frame_of_selectQueue (hinv : Inv s 0) (hshape : Shaped s) (h : s.selectQueue = some s') :
    (s'.reactor = .select ∨ s'.reactor = s.reactor) ∧ s'.connectedClients = s.connectedClients := by
  obtain ⟨-, rfl⟩ | ⟨c, b, responseQueue, -, -, -, -, hconn, -, -, ⟨-, hselect, -⟩ | ⟨-, heq⟩⟩ :=
    selectQueue_cases hinv hshape h
  · exact ⟨Or.inl rfl, rfl⟩
  · exact ⟨Or.inl hselect, hconn⟩
  · exact ⟨Or.inr heq, hconn⟩

/-- A round of `selectQueue` can always happen. -/
theorem exists_selectQueue (hinv : Inv s 0) (hshape : Shaped s) : ∃ s', s.selectQueue = some s' := by
  unfold Broker.selectQueue
  cases hpoll : s.responseQueue.poll with
  | none => exact ⟨_, rfl⟩
  | some x =>
    obtain ⟨task, responseQueue⟩ := x
    obtain ⟨c, b, hc, rfl⟩ := hshape.response task
      ((BoundedQueue.poll_eq_some_iff.mp hpoll).2 ▸ List.mem_cons_self)
    simp only [List.getElem?_eq_getElem hc, Option.bind_eq_bind, Option.bind_some]
    cases hj : s.connectedClients s.clients[c].clientApplicationContext.clientNetworkHandle with
    | none => exact ⟨_, rfl⟩
    | some j =>
      obtain ⟨client, hclient, hvalid, -⟩ := hinv.connected _ _ hj
      unfold Broker.setResponse WorkerTask.getAndRemoveResponseBuffer
      simp only [hclient, hvalid, Option.bind_eq_bind, Option.bind_some, if_true]
      exact ⟨_, rfl⟩

/-- **What holds in the body** as long as no key of the rest lets an exception escape. -/
structure InBody (config : BrokerConfiguration) (stream : ObjectStream ε) (t : Iteration) :
    Prop where
  reaches : Reaches config stream t.broker
  harmless : ∀ key ∈ t.selectedKeys, Harmless key
  position : t.broker.reactor = .keys ∨
    t.selectedKeys = [] ∧ (t.broker.reactor = .queue ∨ t.broker.reactor = .select)

theorem reaches_of_run {ls : List (Label ε)} (h : Reaches config stream s)
    (hrun : Run (Step config stream) s ls s') : Reaches config stream s' := by
  obtain ⟨s₀, is, h₀, hrun₀⟩ := h
  exact ⟨s₀, _, h₀, hrun₀.append hrun⟩

variable {t t' : Iteration} {l : Turn ε}

/-- One step of the body. -/
theorem InBody.step (h : InBody config stream t) (hs : Iterate config stream t l t') :
    InBody config stream t' ∧ LosesOwn config t l t' := by
  obtain ⟨hreaches, hharmless, hposition⟩ := h
  obtain ⟨hinv, hshape⟩ := inv_shaped_of_reaches hreaches
  cases hs with
  | @key s s' key keys hkeys hok =>
    obtain ⟨hkey, hrest⟩ := List.forall_mem_cons.mp hharmless
    obtain ⟨s₁, hs₁, ⟨ls, hrun⟩, hreactor, hloses⟩ :=
      handled_of_harmless hkeys hkey
    obtain rfl := (EStateM.Result.ok.inj (hok.symm.trans hs₁)).2
    refine ⟨⟨reaches_of_run hreaches hrun, hrest, Or.inl (hreactor.trans hkeys)⟩,
      fun handle hsome hnone => ?_⟩
    obtain ⟨hcloses, i, client, hi, hclient, hhandle⟩ := hloses handle hsome hnone
    exact ⟨key, i, client, rfl, rfl, hcloses, hi, hclient, hhandle⟩
  | @escapes s s' key keys e hkeys herror =>
    obtain ⟨s₁, hs₁, -⟩ : ∃ s₁, handleKey config key s = .ok () s₁ ∧
      Handled config stream key s s₁ := handled_of_harmless hkeys (hharmless key List.mem_cons_self)
    rw [herror] at hs₁
    cases hs₁
  | keysDone hstep =>
    refine ⟨⟨hreaches.next hstep, hharmless, Or.inr ⟨rfl, Or.inl ?_⟩⟩, fun handle hsome hnone => ?_⟩
    · rw [← Option.some.inj hstep.2]
    · rw [← Option.some.inj hstep.2] at hnone
      exact absurd hnone hsome
  | @selectQueue s s' keys hstep =>
    obtain ⟨hreactor, hconn⟩ := frame_of_selectQueue hinv hshape hstep.2
    have hqueue : s.reactor = .queue := hstep.1 .queue rfl
    refine ⟨⟨hreaches.next hstep, hharmless, Or.inr ⟨?_, ?_⟩⟩, fun handle hsome hnone => ?_⟩
    · rcases hposition with hkeys | ⟨hnil, -⟩
      · rw [hqueue] at hkeys
        cases hkeys
      · exact hnil
    · exact hreactor.symm.imp (fun heq => heq.trans hqueue) id
    · rw [hconn] at hnone
      exact absurd hnone hsome
  | worker hl hstep =>
    obtain ⟨hreactor, hconn⟩ := frame_of_worker hl hstep
    refine ⟨⟨hreaches.next hstep, hharmless, ?_⟩, fun handle hsome hnone => ?_⟩
    · rwa [hreactor]
    · rw [hconn] at hnone
      exact absurd hnone hsome

/-- A round ends the body, or it takes a task out of the queue. -/
theorem InBody.round (h : InBody config stream t) (hqueue : t.broker.reactor = .queue) :
    ∃ t', Iterate config stream t (.other .selectQueue) t' ∧ (t'.broker.reactor = .select ∨
      t'.broker.reactor = .queue ∧
        t'.broker.responseQueue.items.length < t.broker.responseQueue.items.length) := by
  obtain ⟨hinv, hshape⟩ := inv_shaped_of_reaches h.reaches
  obtain ⟨s', hs⟩ := exists_selectQueue hinv hshape
  have hstep : Step config stream t.broker .selectQueue s' := by
    refine ⟨?_, hs⟩
    rintro r ⟨⟩
    exact hqueue
  refine ⟨⟨s', t.selectedKeys⟩, .selectQueue hstep, ?_⟩
  obtain ⟨-, rfl⟩ | ⟨c, b, responseQueue, hpoll, hresponse, -, -, -, -, -, ⟨-, hselect, -⟩ | ⟨-, heq⟩⟩ :=
    selectQueue_cases hinv hshape hs
  · exact Or.inl rfl
  · exact Or.inl hselect
  · refine Or.inr ⟨heq.trans hqueue, ?_⟩
    have hitems := congrArg List.length (BoundedQueue.poll_eq_some_iff.mp hpoll).2
    rw [List.length_cons] at hitems
    dsimp only
    rw [hresponse]
    omega

/-- The response queue is emptied, or its processing ends at a response for a connection that is
closed. -/
theorem InBody.finishes_queue (h : InBody config stream t) (hqueue : t.broker.reactor = .queue) :
    ∃ ls' t', Run (Iterate config stream) t ls' t' ∧ (∀ l ∈ ls', l.IsReactor) ∧
      t'.selectedKeys = [] ∧ t'.broker.reactor = .select := by
  obtain ⟨n, hn⟩ : ∃ n, t.broker.responseQueue.items.length < n := ⟨_, Nat.lt_succ_self _⟩
  induction n generalizing t with
  | zero => exact absurd hn (Nat.not_lt_zero _)
  | succ n ih =>
    obtain ⟨t₁, hstep, hround⟩ := h.round hqueue
    have h₁ := (h.step hstep).1
    rcases hround with hselect | ⟨hqueue₁, hlt⟩
    · have hnil : t₁.selectedKeys = [] := by
        rcases h₁.position with hkeys | ⟨hnil, -⟩
        · rw [hselect] at hkeys
          cases hkeys
        · exact hnil
      exact ⟨_, t₁, .single hstep, List.forall_mem_singleton.mpr rfl, hnil, hselect⟩
    · obtain ⟨ls', t', hrun, hls, hend⟩ := ih h₁ hqueue₁ (by omega)
      exact ⟨_, t', .cons hstep hrun, List.forall_mem_cons.mpr ⟨rfl, hls⟩, hend⟩

/-- **The reactor comes to the end of the body.** -/
theorem InBody.finishes (h : InBody config stream t) :
    ∃ ls' t', Run (Iterate config stream) t ls' t' ∧ (∀ l ∈ ls', l.IsReactor) ∧
      t'.selectedKeys = [] ∧ t'.broker.reactor = .select := by
  obtain ⟨s, keys⟩ := t
  induction keys generalizing s with
  | nil =>
    rcases h.position with hkeys | ⟨-, hqueue | hselect⟩
    · have hstep : Iterate config stream ⟨s, []⟩ (.other .keysDone)
          ⟨{ s with reactor := .queue }, []⟩ := .keysDone (step_of_keys hkeys rfl rfl)
      obtain ⟨ls', t', hrun, hls, hend⟩ := (h.step hstep).1.finishes_queue rfl
      exact ⟨_, t', .cons hstep hrun, List.forall_mem_cons.mpr ⟨rfl, hls⟩, hend⟩
    · exact h.finishes_queue hqueue
    · exact ⟨[], _, .nil _, List.forall_mem_nil _, rfl, hselect⟩
  | cons key keys ih =>
    have hkeys : s.reactor = .keys := h.position.resolve_right fun hnil => by cases hnil.1
    obtain ⟨s', hok, -⟩ : ∃ s', handleKey config key s = .ok () s' ∧
      Handled config stream key s s' := handled_of_harmless hkeys (h.harmless key List.mem_cons_self)
    have hstep : Iterate config stream ⟨s, key :: keys⟩ .key ⟨s', keys⟩ := .key hkeys hok
    obtain ⟨ls', t', hrun, hls, hend⟩ := ih s' (h.step hstep).1
    exact ⟨_, t', .cons hstep hrun, List.forall_mem_cons.mpr ⟨trivial, hls⟩, hend⟩

/-- A key that is not harmless lets the exception escape. -/
theorem escapes_of_not_harmless {keys : List SelectedKey} (hkeys : s.reactor = .keys)
    (h : ¬ ∀ key ∈ keys, Harmless key) :
    ∃ ls t, Run (Iterate config stream) ⟨s, keys⟩ ls t ∧ t.broker.reactor = .stopped := by
  induction keys generalizing s with
  | nil => exact absurd (List.forall_mem_nil _) h
  | cons key keys ih =>
    cases hhandle : handleKey config key s with
    | ok a s' =>
      obtain ⟨hkey, hkeys'⟩ := reactor_of_handleKey hkeys hhandle
      obtain ⟨ls, t, hrun, hstopped⟩ := ih hkeys' fun hall =>
        h (List.forall_mem_cons.mpr ⟨hkey, hall⟩)
      exact ⟨_, t, .cons (.key hkeys hhandle) hrun, hstopped⟩
    | error e s' => exact ⟨_, _, .single (.escapes hkeys hhandle), rfl⟩

theorem forall_harmless_iff {keys : List SelectedKey} :
    (∀ key ∈ keys, Harmless key) ↔ ∀ accept, .listening accept ∈ keys → accept = .connection :=
  ⟨fun h accept hmem => h _ hmem accept rfl, fun h _ hmem accept heq => h accept (heq ▸ hmem)⟩

/-- **One bad key stops the reactor iff it is the listening key.** -/
theorem survives_iff (hs : Reaches config stream s) (hkeys : s.reactor = .keys)
    (keys : List SelectedKey) : Survives config stream ⟨s, keys⟩ ↔
      ∀ accept, .listening accept ∈ keys → accept = .connection := by
  rw [← forall_harmless_iff]
  constructor
  · intro hsurvives
    by_contra hbad
    obtain ⟨ls, t, hrun, hstopped⟩ := escapes_of_not_harmless hkeys hbad
    exact (hsurvives ls t hrun).1 hstopped
  · intro hharmless ls t hrun
    have ht : InBody config stream t := hrun.invariant (fun _ _ _ h hstep => (h.step hstep).1)
      ⟨hs, hharmless, Or.inl hkeys⟩
    refine ⟨fun hstopped => ?_, ht.finishes, fun l t' hstep => (ht.step hstep).2⟩
    rcases ht.position with h | ⟨-, h | h⟩ <;> rw [hstopped] at h <;> cases h

/-- A connection whose read fails, and a second one that is accepted. -/
theorem survives_readFails : Survives smallConfiguration nullStream
    ⟨acceptedBroker, [.connection 0 none (some (.error .io)), .listening .connection]⟩ :=
  (survives_iff reaches_accepted rfl _).mpr fun accept hmem => by simpa using hmem

/-- The first `accept` that fails stops the reactor. -/
theorem not_survives_acceptFails :
    ¬ ∀ s keys, Reaches smallConfiguration nullStream s → s.reactor = .keys →
      Survives smallConfiguration nullStream ⟨s, keys⟩ := by
  intro h
  have hsurvives := h acceptedBroker [.listening (.fails .io)] reaches_accepted rfl
  have hstep : Iterate smallConfiguration nullStream
      ⟨acceptedBroker, [.listening (.fails .io)]⟩ .key
      ⟨{ acceptedBroker with reactor := .stopped }, []⟩ := .escapes rfl rfl
  exact (hsurvives _ _ (.single hstep)).1 rfl

end Mlmq.Server.Reactor
