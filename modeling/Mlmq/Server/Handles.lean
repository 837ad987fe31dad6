import Mlmq.Server.Flight

/-! # Handles of connections

`clientCounter` counts the connections in 32 bits, and each connection gets the value of the counter
as its handle. A connection that is still open is found under its handle. While fewer than `2 ^ 32`
connections have been accepted, no handle is given out twice, so what is found is the connection
itself (`Registered.lookup`). -/

namespace Mlmq.Server.Handles

open Mlmq.Lib.Transition Mlmq.Net.Responses Mlmq.Server.Connection Mlmq.Server.System
open Mlmq.Server.Ownership Mlmq.Server.Contents Mlmq.Server.Flight
open Mlmq.Util.ByteBufferUtil (ObjectStream)

variable {ε : Type} {s s' : Broker} {i j w n : ℕ} {client : Client}
  {config : BrokerConfiguration} {stream : ObjectStream ε} {l : Label ε}

/-! ### Contexts -/

/-- The handles of all connections there have been. -/
def handles (s : Broker) : List Int32 :=
  s.clients.map fun client => client.clientApplicationContext.clientNetworkHandle

/-- The handle of the connection that is accepted as number `i`. -/
def handleOf (i : ℕ) : Int32 := Int32.ofNat (i + 1)

theorem handleOf_injective (hi : i < 2 ^ 32) (hj : j < 2 ^ 32)
    (h : handleOf i = handleOf j) : i = j := by
  have hbits := congrArg (fun x : Int32 => x.toBitVec.toNat) h
  unfold handleOf at hbits
  simp only [Int32.toBitVec_ofNat', BitVec.toNat_ofNat] at hbits
  omega

theorem map_set_of_eq {α β : Type} {f : α → β} {as : List α} {a a' : α} (h : as[i]? = some a)
    (hf : f a' = f a) : (as.set i a').map f = as.map f := by
  obtain ⟨hlt, ha⟩ := List.getElem?_eq_some_iff.mp h
  have hlt' : i < (as.map f).length := by rwa [List.length_map]
  have hget : f a = (as.map f)[i] := by rw [List.getElem_map, ha]
  rw [List.map_set, hf, hget]
  exact List.set_getElem_self hlt'

/-- The counter, and the handles under which connections are found. -/
structure Registered (s : Broker) : Prop where
  counter : s.clientCounter = Int32.ofNat s.clients.length
  handles : handles s = (List.range s.clients.length).map handleOf
  lookup : s.clients.length < 2 ^ 32 → ∀ (i : ℕ) (client : Client), s.clients[i]? = some client →
    client.selectionKey.isValid = true → s.connectedClients (handleOf i) = some i

theorem Registered.handle (h : Registered s) (hi : s.clients[i]? = some client) :
    client.clientApplicationContext.clientNetworkHandle = handleOf i := by
  have hlt := (List.getElem?_eq_some_iff.mp hi).1
  have hget : (Handles.handles s)[i]? = some client.clientApplicationContext.clientNetworkHandle := by
    unfold Handles.handles
    rw [List.getElem?_map, hi]
    rfl
  rw [h.handles, List.getElem?_map, List.getElem?_range hlt] at hget
  exact (Option.some.inj hget).symm

/-- **What is found under the handle of a connection is the connection**, while handles are not
given out twice. -/
theorem Registered.eq_of_lookup (h : Registered s) (hconn : Connected s)
    (hlen : s.clients.length < 2 ^ 32) (hi : s.clients[i]? = some client)
    (hj : s.connectedClients client.clientApplicationContext.clientNetworkHandle = some j) :
    j = i := by
  obtain ⟨client', hj', -, hhandle⟩ := hconn _ _ hj
  rw [h.handle hj', h.handle hi] at hhandle
  have hilt := (List.getElem?_eq_some_iff.mp hi).1
  have hjlt := (List.getElem?_eq_some_iff.mp hj').1
  exact handleOf_injective (hjlt.trans hlen) (hilt.trans hlen) hhandle

/-- A connection that is not found is closed. -/
theorem Registered.isValid_eq_false (h : Registered s) (hlen : s.clients.length < 2 ^ 32)
    (hi : s.clients[i]? = some client)
    (hnone : s.connectedClients client.clientApplicationContext.clientNetworkHandle = none) :
    client.selectionKey.isValid = false := by
  by_contra hvalid
  have hfound := h.lookup hlen i client hi (Bool.eq_true_of_not_eq_false hvalid)
  rw [h.handle hi, hfound] at hnone
  cases hnone

/-! ### Steps -/

theorem Registered.congr (h : Registered s) (hclients : s'.clients = s.clients)
    (hconn : s'.connectedClients = s.connectedClients)
    (hcounter : s'.clientCounter = s.clientCounter) : Registered s' where
  counter := by rw [hcounter, hclients, h.counter]
  handles := by
    unfold Handles.handles
    rw [hclients]
    exact h.handles
  lookup hlen i client hi hvalid := by
    rw [hclients] at hlen hi
    rw [hconn]
    exact h.lookup hlen i client hi hvalid

/-- A connection has changed, but not its context. -/
theorem Registered.set {client' : Client} (h : Registered s) (hi : s.clients[i]? = some client)
    (hclients : s'.clients = s.clients.set i client')
    (hconn : s'.connectedClients = s.connectedClients)
    (hcounter : s'.clientCounter = s.clientCounter)
    (hctx : client'.clientApplicationContext = client.clientApplicationContext)
    (hkey : client'.selectionKey.isValid = true → client.selectionKey.isValid = true) :
    Registered s' where
  counter := by rw [hcounter, hclients, List.length_set, h.counter]
  handles := by
    unfold Handles.handles
    rw [hclients, map_set_of_eq hi (by rw [hctx]), List.length_set]
    exact h.handles
  lookup hlen j c hj hvalid := by
    rw [hclients, List.length_set] at hlen
    rw [hclients] at hj
    rw [hconn]
    rcases eq_or_ne i j with rfl | hne
    · rw [List.getElem?_set_self (List.getElem?_eq_some_iff.mp hi).1] at hj
      obtain rfl := Option.some.inj hj
      exact h.lookup hlen i client hi (hkey hvalid)
    · rw [List.getElem?_set_ne hne] at hj
      exact h.lookup hlen j c hj hvalid

theorem Registered.disconnectCLient (h : Registered s) (hi : s.clients[i]? = some client) :
    Registered (s.disconnectCLient i) := by
  have hlen' : (s.disconnectCLient i).clients.length = s.clients.length :=
    length_clients_disconnectCLient
  unfold Broker.disconnectCLient at hlen' ⊢
  simp only [hi] at hlen' ⊢
  refine ⟨by rw [hlen']; exact h.counter, ?_, fun hlen j c hj hvalid => ?_⟩
  · rw [hlen', ← h.handles]
    exact map_set_of_eq hi rfl
  · rw [hlen'] at hlen
    have hilt := (List.getElem?_eq_some_iff.mp hi).1
    change (s.clients.set i _)[j]? = some c at hj
    rcases eq_or_ne i j with rfl | hne
    · rw [List.getElem?_set_self hilt] at hj
      obtain rfl := Option.some.inj hj
      cases hvalid
    · rw [List.getElem?_set_ne hne] at hj
      have hjlt := (List.getElem?_eq_some_iff.mp hj).1
      have hhandle : handleOf j ≠ client.clientApplicationContext.clientNetworkHandle := by
        rw [h.handle hi]
        exact fun heq => hne (handleOf_injective (hjlt.trans hlen) (hilt.trans hlen) heq).symm
      exact (Function.update_of_ne hhandle _ _).trans (h.lookup hlen j c hj hvalid)

@[simp] theorem clientCounter_aquire : (s.aquire config).2.clientCounter = s.clientCounter := by
  unfold Broker.aquire
  split <;> rfl

/-- The next connection gets the next handle. -/
theorem Registered.selectAccept (h : Registered s) : Registered (s.selectAccept config) := by
  have hlen' : (s.selectAccept config).clients.length = s.clients.length + 1 :=
    length_clients_selectAccept
  have hcounter : s.clientCounter + 1 = handleOf s.clients.length := by
    rw [h.counter]
    unfold handleOf
    rw [Int32.ofNat_add]
    rfl
  refine ⟨?_, ?_, fun hlen j c hj hvalid => ?_⟩
  · rw [hlen']
    unfold Broker.selectAccept
    dsimp only
    rw [clientCounter_aquire, clientCounter_aquire, hcounter]
    rfl
  · rw [hlen', List.range_succ, List.map_append, ← h.handles]
    unfold Broker.selectAccept Handles.handles
    dsimp only
    rw [clients_aquire, clients_aquire, List.map_append, hcounter]
    rfl
  · rw [hlen'] at hlen
    unfold Broker.selectAccept at hj ⊢
    dsimp only at hj ⊢
    rw [connectedClients_aquire, connectedClients_aquire, hcounter]
    rw [clients_aquire, clients_aquire] at hj
    rcases eq_or_ne j s.clients.length with rfl | hne
    · exact Function.update_self _ _ _
    · have hjlt : j < s.clients.length := by
        have := (List.getElem?_eq_some_iff.mp hj).1
        rw [List.length_append, List.length_singleton] at this
        exact (Nat.lt_succ_iff.mp this).lt_of_ne hne
      rw [List.getElem?_append_left hjlt] at hj
      have hhandle : handleOf j ≠ handleOf s.clients.length := fun heq =>
        hne (handleOf_injective (by omega) (by omega) heq)
      exact (Function.update_of_ne hhandle _ _).trans (h.lookup (by omega) j c hj hvalid)

@[simp] theorem connectedClients_takeMessage :
    (s.takeMessage config i client).connectedClients = s.connectedClients := by
  unfold Broker.takeMessage Broker.onMessage
  dsimp only
  split <;> exact connectedClients_aquire

@[simp] theorem clientCounter_takeMessage :
    (s.takeMessage config i client).clientCounter = s.clientCounter := by
  unfold Broker.takeMessage Broker.onMessage
  dsimp only
  split <;> exact clientCounter_aquire

theorem Registered.selectRead {chunk : Option (List UInt8)} (h : Registered s)
    (hs : s.selectRead config i chunk = some s') : Registered s' := by
  obtain ⟨client, rxBuffer, s₁, hi, hvalid, -, hs₁, rfl⟩ := Broker.selectRead_eq_some hs
  have h₁ : Registered s₁ := h.congr (by rw [hs₁]) (by rw [hs₁]) (by rw [hs₁])
  have hi₁ : s₁.clients[i]? = some client := hs₁ ▸ hi
  have h₂ : Registered (s₁.takeMessage config i client) :=
    h₁.set hi₁ clients_takeMessage connectedClients_takeMessage clientCounter_takeMessage rfl id
  split_ifs
  · exact h₂.disconnectCLient (getElem?_takeMessage hi₁)
  · exact h₂
  · exact h₁.disconnectCLient hi₁
  · exact h₁

theorem Registered.selectWrite {byteCount : ℕ} (h : Registered s)
    (hs : s.selectWrite i byteCount = some s') : Registered s' := by
  obtain ⟨client, hi, hvalid, ⟨-, rfl⟩ | ⟨tx, txBuffer, htx, -, -, rfl⟩⟩ :=
    Broker.selectWrite_eq_some hs
  · exact h.disconnectCLient hi
  · unfold Broker.afterWrite
    split_ifs
    · exact h.congr rfl rfl rfl
    · exact h.set hi rfl rfl rfl rfl fun _ => hvalid

theorem Registered.selectQueue (h : Registered s) (hconn : Connected s)
    (hs : s.selectQueue = some s') : Registered s' := by
  obtain ⟨-, rfl⟩ | ⟨task, responseQueue, client, -, -, ⟨-, rfl⟩ | ⟨j, s₁, completed, hj, hset,
    rfl⟩⟩ := Broker.selectQueue_eq_some hs
  · exact h.congr rfl rfl rfl
  · exact h.congr rfl rfl rfl
  · obtain ⟨client', hj', hvalid, -⟩ := hconn _ _ hj
    have h₁ : Registered s₁ := by
      obtain ⟨-, -, rfl⟩ | ⟨buffer, -, -, rfl⟩ :=
        Broker.setResponse_eq_some (s := { s with responseQueue }) hj' hvalid hset
      · exact h.set hj' rfl rfl rfl rfl id
      · exact h.set hj' rfl rfl rfl rfl fun _ => hvalid
    split_ifs
    · exact h₁.congr rfl rfl rfl
    · exact h₁.congr rfl rfl rfl

theorem Registered.step (h : Registered s) (hconn : Connected s)
    (hs : Step config stream s l s') : Registered s' := by
  obtain ⟨-, hs⟩ := hs
  cases l with
  | select => exact Option.some.inj hs ▸ h.congr rfl rfl rfl
  | accept => exact Option.some.inj hs ▸ h.selectAccept
  | acceptFails => exact Option.some.inj hs ▸ h.congr rfl rfl rfl
  | read i chunk => exact h.selectRead hs
  | write i byteCount => exact h.selectWrite hs
  | fails i =>
    obtain ⟨client, hi, -, rfl⟩ := Broker.selectFails_eq_some hs
    exact h.disconnectCLient hi
  | keysDone => exact Option.some.inj hs ▸ h.congr rfl rfl rfl
  | selectQueue => exact h.selectQueue hconn hs
  | take w =>
    obtain ⟨task, requestQueue, -, -, rfl⟩ := Broker.take_eq_some hs
    exact h.congr rfl rfl rfl
  | decode w =>
    obtain ⟨task, -, ⟨-, rfl⟩ | ⟨buffer, rawRequest, rawRequest', worker, -, -, rfl, -⟩⟩ :=
      Broker.decode_eq_some hs <;> exact h.congr rfl rfl rfl
  | answer w outcome =>
    obtain ⟨task, buffer, request, rawRequest, rawRequest', worker, -, -, rfl, -⟩ :=
      Broker.answer_eq_some hs
    exact h.congr rfl rfl rfl
  | post w =>
    obtain ⟨task, -, ⟨responseQueue, -, rfl⟩ | ⟨-, rfl⟩⟩ := Broker.post_eq_some hs <;>
      exact h.congr rfl rfl rfl
  | wake w =>
    obtain ⟨dropped, -, rfl⟩ := Broker.wake_eq_some hs
    exact h.congr rfl rfl rfl

theorem registered_init (config : BrokerConfiguration) : Registered (init config) where
  counter := rfl
  handles := rfl
  lookup _ i client hi := by cases hi

end Mlmq.Server.Handles
