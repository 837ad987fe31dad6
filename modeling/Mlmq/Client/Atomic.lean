import Mlmq.Client.Service
import Mlmq.Lib.Rpc

/-! # The broker refines remote procedure calls

The clients with their sockets, the broker and the database against callers that share one server,
whose steps are those of the `RequestProcessor`. An answer of a worker is the step in which the
request is executed; what the frames, buffers and queues are for does not show. A socket that ends
is a caller that leaves, and the request that it has left behind may still be executed.

Every run of the network is matched by a run of such calls, event by event (`refines_rpc`). What
holds of the calls of any callers therefore holds of those of the clients. -/

namespace Mlmq.Client.Atomic

open Mlmq.Lib Mlmq.Lib.Nio Mlmq.Lib.Transition Mlmq.Db.Dao
open Mlmq.Net.Requests Mlmq.Net.Responses Mlmq.Net.Factory Mlmq.Net.RoundTrip
open Mlmq.Server.System Mlmq.Server.Ownership Mlmq.Server.Flight Mlmq.Server.Motion
open Mlmq.Server.Routing
open Mlmq.Server.Accounting Mlmq.Client.RemoteCalls Mlmq.Client.Service
open Mlmq.Client.ClientConnection Mlmq.Client.ResponseReassembly
open Mlmq.Server.Processing (RequestStep Reliable Fault)
open Mlmq.Server.FrameSize (clientIoBufferCapacity)
open Mlmq.Server.Worker (responseOf)
open Mlmq.Util.ByteBufferUtil (ObjectStream)

variable {config : BrokerConfiguration} {stream : ObjectStream JavaException}
  {ok : Server.Processing.World → Op → Fault → Prop} {x y : Service.State} {i j : ℕ}

/-! ### The relation -/

abbrev Callers : Type := Rpc.State (Server.Processing.State ℕ) ℕ Request Outcome

abbrev Observed : Type := Rpc.Label ℕ Request Outcome

/-- What a client is doing, as a caller. -/
inductive Matches (x : Service.State) (i : ℕ) : Rpc.Caller Request Outcome → Prop
  | idle {b} (hc : (x.network.connections i).caller = .idle b) : Matches x i .idle
  | waiting {call b request} (hc : (x.network.connections i).caller = .waiting call b)
    (hrequest : (x.network.connections i).submitted[(x.session i).length]? = some request) :
    Matches x i (.waiting request)
  | answered {call b l} (hc : (x.network.connections i).caller = .waiting call b)
    (hl : (x.session i)[(x.network.connections i).returned.length]? = some l) :
    Matches x i (.answered l.2.1 l.2.2)
  | left (hc : (x.network.connections i).caller = .ended) :
    Matches x i (.left (x.network.connections i).submitted[(x.session i).length]?)

/-- The state of the network, and what the callers have done so far. -/
structure Abstracts (x : Service.State) (js : List Observed) (a : Callers) : Prop where
  server : a.server = x.store
  caller : ∀ i, Matches x i (a.caller i)
  executed : Rpc.executed js = x.history
  submits : ∀ i, Rpc.submits i js = (x.network.connections i).submitted
  receives : ∀ i, (Rpc.receives i js).map responseOf = (x.network.connections i).returned

/-- What an event of the network shows. -/
def Shows : Event JavaException → List Observed → Prop
  | .submit i request, ks => ks = [.submit i request]
  | .receive i _, ks => ks = [] ∨ ∃ outcome, ks = [.receive i outcome]
  | .ends i, ks => ks = [.leave i]
  | .broker (.answer _ outcome), ks => ∃ i request, ks = [.execute i request outcome]
  | .broker _, ks => ks = []

/-! ### What is open -/

/-- The numbers of the requests that have been submitted, processed and returned. -/
structure Counts (x : Service.State) (i : ℕ) : Prop where
  session_le : (x.session i).length ≤ (x.network.connections i).submitted.length
  returned_le : (x.network.connections i).returned.length ≤ (x.session i).length
  submitted_le : (x.network.connections i).submitted.length ≤
    (x.network.connections i).returned.length + 1
  idle : ∀ b, (x.network.connections i).caller = .idle b →
    (x.network.connections i).returned.length = (x.network.connections i).submitted.length
  waiting : ∀ call b, (x.network.connections i).caller = .waiting call b →
    (x.network.connections i).returned.length + 1 = (x.network.connections i).submitted.length

theorem counts (h : Service.Invariant stream x) (hlen : x.network.broker.clients.length < 2 ^ 32)
    (i : ℕ) : Counts x i where
  session_le := by
    have hle := (h.session_prefix hlen i).length_le
    rwa [List.length_map] at hle
  returned_le := by
    have hle := (h.returned_prefix hlen i).length_le
    rwa [List.length_map] at hle
  submitted_le := (h.recorded hlen).open_calls i
  idle _ hidle := h.whole.idle hlen hidle
  waiting call b hwaiting := by
    obtain ⟨pending, -, hcalls⟩ := (h.whole.linked hlen i).caller
    rw [hwaiting] at hcalls
    exact hcalls.2.2.2.2.2

variable {c c' : RemoteCalls.Connection JavaException}

/-- A call that is submitted waits. -/
theorem submit_waits {request : Request} (h : Service.Invariant stream x)
    (hlen : x.network.broker.clients.length < 2 ^ 32)
    (hfit : (frame (requestPayload.enc request)).length ≤ clientIoBufferCapacity)
    (hs : (x.network.connections i).submit stream request = some c') :
    (∃ b, (x.network.connections i).caller = .idle b) ∧ (∃ call b, c'.caller = .waiting call b) ∧
      c'.submitted = (x.network.connections i).submitted ++ [request] ∧
      c'.returned = (x.network.connections i).returned := by
  obtain ⟨pending, -, hcalls⟩ := (h.whole.linked hlen i).caller
  unfold RemoteCalls.Connection.submit at hs
  split at hs
  · rename_i b hcaller
    rw [hcaller] at hcalls
    obtain ⟨hb, -⟩ := hcalls
    set call : Call := ⟨request, []⟩
    have hfit' : (frame (requestPayload.enc call.request)).length ≤ clientIoBufferCapacity := hfit
    have hopen : none ∉ call.reads := List.not_mem_nil
    have hw : ¬ Arrived (received [] call.reads) := not_arrived_nil
    obtain ⟨b', -, -, heq⟩ := submitRequest_waits stream hb hfit' hopen hw
    rw [← Option.some.inj hs]
    unfold RemoteCalls.Connection.proceed
    rw [heq]
    exact ⟨⟨b, hcaller⟩, ⟨call, b, rfl⟩, rfl, rfl⟩
  · cases hs

/-- A call that reads waits on, or it is over. -/
theorem receive_cases {chunk : List UInt8} (hs : c.receive stream chunk = some c') :
    (∃ call b, c.caller = .waiting call b) ∧ c'.submitted = c.submitted ∧
      ((∃ call b, c'.caller = .waiting call b) ∧ c'.returned = c.returned ∨
        (∃ b, c'.caller = .idle b) ∧
          (c'.returned = c.returned ∨ ∃ response, c'.returned = c.returned ++ [response])) := by
  unfold RemoteCalls.Connection.receive at hs
  split at hs
  · rename_i call b hcaller
    split_ifs at hs
    obtain rfl := Option.some.inj hs
    refine ⟨⟨call, b, hcaller⟩, ?_⟩
    unfold RemoteCalls.Connection.proceed
    split
    · exact ⟨rfl, .inl ⟨⟨_, _, rfl⟩, rfl⟩⟩
    · exact ⟨rfl, .inr ⟨⟨_, rfl⟩, .inr ⟨_, rfl⟩⟩⟩
    · exact ⟨rfl, .inr ⟨⟨_, rfl⟩, .inl rfl⟩⟩
  · cases hs

/-! ### Steps of a client -/

variable {a : Callers} {js : List Observed} {r : Rpc.Caller Request Outcome}

theorem Matches.congr (h : Matches x i r)
    (hcaller : (y.network.connections i).caller = (x.network.connections i).caller)
    (hsubmitted : (y.network.connections i).submitted = (x.network.connections i).submitted)
    (hreturned : (y.network.connections i).returned = (x.network.connections i).returned)
    (hsession : y.session i = x.session i) : Matches y i r := by
  cases h with
  | idle hc => exact .idle (hcaller.trans hc)
  | waiting hc hrequest =>
    exact .waiting (hcaller.trans hc) (by rwa [hsubmitted, hsession])
  | answered hc hl => exact .answered (hcaller.trans hc) (by rwa [hsession, hreturned])
  | left hc =>
    rw [← hsubmitted, ← hsession]
    exact .left (hcaller.trans hc)

theorem Matches.eq_idle (h : Matches x i r) {b : ByteBuffer}
    (hc : (x.network.connections i).caller = .idle b) : r = .idle := by
  cases h with
  | idle => rfl
  | waiting hc' | answered hc' | left hc' =>
    rw [hc] at hc'
    cases hc'

/-- Nothing is open behind the last request. -/
theorem Counts.none_of_lt (h : Counts x i)
    (hlt : (x.network.connections i).returned.length < (x.session i).length) :
    (x.network.connections i).submitted[(x.session i).length]? = none := by
  have hle := h.submitted_le
  rw [List.getElem?_eq_none_iff]
  omega

/-- **A caller that leaves** leaves behind what has not been executed. -/
theorem Matches.pending (h : Matches x i r) (hcounts : Counts x i) :
    r.pending = (x.network.connections i).submitted[(x.session i).length]? := by
  cases h with
  | @idle b hc =>
    have hidle := hcounts.idle b hc
    have hle := hcounts.returned_le
    refine (List.getElem?_eq_none_iff.mpr ?_).symm
    omega
  | waiting hc hrequest => exact hrequest.symm
  | answered hc hl =>
    exact (hcounts.none_of_lt (List.getElem?_eq_some_iff.mp hl).1).symm
  | left hc => rfl

/-- Only a connection changes, and with it what its caller is doing. -/
theorem Abstracts.update {ks : List Observed} (h : Abstracts x js a) (hstore : y.store = x.store)
    (hhistory : y.history = x.history) (hnetwork : y.network = { x.network with
      connections := Function.update x.network.connections j c' })
    (hcaller : Matches y j r) (hexecuted : Rpc.executed ks = [])
    (hsubmits : ∀ i, Rpc.submits i ks = if j = i then
      c'.submitted.drop (x.network.connections j).submitted.length else [])
    (hsubmitted : (x.network.connections j).submitted <+: c'.submitted)
    (hreceives : ∀ i, (Rpc.receives i ks).map responseOf = if j = i then
      c'.returned.drop (x.network.connections j).returned.length else [])
    (hreturned : (x.network.connections j).returned <+: c'.returned) :
    Abstracts y (js ++ ks) (a.set j r) := by
  have hconnection : ∀ i, y.network.connections i =
      if j = i then c' else x.network.connections i := by
    intro i
    rw [hnetwork]
    show Function.update x.network.connections j c' i = _
    rcases eq_or_ne j i with rfl | hne
    · rw [Function.update_self, if_pos rfl]
    · rw [Function.update_of_ne hne.symm, if_neg hne]
  have hsession : ∀ i, y.session i = x.session i := fun i => by
    unfold State.session
    rw [hhistory]
  refine ⟨h.server.trans hstore.symm, fun i => ?_, ?_, fun i => ?_, fun i => ?_⟩
  · show Matches y i (Function.update a.caller j r i)
    rcases eq_or_ne j i with rfl | hne
    · rwa [Function.update_self]
    · rw [Function.update_of_ne hne.symm]
      have hsame := hconnection i
      rw [if_neg hne] at hsame
      exact (h.caller i).congr (by rw [hsame]) (by rw [hsame]) (by rw [hsame]) (hsession i)
  · rw [Rpc.executed_append, hexecuted, List.append_nil, h.executed, hhistory]
  · rw [Rpc.submits_append, h.submits i, hsubmits i, hconnection i]
    split_ifs with hji
    · subst hji
      exact List.prefix_iff_eq_append.mp hsubmitted
    · rw [List.append_nil]
  · rw [Rpc.receives_append, List.map_append, h.receives i, hreceives i, hconnection i]
    split_ifs with hji
    · subst hji
      exact List.prefix_iff_eq_append.mp hreturned
    · rw [List.append_nil]

theorem Abstracts.submit {request : Request} (h : Abstracts x js a)
    (hx : Service.Invariant stream x) (hlen : x.network.broker.clients.length < 2 ^ 32)
    (hfit : (frame (requestPayload.enc request)).length ≤ clientIoBufferCapacity)
    (hs : Serves config stream ok x (.submit j request) y) :
    ∃ a', Rpc.Step (RequestStep ok) a (.submit j request) a' ∧
      Abstracts y (js ++ [.submit j request]) a' := by
  obtain ⟨hnext, hstore, hhistory⟩ := hs
  obtain ⟨c', hc', hnetwork⟩ := Option.map_eq_some_iff.mp hnext
  obtain ⟨⟨b, hidle⟩, ⟨call, b', hwaiting⟩, hsubmitted, hreturned⟩ := submit_waits hx hlen hfit hc'
  have hcounts := counts hx hlen j
  have hlengths := hcounts.idle b hidle
  have hle := hcounts.returned_le
  have hle' := hcounts.session_le
  have hconnection : y.network.connections j = c' := by
    rw [← hnetwork]
    exact Function.update_self ..
  have hcaller : Matches y j (.waiting request) := by
    refine .waiting (hconnection ▸ hwaiting) ?_
    have hlast : (x.session j).length = (x.network.connections j).submitted.length := by omega
    have hsession : y.session j = x.session j := by
      unfold State.session
      rw [hhistory]
    rw [hsession, hconnection, hsubmitted, hlast, List.getElem?_concat_length]
  refine ⟨_, .submit request ((h.caller j).eq_idle hidle), h.update hstore hhistory hnetwork.symm
    hcaller rfl (fun i => ?_) ⟨_, hsubmitted.symm⟩ (fun i => ?_) ⟨[], by rw [hreturned,
      List.append_nil]⟩⟩
  · rw [hsubmitted, List.drop_left]
    by_cases hji : j = i <;> simp [Rpc.submits, hji]
  · rw [hreturned, List.drop_length, ite_self]
    rfl

theorem Abstracts.receive {chunk : List UInt8} (h : Abstracts x js a)
    (hx : Service.Invariant stream x) (hy : Service.Invariant stream y)
    (hlen : x.network.broker.clients.length < 2 ^ 32)
    (hs : Serves config stream ok x (.receive j chunk) y) :
    ∃ ks a', Shows (.receive j chunk) ks ∧ Run (Rpc.Step (RequestStep ok)) a ks a' ∧
      Abstracts y (js ++ ks) a' := by
  obtain ⟨hnext, hstore, hhistory⟩ := hs
  obtain ⟨c', hc', hnetwork⟩ := Option.map_eq_some_iff.mp hnext
  obtain ⟨⟨call, b, hwaiting⟩, hsubmitted, hcases⟩ := receive_cases hc'
  have hlen' : y.network.broker.clients.length < 2 ^ 32 := by rwa [← hnetwork]
  have hcounts := counts hx hlen j
  have hcounts' := counts hy hlen' j
  have hconnection : y.network.connections j = c' := by
    rw [← hnetwork]
    exact Function.update_self ..
  have hsession : y.session j = x.session j := by
    unfold State.session
    rw [hhistory]
  have hnone : ∀ i, Rpc.submits i ([] : List Observed) = if j = i then
      c'.submitted.drop (x.network.connections j).submitted.length else [] := by
    intro i
    rw [hsubmitted, List.drop_length, ite_self]
    rfl
  have hsame : (x.network.connections j).submitted <+: c'.submitted := by rw [hsubmitted]
  rcases hcases with ⟨⟨call', b', hwaiting'⟩, hreturned⟩ | ⟨⟨b', hidle⟩, hreturned⟩
  · -- the call waits on
    refine ⟨[], _, .inl rfl, .nil _, ?_⟩
    have hcaller : ∀ {r}, Matches x j r → Matches y j r := by
      intro r hr
      cases hr with
      | idle hc | left hc =>
        rw [hwaiting] at hc
        cases hc
      | waiting hc hrequest =>
        refine .waiting (hconnection ▸ hwaiting') ?_
        rwa [hsession, hconnection, hsubmitted]
      | answered hc hl =>
        refine .answered (hconnection ▸ hwaiting') ?_
        rwa [hsession, hconnection, hreturned]
    have ha : a.set j (a.caller j) = a := by
      unfold Rpc.State.set
      rw [Function.update_eq_self]
    have hupdate := h.update hstore hhistory hnetwork.symm (hcaller (h.caller j)) rfl hnone hsame
      (fun i => by rw [hreturned, List.drop_length, ite_self]; rfl) (by rw [hreturned])
    rwa [ha] at hupdate
  · -- the call is over, with the response to its request
    have hlengths := hcounts'.idle b' (hconnection ▸ hidle)
    have hopen := hcounts.waiting call b hwaiting
    rw [hconnection, hsubmitted] at hlengths
    obtain ⟨response, hreturned⟩ : ∃ response, c'.returned =
        (x.network.connections j).returned ++ [response] := by
      refine hreturned.resolve_left fun heq => ?_
      rw [heq] at hlengths
      omega
    have hresponse : (x.session j)[(x.network.connections j).returned.length]?.map
        (fun l => responseOf l.2.2) = some response := by
      rw [← List.getElem?_map, ← hsession]
      refine getElem?_of_prefix (hy.returned_prefix hlen' j) ?_
      rw [hconnection, hreturned, List.getElem?_concat_length]
    obtain ⟨l, hl, rfl⟩ := Option.map_eq_some_iff.mp hresponse
    have hanswered : ∀ {r}, Matches x j r → r = .answered l.2.1 l.2.2 := by
      intro r hr
      cases hr with
      | idle hc | left hc =>
        rw [hwaiting] at hc
        cases hc
      | waiting hc hrequest =>
        have hlt := (List.getElem?_eq_some_iff.mp hrequest).1
        have hlt' := (List.getElem?_eq_some_iff.mp hl).1
        omega
      | answered hc hl' =>
        obtain rfl := Option.some.inj (hl.symm.trans hl')
        rfl
    refine ⟨[.receive j l.2.2], _, .inr ⟨_, rfl⟩, .single (.receive (hanswered (h.caller j))),
      h.update hstore hhistory hnetwork.symm (.idle (hconnection ▸ hidle)) rfl hnone hsame
        (fun i => ?_) ⟨_, hreturned.symm⟩⟩
    rw [hreturned, List.drop_left]
    by_cases hji : j = i <;> simp [Rpc.receives, hji]

theorem Abstracts.ends (h : Abstracts x js a) (hx : Service.Invariant stream x)
    (hlen : x.network.broker.clients.length < 2 ^ 32)
    (hs : Serves config stream ok x (.ends j) y) :
    ∃ a', Rpc.Step (RequestStep ok) a (.leave j) a' ∧ Abstracts y (js ++ [.leave j]) a' := by
  obtain ⟨hnext, hstore, hhistory⟩ := hs
  have hnetwork := Option.some.inj hnext
  have hconnection : y.network.connections j =
      { x.network.connections j with caller := .ended } := by
    rw [← hnetwork]
    exact Function.update_self ..
  have hsession : y.session j = x.session j := by
    unfold State.session
    rw [hhistory]
  have hcaller : Matches y j (.left (a.caller j).pending) := by
    rw [(h.caller j).pending (counts hx hlen j), ← hsession,
      show (x.network.connections j).submitted = (y.network.connections j).submitted by
        rw [hconnection]]
    exact .left (by rw [hconnection])
  refine ⟨_, .leave a j, h.update hstore hhistory hnetwork.symm hcaller rfl (fun i => ?_)
    List.prefix_rfl (fun i => ?_) List.prefix_rfl⟩
  · rw [List.drop_length, ite_self]
    rfl
  · rw [List.drop_length, ite_self]
    rfl

/-! ### Steps of the broker -/

/-- The sockets do not show. -/
theorem connection_of_broker {l : Label JavaException}
    (hs : RemoteCalls.Step config stream x.network (.broker l) y.network) (i : ℕ) :
    (y.network.connections i).caller = (x.network.connections i).caller ∧
      (y.network.connections i).submitted = (x.network.connections i).submitted ∧
      (y.network.connections i).returned = (x.network.connections i).returned := by
  have hsockets := (sockets_eq_some (i := i) (broker_of_step hs).2.2).1
  rw [hsockets]
  exact ⟨rfl, rfl, rfl⟩

/-- A step that does not answer does not show. -/
theorem Abstracts.quiet {l : Label JavaException} (h : Abstracts x js a)
    (hanswer : ∀ w outcome, l ≠ .answer w outcome)
    (hs : Serves config stream ok x (.broker l) y) : Abstracts y js a := by
  obtain ⟨hnext, hprocesses⟩ := hs
  have hsame : y.store = x.store ∧ y.history = x.history := by
    unfold Processes at hprocesses
    split at hprocesses
    · rename_i w outcome heq
      exact absurd (Event.broker.inj heq) (hanswer w outcome)
    · exact hprocesses
  have hconnection := connection_of_broker hnext
  refine ⟨h.server.trans hsame.1.symm, fun i => ?_, h.executed.trans hsame.2.symm, fun i => ?_,
    fun i => ?_⟩
  · refine (h.caller i).congr (hconnection i).1 (hconnection i).2.1 (hconnection i).2.2 ?_
    unfold State.session
    rw [hsame.2]
  · exact (h.submits i).trans (hconnection i).2.1.symm
  · exact (h.receives i).trans (hconnection i).2.2.symm

/-- **An answer executes the open request of its connection.** -/
theorem Abstracts.answer {w : ℕ} {outcome : Outcome} (h : Abstracts x js a)
    (hx : Service.Invariant stream x) (hy : Service.Invariant stream y)
    (hlen : x.network.broker.clients.length < 2 ^ 32)
    (hlen' : y.network.broker.clients.length < 2 ^ 32)
    (hs : Serves config stream ok x (.broker (.answer w outcome)) y) :
    ∃ i request a', Rpc.Step (RequestStep ok) a (.execute i request outcome) a' ∧
      Abstracts y (js ++ [.execute i request outcome]) a' := by
  obtain ⟨hnext, task, buffer, request, -, hserves, hhistory⟩ := hs
  set j := task.clientContext
  have hconnection := connection_of_broker hnext
  have hsession : ∀ i, y.session i =
      x.session i ++ if j = i then [(j, request, outcome)] else [] := by
    intro i
    unfold State.session
    rw [hhistory, List.filter_append, List.filter_singleton]
    by_cases hji : j = i <;> simp [hji]
  have hcounts := counts hx hlen j
  have hcounts' := counts hy hlen' j
  have hnew : y.session j = x.session j ++ [(j, request, outcome)] := by rw [hsession, if_pos rfl]
  -- what has been processed has been submitted
  have hrequest : (x.network.connections j).submitted[(x.session j).length]? = some request := by
    rw [← (hconnection j).2.1]
    refine getElem?_of_prefix (hy.session_prefix hlen' j) ?_
    rw [hnew, List.map_append, List.getElem?_append_right (by rw [List.length_map]),
      List.length_map, Nat.sub_self]
    rfl
  have hlt := (List.getElem?_eq_some_iff.mp hrequest).1
  have hopen := hcounts.submitted_le
  have hreturned := hcounts.returned_le
  have habstracts : ∀ {r}, Matches y j r →
      Abstracts y (js ++ [.execute j request outcome]) { a.set j r with server := y.store } := by
    intro r hr
    refine ⟨rfl, fun i => ?_, ?_, fun i => ?_, fun i => ?_⟩
    · show Matches y i (Function.update a.caller j r i)
      rcases eq_or_ne j i with rfl | hne
      · rwa [Function.update_self]
      · rw [Function.update_of_ne hne.symm]
        refine (h.caller i).congr (hconnection i).1 (hconnection i).2.1 (hconnection i).2.2 ?_
        rw [hsession, if_neg hne, List.append_nil]
    · rw [Rpc.executed_append, h.executed, hhistory]
      rfl
    · rw [Rpc.submits_append, h.submits i, (hconnection i).2.1]
      exact List.append_nil _
    · rw [Rpc.receives_append, List.map_append, h.receives i, (hconnection i).2.2]
      exact List.append_nil _
  have hserves' : RequestStep ok a.server (j, request, outcome) y.store := by
    rw [h.server]
    exact hserves
  have hcases : a.caller j = .waiting request ∧ Matches y j (.answered request outcome) ∨
      a.caller j = .left (some request) ∧ Matches y j (.left none) := by
    have hr := h.caller j
    generalize a.caller j = r at hr
    cases hr with
    | @idle b hc =>
      have hidle := hcounts.idle b hc
      omega
    | @waiting call b request' hc hrequest' =>
      obtain rfl := Option.some.inj (hrequest.symm.trans hrequest')
      refine .inl ⟨rfl, ?_⟩
      have hlength : (x.network.connections j).returned.length = (x.session j).length := by omega
      have hl : (y.session j)[(y.network.connections j).returned.length]? =
          some (j, request, outcome) := by
        rw [(hconnection j).2.2, hnew, hlength, List.getElem?_concat_length]
      exact .answered ((hconnection j).1.trans hc) hl
    | answered hc hl =>
      have hlt' := (List.getElem?_eq_some_iff.mp hl).1
      omega
    | left hc =>
      refine .inr ⟨by rw [hrequest], ?_⟩
      have hnone : (y.network.connections j).submitted[(y.session j).length]? = none := by
        rw [List.getElem?_eq_none_iff, (hconnection j).2.1, hnew, List.length_append]
        have hone : [(j, request, outcome)].length = 1 := rfl
        omega
      rw [← hnone]
      exact .left ((hconnection j).1.trans hc)
  rcases hcases with ⟨ha, hmatches⟩ | ⟨ha, hmatches⟩
  · exact ⟨j, request, _, .execute ha hserves', habstracts hmatches⟩
  · exact ⟨j, request, _, .executeLate ha hserves', habstracts hmatches⟩

/-! ### Runs -/

/-- **Every event of the network is matched by the calls.** -/
theorem Abstracts.step {e : Event JavaException} (h : Abstracts x js a)
    (hx : Service.Invariant stream x) (hy : Service.Invariant stream y)
    (hlen : x.network.broker.clients.length < 2 ^ 32)
    (hlen' : y.network.broker.clients.length < 2 ^ 32) (hfit : e.Fits)
    (hs : Serves config stream ok x e y) :
    ∃ ks a', Shows e ks ∧ Run (Rpc.Step (RequestStep ok)) a ks a' ∧ Abstracts y (js ++ ks) a' := by
  cases e with
  | submit j request =>
    obtain ⟨a', hstep, ha'⟩ := h.submit hx hlen hfit hs
    exact ⟨_, a', rfl, .single hstep, ha'⟩
  | receive j chunk => exact h.receive hx hy hlen hs
  | ends j =>
    obtain ⟨a', hstep, ha'⟩ := h.ends hx hlen hs
    exact ⟨_, a', rfl, .single hstep, ha'⟩
  | broker l =>
    by_cases hanswer : ∃ w outcome, l = .answer w outcome
    · obtain ⟨w, outcome, rfl⟩ := hanswer
      obtain ⟨i, request, a', hstep, ha'⟩ := h.answer hx hy hlen hlen' hs
      exact ⟨_, a', ⟨i, request, rfl⟩, .single hstep, ha'⟩
    · have hquiet := h.quiet (fun w outcome heq => hanswer ⟨w, outcome, heq⟩) hs
      refine ⟨[], a, ?_, .nil a, by rwa [List.append_nil]⟩
      cases l with
      | answer w outcome => exact absurd ⟨w, outcome, rfl⟩ hanswer
      | _ => rfl

theorem abstracts_start (config : BrokerConfiguration) (ioBuffers : ℕ → ByteBuffer) :
    Abstracts (Service.start config ioBuffers) [] (Rpc.start .init) where
  server := rfl
  caller i := .idle (b := (ioBuffers i).clear) rfl
  executed := rfl
  submits _ := rfl
  receives _ := rfl

variable {ioBuffers : ℕ → ByteBuffer} {es : List (Event JavaException)}

/-- **The network refines remote procedure calls.** Every run of the clients, their sockets, the
broker and the database is matched by a run of callers of one server: every event shows at most one
of their steps, the requests are executed in the order of the answers, and every client submits and
gets what its caller does. -/
theorem refines_rpc (hstream : stream.RoundTrips)
    (hsize : ∀ i, (ioBuffers i).bytes.length = clientIoBufferCapacity)
    (h : Run (Serves config stream ok) (Service.start config ioBuffers) es x)
    (hfit : ∀ e ∈ es, e.Fits) (hlen : x.network.broker.clients.length < 2 ^ 32) :
    ∃ mss a, List.Forall₂ Shows es mss ∧
      Run (Rpc.Step (RequestStep ok)) (Rpc.start .init) mss.flatten a ∧
      Abstracts x mss.flatten a := by
  have hstart := invariant_start config stream hsize
  obtain ⟨hlen₀, hrun⟩ := Run.of_last
    (Q := fun x : Service.State => x.network.broker.clients.length < 2 ^ 32)
    (fun _ _ _ hx hs => hx.step hstream hs.2 hs.1)
    (fun x e y hx hs hlen => by
      rcases broker_cases hs.1.1 with hsame | ⟨l, -, hbroker⟩
      · rwa [hsame] at hlen
      · exact (length_clients_of_step hx.whole.good.inv hbroker).trans_lt hlen)
    (run_restrict_iff.mpr ⟨h, hfit⟩) hstart hlen
  obtain ⟨mss, a, hshows, hcalls, -, -, ha⟩ : ∃ mss a, List.Forall₂ Shows es mss ∧
      Run (Rpc.Step (RequestStep ok)) (Rpc.start .init) mss.flatten a ∧
      x.network.broker.clients.length < 2 ^ 32 ∧ Service.Invariant stream x ∧
      Abstracts x ([] ++ mss.flatten) a := hrun.simulate
    (R := fun x js a => x.network.broker.clients.length < 2 ^ 32 ∧ Service.Invariant stream x ∧
      Abstracts x js a)
    (fun x e y js a hR hs => by
      obtain ⟨hlen, hx, ha⟩ := hR
      obtain ⟨⟨hserves, hfit⟩, hlen'⟩ := hs
      have hy := hx.step hstream hfit hserves
      obtain ⟨ks, a', hshows, hcalls, ha'⟩ := ha.step hx hy hlen hlen' hfit hserves
      exact ⟨ks, a', hshows, hcalls, hlen', hy, ha'⟩)
    ⟨hlen₀, hstart, abstracts_start config ioBuffers⟩
  exact ⟨mss, a, hshows, hcalls, ha⟩

/-- The calls of the client that sends a message to itself. -/
theorem refines_rpc_mailing : ∃ x mss a, Run (Serves mediumConfiguration nulls Reliable)
    (Service.start mediumConfiguration fun _ => openedBuffer) mailing x ∧
      List.Forall₂ Shows mailing mss ∧
      Run (Rpc.Step (RequestStep Reliable)) (Rpc.start .init) mss.flatten a ∧
      Abstracts x mss.flatten a := by
  obtain ⟨x, hx, hlen, -⟩ := exists_mailed
  obtain ⟨mss, a, hrefines⟩ := refines_rpc nulls_roundTrips (fun _ => List.length_replicate) hx
    fits_mailing hlen
  exact ⟨x, mss, a, hx, hrefines⟩

end Mlmq.Client.Atomic
