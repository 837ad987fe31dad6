import Mlmq.Server.Pipelining

/-! # One connection of the broker

What the steps of the broker do to one connection, when its peer sends a request only after the
last one has been answered: to the part of the frame that has been received (`Receiving`,
`Gathers`), to the buffers of the connection that are on their way (`travelling`), and to the bytes
that are being sent (`Sends`). Each of the three is touched by few steps, and every other step leaves
it alone or closes the connection. -/

namespace Mlmq.Server.Channel

open Mlmq.Lib.BigEndian Mlmq.Lib.Nio Mlmq.Lib.Transition Mlmq.Lib.Cursor
open Mlmq.Net.Requests Mlmq.Net.Responses Mlmq.Net.Factory Mlmq.Net.RoundTrip
open Mlmq.Server.Connection Mlmq.Server.System Mlmq.Server.Ownership Mlmq.Server.Contents
open Mlmq.Server.Flight Mlmq.Server.Handles Mlmq.Server.Motion Mlmq.Server.Routing
open Mlmq.Server.Views Mlmq.Server.Traffic Mlmq.Server.Pipelining
open Mlmq.Server.Reassembly (Holds Stuck holds_clear)
open Mlmq.Lib.Queue (BoundedQueue)
open Mlmq.Util.ByteBufferUtil (ObjectStream)

variable {ε : Type} {s s' : Broker} {i b n : ℕ} {client : Client} {config : BrokerConfiguration}
  {stream : ObjectStream ε} {l : Label ε} {J J' : Journal ε}

/-! ### The jobs of a connection -/

/-- The jobs whose requests came from a connection, in their order. -/
def jobsOf (J : Journal ε) (i : ℕ) : List ℕ :=
  (List.range J.swaps.length).filter fun n => (J.swaps[n]?).any fun swap => swap.connection = i

/-- The request of a job. -/
def Decodes (J : Journal ε) (n : ℕ) (request : Request) : Prop :=
  ∃ swap raw, J.swaps[n]? = some swap ∧ deserializeRequest swap.request = .ok request raw

theorem Decodes.mono {request : Request} (h : Decodes J n request) (hswaps : J.swaps <+: J'.swaps) :
    Decodes J' n request := by
  obtain ⟨swap, raw, hswap, hd⟩ := h
  exact ⟨swap, raw, getElem?_of_prefix hswaps hswap, hd⟩

theorem jobsOf_congr (h : J'.swaps = J.swaps) : jobsOf J' i = jobsOf J i := by
  unfold jobsOf
  rw [h]

/-- A request that is exchanged is the last job of its connection. -/
theorem jobsOf_swap (z : Swap) :
    jobsOf (J.swap z) i = jobsOf J i ++ if z.connection = i then [J.swaps.length] else [] := by
  have hold : ∀ n ∈ List.range J.swaps.length,
      ((J.swaps ++ [z])[n]?).any (fun swap => decide (swap.connection = i)) =
        (J.swaps[n]?).any fun swap => decide (swap.connection = i) := by
    intro n hn
    rw [List.getElem?_append_left (List.mem_range.mp hn)]
  unfold jobsOf Journal.swap
  dsimp only
  rw [List.length_append, List.length_singleton, List.range_succ, List.filter_append,
    List.filter_congr hold, List.filter_singleton, List.getElem?_concat_length]
  simp only [Option.any_some]
  by_cases hz : z.connection = i <;> simp [hz]

/-! ### The journal of a step -/

theorem swaps_record_answer (w : ℕ) (outcome : Except ε (Response ε)) :
    (J.record s (.answer w outcome)).swaps = J.swaps ∧
      (J.record s (.answer w outcome)).job = J.job ∧
      (J.record s (.answer w outcome)).deliveries = J.deliveries := by
  unfold Journal.record
  dsimp only
  split <;> exact ⟨rfl, rfl, rfl⟩

/-- Only a read exchanges request buffers. -/
theorem swaps_record (hread : ∀ j chunk, l ≠ .read j chunk) : (J.record s l).swaps = J.swaps := by
  cases l with
  | read j chunk => exact absurd rfl (hread j chunk)
  | answer w outcome => exact (swaps_record_answer w outcome).1
  | _ => rfl

theorem record_read_eq {j : ℕ} {chunk : Option (List UInt8)} {rxBuffer : ByteBuffer}
    (hj : s.clients[j]? = some client) (hrx : s.heap[client.rxBuffer]? = some rxBuffer) :
    J.record s (.read j chunk : Label ε) =
      if Complete (rxBuffer.write (chunk.getD [])) then
        J.swap ⟨j, client.rxBuffer, afterTest (rxBuffer.write (chunk.getD []))⟩
      else J := by
  have hswapped : Journal.swapped s j chunk =
      if Complete (rxBuffer.write (chunk.getD [])) then
        some ⟨j, client.rxBuffer, afterTest (rxBuffer.write (chunk.getD []))⟩
      else none := by
    unfold Journal.swapped
    simp only [hj, hrx, Option.bind_eq_bind, Option.bind_some]
    rfl
  unfold Journal.record
  dsimp only
  rw [hswapped]
  split_ifs <;> rfl

/-- Entries of the journal stay. -/
theorem prefix_record (J : Journal ε) (s : Broker) (l : Label ε) :
    J.swaps <+: (J.record s l).swaps ∧ J.deliveries <+: (J.record s l).deliveries := by
  cases l with
  | read j chunk =>
    unfold Journal.record
    dsimp only
    cases Journal.swapped s j chunk with
    | none => exact ⟨List.prefix_refl _, List.prefix_refl _⟩
    | some z => exact ⟨List.prefix_append _ _, List.prefix_refl _⟩
  | answer w outcome =>
    obtain ⟨h1, -, h3⟩ := swaps_record_answer (J := J) (s := s) w outcome
    rw [h1, h3]
    exact ⟨List.prefix_refl _, List.prefix_refl _⟩
  | selectQueue => exact ⟨List.prefix_refl _, List.prefix_append _ _⟩
  | _ => exact ⟨List.prefix_refl _, List.prefix_refl _⟩

/-- **What has been delivered has been processed for good.** -/
theorem processed_record (hinv : Inv s 0) (hshape : Shaped s) (hrouted : Routed stream s J)
    (hs : Step config stream s l s') (hn : n ∈ J.deliveries.map Delivery.job) :
    (J.record s l).processed n = J.processed n := by
  cases l with
  | read j chunk =>
    unfold Journal.record
    dsimp only
    cases Journal.swapped s j chunk <;> rfl
  | answer w outcome =>
    obtain ⟨c, b, request, raw, rest, hw, -, hflights, -⟩ := flights_answer hinv hshape hs.2
    have hpending := hrouted.pending ⟨.processing request, c, b⟩
      (hflights ▸ Multiset.mem_cons_self _ _)
    have hne : n ≠ J.job b := fun heq => hpending (heq ▸ hn)
    unfold Journal.record
    simp only [hw]
    exact Function.update_of_ne hne _ _
  | _ => rfl

/-! ### The buffers of a connection -/

/-- The buffers of a connection that are on their way. -/
def travelling (s : Broker) (i : ℕ) : Multiset ℕ :=
  ((flights s).filter fun x => x.connection = i).map Flight.buffer

theorem travelling_le (h : flights s' ≤ flights s) : travelling s' i ≤ travelling s i :=
  Multiset.map_le_map (Multiset.filter_le_filter _ h)

/-- One of the buffers on their way. -/
theorem travelling_of_cons {x : Motion.Flight} {rest : Multiset Motion.Flight}
    (h : flights s = x ::ₘ rest) :
    travelling s i = (if x.connection = i then {x.buffer} else 0) +
      (rest.filter fun y => y.connection = i).map Flight.buffer := by
  unfold travelling
  rw [h]
  by_cases hx : x.connection = i
  · rw [if_pos hx, Multiset.filter_cons_of_pos (p := fun y : Motion.Flight => y.connection = i) _ hx,
      Multiset.map_cons, Multiset.singleton_add]
  · rw [if_neg hx, Multiset.filter_cons_of_neg (p := fun y : Motion.Flight => y.connection = i) _ hx,
      zero_add]

theorem mem_travelling :
    b ∈ travelling s i ↔ ∃ stage, (⟨stage, i, b⟩ : Motion.Flight) ∈ flights s := by
  unfold travelling
  rw [Multiset.mem_map]
  constructor
  · rintro ⟨⟨stage, c, b'⟩, hx, rfl⟩
    obtain ⟨hmem, hc⟩ := Multiset.mem_filter.mp hx
    obtain rfl : c = i := hc
    exact ⟨stage, hmem⟩
  · rintro ⟨stage, hx⟩
    exact ⟨_, Multiset.mem_filter.mpr ⟨hx, rfl⟩, rfl⟩

/-- **A read** sends out the message of its connection, if there is one. -/
theorem travelling_read {j : ℕ} {chunk : Option (List UInt8)} {rxBuffer : ByteBuffer}
    (hinv : Inv s 0) (hs : s.selectRead config j chunk = some s')
    (hj : s.clients[j]? = some client) (hrx : s.heap[client.rxBuffer]? = some rxBuffer) :
    travelling s' i = travelling s i ∨
      j = i ∧ Complete (rxBuffer.write (chunk.getD [])) ∧
        travelling s' i = client.rxBuffer ::ₘ travelling s i := by
  rcases (flights_selectRead hinv hs).2 with h | ⟨client', rxBuffer', hj', -, hrx', hc, h, -⟩
  · unfold travelling
    exact Or.inl (by rw [h])
  · obtain rfl := Option.some.inj (hj.symm.trans hj')
    obtain rfl := Option.some.inj (hrx.symm.trans hrx')
    rw [travelling_of_cons h]
    dsimp only
    by_cases hji : j = i
    · rw [if_pos hji, Multiset.singleton_add]
      exact Or.inr ⟨hji, hc, rfl⟩
    · rw [if_neg hji, zero_add]
      exact Or.inl rfl

/-- **No other step** makes them more. -/
theorem travelling_of_step (hinv : Inv s 0) (hshape : Shaped s) (hs : Step config stream s l s')
    (hread : ∀ chunk, l ≠ .read i chunk) : travelling s' i ≤ travelling s i := by
  have hquiet : Quiet s s' → travelling s' i ≤ travelling s i := fun h => travelling_le h.le
  cases l with
  | read j chunk =>
    obtain ⟨client, rxBuffer, -, hj, -, hrx, -⟩ := Broker.selectRead_eq_some hs.2
    rcases travelling_read (i := i) hinv hs.2 hj hrx with h | ⟨rfl, -⟩
    · exact h.le
    · exact absurd rfl (hread chunk)
  | decode w =>
    rcases flights_decode hinv hshape hs.2 with hq | ⟨c, b, -, request, -, rest, h, h', -⟩
    · exact hquiet hq
    · rw [travelling_of_cons h, travelling_of_cons h']
  | answer w outcome =>
    obtain ⟨c, b, request, -, rest, -, -, h, -, h' | ⟨-, -, h', -⟩⟩ :=
      flights_answer hinv hshape hs.2
    · rw [travelling_of_cons h]
      unfold travelling
      rw [h']
      exact Multiset.le_add_left _ _
    · rw [travelling_of_cons h, travelling_of_cons h']
  | selectQueue =>
    rcases flights_selectQueue hinv hshape hs.2 with ⟨-, h, -⟩ | ⟨-, -, -, -, -, hq⟩
    · exact travelling_le h.le
    · exact hquiet hq
  | _ => exact hquiet (quiet_of_step hinv hs (by simp) (by simp) (by simp) (by simp))

/-- Buffers on their way keep their jobs. -/
theorem job_record (hinv : Inv s 0) (hs : Step config stream s l s') (hb : b ∈ travelling s i) :
    (J.record s l).job b = J.job b := by
  cases l with
  | read j chunk =>
    obtain ⟨client, rxBuffer, -, hj, hvalid, hrx, -⟩ := Broker.selectRead_eq_some hs.2
    obtain ⟨stage, hx⟩ := mem_travelling.mp hb
    have hne : b ≠ client.rxBuffer :=
      ne_flight hinv hj (mem_clientSlots_rx hvalid) hx
    rw [record_read_eq hj hrx]
    split_ifs
    · exact Function.update_of_ne hne _ _
    · rfl
  | answer w outcome => rw [(swaps_record_answer w outcome).2.1]
  | _ => rfl

/-! ### The receive buffer -/

/-- The receive buffer of an open connection satisfies `P`. -/
def Receiving (P : ByteBuffer → Prop) (s : Broker) (i : ℕ) : Prop :=
  ∀ client, s.clients[i]? = some client → client.selectionKey.isValid = true →
    ∃ rxBuffer, s.heap[client.rxBuffer]? = some rxBuffer ∧ P rxBuffer

variable {P : ByteBuffer → Prop}

theorem Receiving.keep (h : Receiving P s i) (hkept : Kept s s' i) : Receiving P s' i := by
  intro client hi' hvalid
  have hi := hkept.clients.symm.trans hi'
  rw [hkept.heap client hi _ (mem_clientSlots_rx hvalid)]
  exact h client hi hvalid

theorem receiving_of_not_open (h : ¬ Open s i) : Receiving P s i := by
  intro client hi hvalid
  exact absurd (open_of_valid hi hvalid) h

/-- The connection has another send buffer, or its key is cancelled. -/
theorem Receiving.exchangeTx {client' : Client} (h : Receiving P s i)
    (hi : s.clients[i]? = some client) (hvalid : client.selectionKey.isValid = true)
    (hi' : s'.clients[i]? = some client') (hrx : client'.rxBuffer = client.rxBuffer)
    (hheap : s'.heap[client.rxBuffer]? = s.heap[client.rxBuffer]?) : Receiving P s' i := by
  intro client'' hi'' _
  obtain rfl := Option.some.inj (hi'.symm.trans hi'')
  obtain ⟨rxBuffer, hbuffer, hP⟩ := h client hi hvalid
  exact ⟨rxBuffer, by rw [hrx, hheap]; exact hbuffer, hP⟩

theorem receiving_selectWrite {byteCount : ℕ} (h : Receiving P s i) (hinv : Inv s 0)
    (hs : s.selectWrite i byteCount = some s') : Receiving P s' i := by
  obtain ⟨client, hi, hvalid, ⟨-, rfl⟩ | ⟨tx, txBuffer, htx, hheap, -, rfl⟩⟩ :=
    Broker.selectWrite_eq_some hs
  · exact receiving_of_not_open (not_open_disconnectCLient hi)
  · have hop := Broker.opWrite_of_selectWrite hs hi
    have hne : tx ≠ client.rxBuffer := by
      rintro rfl
      exact rxBuffer_notMem hinv hi hvalid htx
    obtain ⟨hheap', client', hi', hrx, -⟩ := client_afterWrite
      (s := { s with heap := s.heap.set tx (txBuffer.skip byteCount) }) hi hop htx
      (List.getElem?_set_self (List.getElem?_eq_some_iff.mp hheap).1)
    refine h.exchangeTx hi hvalid hi' hrx ?_
    rw [hheap']
    exact List.getElem?_set_ne hne

/-- **A part of a frame**: the buffer has the length field or a part of it, or it is stuck behind the
length field with fewer bytes to come than that says. -/
def Gathers (payload toBroker : List UInt8) (rxBuffer : ByteBuffer) : Prop :=
  (∃ w, Holds rxBuffer w ∧ w.length ≤ 4 ∧ w ++ toBroker = frame payload) ∨
    Stuck rxBuffer payload.length ∧ toBroker.length < payload.length

/-- A stuck buffer stays stuck. -/
theorem stuck_write {rxBuffer : ByteBuffer} {chunk : List UInt8} (h : Stuck rxBuffer n)
    (hlt : chunk.length < n) (hroom : chunk.length ≤ rxBuffer.remaining) :
    ¬ Complete (rxBuffer.write chunk) ∧ Stuck (afterTest (rxBuffer.write chunk)) n := by
  have hposition : (rxBuffer.write chunk).position = 4 + chunk.length := by
    rw [ByteBuffer.position_write hroom, h.position]
  have h4 : 4 ≤ rxBuffer.bytes.length := by
    have hle := rxBuffer.position_le
    rw [h.position, h.limit] at hle
    exact hle
  have hheader : header (rxBuffer.write chunk) = n := by
    unfold header
    rw [ByteBuffer.bytes_write hroom, h.position, List.append_assoc,
      List.take_left' (by rw [List.length_take]; omega)]
    exact h.header
  refine ⟨?_, ?_, ?_, ?_⟩
  · rintro ⟨-, hle⟩
    rw [hheader, hposition] at hle
    omega
  · rw [limit_afterTest, bytes_afterTest, ByteBuffer.limit_write, ByteBuffer.capacity_write, h.limit]
  · rw [position_afterTest, hposition]
    omega
  · unfold header
    rw [bytes_afterTest]
    exact hheader

/-- **A read of a part of the frame.** The frame is complete only if it has been read as a whole. -/
theorem Gathers.read {payload chunk rest : List UInt8} {rxBuffer : ByteBuffer}
    (h : Gathers payload (chunk ++ rest) rxBuffer) (hroom : chunk.length ≤ rxBuffer.remaining)
    (hlen : payload.length < 2 ^ 31) :
    rest = [] ∧ Complete (rxBuffer.write chunk) ∧ Holds (rxBuffer.write chunk) (frame payload) ∨
      ¬ Complete (rxBuffer.write chunk) ∧
        Gathers payload rest (afterTest (rxBuffer.write chunk)) := by
  rcases h with ⟨w, hholds, h4, hframe⟩ | ⟨hstuck, hlt⟩
  · have hwrite : Holds (rxBuffer.write chunk) (w ++ chunk) := by
      refine hholds.write ?_
      rw [ByteBuffer.remaining, hholds.limit, hholds.position] at hroom
      have hle := hholds.bytes.length_le
      omega
    have hpart : w ++ chunk <+: frame payload := ⟨rest, by rw [← hframe, List.append_assoc]⟩
    have hlength := congrArg List.length hframe
    simp only [List.length_append, length_frame] at hlength
    by_cases hrest : rest = []
    · rw [hrest, List.append_nil] at hframe
      rw [hframe] at hwrite
      exact Or.inl ⟨hrest, hwrite.complete hlen, hwrite⟩
    · have hpos := List.length_pos_iff.mpr hrest
      refine Or.inr ⟨hwrite.incomplete hpart ?_ hlen, ?_⟩
      · rw [List.length_append, length_frame]
        omega
      · by_cases hshort : (w ++ chunk).length ≤ 4
        · exact Or.inl ⟨_, hwrite.afterTest hshort, hshort, by rw [List.append_assoc, hframe]⟩
        · refine Or.inr ⟨hwrite.stuck hpart (by omega) hlen, ?_⟩
          rw [List.length_append] at hshort
          omega
  · rw [List.length_append] at hlt
    obtain ⟨hnot, hstuck'⟩ := stuck_write hstuck (show chunk.length < payload.length by omega) hroom
    exact Or.inr ⟨hnot, Or.inr ⟨hstuck', by omega⟩⟩

/-- The end of the stream does not complete a frame. -/
theorem Gathers.not_complete {payload toBroker : List UInt8} {rxBuffer : ByteBuffer}
    (h : Gathers payload toBroker rxBuffer) (hpos : 0 < payload.length)
    (hlen : payload.length < 2 ^ 31) : ¬ Complete (rxBuffer.write []) := by
  rcases h with ⟨w, hholds, h4, hframe⟩ | ⟨hstuck, -⟩
  · rw [ByteBuffer.write_nil]
    refine hholds.incomplete ⟨_, hframe⟩ ?_ hlen
    rw [length_frame]
    omega
  · exact (stuck_write hstuck (show ([] : List UInt8).length < payload.length from hpos)
      (Nat.zero_le _)).1

theorem not_complete_of_holds_nil {rxBuffer : ByteBuffer} (h : Holds rxBuffer []) :
    ¬ Complete (rxBuffer.write []) := by
  rw [ByteBuffer.write_nil]
  rintro ⟨h4, -⟩
  rw [h.position, List.length_nil] at h4
  omega

/-! ### The bytes that are being sent -/

/-- What an open connection is sending. -/
structure Sends (s : Broker) (i : ℕ) (rest : List UInt8) : Prop where
  accepted : s.clients[i]? = none → rest = []
  sending : ∀ client, s.clients[i]? = some client → client.selectionKey.isValid = true →
    sending s.heap client = rest

variable {rest : List UInt8}

theorem Sends.keep (h : Sends s i rest) (hkept : Kept s s' i) : Sends s' i rest where
  accepted hi' := h.accepted (hkept.clients.symm.trans hi')
  sending client hi' hvalid := by
    have hi := hkept.clients.symm.trans hi'
    rw [sending_congr fun b hb => hkept.heap client hi b (mem_clientSlots_tx hvalid hb)]
    exact h.sending client hi hvalid

theorem Sends.of_eq {client' : Client} (hi' : s'.clients[i]? = some client')
    (h : Traffic.sending s'.heap client' = rest) : Sends s' i rest := by
  refine ⟨fun hnone => ?_, fun client hi _ => ?_⟩
  · rw [hi'] at hnone
    cases hnone
  · obtain rfl := Option.some.inj (hi'.symm.trans hi)
    exact h

theorem sends_of_not_open (h : ¬ Open s i) (hi : s.clients[i]? ≠ none) : Sends s i rest :=
  ⟨fun hnone => absurd hnone hi, fun _ hi hvalid => absurd (open_of_valid hi hvalid) h⟩

theorem not_none_disconnectCLient (hi : s.clients[i]? = some client) :
    (s.disconnectCLient i).clients[i]? ≠ none := by
  intro hnone
  have hle := List.getElem?_eq_none_iff.mp hnone
  rw [length_clients_disconnectCLient] at hle
  exact absurd (List.getElem?_eq_some_iff.mp hi).1 (Nat.not_lt.mpr hle)

/-- Nothing is known about what a closed connection was sending. -/
theorem sends_disconnectCLient (hi : s.clients[i]? = some client) :
    Sends (s.disconnectCLient i) i rest :=
  sends_of_not_open (not_open_disconnectCLient hi) (not_none_disconnectCLient hi)

/-- **The socket takes some bytes.** -/
theorem sends_selectWrite {byteCount : ℕ} (h : Sends s i rest)
    (hs : s.selectWrite i byteCount = some s') :
    (sendBuffer s i).take byteCount = rest.take byteCount ∧ Sends s' i (rest.drop byteCount) := by
  obtain ⟨client, hi, hvalid, hcases⟩ := Broker.selectWrite_eq_some hs
  have hop := Broker.opWrite_of_selectWrite hs hi
  have hrest := h.sending client hi hvalid
  have hbuffer : sendBuffer s i = rest := by
    rw [← hrest]
    unfold sendBuffer Traffic.sending
    rw [hi, if_pos hop]
    rfl
  refine ⟨by rw [hbuffer], ?_⟩
  rcases hcases with ⟨-, rfl⟩ | ⟨tx, txBuffer, htx, hheap, -, rfl⟩
  · exact sends_disconnectCLient hi
  · obtain ⟨hheap', client', hi', -, hsending⟩ := client_afterWrite
      (s := { s with heap := s.heap.set tx (txBuffer.skip byteCount) }) hi hop htx
      (List.getElem?_set_self (List.getElem?_eq_some_iff.mp hheap).1)
    have htxBuffer : rest = txBuffer.rest := by
      rw [← hrest]
      unfold Traffic.sending viewSlot
      rw [if_pos hop, htx, Option.bind_some, hheap]
      rfl
    refine Sends.of_eq hi' ?_
    rw [hheap', hsending, ByteBuffer.rest_skip, htxBuffer]

/-! ### Steps that do not deliver to the connection -/

/-- A step that neither reads from the connection nor writes to it, and is no round of
`selectQueue`. -/
def Aside (i : ℕ) (l : Label ε) : Prop :=
  (∀ chunk, l ≠ .read i chunk) ∧ (∀ byteCount, l ≠ .write i byteCount) ∧ l ≠ .selectQueue

/-- The connection is kept, closed or accepted. -/
theorem aside_cases (hinv : Inv s 0) (hs : Step config stream s l s') (h : Aside i l) :
    Kept s s' i ∨ (∃ client, s.clients[i]? = some client ∧ s' = s.disconnectCLient i) ∨
      s.clients[i]? = none ∧ s' = s.selectAccept config := by
  by_cases hfails : l = .fails i
  · subst hfails
    obtain ⟨client, hi, -, heq⟩ := Broker.selectFails_eq_some hs.2
    exact Or.inr (Or.inl ⟨client, hi, heq⟩)
  · by_cases haccept : l = .accept → i < s.clients.length
    · exact Or.inl (kept_of_step hinv hs haccept h.1 h.2.1 hfails h.2.2)
    · obtain ⟨rfl, hle⟩ := Classical.not_imp.mp haccept
      exact Or.inr (Or.inr ⟨List.getElem?_eq_none (Nat.not_lt.mp hle),
        (Option.some.inj hs.2).symm⟩)

theorem Receiving.aside (h : Receiving P s i) (hinv : Inv s 0) (hs : Step config stream s l s')
    (haside : Aside i l) (hnew : s.clients[i]? = none → ∀ b : ByteBuffer, P b.clear) :
    Receiving P s' i := by
  rcases aside_cases hinv hs haside with hkept | ⟨client, hi, rfl⟩ | ⟨hi, rfl⟩
  · exact h.keep hkept
  · exact receiving_of_not_open (not_open_disconnectCLient hi)
  · intro client hc _
    obtain ⟨-, rxBuffer, hrx⟩ := client_selectAccept hinv hi hc
    exact ⟨_, hrx, hnew hi rxBuffer⟩

theorem Sends.aside (h : Sends s i rest) (hinv : Inv s 0) (hs : Step config stream s l s')
    (haside : Aside i l) : Sends s' i rest := by
  rcases aside_cases hinv hs haside with hkept | ⟨client, hi, rfl⟩ | ⟨hi, rfl⟩
  · exact h.keep hkept
  · exact sends_disconnectCLient hi
  · have hrest := h.accepted hi
    refine ⟨fun _ => hrest, fun client hc _ => ?_⟩
    unfold Traffic.sending
    rw [(client_selectAccept hinv hi hc).1, hrest]
    rfl

/-! ### Reads -/

/-- **A read** leaves what is being sent, unless it closes the connection. -/
theorem sends_selectRead {chunk : Option (List UInt8)} (h : Sends s i rest) (hinv : Inv s 0)
    (hs : s.selectRead config i chunk = some s') : Sends s' i rest := by
  cases chunk with
  | none =>
    obtain ⟨client, rxBuffer, s₁, hi, -, -, hs₁, rfl⟩ := Broker.selectRead_eq_some hs
    have hi₁ : s₁.clients[i]? = some client := by
      rw [hs₁]
      exact hi
    simp only [Option.isNone_none, if_true]
    split_ifs
    · exact sends_disconnectCLient (getElem?_takeMessage hi₁)
    · exact sends_disconnectCLient hi₁
  | some chunk =>
    obtain ⟨client, rxBuffer, -, hi, hvalid, hrx, -⟩ := Broker.selectRead_eq_some hs
    obtain ⟨pooledBuffer, client', rxBuffer', hi', -, hview⟩ := selectRead_view hinv hi hrx hs
    -- the send buffer and the key are those of before
    have hsame : viewSlot s'.heap client'.txBuffer = viewSlot s.heap client.txBuffer ∧
        client'.selectionKey = client.selectionKey := by
      have hfst := congrArg Prod.fst hview
      by_cases hc : Complete (rxBuffer.write chunk)
      · rw [Reassembly.client_of_complete hc] at hfst
        unfold viewClient at hfst
        injection hfst with _ _ htx hkey
        exact ⟨htx.symm, hkey.symm⟩
      · rw [Reassembly.selectRead_of_incomplete hc] at hfst
        unfold Reassembly.next viewClient at hfst
        injection hfst with _ _ htx hkey
        exact ⟨htx.symm, hkey.symm⟩
    refine Sends.of_eq hi' ?_
    rw [← h.sending client hi hvalid]
    unfold Traffic.sending
    rw [hsame.1, hsame.2]

/-- The end of the stream closes the connection. -/
theorem not_open_readEnd (hs : s.selectRead config i none = some s') : ¬ Open s' i := by
  obtain ⟨client, rxBuffer, s₁, hi, -, -, hs₁, rfl⟩ := Broker.selectRead_eq_some hs
  have hi₁ : s₁.clients[i]? = some client := by
    rw [hs₁]
    exact hi
  simp only [Option.isNone_none, if_true]
  split_ifs
  · exact not_open_disconnectCLient (getElem?_takeMessage hi₁)
  · exact not_open_disconnectCLient hi₁

/-- The receive buffer after a read: what has been read, or a buffer from the pool. -/
theorem receiving_selectRead {chunk : List UInt8} {rxBuffer : ByteBuffer} (hinv : Inv s 0)
    (hi : s.clients[i]? = some client) (hrx : s.heap[client.rxBuffer]? = some rxBuffer)
    (hs : s.selectRead config i (some chunk) = some s') :
    Receiving (fun b => if Complete (rxBuffer.write chunk) then ∃ b' : ByteBuffer, b = b'.clear
      else b = afterTest (rxBuffer.write chunk)) s' i := by
  obtain ⟨pooledBuffer, client', rxBuffer', hi', hrx', hview⟩ := selectRead_view hinv hi hrx hs
  intro client'' hi'' _
  obtain rfl := Option.some.inj (hi'.symm.trans hi'')
  refine ⟨rxBuffer', hrx', ?_⟩
  have hfst := congrArg Prod.fst hview
  by_cases hc : Complete (rxBuffer.write chunk)
  · rw [Reassembly.client_of_complete hc] at hfst
    unfold viewClient at hfst
    injection hfst with _ hbuffer
    dsimp only
    rw [if_pos hc]
    exact ⟨pooledBuffer, hbuffer.symm⟩
  · rw [Reassembly.selectRead_of_incomplete hc] at hfst
    unfold Reassembly.next viewClient at hfst
    injection hfst with _ hbuffer
    dsimp only
    rw [if_neg hc]
    exact hbuffer.symm

/-! ### Rounds of `selectQueue` -/

/-- **A round** leaves the connection alone, or sets the response that is on its way to it. -/
theorem round_cases (hinv : Inv s 0) (hshape : Shaped s) (hreg : Registered s)
    (hlen : s.clients.length < 2 ^ 32) (hs : s.selectQueue = some s') :
    (∀ d ∈ J.delivery s, d.connection ≠ i) ∧ Kept s s' i ∨
      ∃ b raw client, s.heap[b]? = some raw ∧ J.delivery s = some ⟨J.job b, i, raw⟩ ∧
        travelling s i = b ::ₘ travelling s' i ∧ s.clients[i]? = some client ∧
        client.selectionKey.isValid = true ∧ b ≠ client.rxBuffer ∧
        s'.clients[i]? = some { client with txBuffer := some b, selectionKey := ⟨true, true⟩ } ∧
        s'.heap = s.heap.modify b ByteBuffer.flip := by
  have hflights := flights_selectQueue hinv hshape hs
  obtain ⟨hpoll, rfl⟩ | ⟨task, responseQueue, client, hpoll, hc, hround⟩ :=
    Broker.selectQueue_eq_some hs
  · refine Or.inl ⟨fun d hd => ?_, rfl, fun _ _ _ _ => rfl⟩
    rw [delivery_empty hpoll] at hd
    cases hd
  have hitems := (BoundedQueue.poll_eq_some_iff.mp hpoll).2
  obtain ⟨c, b, -, rfl⟩ := hshape.response task (hitems ▸ List.mem_cons_self)
  obtain ⟨hnone, -⟩ | ⟨c', b', responseQueue', hpoll', hcons, -⟩ := hflights
  · rw [hpoll] at hnone
    cases hnone
  obtain ⟨heq, -⟩ := Prod.mk.inj (Option.some.inj (hpoll.symm.trans hpoll'))
  injection heq with h1 _ h3
  obtain rfl := h1
  obtain rfl := Option.some.inj h3
  have hflight : (⟨.responded, c, b⟩ : Motion.Flight) ∈ flights s :=
    hcons ▸ Multiset.mem_cons_self _ _
  have hlt := lt_of_flight hinv hflight
  have hraw : s.heap[b]? = some s.heap[b] := List.getElem?_eq_getElem hlt
  rcases hround with ⟨hnone, rfl⟩ | ⟨j, s₁, completed, hj, hset, rfl⟩
  · -- the connection of the task is closed, and the response is discarded
    refine Or.inl ⟨fun d hd => ?_, rfl, fun _ _ _ _ => rfl⟩
    rw [delivery_closed hpoll hc hnone] at hd
    cases hd
  obtain rfl : j = c := hreg.eq_of_lookup hinv.connected hlen hc hj
  obtain ⟨client', hc', hvalid, -⟩ := hinv.connected _ _ hj
  obtain rfl := Option.some.inj (hc.symm.trans hc')
  obtain ⟨hnone, -⟩ | ⟨b', hb', rfl, rfl⟩ :=
    Broker.setResponse_eq_some (s := { s with responseQueue }) hc hvalid hset
  · cases hnone
  obtain rfl := Option.some.inj hb'
  have hdelivery : J.delivery s = some ⟨J.job b, j, s.heap[b]⟩ := delivery_poll hpoll hc hj hraw
  by_cases hji : j = i
  · subst hji
    refine Or.inr ⟨b, _, client, hraw, hdelivery, ?_, hc, hvalid,
      ne_flight hinv hc (mem_clientSlots_rx hvalid) hflight,
      List.getElem?_set_self (List.getElem?_eq_some_iff.mp hc).1, rfl⟩
    rw [travelling_of_cons hcons, if_pos rfl, Multiset.singleton_add]
    rfl
  · refine Or.inl ⟨fun d hd => ?_, List.getElem?_set_ne hji, fun other hi b' hb' =>
      List.getElem?_modify_ne _ _ (ne_flight hinv hi hb' hflight)⟩
    obtain rfl := Option.some.inj (hdelivery.symm.trans hd)
    exact hji

/-- What the connection receives and sends after a round. -/
theorem selectQueue_cases (hinv : Inv s 0) (hshape : Shaped s) (hreg : Registered s)
    (hlen : s.clients.length < 2 ^ 32) (hs : s.selectQueue = some s') (hsends : Sends s i rest)
    (hrecv : Receiving P s i) :
    Receiving P s' i ∧ ((∀ d ∈ J.delivery s, d.connection ≠ i) ∧ Sends s' i rest ∨
      ∃ b raw, s.heap[b]? = some raw ∧ J.delivery s = some ⟨J.job b, i, raw⟩ ∧
        travelling s i = b ::ₘ travelling s' i ∧ Sends s' i raw.flip.rest) := by
  rcases round_cases (J := J) (i := i) hinv hshape hreg hlen hs with ⟨hnone, hkept⟩ |
    ⟨b, raw, client, hraw, hdelivery, hcons, hi, hvalid, hne, hi', hheap⟩
  · exact ⟨hrecv.keep hkept, Or.inl ⟨hnone, hsends.keep hkept⟩⟩
  · refine ⟨hrecv.exchangeTx hi hvalid hi' rfl ?_,
      Or.inr ⟨b, raw, hraw, hdelivery, hcons, Sends.of_eq hi' ?_⟩⟩
    · rw [hheap]
      exact List.getElem?_modify_ne _ _ hne
    · unfold Traffic.sending viewSlot
      rw [if_pos rfl, Option.bind_some, hheap, List.getElem?_modify_eq, hraw]
      rfl

/-! ### The requests of a peer that waits for its responses -/

/-- The receive buffer of the connection under any step but a read. -/
theorem receiving_of_step (h : Receiving P s i) (hinv : Inv s 0) (hshape : Shaped s)
    (hreg : Registered s) (hlen : s.clients.length < 2 ^ 32) (hs : Step config stream s l s')
    (hread : ∀ chunk, l ≠ .read i chunk)
    (hnew : s.clients[i]? = none → ∀ b : ByteBuffer, P b.clear) :
    Receiving P s' i := by
  by_cases hqueue : l = .selectQueue
  · subst hqueue
    have hsends : Sends s i ((s.clients[i]?).elim [] (sending s.heap)) := by
      refine ⟨fun hnone => by rw [hnone]; rfl, fun client hi _ => ?_⟩
      rw [hi]
      rfl
    have J : Journal ε := .empty
    exact (selectQueue_cases (J := J) hinv hshape hreg hlen hs.2 hsends h).1
  · by_cases hwrite : ∃ byteCount, l = .write i byteCount
    · obtain ⟨byteCount, rfl⟩ := hwrite
      exact receiving_selectWrite h hinv hs.2
    · exact h.aside hinv hs ⟨hread, fun byteCount heq => hwrite ⟨byteCount, heq⟩, hqueue⟩ hnew

/-- The part of a request that the broker has not read yet, if there is such a request. -/
def Inbound (s : Broker) (i : ℕ) (toBroker : List UInt8) : Option Request → Prop
  | none => toBroker = [] ∧ Receiving (Holds · []) s i
  | some request => (s.clients[i]? = none → toBroker = frame (requestPayload.enc request)) ∧
      Receiving (Gathers (requestPayload.enc request) toBroker) s i

/-- **The requests of a connection** have become jobs in their order, each of them once, up to the
last one, which may be `pending`. At most one of the jobs is on its way, the last one. -/
structure Inward (s : Broker) (J : Journal ε) (i : ℕ) (toBroker : List UInt8)
    (submitted : List Request) (pending : Option Request) : Prop where
  decoded : ∃ requests, submitted = requests ++ pending.toList ∧
    List.Forall₂ (Decodes J) (jobsOf J i) requests
  inbound : Inbound s i toBroker pending
  sized : ∀ request ∈ pending, (requestPayload.enc request).length < 2 ^ 31
  unread : pending ≠ none → travelling s i = 0
  single : (travelling s i).card ≤ 1
  last : ∀ b ∈ travelling s i, (jobsOf J i).getLast? = some (J.job b)

variable {toBroker : List UInt8} {submitted : List Request} {pending : Option Request}

/-- No request has been exchanged on the connection. -/
theorem Inward.of_jobs (h : Inward s J i toBroker submitted pending)
    (hle : travelling s' i ≤ travelling s i) (hswaps : J.swaps <+: J'.swaps)
    (hjobs : jobsOf J' i = jobsOf J i) (hjob : ∀ b ∈ travelling s i, J'.job b = J.job b)
    {toBroker' : List UInt8} (hinbound : Inbound s' i toBroker' pending) :
    Inward s' J' i toBroker' submitted pending where
  decoded := by
    obtain ⟨requests, hsubmitted, hdecoded⟩ := h.decoded
    rw [hjobs]
    exact ⟨requests, hsubmitted, hdecoded.imp fun _ _ hd => hd.mono hswaps⟩
  inbound := hinbound
  sized := h.sized
  unread hpending := by
    rw [h.unread hpending] at hle
    exact Multiset.le_zero.mp hle
  single := (Multiset.card_le_card hle).trans h.single
  last b hb := by
    have hb₀ := Multiset.mem_of_le hle hb
    rw [hjobs, hjob b hb₀]
    exact h.last b hb₀

/-- The jobs of the connection under any step but a read. -/
theorem jobsOf_record (hs : Step config stream s l s') (hread : ∀ chunk, l ≠ .read i chunk) :
    jobsOf (J.record s l) i = jobsOf J i := by
  by_cases hother : ∃ j chunk, l = .read j chunk
  · obtain ⟨j, chunk, rfl⟩ := hother
    obtain ⟨client, rxBuffer, -, hj, -, hrx, -⟩ := Broker.selectRead_eq_some hs.2
    rw [record_read_eq hj hrx]
    split_ifs
    · rw [jobsOf_swap, if_neg (fun heq : j = i => hread chunk (heq ▸ rfl)), List.append_nil]
    · rfl
  · exact jobsOf_congr (swaps_record fun j chunk heq => hother ⟨j, chunk, heq⟩)

/-- **Any step but a read.** -/
theorem Inward.step_of_ne (h : Inward s J i toBroker submitted pending) (hgood : Good stream (s, J))
    (hlen : s.clients.length < 2 ^ 32) (hs : Step config stream s l s')
    (hread : ∀ chunk, l ≠ .read i chunk) :
    Inward s' (J.record s l) i toBroker submitted pending := by
  obtain ⟨hinv, hshape, hreg, -⟩ := hgood
  refine h.of_jobs (travelling_of_step hinv hshape hs hread) (prefix_record J s l).1
    (jobsOf_record hs hread) (fun b hb => job_record hinv hs hb) ?_
  have hinbound := h.inbound
  cases pending with
  | none =>
    exact ⟨hinbound.1, receiving_of_step hinbound.2 hinv hshape hreg hlen hs hread fun _ b =>
      holds_clear b⟩
  | some request =>
    refine ⟨fun hnone => hinbound.1 ?_, receiving_of_step hinbound.2 hinv hshape hreg hlen hs hread
      fun hnone b => Or.inl ⟨[], holds_clear b, Nat.zero_le _, hinbound.1 hnone⟩⟩
    rw [List.getElem?_eq_none_iff] at hnone ⊢
    exact (length_clients_of_step hinv hs).trans hnone

/-- A request that has been received as a whole can be decoded. -/
theorem decodes_frame {request : Request} {rxBuffer : ByteBuffer}
    (h : Holds rxBuffer (frame (requestPayload.enc request)))
    (hlen : (requestPayload.enc request).length < 2 ^ 31) :
    ∃ raw, deserializeRequest (afterTest rxBuffer) = .ok request raw := by
  have hposition : (afterTest rxBuffer).position = 4 := by
    rw [position_afterTest, h.position, length_frame]
    omega
  have hpayload : requestPayload.enc request <+: (afterTest rxBuffer).rest := by
    unfold ByteBuffer.rest
    rw [hposition, limit_afterTest, bytes_afterTest, h.limit, List.take_length]
    have hdrop := h.bytes.drop 4
    rwa [frame, List.drop_left' (length_intBytes _)] at hdrop
  exact ⟨_, (reads_deserializeRequest.ok_iff _ _ _).mpr
    ⟨_, requestPayload.enc_mem request hlen, hpayload, rfl⟩⟩

/-- **A read of the connection.** A request that has been read as a whole becomes a job. -/
theorem Inward.read {chunk rest : List UInt8}
    (h : Inward s J i (chunk ++ rest) submitted pending) (hinv : Inv s 0)
    (hs : Step config stream s (.read i (some chunk)) s') :
    ∃ pending', Inward s' (J.record s (.read i (some chunk) : Label ε)) i rest submitted pending' ∧
      (pending = none → pending' = none ∧ J.record s (.read i (some chunk) : Label ε) = J ∧
        travelling s' i = travelling s i) := by
  have hstep : s.selectRead config i (some chunk) = some s' := hs.2
  obtain ⟨client, rxBuffer, -, hi, hvalid, hrx, -⟩ := Broker.selectRead_eq_some hstep
  have hroom : chunk.length ≤ rxBuffer.remaining :=
    Broker.length_le_of_selectRead hstep hi hrx
  have hrecv := receiving_selectRead hinv hi hrx hstep
  have hrecord : J.record s (.read i (some chunk) : Label ε) =
      if Complete (rxBuffer.write chunk) then
        J.swap ⟨i, client.rxBuffer, afterTest (rxBuffer.write chunk)⟩
      else J := record_read_eq hi hrx
  have hnone : s'.clients[i]? ≠ none := by
    intro hnone
    have hlt := (List.getElem?_eq_some_iff.mp hi).1
    rw [List.getElem?_eq_none_iff, length_clients_selectRead hstep] at hnone
    omega
  have hnot : ¬ Complete (rxBuffer.write chunk) → travelling s' i = travelling s i ∧
      J.record s (.read i (some chunk) : Label ε) = J := by
    intro hc
    rw [if_neg hc] at hrecord
    rcases travelling_read (i := i) hinv hstep hi hrx with heq | ⟨-, hc', -⟩
    · exact ⟨heq, hrecord⟩
    · exact absurd hc' hc
  have hinbound := h.inbound
  cases pending with
  | none =>
    -- nothing is there to be read
    obtain ⟨hnil, hholds⟩ := hinbound
    obtain ⟨rfl, rfl⟩ := List.append_eq_nil_iff.mp hnil
    obtain ⟨rxBuffer', hrx', hempty⟩ := hholds client hi hvalid
    obtain rfl := Option.some.inj (hrx.symm.trans hrx')
    have hc := not_complete_of_holds_nil hempty
    obtain ⟨htravelling, hsame⟩ := hnot hc
    rw [hsame]
    refine ⟨none, h.of_jobs htravelling.le (List.prefix_refl _) rfl (fun _ _ => rfl) ⟨rfl, ?_⟩,
      fun _ => ⟨rfl, rfl, htravelling⟩⟩
    intro client' hi' hvalid'
    obtain ⟨rxBuffer', hrx', hb⟩ := hrecv client' hi' hvalid'
    rw [if_neg hc] at hb
    refine ⟨rxBuffer', hrx', ?_⟩
    rw [hb, ByteBuffer.write_nil]
    exact hempty.afterTest (Nat.zero_le _)
  | some request =>
    have hsized := h.sized request rfl
    obtain ⟨rxBuffer', hrx', hgathers⟩ := hinbound.2 client hi hvalid
    obtain rfl := Option.some.inj (hrx.symm.trans hrx')
    rcases hgathers.read hroom hsized with ⟨rfl, hc, hholds⟩ | ⟨hc, hgathers'⟩
    · -- the request has been read as a whole
      rw [if_pos hc] at hrecord
      have hjobs := jobsOf_swap (J := J) (i := i)
        ⟨i, client.rxBuffer, afterTest (rxBuffer.write chunk)⟩
      rw [if_pos rfl] at hjobs
      rw [hrecord]
      have hunread := h.unread (Option.some_ne_none _)
      have htravelling : travelling s' i ≤ {client.rxBuffer} := by
        rcases travelling_read (i := i) hinv hstep hi hrx with heq | ⟨-, -, heq⟩
        · rw [heq, hunread]
          exact Multiset.zero_le _
        · rw [heq, hunread]
          exact le_rfl
      obtain ⟨raw, hdecode⟩ := decodes_frame hholds hsized
      refine ⟨none, ⟨?_, ⟨rfl, fun client' hi' hvalid' => ?_⟩, by simp, by simp, ?_, fun b hb => ?_⟩,
        by simp⟩
      · obtain ⟨requests, hsubmitted, hdecoded⟩ := h.decoded
        refine ⟨submitted, (List.append_nil _).symm, ?_⟩
        rw [hjobs, hsubmitted]
        refine List.rel_append
          (hdecoded.imp fun _ _ hd => hd.mono (List.prefix_append _ _)) (.cons ?_ .nil)
        exact ⟨_, raw, List.getElem?_concat_length, hdecode⟩
      · obtain ⟨rxBuffer', hrx', hb⟩ := hrecv client' hi' hvalid'
        rw [if_pos hc] at hb
        obtain ⟨b', rfl⟩ := hb
        exact ⟨_, hrx', holds_clear b'⟩
      · exact (Multiset.card_le_card htravelling).trans (Multiset.card_singleton _).le
      · obtain rfl := Multiset.mem_singleton.mp (Multiset.mem_of_le htravelling hb)
        have hjob : (J.swap ⟨i, client.rxBuffer, afterTest (rxBuffer.write chunk)⟩).job
            client.rxBuffer = J.swaps.length := Function.update_self _ _ _
        rw [hjobs, List.getLast?_append, List.getLast?_singleton, Option.some_or, hjob]
    · obtain ⟨htravelling, hsame⟩ := hnot hc
      rw [hsame]
      refine ⟨some request, h.of_jobs htravelling.le (List.prefix_refl _) rfl (fun _ _ => rfl)
        ⟨fun hnone' => absurd hnone' hnone, fun client' hi' hvalid' => ?_⟩, by simp⟩
      obtain ⟨rxBuffer', hrx', hb⟩ := hrecv client' hi' hvalid'
      rw [if_neg hc] at hb
      exact ⟨rxBuffer', hrx', hb ▸ hgathers'⟩

/-- The end of the stream. -/
theorem Inward.readEnd (h : Inward s J i toBroker submitted pending) (hinv : Inv s 0)
    (hs : Step config stream s (.read i none) s') :
    Inward s' (J.record s (.read i none : Label ε)) i toBroker submitted pending ∧
      J.record s (.read i none : Label ε) = J ∧ travelling s' i = travelling s i := by
  have hstep : s.selectRead config i none = some s' := hs.2
  obtain ⟨client, rxBuffer, -, hi, hvalid, hrx, -⟩ := Broker.selectRead_eq_some hstep
  have hc : ¬ Complete (rxBuffer.write []) := by
    have hinbound := h.inbound
    cases pending with
    | none =>
      obtain ⟨rxBuffer', hrx', hempty⟩ := hinbound.2 client hi hvalid
      obtain rfl := Option.some.inj (hrx.symm.trans hrx')
      exact not_complete_of_holds_nil hempty
    | some request =>
      obtain ⟨rxBuffer', hrx', hgathers⟩ := hinbound.2 client hi hvalid
      obtain rfl := Option.some.inj (hrx.symm.trans hrx')
      refine hgathers.not_complete ?_ (h.sized request rfl)
      rw [show requestPayload.enc request =
        intBytes request.getTypeId ++ Request.fields.enc request from rfl, List.length_append,
        length_intBytes]
      omega
  have hrecord : J.record s (.read i none : Label ε) = J := by
    rw [record_read_eq hi hrx]
    exact if_neg hc
  have htravelling : travelling s' i = travelling s i := by
    rcases travelling_read (i := i) hinv hstep hi hrx with heq | ⟨-, hc', -⟩
    · exact heq
    · exact absurd hc' hc
  have hclosed := not_open_readEnd hstep
  rw [hrecord]
  refine ⟨h.of_jobs htravelling.le (List.prefix_refl _) rfl (fun _ _ => rfl) ?_, rfl, htravelling⟩
  have hinbound := h.inbound
  cases pending with
  | none => exact ⟨hinbound.1, receiving_of_not_open hclosed⟩
  | some request =>
    refine ⟨fun hnone => hinbound.1 ?_, receiving_of_not_open hclosed⟩
    rw [List.getElem?_eq_none_iff, length_clients_selectRead hstep] at hnone
    exact List.getElem?_eq_none hnone

/-- **The peer submits a request** when nothing of the last one is left. -/
theorem Inward.submit {request : Request} (h : Inward s J i [] submitted none)
    (hidle : travelling s i = 0) (hlen : (requestPayload.enc request).length < 2 ^ 31) :
    Inward s J i (frame (requestPayload.enc request)) (submitted ++ [request]) (some request) where
  decoded := by
    obtain ⟨requests, hsubmitted, hdecoded⟩ := h.decoded
    rw [Option.toList_none, List.append_nil] at hsubmitted
    exact ⟨requests, by rw [hsubmitted, Option.toList_some], hdecoded⟩
  inbound := by
    refine ⟨fun _ => rfl, fun client hi hvalid => ?_⟩
    obtain ⟨rxBuffer, hrx, hempty⟩ := h.inbound.2 client hi hvalid
    exact ⟨rxBuffer, hrx, Or.inl ⟨[], hempty, Nat.zero_le _, List.nil_append _⟩⟩
  sized request' hrequest := by
    obtain rfl := Option.some.inj hrequest
    exact hlen
  unread _ := hidle
  single := h.single
  last := h.last

end Mlmq.Server.Channel
