import Mlmq.Net.Ending
import Mlmq.Server.Reassembly

/-! # What a request depends on

A receive buffer that is handed on stays open up to its capacity, so `deserializeRequest` may read
behind the bytes received: bytes of an earlier frame, of this client or another one. The request
depends on the frame alone (`FrameOnly`) iff no request has an encoding that starts with the bytes
received, goes on behind them and fits the buffer (`Extends`), where the bytes of an encoding that
may be any do not count (`frameOnly_iff`). -/

namespace Mlmq.Server.LeftOver

open Mlmq.Lib.BigEndian Mlmq.Lib.Format Mlmq.Lib.Nio Mlmq.Lib.Cursor Mlmq.Net.Requests
open Mlmq.Net.Factory Mlmq.Net.Ending Mlmq.Server.Connection Mlmq.Server.Reassembly

variable {n : Int32} {received : List UInt8} {capacity : ℕ}

/-! ### Two buffers with the same frame -/

/-- The request the workers find in a receive buffer, if it is handed on and can be decoded. -/
def requestIn (rxBuffer : ByteBuffer) : Option Request :=
  match hasReceivedMessage rxBuffer with
  | .ok true messageBuffer =>
    match deserializeRequest messageBuffer with
    | .ok request _ => some request
    | .error _ _ => none
  | _ => none

/-- Receive buffers that hold the same bytes give the same request, or fail both. -/
def FrameOnly (capacity : ℕ) (bytes : List UInt8) : Prop :=
  ∀ b b' : ByteBuffer, b.capacity = capacity → b'.capacity = capacity → Holds b bytes →
    Holds b' bytes → requestIn b = requestIn b'

/-- An encoding of a request starts with `received`, fits a buffer, and bytes that matter to it lie
behind `received`. -/
def Extends (capacity : ℕ) (received : List UInt8) : Prop :=
  ∃ request, ∃ bs ∈ requestPayload.wire request, received <+: bs ∧
    lenghFieldLenght + bs.length ≤ capacity ∧ received.length + freeBytes request < bs.length

/-- A buffer that holds the frame and then `rest`. -/
def holding (n : Int32) (received rest : List UInt8)
    (h : (intBytes n ++ received ++ rest).length < 2 ^ 31) : ByteBuffer where
  bytes := intBytes n ++ received ++ rest
  position := (intBytes n ++ received).length
  limit := (intBytes n ++ received ++ rest).length
  position_le := by simp
  limit_le := le_rfl
  capacity_lt := h

theorem holds_holding (n : Int32) (received rest : List UInt8)
    (h : (intBytes n ++ received ++ rest).length < 2 ^ 31) :
    Holds (holding n received rest h) (intBytes n ++ received) :=
  ⟨rfl, rfl, List.prefix_append _ rest⟩

/-- **What is decoded**: a request with an encoding at the front of all that stands behind the
length field. -/
theorem requestIn_eq_some_iff {b : ByteBuffer} (hb : Holds b (intBytes n ++ received))
    (hn : n.toInt ≤ received.length) {request : Request} :
    requestIn b = some request ↔
      ∃ bs ∈ requestPayload.wire request, bs <+: b.bytes.drop 4 := by
  have hlen : (intBytes n ++ received).length = 4 + received.length := by
    rw [List.length_append, length_intBytes]
  have htake : b.bytes.take 4 = intBytes n := by
    obtain ⟨t, ht⟩ := hb.bytes
    rw [← ht, List.append_assoc]
    exact List.take_left' (length_intBytes n)
  have hcomplete : Complete b := by
    have hheader : header b = n.toInt := by rw [header, htake, intOf_intBytes]
    refine ⟨by rw [hb.position, hlen]; omega, ?_⟩
    rw [hheader, hb.position, hlen]
    omega
  have hrest : (afterTest b).rest = b.bytes.drop 4 := by
    have hposition : (afterTest b).position = 4 := by
      rw [position_afterTest, hb.position, hlen]
      omega
    rw [ByteBuffer.rest, hposition, limit_afterTest, bytes_afterTest, hb.limit, List.take_length]
  have hread : requestIn b = some request ↔
      ∃ b', deserializeRequest (afterTest b) = .ok request b' := by
    unfold requestIn
    rw [hasReceivedMessage_eq, decide_eq_true hcomplete]
    dsimp only
    cases deserializeRequest (afterTest b) with
    | ok r b' => simp
    | error e b' => simp
  rw [hread, ← hrest]
  constructor
  · rintro ⟨b', h⟩
    obtain ⟨bs, hbs, hpre, -⟩ := (reads_deserializeRequest.ok_iff _ _ _).mp h
    exact ⟨bs, hbs, hpre⟩
  · rintro ⟨bs, hbs, hpre⟩
    exact ⟨_, (reads_deserializeRequest.ok_iff _ _ _).mpr ⟨bs, hbs, hpre, rfl⟩⟩

theorem drop_of_holds {b : ByteBuffer} (hb : Holds b (intBytes n ++ received)) :
    ∃ rest, b.bytes.drop 4 = received ++ rest := by
  obtain ⟨rest, hrest⟩ := hb.bytes
  refine ⟨rest, ?_⟩
  rw [← hrest, List.append_assoc]
  exact List.drop_left' (length_intBytes n)

/-- Without an extension, what one buffer gives the other gives too. -/
theorem requestIn_of_not_extends (hext : ¬ Extends capacity received)
    (hn : n.toInt ≤ received.length) {b b' : ByteBuffer} (hcap : b.capacity = capacity)
    (hcap' : b'.capacity = capacity) (hb : Holds b (intBytes n ++ received))
    (hb' : Holds b' (intBytes n ++ received)) {request : Request}
    (h : requestIn b = some request) : requestIn b' = some request := by
  obtain ⟨bs, hbs, hpre⟩ := (requestIn_eq_some_iff hb hn).mp h
  refine (requestIn_eq_some_iff hb' hn).mpr ?_
  obtain ⟨rest, hrest⟩ := drop_of_holds hb
  obtain ⟨rest', hrest'⟩ := drop_of_holds hb'
  have hlen : received.length + rest.length = received.length + rest'.length := by
    have h1 := congrArg List.length hrest
    have h2 := congrArg List.length hrest'
    rw [List.length_drop, List.length_append] at h1 h2
    unfold ByteBuffer.capacity at hcap hcap'
    omega
  have hbslen := hpre.length_le
  have hdrop := congrArg List.length hrest
  rw [List.length_drop, List.length_append] at hdrop
  rw [hrest] at hpre
  rw [hrest']
  rcases List.prefix_or_prefix_of_prefix hpre (List.prefix_append received rest) with hin | hout
  · -- the encoding lies within the frame
    exact ⟨bs, hbs, hin.trans (List.prefix_append received rest')⟩
  · -- only bytes that may be any lie behind it
    obtain ⟨v, rfl⟩ := hout
    have hv : v.length ≤ freeBytes request := by
      by_contra hlt
      refine hext ⟨request, _, hbs, List.prefix_append received v, ?_, ?_⟩
      · have h4 : 4 ≤ b.bytes.length := by
          have := hb.bytes.length_le
          rw [List.length_append, length_intBytes] at this
          omega
        rw [List.length_drop] at hbslen
        unfold ByteBuffer.capacity at hcap
        unfold lenghFieldLenght
        omega
      · rw [List.length_append]
        omega
    have hvrest : v.length ≤ rest'.length := by
      rw [List.length_drop, List.length_append] at hbslen
      omega
    -- the free bytes are the last of `received` and all of `v`
    have hmore := (ends_requestPayload request).longer _ hbs
    rw [List.length_append] at hmore
    have hsplit : received ++ v =
        received.take (received.length + v.length - freeBytes request) ++
          (received.drop (received.length + v.length - freeBytes request) ++ v) := by
      rw [← List.append_assoc, List.take_append_drop]
    have hfree := (ends_requestPayload request).free _ _
      (received.drop (received.length + v.length - freeBytes request) ++ rest'.take v.length)
      (hsplit ▸ hbs) (by rw [List.length_append, List.length_drop]; omega)
      (by rw [List.length_append, List.length_drop, List.length_take]; omega)
    rw [← List.append_assoc, List.take_append_drop] at hfree
    exact ⟨_, hfree, (List.prefix_append_right_inj received).mpr (List.take_prefix _ rest')⟩

/-- With an extension, one buffer completes the encoding and another one spoils it. -/
theorem not_frameOnly_of_extends (hext : Extends capacity received) (hcap : capacity < 2 ^ 31)
    (hn : n.toInt ≤ received.length) : ¬ FrameOnly capacity (intBytes n ++ received) := by
  intro h
  obtain ⟨request, bs, hbs, ⟨v, rfl⟩, hfit, hlt⟩ := hext
  rw [List.length_append] at hfit hlt
  unfold lenghFieldLenght at hfit
  -- the deciding byte lies in `v`
  obtain ⟨u, x, t, rfl, ht⟩ : ∃ u x t, v = u ++ x :: t ∧ t.length = freeBytes request := by
    have hpos : v.length - freeBytes request - 1 < v.length := by omega
    refine ⟨v.take (v.length - freeBytes request - 1), v[v.length - freeBytes request - 1],
      v.drop (v.length - freeBytes request - 1 + 1), ?_, ?_⟩
    · rw [← List.drop_eq_getElem_cons hpos, List.take_append_drop]
    · rw [List.length_drop]
      omega
  rw [← List.append_assoc] at hbs
  obtain ⟨y, hy⟩ := (ends_requestPayload request).decided _ x t hbs ht
  rw [List.length_append, List.length_cons] at hfit
  set pad := List.replicate (capacity - 4 - (received.length + (u.length + (t.length + 1)))) (0 : UInt8)
    with hpad
  have hsize : ∀ z : UInt8,
      (intBytes n ++ received ++ (u ++ z :: t ++ pad)).length = capacity := by
    intro z
    simp only [List.length_append, List.length_cons, length_intBytes, hpad, List.length_replicate]
    omega
  set good := holding n received (u ++ x :: t ++ pad) ((hsize x).symm ▸ hcap)
  set bad := holding n received (u ++ y :: t ++ pad) ((hsize y).symm ▸ hcap)
  have hgood : requestIn good = some request := by
    refine (requestIn_eq_some_iff (holds_holding _ _ _ _) hn).mpr ⟨_, hbs, ?_⟩
    have hdrop : (intBytes n ++ received ++ (u ++ x :: t ++ pad)).drop 4 =
        received ++ u ++ x :: t ++ pad := by
      rw [List.append_assoc, List.drop_left' (length_intBytes n)]
      simp only [List.append_assoc]
    exact hdrop ▸ List.prefix_append _ pad
  have hbad : requestIn bad ≠ some request := by
    intro hsome
    obtain ⟨z, hz, hpre⟩ := (requestIn_eq_some_iff (holds_holding _ _ _ _) hn).mp hsome
    have hdrop : (intBytes n ++ received ++ (u ++ y :: t ++ pad)).drop 4 =
        received ++ u ++ y :: t ++ pad := by
      rw [List.append_assoc, List.drop_left' (length_intBytes n)]
      simp only [List.append_assoc]
    exact hy pad z hz (hdrop ▸ hpre)
  have hsame : requestIn good = requestIn bad :=
    h good bad (hsize x) (hsize y) (holds_holding _ _ _ _) (holds_holding _ _ _ _)
  exact hbad (hsame.symm.trans hgood)

/-- **A request depends on its frame alone iff no encoding goes on behind the frame.** -/
theorem frameOnly_iff (hcap : capacity < 2 ^ 31) (hn : n.toInt ≤ received.length) :
    FrameOnly capacity (intBytes n ++ received) ↔ ¬ Extends capacity received := by
  constructor
  · intro h hext
    exact not_frameOnly_of_extends hext hcap hn h
  · intro hext b b' hb hb' hh hh'
    refine Option.ext fun request => ⟨fun h => ?_, fun h => ?_⟩
    · exact requestIn_of_not_extends hext hn hb hb' hh hh' h
    · exact requestIn_of_not_extends hext hn hb' hb hh' hh h

/-- **A whole request**: no encoding goes on behind it. -/
theorem not_extends_of_mem {request : Request} (h : received ∈ requestPayload.wire request)
    (hcap : capacity < 2 ^ 31) : ¬ Extends capacity received := by
  rintro ⟨request', bs, hbs, hpre, hfit, hlt⟩
  obtain rfl := reads_deserializeRequest.eq_of_prefix h hbs hpre (by omega)
  rw [requestPayload.prefixFree request _ h _ hbs hpre] at hlt
  omega

/-! ### Examples -/

/-- A request for the number of messages, of eight bytes. -/
def askPending : Request := .queuesWithPendingMessages ⟨1⟩

/-- Twenty bytes of the buffer lie behind this frame, and none of them counts. -/
theorem frameOnly_askPending : FrameOnly 32 (intBytes 8 ++ requestPayload.enc askPending) :=
  (frameOnly_iff (by decide) (by decide)).mpr
    (not_extends_of_mem (requestPayload.enc_mem askPending (by decide)) (by decide))

/-- **An empty frame**, the four bytes of the length 0: a request that an earlier frame left in the
buffer is decoded again. -/
theorem not_frameOnly_empty : ¬ FrameOnly 12 (intBytes 0 ++ []) := by
  have hmem : requestPayload.enc askPending ∈ requestPayload.wire askPending :=
    requestPayload.enc_mem askPending (by decide)
  exact not_frameOnly_of_extends ⟨askPending, _, hmem, List.nil_prefix, by decide, by decide⟩
    (by decide) (by decide)

end Mlmq.Server.LeftOver
