import Mlmq.Net.Factory

/-! # The byte that decides a request

How far a reader of requests depends on the end of what it reads: the last byte of an encoding
decides it, but for a null string or array at the end, where a negative length stands and only its
first byte, which holds the sign, matters (`tail_nullWire`). `freeBytes` counts the bytes behind the
deciding one, and `ends_requestPayload` says so for all requests. -/

namespace Mlmq.Net.Ending

open Mlmq.Lib Mlmq.Lib.BigEndian Mlmq.Lib.Format Mlmq.Lib.Codecs Mlmq.Dto Mlmq.Net.Requests
open Mlmq.Net.Factory
open Mlmq.Lib.Utf8 (newString newString_eq_empty newString_append_ascii)
open Mlmq.Util.ByteBufferUtil

variable {α : Type}

/-! ### Null strings and arrays -/

/-- A negative length is negative by its first byte. -/
theorem cons_mem_nullWire {x : UInt8} {v : List UInt8} (hv : v.length = 3) :
    x :: v ∈ nullWire ↔ 128 ≤ x.toNat := by
  rw [← intOf_neg_iff hv]
  constructor
  · rintro ⟨n, hn, h⟩
    rwa [h, intOf_intBytes]
  · intro h
    exact ⟨_, h, (intBytes_intOf (by rw [List.length_cons, hv])).symm⟩

theorem tail_nullWire : Tail 3 nullWire where
  longer u hu := by
    rw [nullWire_length hu]
    omega
  free u v v' h hv hv' := by
    have hlen := nullWire_length h
    rw [List.length_append, hv] at hlen
    obtain ⟨x, rfl⟩ := List.length_eq_one_iff.mp (show u.length = 1 by omega)
    exact (cons_mem_nullWire hv').mpr ((cons_mem_nullWire hv).mp h)
  decided u x v h hv := by
    have hlen := nullWire_length h
    rw [List.length_append, List.length_cons, hv] at hlen
    obtain rfl := List.length_eq_zero_iff.mp (show u.length = 0 by omega)
    refine ⟨0, fun w z hz hpre => ?_⟩
    have hz0 : z = 0 :: v := by
      refine (List.prefix_of_prefix_length_le hpre (List.prefix_append _ w) ?_).eq_of_length ?_
      · rw [nullWire_length hz, List.nil_append, List.length_cons, hv]
      · rw [nullWire_length hz, List.nil_append, List.length_cons, hv]
    rw [hz0, cons_mem_nullWire hv] at hz
    exact absurd hz (by decide)

/-! ### Strings and arrays -/

theorem arrayBytes_ne_nil (data : List UInt8) : arrayBytes data ≠ [] :=
  List.ne_nil_of_length_pos (by rw [length_arrayBytes]; omega)

/-- Two arrays at the front of one text are the same. -/
theorem arrayBytes_unique {data data' w : List UInt8} (hlt : data.length < 2 ^ 31)
    (hlt' : data'.length < 2 ^ 31) (h : arrayBytes data' <+: arrayBytes data ++ w) :
    data' = data := by
  have hwire := prefixFree_nullableWire (fun _ => ()) (some ())
  have heq : arrayBytes data' = arrayBytes data :=
    hwire.eq_of_prefix ⟨data', rfl, hlt', rfl⟩ ⟨data, rfl, hlt, rfl⟩ h (List.prefix_append _ w)
  unfold arrayBytes at heq
  exact (List.append_inj heq (by rw [length_intBytes, length_intBytes])).2

/-- A nullable array is decided by its last byte if that byte matters to `f`. -/
theorem tail_nullableWire_some {f : List UInt8 → α} {a : α} (hnil : ∀ data, f data = f [] → data = [])
    (hlast : ∀ data, ∃ y y', f (data ++ [y]) ≠ f (data ++ [y'])) :
    Tail 0 (nullableWire f (some a)) where
  longer u hu := by
    obtain ⟨data, -, -, rfl⟩ := hu
    exact List.length_pos_of_ne_nil (arrayBytes_ne_nil data)
  free u v v' h hv hv' := by
    rwa [List.length_eq_zero_iff.mp hv', ← List.length_eq_zero_iff.mp hv]
  decided u x v h hv := by
    obtain rfl := List.length_eq_zero_iff.mp hv
    obtain ⟨data, rfl, hlt, hdata⟩ := h
    rcases List.eq_nil_or_concat' data with rfl | ⟨init, x', rfl⟩
    · -- the length 0 becomes 1
      have hu : u ++ [1] = intBytes 1 := by
        have h0 : u ++ [x] = [0, 0, 0] ++ [0] := hdata
        rw [(List.append_inj' h0 rfl).1]
        decide
      refine ⟨1, fun w z hz hpre => ?_⟩
      obtain ⟨data', hf, -, rfl⟩ := hz
      obtain rfl := hnil data' hf
      rw [hu] at hpre
      have heq : arrayBytes [] = intBytes 1 :=
        (List.prefix_of_prefix_length_le hpre (List.prefix_append _ w) (by decide)).eq_of_length
          (by decide)
      exact absurd heq (by decide)
    · -- another last byte
      obtain ⟨y, hy⟩ : ∃ y, f (init ++ [y]) ≠ f (init ++ [x']) := by
        obtain ⟨y, y', hne⟩ := hlast init
        by_cases hy : f (init ++ [y]) = f (init ++ [x'])
        · exact ⟨y', fun hy' => hne (hy.trans hy'.symm)⟩
        · exact ⟨y, hy⟩
      have hu : u ++ [y] = arrayBytes (init ++ [y]) := by
        unfold arrayBytes at hdata ⊢
        rw [← List.append_assoc] at hdata
        rw [(List.append_inj' hdata rfl).1, ← List.append_assoc]
        simp only [List.length_append, List.length_singleton]
      refine ⟨y, fun w z hz hpre => ?_⟩
      obtain ⟨data', hf, hlt', rfl⟩ := hz
      rw [hu] at hpre
      have hsame : (init ++ [y]).length < 2 ^ 31 := by
        simpa only [List.length_append, List.length_singleton] using hlt
      rw [arrayBytes_unique hsame hlt' hpre] at hf
      exact hy hf

/-- The free bytes of a nullable array: the last three of a negative length. -/
def nullFree : Option α → ℕ
  | none => 3
  | some _ => 0

theorem ends_string : stringCodec.Ends nullFree
  | none => tail_nullWire
  | some _ => tail_nullableWire_some
      (fun data h => newString_eq_empty.mp (h.trans (newString_eq_empty.mpr rfl)))
      fun data => ⟨97, 98, newString_append_ascii (by decide) (by decide) (by decide) data⟩

theorem ends_array : arrayCodec.Ends nullFree
  | none => tail_nullWire
  | some _ => tail_nullableWire_some (fun _ h => h) fun data => ⟨97, 98, by simp⟩

/-! ### Flags -/

theorem tail_otherByte : Tail 0 otherByte where
  longer u hu := by
    rw [otherByte_length hu]
    omega
  free u v v' h hv hv' := by
    rwa [List.length_eq_zero_iff.mp hv', ← List.length_eq_zero_iff.mp hv]
  decided u x v h hv := by
    obtain rfl := List.length_eq_zero_iff.mp hv
    obtain ⟨b, -, hb⟩ := h
    obtain rfl := (List.append_inj' (show u ++ [x] = [] ++ [b] from hb) rfl).1
    refine ⟨trueByte, fun w z hz hpre => ?_⟩
    obtain ⟨b', hb', rfl⟩ := hz
    exact hb' (List.cons_prefix_cons.mp hpre).1

theorem ends_opt {c : Codec α} {free : α → ℕ} (h : c.Ends free) :
    (optCodec c).Ends fun o => o.elim 0 free := by
  rintro (_ | a)
  · exact tail_otherByte
  · exact (h a).mul_left (prefixFree_singleton _)

/-! ### Requests -/

theorem ends_queueDto : QueueDto.codec.Ends fun queue => nullFree queue.name :=
  (ends_string.comap _).append _

theorem ends_messageQueryInfoDto : MessageQueryInfoDto.codec.Ends fun _ => 0 := by
  have h : (optCodec Codec.int).Ends fun _ => 0 := by
    intro o
    have := ends_opt Codec.ends_int o
    cases o <;> exact this
  exact (((h.comap _).append _).append _).append _

/-- The bytes at the end of an encoding that may be any. -/
def freeBytes : Request → ℕ
  | .createQueue request => nullFree request.queueName
  | .deleteQueue request => request.queue.elim 0 fun queue => nullFree queue.name
  | .registration request => nullFree request.clientName
  | .sendClientMessage request => nullFree request.content
  | .lookupClient request => nullFree request.clientName
  | _ => 0

theorem ends_fields : Request.fields.Ends freeBytes := by
  have hquery : ∀ q, Tail 0 ((optCodec MessageQueryInfoDto.codec).wire q) := by
    intro q
    have := ends_opt ends_messageQueryInfoDto q
    cases q <;> exact this
  have hlong : (optCodec Codec.long).Ends fun _ => 0 := by
    intro o
    have := ends_opt Codec.ends_long o
    cases o <;> exact this
  intro request
  cases request with
  | createQueue r => exact ends_string r.queueName
  | deleteQueue r => exact ends_opt ends_queueDto r.queue
  | dequeueMessage r => exact hquery r.messageQueryInfo
  | peekMessage r => exact hquery r.messageQueryInfo
  | queuesWithPendingMessages r => exact Codec.ends_int r.maxNumQueues
  | registration r => exact ends_string r.clientName
  | sendClientMessage r => exact (((((ends_array.comap _).append _).append _).append _).append _) r
  | sendMessage r => exact (((Codec.ends_int.comap _).append _).append _) r
  | lookupQueue r => exact ((hlong.comap _).append _) r
  | lookupClient r => exact ends_string r.clientName

/-- **All but the last `freeBytes` bytes of an encoding decide the request.** -/
theorem ends_requestPayload : requestPayload.Ends freeBytes := ends_fields.append _

end Mlmq.Net.Ending
