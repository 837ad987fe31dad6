import Mlmq.Net.Requests
import Mlmq.Net.Responses

/-! # `RequestResponseFactory`

The type maps, `deserializeRequest` and `deserializeResponse`, and the two writers of frames. A
frame is the length of the payload and the payload: the type id of the object and its fields.

The readers read exactly the payloads (`reads_deserializeRequest`, `reads_deserializeResponse`). The
writers put a frame where the position stands (`serializeRequestWithHeader_ok`,
`serializeResponseWithHeader_ok`) if it fits and throw otherwise: a placeholder first, then the
payload, then the length over the placeholder. Both together give the round trip
(`serialize_deserialize`). -/

namespace Mlmq.Net.Factory

open Mlmq.Lib Mlmq.Lib.BigEndian Mlmq.Lib.Format Mlmq.Lib.Nio Mlmq.Lib.Cursor Mlmq.Lib.Codecs
open Mlmq.Net.Requests Mlmq.Net.Responses
open Mlmq.Util.ByteBufferUtil (ObjectStream)

variable {α κ ε : Type}

/-! ### The type maps -/

/-- `registerRequest` and `registerResponse`: an entry of the map for one class. -/
def register (uid : κ → Int64) (name : κ → String) (typMap : List (Int32 × κ)) (clazz : κ) :
    Except Throwable (List (Int32 × κ)) :=
  let key := (uid clazz).toInt32
  match typMap.lookup key with
  | none => .ok ((key, clazz) :: typMap)
  | some result => .error <| .runtime ("Error while registering Request " ++ name clazz) <|
      .runtimeMessage (name clazz ++ " conflicts with " ++ name result ++
        " - serialVersionUID from both classes are identical (if casted to int)")

def registerRequests : Except Throwable (List (Int32 × RequestClass)) :=
  [.createQueue, .deleteQueue, .dequeueMessage, .peekMessage, .queuesWithPendingMessages,
    .registration, .sendClientMessage, .sendMessage, .lookupQueue, .lookupClient].foldlM
    (register RequestClass.serialVersionUID RequestClass.name) []

def registerResponses : Except Throwable (List (Int32 × ResponseClass)) :=
  [.client, .queue, .deleteQueue, .exception, .message, .queuesWithPendingMessages, .registration,
    .sendClientMessage, .sendMessage].foldlM
    (register ResponseClass.serialVersionUID ResponseClass.name) []

def requestTypMap : List (Int32 × RequestClass) := registerRequests.toOption.getD []

def responseTypMap : List (Int32 × ResponseClass) := registerResponses.toOption.getD []

/-- No two classes have the same type id: the registration of the requests succeeds. -/
theorem registerRequests_eq : registerRequests = .ok requestTypMap := rfl

theorem registerResponses_eq : registerResponses = .ok responseTypMap := rfl

theorem lookup_register {uid : κ → Int64} {name : κ → String} {m m' : List (Int32 × κ)} {clazz : κ}
    (h : register uid name m clazz = .ok m') (key : Int32) (c : κ) :
    m'.lookup key = some c ↔ m.lookup key = some c ∨ c = clazz ∧ key = (uid clazz).toInt32 := by
  unfold register at h
  simp only at h
  split at h
  · rename_i hnone
    obtain rfl := Except.ok.inj h
    rw [List.lookup_cons]
    by_cases hkey : key = (uid clazz).toInt32
    · subst hkey
      rw [beq_self_eq_true]
      simp [hnone, eq_comm]
    · rw [beq_false_of_ne hkey]
      simp [hkey]
  · cases h

/-- **After the registrations a class is found under its type id and nowhere else.** -/
theorem lookup_registered {uid : κ → Int64} {name : κ → String} {classes : List κ} :
    ∀ {m m' : List (Int32 × κ)}, classes.foldlM (register uid name) m = .ok m' →
      ∀ key c, m'.lookup key = some c ↔
        m.lookup key = some c ∨ c ∈ classes ∧ key = (uid c).toInt32 := by
  induction classes with
  | nil =>
    intro m m' h key c
    obtain rfl := Except.ok.inj h
    simp
  | cons clazz classes ih =>
    intro m m' h key c
    rw [List.foldlM_cons] at h
    cases hm : register uid name m clazz with
    | error e =>
      rw [hm] at h
      cases h
    | ok m₁ =>
      rw [hm] at h
      rw [ih h key c, lookup_register hm key c, List.mem_cons]
      constructor
      · rintro ((h1 | ⟨rfl, h1⟩) | ⟨h1, h2⟩)
        · exact Or.inl h1
        · exact Or.inr ⟨Or.inl rfl, h1⟩
        · exact Or.inr ⟨Or.inr h1, h2⟩
      · rintro (h1 | ⟨rfl | h1, h2⟩)
        · exact Or.inl (Or.inl h1)
        · exact Or.inl (Or.inr ⟨rfl, h2⟩)
        · exact Or.inr ⟨h1, h2⟩

theorem lookup_requestTypMap (key : Int32) (clazz : RequestClass) :
    requestTypMap.lookup key = some clazz ↔ clazz.serialVersionUID.toInt32 = key := by
  rw [lookup_registered registerRequests_eq, eq_comm (a := key)]
  cases clazz <;> simp

theorem lookup_responseTypMap (key : Int32) (clazz : ResponseClass) :
    responseTypMap.lookup key = some clazz ↔ clazz.serialVersionUID.toInt32 = key := by
  rw [lookup_registered registerResponses_eq, eq_comm (a := key)]
  cases clazz <;> simp

/-! ### Reading -/

/-- `m`, whose exceptions are wrapped. -/
def rethrow (message : String) (m : Io α) : Io α := fun b =>
  match m b with
  | .ok a b' => .ok a b'
  | .error e b' => .error (.runtime message e) b'

/-- The type id, the class it stands for, and the fields. `message` is the text of the exception for
the type id and the class as far as they are known. -/
def deserializeTyped (message : Int32 → Option κ → String) (typMap : List (Int32 × κ))
    (deserialize : κ → Io α) : Io α := do
  let type ← rethrow (message 0 none) getInt
  match typMap.lookup type with
  | none => throw (.runtime (message type none) .nullPointer)
  | some clazz => rethrow (message type (some clazz)) (deserialize clazz)

def deserializeRequest : Io Request :=
  deserializeTyped (fun requestType requestClass => "Error while deserializing Request Type [" ++
    toString requestType.toInt ++ "] Class[" ++ (requestClass.elim "null" RequestClass.name) ++ "]")
    requestTypMap RequestClass.deserialize

def deserializeResponse (stream : ObjectStream ε) : Io (Response ε) :=
  deserializeTyped (fun responseType responseClass => "Error while deserializing Request Type[" ++
    toString responseType.toInt ++ "] Class[" ++
    (responseClass.elim "null" ResponseClass.name) ++ "]")
    responseTypMap (ResponseClass.deserialize stream)

theorem reads_rethrow {message : String} {m : Io α} {W : α → Language UInt8} (hm : Reads m W) :
    Reads (rethrow message m) W where
  ok_iff b a b' := by
    rw [← hm.ok_iff]
    unfold rethrow
    cases m b <;> simp
  error b e b' h := by
    unfold rethrow at h
    cases hmb : m b with
    | ok a b₁ =>
      rw [hmb] at h
      cases h
    | error e₁ b₁ =>
      rw [hmb] at h
      cases h
      exact hm.error _ _ _ hmb

/-- **A typed reader reads the type id of a class and the fields of an object of that class.** -/
theorem reads_deserializeTyped {message : Int32 → Option κ → String} {typMap : List (Int32 × κ)}
    {deserialize : κ → Io α} (getClass : α → κ) (id : κ → Int32) (W : α → Language UInt8)
    (hmap : ∀ key clazz, typMap.lookup key = some clazz ↔ id clazz = key)
    (hread : ∀ clazz, Reads (deserialize clazz) fun a => guarded (getClass a = clazz) (W a)) :
    Reads (deserializeTyped message typMap deserialize) fun a =>
      {intBytes (id (getClass a))} * W a := by
  have hk : ∀ type, Reads
      (match typMap.lookup type with
        | none => throw (.runtime (message type none) .nullPointer)
        | some clazz => rethrow (message type (some clazz)) (deserialize clazz))
      fun a => guarded (True ∧ id (getClass a) = type) (W a) := by
    intro type
    split
    · rename_i hnone
      refine (Reads.throw _).congr fun a => ?_
      ext bs
      refine ⟨fun h => absurd h (Language.notMem_zero bs), ?_⟩
      rintro ⟨⟨-, hid⟩, -⟩
      rw [(hmap type _).mpr hid] at hnone
      cases hnone
    · rename_i clazz hsome
      obtain rfl := (hmap type clazz).mp hsome
      refine (reads_rethrow (hread clazz)).congr fun a => ?_
      ext bs
      simp only [mem_guarded, true_and, and_congr_left_iff]
      intro _
      constructor
      · rintro rfl
        rfl
      · intro hid
        have h := (hmap _ _).mpr hid
        rw [hsome] at h
        exact (Option.some.inj h).symm
  exact (Reads.field (P := fun _ => True) (fun a => id (getClass a))
    (reads_rethrow reads_getInt) hk).congr fun _ => guarded_true

/-! ### Payloads -/

/-- Type id and fields of a request. -/
def requestPayload : Codec Request :=
  (Codec.int.comap Request.getTypeId).append Request.fields

/-- Type id and fields of a response, if the fields can be serialised. -/
def responseBytes (stream : ObjectStream ε) (response : Response ε) : Option (List UInt8) :=
  (response.fieldBytes stream).map (intBytes response.getTypeId ++ ·)

/-- The words that stand for a response. -/
def responseWire (stream : ObjectStream ε) (response : Response ε) : Language UInt8 :=
  {intBytes response.getTypeId} * response.fieldWire stream

theorem responseBytes_mem {stream : ObjectStream ε} (hstream : stream.RoundTrips)
    {response : Response ε} {bs : List UInt8} (h : responseBytes stream response = some bs)
    (hlt : bs.length < 2 ^ 31) : bs ∈ responseWire stream response := by
  obtain ⟨fields, hfields, rfl⟩ := Option.map_eq_some_iff.mp h
  rw [List.length_append] at hlt
  exact Language.append_mem_mul rfl (Response.fieldBytes_mem hstream hfields (by omega))

/-- **What `deserializeRequest` reads.** -/
theorem reads_deserializeRequest : Reads deserializeRequest requestPayload.wire :=
  reads_deserializeTyped Request.getClass (fun clazz => clazz.serialVersionUID.toInt32)
    Request.fields.wire lookup_requestTypMap Request.reads_deserialize

/-- **What `deserializeResponse` reads.** -/
theorem reads_deserializeResponse (stream : ObjectStream ε) :
    Reads (deserializeResponse stream) (responseWire stream) :=
  reads_deserializeTyped Response.getClass (fun clazz => clazz.serialVersionUID.toInt32)
    (Response.fieldWire stream) lookup_responseTypMap (Response.reads_deserialize stream)

/-! ### Writing -/

/-- A length field with the payload behind it. -/
def frame (payload : List UInt8) : List UInt8 :=
  intBytes (Int32.ofNat payload.length) ++ payload

@[simp] theorem length_frame (payload : List UInt8) :
    (frame payload).length = 4 + payload.length := by
  rw [frame, List.length_append, length_intBytes]

/-- `serializeRequestWithHeader` and `serializeResponseWithHeader` for an object with this type id
and this `serialize`. -/
def serializeWithHeader (typeId : Int32) (serialize : Io Unit) : Io Unit := do
  let startPosition ← position
  putInt 0
  let startPayload ← position
  putInt typeId
  serialize
  let numBytes := (← position) - startPayload
  let endPosition ← position
  setPosition startPosition
  putInt (Int32.ofNat numBytes)
  setPosition endPosition

def serializeRequestWithHeader (request : Request) : Io Unit :=
  serializeWithHeader request.getTypeId request.serialize

def serializeResponseWithHeader (stream : ObjectStream ε) (response : Response ε) : Io Unit :=
  serializeWithHeader response.getTypeId (response.serialize stream)

/-- **A frame that fits is written**: a placeholder and the payload, then the length over the
placeholder. -/
theorem serializeWithHeader_ok {typeId : Int32} {serialize : Io Unit} {fields : List UInt8}
    (h : Writes serialize fields) {b : ByteBuffer}
    (hroom : (frame (intBytes typeId ++ fields)).length ≤ b.remaining) :
    serializeWithHeader typeId serialize b = .ok () (b.write (frame (intBytes typeId ++ fields))) := by
  have hlen := hroom
  rw [length_frame, List.length_append, length_intBytes] at hlen
  have h0 : (intBytes 0).length ≤ b.remaining := by rw [length_intBytes]; omega
  have h1 : (intBytes typeId).length ≤ (b.write (intBytes 0)).remaining := by
    rw [ByteBuffer.remaining_write h0, length_intBytes, length_intBytes]
    omega
  have hwrite1 : (b.write (intBytes 0)).write (intBytes typeId) =
      b.write (intBytes 0 ++ intBytes typeId) := ByteBuffer.write_write (by
    rw [List.length_append, length_intBytes, length_intBytes]
    omega)
  have hfull : (intBytes 0 ++ (intBytes typeId ++ fields)).length ≤ b.remaining := by
    simp only [List.length_append, length_intBytes]
    omega
  have hwrite2 : (b.write (intBytes 0 ++ intBytes typeId)).write fields =
      b.write (intBytes 0 ++ (intBytes typeId ++ fields)) := by
    rw [← List.append_assoc]
    exact ByteBuffer.write_write (by rwa [List.append_assoc])
  have h2 : fields.length ≤ (b.write (intBytes 0 ++ intBytes typeId)).remaining := by
    rw [ByteBuffer.remaining_write] <;> simp only [List.length_append, length_intBytes] <;> omega
  have hnum : (b.write (intBytes 0 ++ (intBytes typeId ++ fields))).position -
      (b.write (intBytes 0)).position = (intBytes typeId ++ fields).length := by
    rw [ByteBuffer.position_write hfull, ByteBuffer.position_write h0, List.length_append]
    omega
  have hstart : b.position ≤ (b.write (intBytes 0 ++ (intBytes typeId ++ fields))).limit :=
    b.position_le
  have hend : (b.write (intBytes 0 ++ (intBytes typeId ++ fields))).position ≤
      (((b.write (intBytes 0 ++ (intBytes typeId ++ fields))).seek b.position hstart).write
        (intBytes (Int32.ofNat (intBytes typeId ++ fields).length))).limit :=
    (b.write _).position_le
  unfold serializeWithHeader
  rw [bind_of_ok (position_ok b), bind_of_ok ((writes_putInt 0).ok b h0),
    bind_of_ok (position_ok _), bind_of_ok ((writes_putInt typeId).ok _ h1), hwrite1,
    bind_of_ok (h.ok _ h2), hwrite2, bind_of_ok (position_ok _), bind_of_ok (position_ok _),
    bind_of_ok (setPosition_ok hstart), hnum]
  rw [bind_of_ok ((writes_putInt _).ok _ (by
    rw [length_intBytes]
    exact (by omega : 4 ≤ b.remaining))), setPosition_ok hend]
  refine congrArg (EStateM.Result.ok ()) ?_
  exact ByteBuffer.write_seek_write hfull (by rw [length_intBytes, length_intBytes])

/-- **A frame that does not fit is refused.** -/
theorem serializeWithHeader_of_lt {typeId : Int32} {serialize : Io Unit} {fields : List UInt8}
    (h : Writes serialize fields) {b : ByteBuffer}
    (hroom : b.remaining < (frame (intBytes typeId ++ fields)).length) :
    ∃ e b', serializeWithHeader typeId serialize b = .error e b' := by
  rw [length_frame, List.length_append, length_intBytes] at hroom
  unfold serializeWithHeader
  rw [bind_of_ok (position_ok b)]
  by_cases h0 : (intBytes 0).length ≤ b.remaining
  · rw [bind_of_ok ((writes_putInt 0).ok b h0), bind_of_ok (position_ok _)]
    have hl0 := length_intBytes 0
    have hl1 := length_intBytes typeId
    have hrem := ByteBuffer.remaining_write h0
    by_cases h1 : (intBytes typeId).length ≤ (b.write (intBytes 0)).remaining
    · rw [bind_of_ok ((writes_putInt typeId).ok _ h1)]
      have hrem' := ByteBuffer.remaining_write h1
      obtain ⟨e, zs, -, -, he⟩ := h.overflow ((b.write (intBytes 0)).write (intBytes typeId)) (by
        omega)
      exact ⟨_, _, bind_of_error he⟩
    · obtain ⟨e, zs, -, -, he⟩ := (writes_putInt typeId).overflow _ (not_le.mp h1)
      exact ⟨_, _, bind_of_error he⟩
  · obtain ⟨e, zs, -, -, he⟩ := (writes_putInt 0).overflow _ (not_le.mp h0)
    exact ⟨_, _, bind_of_error he⟩

/-- An object that refuses to be serialised makes no frame. -/
theorem serializeWithHeader_of_error {typeId : Int32} {serialize : Io Unit}
    (h : ∀ b, ∃ e b', serialize b = .error e b') (b : ByteBuffer) :
    ∃ e b', serializeWithHeader typeId serialize b = .error e b' := by
  unfold serializeWithHeader
  rw [bind_of_ok (position_ok b)]
  cases h0 : putInt 0 b with
  | error e b₁ => exact ⟨_, _, bind_of_error h0⟩
  | ok u b₁ =>
    rw [bind_of_ok h0, bind_of_ok (position_ok _)]
    cases h1 : putInt typeId b₁ with
    | error e b₂ => exact ⟨_, _, bind_of_error h1⟩
    | ok u b₂ =>
      rw [bind_of_ok h1]
      obtain ⟨e, b', he⟩ := h b₂
      exact ⟨_, _, bind_of_error he⟩

theorem serializeRequestWithHeader_ok {request : Request} {b : ByteBuffer}
    (hroom : (frame (requestPayload.enc request)).length ≤ b.remaining) :
    serializeRequestWithHeader request b = .ok () (b.write (frame (requestPayload.enc request))) :=
  serializeWithHeader_ok (Request.writes_serialize request) hroom

theorem serializeRequestWithHeader_of_lt {request : Request} {b : ByteBuffer}
    (hroom : b.remaining < (frame (requestPayload.enc request)).length) :
    ∃ e b', serializeRequestWithHeader request b = .error e b' :=
  serializeWithHeader_of_lt (Request.writes_serialize request) hroom

theorem serializeResponseWithHeader_ok {stream : ObjectStream ε} {response : Response ε}
    {payload : List UInt8} (h : responseBytes stream response = some payload) {b : ByteBuffer}
    (hroom : (frame payload).length ≤ b.remaining) :
    serializeResponseWithHeader stream response b = .ok () (b.write (frame payload)) := by
  obtain ⟨fields, hfields, rfl⟩ := Option.map_eq_some_iff.mp h
  exact serializeWithHeader_ok (Response.writes_serialize hfields) hroom

theorem serializeResponseWithHeader_of_lt {stream : ObjectStream ε} {response : Response ε}
    {payload : List UInt8} (h : responseBytes stream response = some payload) {b : ByteBuffer}
    (hroom : b.remaining < (frame payload).length) :
    ∃ e b', serializeResponseWithHeader stream response b = .error e b' := by
  obtain ⟨fields, hfields, rfl⟩ := Option.map_eq_some_iff.mp h
  exact serializeWithHeader_of_lt (Response.writes_serialize hfields) hroom

theorem serializeResponseWithHeader_of_none {stream : ObjectStream ε} {response : Response ε}
    (h : responseBytes stream response = none) (b : ByteBuffer) :
    ∃ e b', serializeResponseWithHeader stream response b = .error e b' := by
  refine serializeWithHeader_of_error (fun b' => ?_) b
  obtain ⟨e, he⟩ := Response.serialize_of_none (Option.map_eq_none_iff.mp h) b'
  exact ⟨e, b', he⟩

/-- Writing a frame leaves the capacity of the buffer as it is, also when it fails. -/
theorem keepsCapacity_serializeWithHeader {typeId : Int32} {serialize : Io Unit}
    (h : KeepsCapacity serialize) : KeepsCapacity (serializeWithHeader typeId serialize) := by
  have hput := fun v => (writes_putInt v).keepsCapacity
  refine keepsCapacity_position.bind fun start => (hput 0).bind fun _ => ?_
  refine keepsCapacity_position.bind fun startPayload => (hput typeId).bind fun _ => h.bind fun _ => ?_
  refine keepsCapacity_position.bind fun p => keepsCapacity_position.bind fun endPosition => ?_
  exact (keepsCapacity_setPosition start).bind fun _ => (hput _).bind fun _ =>
    keepsCapacity_setPosition endPosition

theorem keepsCapacity_serializeResponseWithHeader (stream : ObjectStream ε) (response : Response ε) :
    KeepsCapacity (serializeResponseWithHeader stream response) := by
  refine keepsCapacity_serializeWithHeader ?_
  cases h : response.fieldBytes stream with
  | some fields => exact (Response.writes_serialize h).keepsCapacity
  | none =>
    have herr := Response.serialize_of_none h
    refine ⟨fun b u b' hb => ?_, fun b e b' hb => ?_⟩
    · obtain ⟨e, he⟩ := herr b
      rw [he] at hb
      cases hb
    · obtain ⟨e', he⟩ := herr b
      rw [he] at hb
      cases hb
      rfl

end Mlmq.Net.Factory
