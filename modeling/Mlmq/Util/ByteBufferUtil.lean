import Mlmq.Lib.Codecs
import Mlmq.Lib.Utf8

/-! # `ByteBufferUtil`: the fields of the wire format

The functions are those of the source, over `Io`. Each writer comes with the reader of the same
field and the codec the two implement (`implements_string`, `implements_array`, `implements_opt`,
…). The writer stores one form of a value; the reader accepts more: a null array is any negative
length, and a byte other than `trueByte` is false or null.

Java object serialisation is the parameter `ObjectStream`. -/

namespace Mlmq.Util.ByteBufferUtil

open Mlmq.Lib Mlmq.Lib.BigEndian Mlmq.Lib.Format Mlmq.Lib.Nio Mlmq.Lib.Cursor Mlmq.Lib.Codecs
open Mlmq.Lib.Utf8 (getBytes newString)

variable {α : Type}

/-! ### The functions of the source -/

def trueByte : UInt8 := 0
def falseByte : UInt8 := -1

def putString (str : Option String) : Io Unit :=
  match str with
  | some str => do
    let data := getBytes str
    putInt (Int32.ofNat data.length)
    putArray data
  | none => putInt (-1)

def getString : Io (Option String) := do
  let size ← getInt
  if 0 ≤ size.toInt then
    let data ← getArray size.toInt.toNat
    return some (newString data)
  else
    return none

def deserialize (obj : Io α) : Io (Option α) := do
  let b ← getByte
  if b = trueByte then
    let a ← obj
    return some a
  else
    return none

def serialize (obj : α → Io Unit) : Option α → Io Unit
  | some a => do
    putByte trueByte
    obj a
  | none => putByte falseByte

def putBoolean (b : Bool) : Io Unit :=
  if b then putByte trueByte else putByte falseByte

def getBoolean : Io Bool := do
  let bByte ← getByte
  return bByte == trueByte

def putLong : Option Int64 → Io Unit
  | none => putByte falseByte
  | some l => do
    putByte trueByte
    Nio.putLong l

def putInteger : Option Int32 → Io Unit
  | none => putByte falseByte
  | some l => do
    putByte trueByte
    putInt l

def getLong : Io (Option Int64) := do
  let b ← getByte
  if trueByte = b then
    let l ← Nio.getLong
    return some l
  else
    return none

def getInteger : Io (Option Int32) := do
  let b ← getByte
  if trueByte = b then
    let l ← getInt
    return some l
  else
    return none

def putByteArray (content : Option (List UInt8)) : Io Unit :=
  match content with
  | none => putInt (-1)
  | some content => do
    putInt (Int32.ofNat content.length)
    putArray content

def getByteArray : Io (Option (List UInt8)) := do
  let lenght ← getInt
  if 0 ≤ lenght.toInt then
    let data ← getArray lenght.toInt.toNat
    return some data
  else
    return none

/-! ### Java objects -/

/-- What an object stream may hold: `null`, an exception, or any other object. -/
inductive Obj (ε : Type)
  | null
  | exception (ex : ε)
  | other
deriving DecidableEq, Repr

/-- Java object serialisation of the exceptions `ε`. -/
structure ObjectStream (ε : Type) where
  writeObject : Obj ε → Except Throwable (List UInt8)
  readObject : List UInt8 → Except Throwable (Obj ε)
  toString : Obj ε → String

/-- What is written can be read back. -/
def ObjectStream.RoundTrips {ε : Type} (stream : ObjectStream ε) : Prop :=
  ∀ obj data, stream.writeObject obj = .ok data → stream.readObject data = .ok obj

/-- `HeapByteBuffer.toString()`. -/
def bufferString (b : ByteBuffer) : String :=
  "java.nio.HeapByteBuffer[pos=" ++ toString b.position ++ " lim=" ++ toString b.limit ++
    " cap=" ++ toString b.capacity ++ "]"

/-- `Throwable.toString()`. -/
def throwableString : Throwable → String
  | .bufferOverflow => "java.nio.BufferOverflowException"
  | .bufferUnderflow => "java.nio.BufferUnderflowException"
  | .illegalArgument => "java.lang.IllegalArgumentException"
  | .nullPointer => "java.lang.NullPointerException"
  | .classCast => "java.lang.ClassCastException"
  | .io => "java.io.IOException"
  | .cancelledKey => "java.nio.channels.CancelledKeyException"
  | .notSerializable => "java.io.NotSerializableException"
  | .streamCorrupted => "java.io.StreamCorruptedException"
  | .runtimeMessage message => "java.lang.RuntimeException: " ++ message
  | .runtime message _ => "java.lang.RuntimeException: " ++ message

variable {ε : Type}

def serializeAny (stream : ObjectStream ε) (obj : Obj ε) : Io Unit := fun b =>
  match stream.writeObject obj with
  | .error e => .error (wrapped b e) b
  | .ok data =>
    match putByteArray (some data) b with
    | .ok () b' => .ok () b'
    | .error e b' => .error (wrapped b' e) b'
where
  wrapped (b : ByteBuffer) (e : Throwable) : Throwable :=
    .runtime ("Exception while serializinging to Buffer " ++ bufferString b ++ " Object: " ++
      stream.toString obj) e

def deserializeAny (stream : ObjectStream ε) : Io (Obj ε) := do
  let data ← getByteArray
  match data with
  | none => throw (.runtime (throwableString .nullPointer) .nullPointer)
  | some data =>
    match stream.readObject data with
    | .ok obj => return obj
    | .error e => throw (.runtime (throwableString e) e)

/-! ### Arrays and strings -/

/-- A null array or string: a negative length. -/
def nullWire : Language UInt8 := {bs | ∃ v : Int32, v.toInt < 0 ∧ bs = intBytes v}

/-- An array: its length and its bytes. -/
def arrayBytes (data : List UInt8) : List UInt8 := intBytes (Int32.ofNat data.length) ++ data

theorem nullWire_length {bs : List UInt8} (h : bs ∈ nullWire) : bs.length = 4 := by
  obtain ⟨v, -, rfl⟩ := h
  exact length_intBytes v

theorem neg_one_mem_nullWire : intBytes (-1) ∈ nullWire := ⟨-1, by decide, rfl⟩

theorem length_arrayBytes (data : List UInt8) : (arrayBytes data).length = 4 + data.length := by
  rw [arrayBytes, List.length_append, length_intBytes]

/-- A nullable array, read into `α` by `f`. -/
def nullableWire (f : List UInt8 → α) : Option α → Language UInt8
  | none => nullWire
  | some a => {bs | ∃ data, f data = a ∧ data.length < 2 ^ 31 ∧ bs = arrayBytes data}

theorem prefixFree_nullableWire (f : List UInt8 → α) : ∀ a, PrefixFree (nullableWire f a)
  | none => PrefixFree.of_length fun _ => nullWire_length
  | some a => by
    rintro _ ⟨data, -, hlt, rfl⟩ _ ⟨data', -, hlt', rfl⟩ h
    obtain ⟨t, ht⟩ := h
    have hint : intBytes (Int32.ofNat data.length) = intBytes (Int32.ofNat data'.length) := by
      have := congrArg (List.take 4) ht
      simpa [arrayBytes, List.take_append_of_le_length, List.take_of_length_le] using this
    have hlen := congrArg Int32.toInt (intBytes_injective hint)
    rw [toInt_ofNat hlt, toInt_ofNat hlt'] at hlen
    have hnil : t = [] := by
      have := congrArg List.length ht
      rw [List.length_append, length_arrayBytes, length_arrayBytes] at this
      exact List.length_eq_zero_iff.mp (by omega)
    rw [← ht, hnil, List.append_nil]

/-- Reading a length and then, if it is not negative, as many bytes. -/
theorem reads_nullable (f : List UInt8 → α) :
    Reads (do
      let size ← getInt
      if 0 ≤ size.toInt then
        let data ← getArray size.toInt.toNat
        return some (f data)
      else
        return none) (nullableWire f) := by
  refine (reads_getInt.bind fun size =>
    ((reads_getArray _).map fun data => some (f data)).ite (Reads.pure none)).congr fun a => ?_
  ext bs
  constructor
  · rintro ⟨size, h⟩
    obtain ⟨u, rfl, v, hv, rfl⟩ := Language.mem_mul.mp h
    rcases hv with ⟨hsize, data, rfl, hlen, rfl⟩ | ⟨hsize, rfl, rfl⟩
    · have hlt := size.toInt_lt
      have hofNat : Int32.ofNat v.length = size := by
        rw [← Int32.toInt_inj, toInt_ofNat (by omega)]
        omega
      exact ⟨v, rfl, by omega, by rw [arrayBytes, hofNat]⟩
    · exact ⟨size, by omega, List.append_nil _⟩
  · intro h
    match a, h with
    | none, ⟨v, hv, hbs⟩ =>
      exact ⟨v, Language.mem_mul.mpr
        ⟨intBytes v, rfl, [], Or.inr ⟨by omega, rfl, rfl⟩, by rw [List.append_nil, hbs]⟩⟩
    | some a, ⟨data, hf, hlt, hbs⟩ =>
      have hsize := toInt_ofNat hlt
      exact ⟨Int32.ofNat data.length, Language.mem_mul.mpr
        ⟨_, rfl, data, Or.inl ⟨by omega, data, by rw [hf], by omega, rfl⟩, hbs.symm⟩⟩

/-- The codec of nullable byte arrays. -/
def arrayCodec : Codec (Option (List UInt8)) where
  enc
    | none => intBytes (-1)
    | some data => arrayBytes data
  wire := nullableWire id
  prefixFree := prefixFree_nullableWire id
  enc_mem
    | none, _ => neg_one_mem_nullWire
    | some data, h => ⟨data, rfl, by rw [length_arrayBytes] at h; omega, rfl⟩

/-- The codec of nullable strings. -/
def stringCodec : Codec (Option String) where
  enc
    | none => intBytes (-1)
    | some str => arrayBytes (getBytes str)
  wire := nullableWire newString
  prefixFree := prefixFree_nullableWire newString
  enc_mem
    | none, _ => neg_one_mem_nullWire
    | some str, h =>
      ⟨getBytes str, Utf8.newString_getBytes str, by rw [length_arrayBytes] at h; omega, rfl⟩

theorem implements_array : Implements putByteArray getByteArray arrayCodec where
  writes
    | none => writes_putInt (-1)
    | some data => (writes_putInt _).seq (writes_putArray data)
  reads := reads_nullable id

theorem implements_string : Implements putString getString stringCodec where
  writes
    | none => writes_putInt (-1)
    | some str => (writes_putInt _).seq (writes_putArray (getBytes str))
  reads := reads_nullable newString

/-! ### Flags -/

/-- A byte other than `trueByte`. -/
def otherByte : Language UInt8 := {bs | ∃ v, v ≠ trueByte ∧ bs = [v]}

theorem falseByte_mem : [falseByte] ∈ otherByte := ⟨falseByte, by decide, rfl⟩

theorem otherByte_length {bs : List UInt8} (h : bs ∈ otherByte) : bs.length = 1 := by
  obtain ⟨v, -, rfl⟩ := h
  rfl

/-- A nullable value: a flag, and the value if it is there. -/
def optWire (W : α → Language UInt8) : Option α → Language UInt8
  | none => otherByte
  | some a => {[trueByte]} * W a

/-- The codec of nullable values of `c`. -/
def optCodec (c : Codec α) : Codec (Option α) where
  enc
    | none => [falseByte]
    | some a => trueByte :: c.enc a
  wire := optWire c.wire
  prefixFree
    | none => PrefixFree.of_length fun _ => otherByte_length
    | some a => (prefixFree_singleton _).mul (c.prefixFree a)
  enc_mem
    | none, _ => falseByte_mem
    | some a, h => Language.append_mem_mul (a := [trueByte]) rfl
        (c.enc_mem a (by rw [List.length_cons] at h; omega))

/-- The codec of `boolean`. -/
def booleanCodec : Codec Bool where
  enc b := if b then [trueByte] else [falseByte]
  wire b := if b then {[trueByte]} else otherByte
  prefixFree b := by
    cases b
    · exact PrefixFree.of_length fun _ => otherByte_length
    · exact prefixFree_singleton _
  enc_mem b _ := by
    cases b
    · exact falseByte_mem
    · exact rfl

/-- Reading a flag and, if it is `trueByte`, the value. -/
theorem reads_flagged {m : Io α} {W : α → Language UInt8} (hm : Reads m W) {p : UInt8 → Prop}
    [DecidablePred p] (hp : ∀ b, p b ↔ b = trueByte) :
    Reads (do
      let b ← getByte
      if p b then
        let a ← m
        return some a
      else
        return none) (optWire W) := by
  refine (reads_getByte.bind fun b => (hm.map some).ite (Reads.pure none)).congr fun o => ?_
  ext bs
  constructor
  · rintro ⟨b, h⟩
    obtain ⟨u, rfl, v, hv, rfl⟩ := Language.mem_mul.mp h
    rcases hv with ⟨hb, a, rfl, hv⟩ | ⟨hb, rfl, rfl⟩
    · obtain rfl := (hp b).mp hb
      exact Language.append_mem_mul rfl hv
    · exact ⟨b, fun h => hb ((hp b).mpr h), rfl⟩
  · intro h
    match o, h with
    | none, ⟨v, hv, hbs⟩ =>
      exact ⟨v, Language.mem_mul.mpr
        ⟨[v], rfl, [], Or.inr ⟨fun h => hv ((hp v).mp h), rfl, rfl⟩, by rw [List.append_nil, hbs]⟩⟩
    | some a, h =>
      obtain ⟨u, rfl, v, hv, rfl⟩ := Language.mem_mul.mp h
      exact ⟨trueByte, Language.append_mem_mul rfl (Or.inl ⟨(hp trueByte).mpr rfl, a, rfl, hv⟩)⟩

theorem implements_opt {put : α → Io Unit} {get : Io α} {c : Codec α} (h : Implements put get c) :
    Implements (serialize put) (deserialize get) (optCodec c) where
  writes
    | none => writes_putByte falseByte
    | some a => (writes_putByte trueByte).seq (h.writes a)
  reads := reads_flagged h.reads fun _ => Iff.rfl

theorem implements_putLong : Implements putLong getLong (optCodec Codec.long) where
  writes
    | none => writes_putByte falseByte
    | some l => (writes_putByte trueByte).seq (writes_putLong l)
  reads := reads_flagged reads_getLong fun _ => eq_comm

theorem implements_putInteger : Implements putInteger getInteger (optCodec Codec.int) where
  writes
    | none => writes_putByte falseByte
    | some l => (writes_putByte trueByte).seq (writes_putInt l)
  reads := reads_flagged reads_getInt fun _ => eq_comm

theorem implements_boolean : Implements putBoolean getBoolean booleanCodec where
  writes b := by
    cases b
    · exact writes_putByte falseByte
    · exact writes_putByte trueByte
  reads := by
    refine (reads_getByte.map (· == trueByte)).congr fun b => ?_
    ext bs
    cases b
    · constructor
      · rintro ⟨v, hv, rfl⟩
        exact ⟨v, by simpa using hv, rfl⟩
      · rintro ⟨v, hv, rfl⟩
        exact ⟨v, by simpa using hv, rfl⟩
    · constructor
      · rintro ⟨v, hv, rfl⟩
        obtain rfl : v = trueByte := by simpa using hv
        rfl
      · rintro rfl
        exact ⟨trueByte, rfl, rfl⟩

/-! ### Exceptions -/

/-- An object: its serialised form as an array. -/
def objectWire (stream : ObjectStream ε) (obj : Obj ε) : Language UInt8 :=
  {bs | ∃ data, stream.readObject data = .ok obj ∧ data.length < 2 ^ 31 ∧ bs = arrayBytes data}

/-- **`serializeAny` writes the object as an array**, if it can be serialised. -/
theorem writes_serializeAny {stream : ObjectStream ε} {obj : Obj ε} {data : List UInt8}
    (h : stream.writeObject obj = .ok data) : Writes (serializeAny stream obj) (arrayBytes data) where
  ok b hb := by
    unfold serializeAny
    simp only [h]
    rw [(implements_array.writes (some data)).ok b hb]
    rfl
  overflow b hb := by
    obtain ⟨e, zs, hzs, hle, hz⟩ := (implements_array.writes (some data)).overflow b hb
    refine ⟨serializeAny.wrapped stream obj (b.write zs) e, zs, hzs, hle, ?_⟩
    unfold serializeAny
    simp only [h]
    rw [hz]

theorem serializeAny_of_error {stream : ObjectStream ε} {obj : Obj ε} {e : Throwable}
    (h : stream.writeObject obj = .error e) (b : ByteBuffer) :
    serializeAny stream obj b = .error (serializeAny.wrapped stream obj b e) b := by
  unfold serializeAny
  simp only [h]

theorem reads_deserializeAny (stream : ObjectStream ε) :
    Reads (deserializeAny stream) (objectWire stream) := by
  have hk : ∀ data : Option (List UInt8), Reads
      (match data with
        | none => throw (.runtime (throwableString .nullPointer) .nullPointer)
        | some data =>
          match stream.readObject data with
          | .ok obj => return obj
          | .error e => throw (.runtime (throwableString e) e))
      fun obj => guarded (∃ d, data = some d ∧ stream.readObject d = .ok obj) 1 := by
    rintro (_ | data)
    · refine (Reads.throw _).congr fun obj => ?_
      ext bs
      simp [Language.notMem_zero]
    · cases h : stream.readObject data with
      | ok obj =>
        simp only [h]
        refine (Reads.pure obj).congr fun obj' => ?_
        ext bs
        simp [h, eq_comm]
      | error e =>
        simp only [h]
        refine (Reads.throw _).congr fun obj => ?_
        ext bs
        simp [h, Language.notMem_zero]
  refine (implements_array.reads.bind hk).congr fun obj => ?_
  ext bs
  constructor
  · rintro ⟨data, h⟩
    obtain ⟨u, hu, v, ⟨⟨d, rfl, hobj⟩, rfl⟩, rfl⟩ := Language.mem_mul.mp h
    obtain ⟨_, rfl, hlt, rfl⟩ := hu
    exact ⟨_, hobj, hlt, List.append_nil _⟩
  · rintro ⟨data, hobj, hlt, rfl⟩
    exact ⟨some data, Language.mem_mul.mpr
      ⟨_, ⟨data, rfl, hlt, rfl⟩, [], ⟨⟨data, rfl, hobj⟩, rfl⟩, List.append_nil _⟩⟩

end Mlmq.Util.ByteBufferUtil
