import Mlmq.Lib.Queue
import Mlmq.Net.Factory

/-! # Connections of the broker

`ConnectedClient` and `WorkerTask`, over any type `β` of references to buffers and any type `κ` of
client contexts, and the receiving side of a connection: `receive` is what `selectRead` does with
the receive buffer, `hasReceivedMessage` the test whether it holds a whole frame.

The test reads the length field out of the buffer it looks at and leaves the position behind that
field (`receive_eq`). -/

namespace Mlmq.Server.Connection

open Mlmq.Lib Mlmq.Lib.BigEndian Mlmq.Lib.Nio Mlmq.Lib.Cursor
open Mlmq.Lib.Queue (BoundedQueue)

variable {κ β : Type}

/-! ### The objects -/

/-- A request on its way to a worker, or a response on its way back. -/
structure WorkerTask (κ β : Type) where
  clientContext : κ
  requestBuffer : Option β
  responseBuffer : Option β
deriving DecidableEq, Repr

namespace WorkerTask

/-- `new WorkerTask(clientContext, requestMessageBuffer)`. -/
def new (clientContext : κ) (requestMessageBuffer : β) : WorkerTask κ β where
  clientContext
  requestBuffer := some requestMessageBuffer
  responseBuffer := none

def getAndRemoveRequestBuffer (task : WorkerTask κ β) : Option β × WorkerTask κ β :=
  (task.requestBuffer, { task with requestBuffer := none })

def getAndRemoveResponseBuffer (task : WorkerTask κ β) : Option β × WorkerTask κ β :=
  (task.responseBuffer, { task with responseBuffer := none })

def setResponseBuffer (task : WorkerTask κ β) (responseBuffer : β) : WorkerTask κ β :=
  { task with responseBuffer := some responseBuffer }

/-- The buffers that `close` gives back to the pool. -/
def close (task : WorkerTask κ β) : List β :=
  task.requestBuffer.toList ++ task.responseBuffer.toList

end WorkerTask

/-- The key of a connection: whether it is valid, and whether the selector reports that the socket
can be written. -/
structure SelectionKey where
  isValid : Bool
  opWrite : Bool
deriving DecidableEq, Repr

/-- A connection. The receive buffer is there from `initBuffers` on. -/
structure ConnectedClient (κ β : Type) where
  clientApplicationContext : κ
  rxBuffer : β
  txBuffer : Option β
  selectionKey : SelectionKey
deriving DecidableEq, Repr

namespace ConnectedClient

/-- The buffers that `close` gives back to the pool. -/
def close (client : ConnectedClient κ β) : List β := client.rxBuffer :: client.txBuffer.toList

def swapRxBuffer (client : ConnectedClient κ β) (replacementBuffer : β) :
    β × ConnectedClient κ β :=
  (client.rxBuffer, { client with rxBuffer := replacementBuffer })

end ConnectedClient

/-! ### Receiving -/

/-- `Protocol.LENGH_FIELD_LENGHT`. -/
def lenghFieldLenght : ℕ := 4

/-- `clientChannel.read(rxBuffer)` when the socket delivers `chunk`. -/
def channelRead (chunk : List UInt8) : Io Unit := fun b => .ok () (b.write chunk)

def hasReceivedMessage : Io Bool := do
  let endPosition ← position
  if lenghFieldLenght ≤ endPosition then
    setPosition 0
    let messageLenght ← getInt
    if messageLenght.toInt ≤ endPosition - lenghFieldLenght then
      return true
    else
      return false
  else
    return false

/-- The part of `selectRead` that works on the receive buffer. -/
def receive (chunk : List UInt8) : Io Bool := do
  channelRead chunk
  hasReceivedMessage

/-- The number in the length field. -/
def header (b : ByteBuffer) : ℤ := (intOf (b.bytes.take 4)).toInt

/-- A buffer holds a whole frame: the length field and as many bytes as it says. -/
def Complete (b : ByteBuffer) : Prop := 4 ≤ b.position ∧ header b ≤ b.position - 4

instance (b : ByteBuffer) : Decidable (Complete b) := inferInstanceAs (Decidable (_ ∧ _))

/-- Where `hasReceivedMessage` leaves the position: behind the length field once that is there. -/
def afterTest (b : ByteBuffer) : ByteBuffer :=
  if h : 4 ≤ b.position then b.seek 4 (h.trans b.position_le) else b

theorem hasReceivedMessage_eq (b : ByteBuffer) :
    hasReceivedMessage b = .ok (decide (Complete b)) (afterTest b) := by
  unfold hasReceivedMessage afterTest
  rw [bind_of_ok (position_ok b)]
  by_cases h : 4 ≤ b.position
  · have hlim : 4 ≤ b.limit := h.trans b.position_le
    have hcap : 4 ≤ b.bytes.length := hlim.trans b.limit_le
    have hrest : (b.seek 0 (Nat.zero_le _)).rest = b.bytes.take b.limit := by
      simp [ByteBuffer.rest]
    have hint : getInt (b.seek 0 (Nat.zero_le _)) = .ok (intOf (b.bytes.take 4))
        (b.seek 4 hlim) := by
      refine (reads_getInt.ok_iff _ _ _).mpr ⟨_, rfl, ?_, ?_⟩
      · rw [intBytes_intOf (by simp [hcap]), hrest]
        exact (List.take_prefix_take_left hlim)
      · rw [intBytes_intOf (by simp [hcap])]
        refine ByteBuffer.ext rfl ?_ rfl
        rw [ByteBuffer.position_skip (by
          rw [← ByteBuffer.length_rest, hrest]
          simp [hlim])]
        simp [hcap]
    rw [if_pos (show lenghFieldLenght ≤ b.position from h),
      bind_of_ok (setPosition_ok (Nat.zero_le _)), bind_of_ok hint, dif_pos h]
    by_cases hle : header b ≤ b.position - 4
    · rw [if_pos (show (intOf (b.bytes.take 4)).toInt ≤ (b.position : ℤ) - lenghFieldLenght from hle),
        decide_eq_true (show Complete b from ⟨h, hle⟩)]
      rfl
    · rw [if_neg (show ¬ (intOf (b.bytes.take 4)).toInt ≤ (b.position : ℤ) - lenghFieldLenght from hle),
        decide_eq_false (show ¬ Complete b from fun hc => hle hc.2)]
      rfl
  · rw [if_neg (show ¬ lenghFieldLenght ≤ b.position from h), dif_neg h,
      decide_eq_false (show ¬ Complete b from fun hc => h hc.1)]
    rfl

/-- **What a read does to the receive buffer.** -/
theorem receive_eq (chunk : List UInt8) (b : ByteBuffer) :
    receive chunk b = .ok (decide (Complete (b.write chunk))) (afterTest (b.write chunk)) :=
  hasReceivedMessage_eq (b.write chunk)

@[simp] theorem bytes_afterTest (b : ByteBuffer) : (afterTest b).bytes = b.bytes := by
  unfold afterTest
  split_ifs <;> rfl

@[simp] theorem limit_afterTest (b : ByteBuffer) : (afterTest b).limit = b.limit := by
  unfold afterTest
  split_ifs <;> rfl

theorem position_afterTest (b : ByteBuffer) : (afterTest b).position = min b.position 4 := by
  unfold afterTest
  split_ifs with h
  · rw [ByteBuffer.position_seek]
    omega
  · omega

end Mlmq.Server.Connection
