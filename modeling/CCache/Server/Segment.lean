/-
# CCache.Server.Segment — the bytes of the shared segment, and the strings read from them.

The handlers get a pointer into the mapping of `SharedData`, so a string without a NUL is read on into
whatever follows.  `image` lays the fields of the record out as the compiler does (x86-64, three
32-byte semaphores first); the bytes between the fields are those of `pad`.  `readString` is the scan
for the NUL: it has no result when the mapping ends first.
-/
import CCache.Ipc.Mailbox
import CCache.Lib.ByteMemory

namespace CCache.Server

open CCache.Ipc
open CCache.Lib.ByteMemory
open CCache.Lib.CString

/-! ## Layout -/

/-- `offsetof(SharedData, message)`: after three `sem_t`. -/
def messageAddr : Nat := 96

/-- Where the flexible array `payload` of the message begins. -/
def payloadAddr : Nat := messageAddr + sizeofIPCMessage

/-- The bytes of the message buffer that a payload can take. -/
def maxPayload : Nat := maxMessageSize - sizeofIPCMessage

/-- `offsetof(SharedData, has_message)`: after the message buffer. -/
def hasMessageAddr : Nat := messageAddr + maxMessageSize

/-- `sizeof(SharedData)`. -/
def sizeofSharedData : Nat := 41096

/-- What `mmap` maps: the pages of 4096 bytes that hold `sizeof(SharedData)` bytes. -/
def mappingSize : Nat := (sizeofSharedData + 4095) / 4096 * 4096

/-- The byte of a `bool`. -/
def boolByte (b : Bool) : UInt8 := if b then 1 else 0

/-- The bytes of the segment. -/
def image (pad : Mem) (d : SharedData) : Mem :=
  let m := blit pad messageAddr 4 (content (toLE 4 d.message.messageId.toNat))
  let m := blit m (messageAddr + 4) 256 (content d.message.routeHash)
  let m := blit m (messageAddr + 260) 4 (content (toLE 4 d.message.payloadSize))
  let m := blit m payloadAddr maxPayload (content d.message.payload)
  let m := blit m hasMessageAddr 1 fun _ => boolByte d.hasMessage
  let m := blit m (hasMessageAddr + 8) 8 (content (toLE 8 d.messageSize))
  let m := blit m (hasMessageAddr + 16) maxMessageSize (content d.response)
  let m := blit m (hasMessageAddr + 16 + maxMessageSize) 8 (content (toLE 8 d.responseSize))
  let m := blit m (hasMessageAddr + 24 + maxMessageSize) 1 fun _ => boolByte d.hasResponse
  let m := blit m (hasMessageAddr + 28 + maxMessageSize) 4 (content (toLE 4 d.currentMessageId.toNat))
  blit m (hasMessageAddr + 32 + maxMessageSize) 4 (content (toLE 4 d.responseMessageId.toNat))

/-- `message->payload_size`. -/
def payloadSize (m : Mem) : Nat := readWord m (messageAddr + 260)

/-- The string at `a`, up to its NUL; no result where the scan leaves the mapping. -/
def readString (m : Mem) (a : Nat) : Option (List UInt8) :=
  let bytes := read m a (mappingSize - a)
  if 0 ∈ bytes then some (cstr bytes) else none

/-! ## Strings -/

/-- A NUL among the first `n` bytes ends the scan there. -/
theorem readString_of_mem {m : Mem} {a n : Nat} (h : 0 ∈ read m a n) (hn : a + n ≤ mappingSize) :
    readString m a = some (cstr (read m a n)) := by
  obtain ⟨k, hk⟩ : ∃ k, mappingSize - a = n + k := ⟨mappingSize - a - n, by omega⟩
  rw [readString, hk, read_append, cstr_append_of_mem h, if_pos (List.mem_append_left _ h)]

/-- Of a string that was read, the first `n` bytes lie in the first `n` bytes from its address. -/
theorem trunc_readString {m : Mem} {a n : Nat} {s : List UInt8} (h : readString m a = some s)
    (hn : a + n ≤ mappingSize) : trunc n s = trunc n (read m a n) := by
  rw [readString] at h
  split at h
  · cases h
    rw [trunc_cstr]
    refine trunc_eq_of_take_eq ?_
    rw [read_take m a _ n (by omega), read_take m a n n le_rfl]
  · cases h

theorem readString_ne_zero {m : Mem} {a : Nat} {s : List UInt8} (h : readString m a = some s) :
    ∀ b ∈ s, b ≠ 0 := by
  rw [readString] at h
  split at h
  · cases h
    exact fun b hb => cstr_ne_zero hb
  · cases h

/-! ## The message in the image -/

section Image

variable (pad : Mem) (d : SharedData)

/-- What lies before `has_message` does not see the stores behind it. -/
theorem image_read_message {a n : Nat} (h : a + n ≤ hasMessageAddr) :
    read (image pad d) a n = read (blit (blit (blit (blit pad messageAddr 4
      (content (toLE 4 d.message.messageId.toNat))) (messageAddr + 4) 256 (content d.message.routeHash))
      (messageAddr + 260) 4 (content (toLE 4 d.message.payloadSize))) payloadAddr maxPayload
      (content d.message.payload)) a n := by
  unfold image
  dsimp only
  iterate 7 rw [read_blit_disjoint (by omega)]

/-- The bytes of the payload buffer. -/
theorem image_read_payload {off n : Nat} (h : off + n ≤ maxPayload) :
    read (image pad d) (payloadAddr + off) n =
      (List.range n).map fun i => content d.message.payload (off + i) := by
  have hend : payloadAddr + maxPayload = hasMessageAddr := rfl
  rw [image_read_message pad d (by omega)]
  refine List.map_congr_left fun i hi => ?_
  have hi' := List.mem_range.mp hi
  rw [blit_in (by omega) (by omega), Nat.add_assoc, Nat.add_sub_cancel_left]

/-- Where the payload buffer has been written, its bytes are read back. -/
theorem image_read_written {off n : Nat} (h : off + n ≤ maxPayload)
    (hn : off + n ≤ d.message.payload.length) :
    read (image pad d) (payloadAddr + off) n = (d.message.payload.drop off).take n := by
  rw [image_read_payload pad d h, range_map_content_drop _ hn]

/-- A NUL among the first `n` bytes of the payload buffer ends the scan there. -/
theorem image_readString_payload {n : Nat} (h : n ≤ maxPayload) (hn : n ≤ d.message.payload.length)
    (hnul : 0 ∈ d.message.payload.take n) :
    readString (image pad d) payloadAddr = some (cstr (d.message.payload.take n)) := by
  have hread : read (image pad d) payloadAddr n = d.message.payload.take n :=
    image_read_written pad d (show 0 + n ≤ _ by omega) (by omega)
  have hend : payloadAddr + maxPayload ≤ mappingSize := by decide
  rw [readString_of_mem (hread ▸ hnul) ((Nat.add_le_add_left h _).trans hend), hread]

theorem image_payloadSize : payloadSize (image pad d) = d.message.payloadSize % 2 ^ 32 := by
  rw [payloadSize, readWord, image_read_message pad d (by decide), read_blit_disjoint (by decide),
    ← readWord, readWord_blit_toLE]

theorem image_read_routeHash (h : d.message.routeHash.length = 256) :
    read (image pad d) (messageAddr + 4) 256 = d.message.routeHash := by
  rw [image_read_message pad d (by decide), read_blit_disjoint (by decide),
    read_blit_disjoint (by decide), ← h, read_blit_content]

end Image

end CCache.Server
