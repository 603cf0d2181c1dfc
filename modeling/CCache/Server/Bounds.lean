/-
# CCache.Server.Bounds — the ranges of the mapping that a dispatch hands on.

`dispatch_message` hands a payload of `payload_size` bytes to the handler; the handler reads its request
struct from it when the size allows, and a storing handler hands the data behind the struct to `Put`.
The three sizes are checked against each other, so every range ends where the payload ends at the
latest.  None is checked against the message buffer: the ranges lie in it exactly when the payload does,
which `send_message` sees to and other writers of the segment need not.
-/
import CCache.Server.RoundTrip

namespace CCache.Server

open CCache.Cache (put)
open CCache.Ipc
open CCache.Lib.ByteMemory
open CCache.Lib.CString

/-! ## Ranges -/

/-- `length` bytes of the mapping from `start` on. -/
structure Range where
  start : Nat
  length : Nat
deriving DecidableEq, Repr

/-- The range lies in `SharedData.message`. -/
def Range.InMessage (r : Range) : Prop :=
  messageAddr ≤ r.start ∧ r.start + r.length ≤ messageAddr + maxMessageSize

/-- The range lies in another one. -/
def Range.Within (r s : Range) : Prop := s.start ≤ r.start ∧ r.start + r.length ≤ s.start + s.length

/-- What a storing handler hands to `Put` of a checked request. -/
def StoreRequest.range : StoreRequest → Option Range
  | .short | .mismatch => none
  | .valid _ data length => some ⟨data, length.toNat⟩

/-- What the handler of a route hands to `Put`, on the payload of `size` bytes at `data`. -/
def Route.putRange (m : Mem) (data size : Nat) : Route → Option Range
  | .addFunctionIrGraph | .saveBytecode => (readStoreRequest m data size).bind StoreRequest.range
  | _ => none

/-- The payload, the request struct where the handler gets to read it, and the data for `Put`. -/
def Route.ranges (m : Mem) (data size : Nat) (route : Route) : List Range :=
  ⟨data, size⟩ :: (if size < route.requestSize then [] else [⟨data, route.requestSize⟩]) ++
    (route.putRange m data size).toList

/-- The ranges of one `dispatch_message` on a segment with the bytes `m`; on an unknown route nothing is
handed on. -/
def dispatchRanges (m : Mem) : List Range :=
  let route := (readString m (messageAddr + 4)).bind findRoute
  (route.map fun route => route.ranges m payloadAddr (payloadSize m)).getD []

/-! ## They are the ranges of the handlers -/

section Handle

variable {junk cache m : Mem} {messageId : UInt32} {data size : Nat}

theorem Kind.putRange_eq (kind : Kind) : kind.storeRoute.putRange m data size =
    (readStoreRequest m data size).bind StoreRequest.range := by
  cases kind <;> rfl

/-- `Put` gets the bytes of the range. -/
theorem Route.handle_putRange {route : Route} {out : Outcome}
    (h : route.handle junk cache m messageId data size = some out) (hs : out.stored ≠ none) :
    ∃ key r blob, route.putRange m data size = some r ∧ blob.bytes = read m r.start r.length ∧
      out.cache = (put (.start cache) key (some blob)).2.mem := by
  rcases route.groups with hu | ⟨q, rfl⟩ | ⟨kind, rfl⟩
  · rw [hu.handle_eq h] at hs
    exact absurd rfl hs
  · rw [q.handle_eq] at h
    split at h
    · obtain ⟨hash, -, rfl⟩ := Option.map_eq_some_iff.mp h
      exact absurd rfl hs
    · cases h
      exact absurd rfl hs
  · rcases kind.store_cases h with ⟨-, hnone⟩ | ⟨hash, a, length, hread, hcache, -⟩
    · exact absurd hnone hs
    · refine ⟨kind.keyPrefix ++ hash, ⟨a, length.toNat⟩, blobAt m a length, ?_, rfl, hcache⟩
      rw [kind.putRange_eq, hread]
      rfl

/-- The data of a store ends where the payload ends. -/
theorem Route.putRange_within {route : Route} {r : Range} (h : route.putRange m data size = some r) :
    r.Within ⟨data, size⟩ := by
  rcases route.groups with hu | ⟨q, rfl⟩ | ⟨kind, rfl⟩
  · rcases hu with rfl | rfl | rfl <;> cases h
  · rcases q with _ | _ | _ <;> cases h
  · rw [kind.putRange_eq] at h
    obtain ⟨request, hread, hrange⟩ := Option.bind_eq_some_iff.mp h
    cases request with
    | short => cases hrange
    | mismatch => cases hrange
    | valid hash a length =>
      cases hrange
      obtain ⟨-, rfl, -, hsize⟩ := readStoreRequest_valid hread
      exact ⟨Nat.le_add_right _ _, by rw [hsize, Nat.add_assoc]⟩

/-- The sizes are checked against each other: every range lies in the payload. -/
theorem Route.ranges_within {route : Route} {r : Range} (h : r ∈ route.ranges m data size) :
    r.Within ⟨data, size⟩ := by
  rw [Route.ranges, List.cons_append, List.mem_cons, List.mem_append] at h
  rcases h with rfl | hstruct | hdata
  · exact ⟨le_rfl, le_rfl⟩
  · split at hstruct
    · cases hstruct
    · rename_i hlong
      cases List.mem_singleton.mp hstruct
      exact ⟨le_rfl, Nat.add_le_add_left (Nat.not_lt.mp hlong) _⟩
  · exact route.putRange_within (Option.mem_toList.mp hdata)

/-- The bytes that a dispatch stores are those of one of its ranges. -/
theorem dispatchMessage_ranges {env : Env} {d : SharedData} {out : Outcome}
    (h : dispatchMessage env cache d = some out) (hs : out.stored ≠ none) :
    ∃ key blob, ∃ r ∈ dispatchRanges (image env.pad d),
      blob.bytes = read (image env.pad d) r.start r.length ∧
      out.cache = (put (.start cache) key (some blob)).2.mem := by
  unfold dispatchMessage at h
  obtain ⟨routeHash, hhash, h⟩ := Option.bind_eq_some_iff.mp h
  cases hroute : findRoute routeHash with
  | none =>
    rw [hroute] at h
    cases h
    exact absurd rfl hs
  | some route =>
    rw [hroute] at h
    obtain ⟨key, r, blob, hrange, hbytes, hcache⟩ := route.handle_putRange h hs
    refine ⟨key, blob, r, ?_, hbytes, hcache⟩
    rw [dispatchRanges, hhash, Option.bind_some, hroute, Option.map_some, Option.getD_some,
      Route.ranges, hrange]
    exact List.mem_append_right _ (List.mem_singleton.mpr rfl)

end Handle

/-! ## When they lie in the message buffer -/

theorem payload_inMessage (size : Nat) :
    (⟨payloadAddr, size⟩ : Range).InMessage ↔ size ≤ maxPayload := by
  have hbuffer : messageAddr + maxMessageSize = payloadAddr + maxPayload := rfl
  rw [Range.InMessage, hbuffer, Nat.add_le_add_iff_left]
  exact and_iff_right (Nat.le_add_right _ _)

/-- **Inside the message buffer.** Whatever the segment holds, the payload that a dispatch hands on, the
struct its handler reads and the data it stores lie in the message buffer exactly when the route is
unknown or `payload_size` is a size that `send_message` would have taken.  The embedded sizes have no
part in it. -/
theorem ranges_inMessage_iff {m : Mem} (hhash : 0 ∈ read m (messageAddr + 4) 256) :
    (∀ r ∈ dispatchRanges m, r.InMessage) ↔
      findRoute (cstr (read m (messageAddr + 4) 256)) = none ∨ payloadSize m ≤ maxPayload := by
  have hstring := readString_of_mem hhash (by decide)
  cases hroute : findRoute (cstr (read m (messageAddr + 4) 256)) with
  | none =>
    have hnone : dispatchRanges m = [] := by
      rw [dispatchRanges, hstring, Option.bind_some, hroute]
      rfl
    rw [hnone]
    exact iff_of_true (fun _ hr => absurd hr List.not_mem_nil) (.inl rfl)
  | some route =>
    have hranges : dispatchRanges m = route.ranges m payloadAddr (payloadSize m) := by
      rw [dispatchRanges, hstring, Option.bind_some, hroute]
      rfl
    rw [hranges, or_iff_right (Option.some_ne_none route)]
    constructor
    · intro h
      exact (payload_inMessage _).mp (h _ List.mem_cons_self)
    · intro hsize r hr
      obtain ⟨hstart, hend⟩ := route.ranges_within hr
      obtain ⟨hlow, hhigh⟩ := (payload_inMessage _).mpr hsize
      exact ⟨hlow.trans hstart, hend.trans hhigh⟩

/-- A `bytecode/save` as `send_message` leaves it in the slot. -/
def sentSave : SharedData :=
  sendMessage .created ⟨hashRoute Route.saveBytecode.path, unterminatedSave⟩ 1

/-- Its dispatch hands ranges on, and they lie in the message buffer. -/
theorem ranges_inMessage_sent : dispatchRanges (image (fun _ => 0) sentSave) ≠ [] ∧
    ∀ r ∈ dispatchRanges (image (fun _ => 0) sentSave), r.InMessage := by
  generalize (fun _ => 0 : Mem) = pad
  have hroute : sentSave.message.routeHash =
      strncpy 255 (hashRoute Route.saveBytecode.path) ++ [0] := rfl
  have hhash : 0 ∈ read (image pad sentSave) (messageAddr + 4) 256 := by
    rw [image_read_routeHash _ _ (by rw [hroute]; simp), hroute]
    exact List.mem_append_right _ (List.mem_singleton.mpr rfl)
  refine ⟨?_, (ranges_inMessage_iff hhash).mpr (.inr ?_)⟩
  · rw [dispatchRanges, image_readString_routeHash hroute, Option.bind_some, findRoute_hashRoute,
      Option.map_some, Option.getD_some, Route.ranges]
    exact List.cons_ne_nil _ _
  · rw [image_payloadSize]
    decide +kernel

/-- A `bytecode/save` whose sizes agree with each other and not with the buffer: one byte more than
`send_message` would take. -/
def overlongSave : SharedData :=
  let d := sendMessage .created
    ⟨hashRoute Route.saveBytecode.path, List.replicate 256 0 ++ toLE 4 19957⟩ 1
  { d with message := { d.message with payloadSize := 20217 } }

/-- It passes every check, and `Put` gets the byte behind the message buffer with the data. -/
theorem ranges_leave_message : ∃ r ∈ dispatchRanges (image (fun _ => 0) overlongSave),
    0 ∈ read (image (fun _ => 0) overlongSave) (messageAddr + 4) 256 ∧ ¬ r.InMessage ∧
      Route.saveBytecode.putRange (image (fun _ => 0) overlongSave) payloadAddr
        (payloadSize (image (fun _ => 0) overlongSave)) = some r := by
  generalize hpad : (fun _ => 0 : Mem) = pad
  have hroute : overlongSave.message.routeHash =
      strncpy 255 (hashRoute Route.saveBytecode.path) ++ [0] := rfl
  have hsize : payloadSize (image pad overlongSave) = 20217 := by
    rw [image_payloadSize]
    rfl
  have hlong : 256 + 4 ≤ overlongSave.message.payload.length := by decide +kernel
  have hhash : readString (image pad overlongSave) payloadAddr =
      some (cstr (overlongSave.message.payload.take 1)) :=
    image_readString_payload pad overlongSave (by decide) (by omega) (by decide +kernel)
  have hword : readWord (image pad overlongSave) (payloadAddr + 256) = 19957 := by
    rw [readWord, image_read_written pad overlongSave (by decide) hlong]
    decide +kernel
  -- the struct and the announced data make up the payload, so the request is valid
  have hrequest := readStoreRequest_eq hhash (show 20217 = _ by rw [hword]; rfl)
  rw [hword] at hrequest
  have hrange : Route.saveBytecode.putRange (image pad overlongSave) payloadAddr
      (payloadSize (image pad overlongSave)) =
        some ⟨payloadAddr + sizeofStoreRequest, (UInt32.ofNat 19957).toNat⟩ := by
    rw [hsize]
    refine Kind.bytecode.putRange_eq.trans ?_
    rw [hrequest]
    rfl
  refine ⟨_, ?_, ?_, ?_, hrange⟩
  · rw [dispatchRanges, image_readString_routeHash hroute, Option.bind_some, findRoute_hashRoute,
      Option.map_some, Option.getD_some, Route.ranges, hrange]
    exact List.mem_append_right _ (List.mem_singleton.mpr rfl)
  · rw [image_read_routeHash _ _ (by rw [hroute]; simp), hroute]
    exact List.mem_append_right _ (List.mem_singleton.mpr rfl)
  · rw [Range.InMessage]
    decide +kernel

end CCache.Server
