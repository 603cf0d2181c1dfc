/-
# CCache.Server.RoundTrip — what a stored entry answers to the next fetch.

A storing and a fetching route belong to one kind of entry, with one key prefix.  The round trip is
assembled from the layers below: the slot hands both payloads over byte for byte, both keys are cut to
the bytes of the hash field that `FindEntry` compares, `Put` leaves an entry that `Get` finds with its
bytes, and the response that carries them fits the response buffer, for the request that carried them
fitted the message buffer.
-/
import CCache.Server.Dispatch

namespace CCache.Server

open CCache.Cache (Blob View put get getBytes keyName put_cases)
open CCache.Ipc
open CCache.Lib.ByteMemory
open CCache.Lib.CString

/-! ## The fields of a payload and of a response -/

/-- `bytecode_size` or `serialized_graph_size` of a storing request. -/
def storedSize (payload : List UInt8) : Nat := ofLE ((payload.drop 256).take 4)

/-- The data of a storing request: as many bytes as its size says. -/
def storedData (payload : List UInt8) : List UInt8 :=
  (payload.drop sizeofStoreRequest).take (storedSize payload)

/-- `success` of a response. -/
def responseSuccess (response : List UInt8) : Bool := response.getD 0 0 != 0

/-- `bytecode_size`, `serialized_graph_size` or `bit_array_size` of a response with data. -/
def responseSize (response : List UInt8) : Nat := ofLE ((response.drop 4).take 4)

/-- The data of a response: all that stands behind the struct. -/
def responseData (response : List UInt8) : List UInt8 := response.drop sizeofDataResponse

section DataResponse

variable (junk : Mem) (success : Bool) (size : Nat) (errorMessage data : List UInt8)

@[simp] theorem dataResponse_length :
    (dataResponse junk success size errorMessage data).length = sizeofDataResponse + data.length :=
  read_length _ _ _

theorem dataResponse_success : responseSuccess (dataResponse junk success size errorMessage data) =
    success := by
  -- the message begins at 8 and the data at 136, behind the flag
  have hbyte : (dataResponse junk success size errorMessage data).getD 0 0 = boolByte success := by
    have hpos : 0 < sizeofDataResponse + data.length := Nat.add_pos_left (by decide) _
    rw [dataResponse, read_getD _ _ hpos, blit_out (.inl (by decide)), strcpy,
      blit_out (.inl (by decide)), blit_out (.inl (by decide))]
    exact blit_in le_rfl Nat.one_pos
  rw [responseSuccess, hbyte]
  cases success <;> rfl

theorem dataResponse_size : responseSize (dataResponse junk success size errorMessage data) =
    size % 2 ^ 32 := by
  have hlong : 8 ≤ sizeofDataResponse + data.length := Nat.le_add_right_of_le (by decide)
  rw [responseSize, dataResponse, read_drop _ _ _ _ (by omega), read_take _ _ _ _ (by omega)]
  show readWord _ 4 = _
  rw [readWord_blit_disjoint (.inl (by decide)), strcpy, readWord_blit_disjoint (.inl (by decide)),
    readWord_blit_toLE]

theorem dataResponse_data : responseData (dataResponse junk success size errorMessage data) = data := by
  rw [responseData, dataResponse, read_drop _ _ _ _ (Nat.le_add_right _ _), Nat.zero_add,
    Nat.add_sub_cancel_left, read_blit_content]

end DataResponse

/-! ## Storing -/

section Store

variable {junk cache m : Mem} {messageId : UInt32} {data size : Nat} {out : Outcome}

/-- A request that passes the checks goes to `Put` under the prefixed hash. -/
theorem Kind.handle_valid (kind : Kind) {hash : List UInt8} {a : Nat} {length : UInt32}
    (h : readStoreRequest m data size = some (.valid hash a length)) :
    ∃ replies, kind.storeRoute.handle junk cache m messageId data size =
      some ⟨(put (.start cache) (kind.keyPrefix ++ hash) (some (blobAt m a length))).2.mem, replies,
        some (put (.start cache) (kind.keyPrefix ++ hash) (some (blobAt m a length))).1⟩ := by
  rw [kind.store_eq, h]
  exact ⟨_, rfl⟩

/-- A storing handler whose `Put` succeeded stored the announced data under the prefixed hash. -/
theorem Kind.handle_store (kind : Kind)
    (h : kind.storeRoute.handle junk cache m messageId data size = some out)
    (hs : out.stored = some true) : ∃ hash length, readString m data = some hash ∧
      length.toNat = readWord m (data + 256) ∧ size = sizeofStoreRequest + length.toNat ∧
      (put (.start cache) (kind.keyPrefix ++ hash)
        (some (blobAt m (data + sizeofStoreRequest) length))).1 = true ∧
      out.cache = (put (.start cache) (kind.keyPrefix ++ hash)
        (some (blobAt m (data + sizeofStoreRequest) length))).2.mem := by
  rcases kind.store_cases h with ⟨-, hnone⟩ | ⟨hash, a, length, hread, hcache, hput⟩
  · rw [hnone] at hs
    cases hs
  · obtain ⟨hhash, rfl, hlength, hsize⟩ := readStoreRequest_valid hread
    exact ⟨hash, length, hhash, hlength, hsize, Option.some.inj (hput.symm.trans hs), hcache⟩

end Store

/-! ## Fetching -/

/-- A fetching handler that finds its entry answers with the cached bytes. -/
theorem Kind.handle_fetch (kind : Kind) {junk cache m : Mem} {messageId : UInt32} {data size : Nat}
    {hash : List UInt8} {view : View} (hsize : sizeofHashRequest ≤ size)
    (hhash : readString m data = some hash) (hget : get cache (kind.keyPrefix ++ hash) = some view) :
    kind.fetchRoute.handle junk cache m messageId data size =
      some ⟨cache, [⟨messageId, dataResponse junk true view.length [] (view.bytes cache)⟩], none⟩ := by
  refine (Query.cached kind).handle_eq.trans ?_
  rw [if_pos hsize, hhash, Option.map_some, Query.response, hget, lookupResponse]

/-- **Get after Put, through the view.** What a successful `Put` stored, `Get` hands out under every
key with the same name, with or without a compaction inside `Put`. -/
theorem get_of_put {cache : Mem} (hc : Cache.Reachable cache) {key same : List UInt8} {data : Blob}
    (hput : (put (.start cache) key (some data)).1 = true) (hsame : keyName same = keyName key) :
    ∃ view, get (put (.start cache) key (some data)).2.mem same = some view ∧
      view.length = data.length ∧ view.bytes (put (.start cache) key (some data)).2.mem = data.bytes := by
  have hlen : 0 < data.length := by
    refine Nat.pos_of_ne_zero fun hzero => ?_
    have hempty : ∀ b, some data = some b → b.length = 0 := fun b hb => Option.some.inj hb ▸ hzero
    rw [Cache.put_rejects key hempty] at hput
    cases hput
  obtain ⟨-, b, -, hwf, hrefused | ⟨-, idx, hstored⟩⟩ :=
    put_cases (s := .start cache) hc.wellFormed (Cache.Mapping.safe_start cache) key hlen
  · rw [hrefused.1] at hput
    cases hput
  · obtain ⟨view, hget, hbytes⟩ :=
      Option.map_eq_some_iff.mp (hstored.get_self hwf hlen hsame)
    refine ⟨view, hget, ?_, hbytes⟩
    have hview : (view.bytes (put (.start cache) key (some data)).2.mem).length = view.length :=
      read_length _ _ _
    rw [← hview, hbytes]

/-! ## The round trip -/

theorem sendResponse_of_le {d : SharedData} {r : Reply} (h : r.response.length ≤ maxMessageSize) :
    (sendResponse d r).1 = true := by
  unfold sendResponse
  rw [if_neg (Nat.not_lt.mpr h)]

/-- **Round trip through the server.** On every reachable cache, a storing message of any size the
client admits whose `Put` succeeds, and after it a fetching message with the same 256-byte hash field:
the second dispatch makes one call of `send_response`, which is sent, and which says success and
carries the size and the bytes that were stored.  Neither field needs a NUL of its own; it is enough
that the second scan ends inside the mapping, as the first one did. -/
theorem stored_then_fetched (kind : Kind) {cache : Mem} (hc : Cache.Reachable cache)
    {env₁ env₂ : Env} {d₁ d₂ : SharedData} {p₁ p₂ : List UInt8} {out : Outcome}
    (h₁ : Delivered d₁ kind.storeRoute p₁) (hd : dispatchMessage env₁ cache d₁ = some out)
    (hstored : out.stored = some true) (h₂ : Delivered d₂ kind.fetchRoute p₂)
    (hlen : sizeofHashRequest ≤ p₂.length) (hfield : p₂.take 256 = p₁.take 256)
    (hscan : (readString (image env₂.pad d₂) payloadAddr).isSome = true) :
    ∃ reply, dispatchMessage env₂ out.cache d₂ = some ⟨out.cache, [reply], none⟩ ∧
      reply.messageId = d₂.currentMessageId ∧ (sendResponse d₂ reply).1 = true ∧
      responseSuccess reply.response = true ∧
      responseSize reply.response = storedSize p₁ ∧
      responseData reply.response = storedData p₁ := by
  obtain ⟨hash₁, length, hhash₁, hlength, hsize, hput, hcache⟩ :=
    kind.handle_store ((h₁.dispatch env₁ cache).symm.trans hd) hstored
  obtain ⟨hash₂, hhash₂⟩ := Option.isSome_iff_exists.mp hscan
  have hsize' : 260 + length.toNat = p₁.length := hsize.symm
  have hmax : p₁.length ≤ 20216 := h₁.payload_le
  have hlen' : 256 ≤ p₂.length := hlen
  -- the two keys agree on the bytes that are compared
  have hkey : trunc 255 hash₂ = trunc 255 hash₁ := by
    have hread₁ : read (image env₁.pad d₁) payloadAddr 255 = p₁.take 255 :=
      h₁.read_payload (show 0 + 255 ≤ _ by omega)
    have hread₂ : read (image env₂.pad d₂) payloadAddr 255 = p₂.take 255 :=
      h₂.read_payload (show 0 + 255 ≤ _ by omega)
    have hcut : p₂.take 255 = p₁.take 255 := by
      simpa [List.take_take] using congrArg (List.take 255) hfield
    rw [trunc_readString hhash₂ (by decide), trunc_readString hhash₁ (by decide), hread₁, hread₂, hcut]
  obtain ⟨view, hget, hviewLength, hviewBytes⟩ := get_of_put hc hput (kind.keyName_congr hkey)
  rw [← hcache] at hget hviewBytes
  -- the bytes handed to `Put` are the announced data of the payload
  have hstoredSize : storedSize p₁ = length.toNat := by
    rw [hlength, readWord, h₁.read_payload (by omega), storedSize]
  have hbytes : (blobAt (image env₁.pad d₁) (payloadAddr + sizeofStoreRequest) length).bytes =
      storedData p₁ := by
    show read _ _ _ = _
    rw [h₁.read_payload hsize.ge, storedData, hstoredSize]
  have hviewSize : view.length = length.toNat := hviewLength.trans (read_length _ _ _)
  refine ⟨_, (h₂.dispatch env₂ out.cache).trans (kind.handle_fetch hlen hhash₂ hget), rfl, ?_,
    dataResponse_success _ _ _ _ _, ?_, ?_⟩
  · have hresponse : sizeofDataResponse + view.length ≤ maxMessageSize := by
      show 136 + view.length ≤ 20480
      omega
    refine sendResponse_of_le ?_
    rw [dataResponse_length]
    simpa [View.bytes] using hresponse
  · rw [dataResponse_size, hstoredSize, hviewSize]
    exact Nat.mod_eq_of_lt length.toNat_lt
  · rw [dataResponse_data, hviewBytes, hbytes]

/-- A fresh cache stores whatever a client can send with a size that is right. -/
theorem Kind.stored_of_fresh (kind : Kind) {cache : Mem}
    (hfresh : Cache.directory cache = .fresh) {env : Env} {d : SharedData} {p : List UInt8}
    (h : Delivered d kind.storeRoute p)
    (hscan : (readString (image env.pad d) payloadAddr).isSome = true)
    (hsize : p.length = sizeofStoreRequest + storedSize p) (hpos : 0 < storedSize p) :
    ∃ out, dispatchMessage env cache d = some out ∧ out.stored = some true := by
  obtain ⟨hash, hhash⟩ := Option.isSome_iff_exists.mp hscan
  have hsize' : p.length = 260 + storedSize p := hsize
  have hmax : p.length ≤ 20216 := h.payload_le
  have hword : readWord (image env.pad d) (payloadAddr + 256) = storedSize p := by
    rw [readWord, h.read_payload (by omega), storedSize]
  have hnat : (UInt32.ofNat (storedSize p)).toNat = storedSize p :=
    UInt32.toNat_ofNat_of_lt' (lt_of_le_of_lt (show storedSize p ≤ 20216 by omega) (by decide))
  have hrequest := readStoreRequest_eq hhash (hword ▸ hsize)
  rw [hword] at hrequest
  obtain ⟨replies, hvalid⟩ := kind.handle_valid hrequest
  refine ⟨_, (h.dispatch env cache).trans hvalid, congrArg some (Cache.put_fresh hfresh ?_ ?_).1⟩
  · show 0 < (read _ _ _).length
    rw [read_length, hnat]
    exact hpos
  · show Cache.dataStart + (read _ _ _).length ≤ Cache.cacheFileSize
    have hroom : Cache.dataStart + 20216 ≤ Cache.cacheFileSize := by decide
    rw [read_length, hnat]
    exact (Nat.add_le_add_left (by omega) _).trans hroom

/-- A `bytecode/save` of one byte under a hash of 256 bytes without a NUL. -/
def unterminatedSave : List UInt8 := List.replicate 256 65 ++ toLE 4 1 ++ [7]

/-- On a fresh cache the byte comes back, though both scans run past their hash fields: the first into
the size, the second into what the first message left in the slot. -/
theorem stored_then_fetched_unterminated : ∃ cache env d₁ d₂ out reply,
    Delivered d₁ .saveBytecode unterminatedSave ∧
      Delivered d₂ .getBytecode (List.replicate 256 65) ∧
      dispatchMessage env cache d₁ = some out ∧
      dispatchMessage env out.cache d₂ = some ⟨out.cache, [reply], none⟩ ∧
      responseData reply.response = [7] := by
  have hrun := Cache.runFrom_zeros []
  have hfresh := Cache.initMmap_fresh hrun.1
  generalize hcache : (Cache.initMmap (.start fun _ => 0)).mem = cache at hfresh
  have hreach : Cache.Reachable cache := ⟨_, _, hcache ▸ hrun⟩
  let env : Env := ⟨fun _ => 0, fun _ => 0⟩
  let d₁ := sendMessage .created ⟨hashRoute Route.saveBytecode.path, unterminatedSave⟩ 1
  let d₂ := sendMessage d₁ ⟨hashRoute Route.getBytecode.path, List.replicate 256 65⟩ 2
  have h₁ : Delivered d₁ .saveBytecode unterminatedSave :=
    sendMessage_delivered _ _ _ (by decide +kernel)
  have h₂ : Delivered d₂ .getBytecode (List.replicate 256 65) :=
    sendMessage_delivered _ _ _ (by decide +kernel)
  have hscan : ∀ d, d.message.payload.take 261 = unterminatedSave →
      (readString (image env.pad d) payloadAddr).isSome = true := by
    intro d hpayload
    have hlong : 261 ≤ d.message.payload.length := by
      have hlen := congrArg List.length hpayload
      rw [List.length_take, show unterminatedSave.length = 261 by decide +kernel] at hlen
      omega
    rw [image_readString_payload env.pad d (by decide) hlong (by rw [hpayload]; decide +kernel)]
    rfl
  obtain ⟨out, hd, hstored⟩ := Kind.bytecode.stored_of_fresh hfresh h₁
    (hscan d₁ (by decide +kernel)) (by decide +kernel) (by decide +kernel)
  obtain ⟨reply, hreply, -, -, -, -, hdata⟩ := stored_then_fetched .bytecode hreach h₁ hd hstored h₂
    (by decide +kernel) (by decide +kernel) (hscan d₂ (by decide +kernel))
  exact ⟨cache, env, d₁, d₂, out, reply, h₁, h₂, hd, hreply, hdata.trans (by decide +kernel)⟩

end CCache.Server
