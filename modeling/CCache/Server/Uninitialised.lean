/-
# CCache.Server.Uninitialised — which bytes of a response the server never writes.

A handler stores the fields of a response one by one, into storage that holds whatever was there
before, and `send_response` copies the struct with its padding.  `strcpy` writes the message up to its
NUL, not the 128 bytes of the field.  So a response says the bytes between two fields and behind the
message as well: two runs that differ in them copy different bytes, unless nothing is copied at all.
-/
import CCache.Server.Replies

namespace CCache.Server

open CCache.Cache (View put get)
open CCache.Ipc
open CCache.Lib.ByteMemory
open CCache.Lib.CString

/-! ## The bytes of a struct that no field stores -/

/-- The offsets that a response with data leaves as they were: the padding behind `success`, and the
message field behind the NUL of a message of `n` bytes. -/
def DataUnwritten (n x : Nat) : Prop := 1 ≤ x ∧ x < 4 ∨ 8 + n < x ∧ x < sizeofDataResponse

/-- The offsets that a `SaveBytecodeResponse` leaves as they were. -/
def SaveUnwritten (n x : Nat) : Prop := 1 + n < x ∧ x < sizeofSaveBytecodeResponse

theorem strcpy_eq_strcpy_iff {m k : Mem} {a x : Nat} {s : List UInt8} :
    strcpy m a s x = strcpy k a s x ↔ (x < a ∨ a + (s.length + 1) ≤ x → m x = k x) :=
  blit_eq_blit_iff

/-- **What a response with data shows of its storage**: the unwritten bytes, and no others. -/
theorem dataResponse_eq_iff {junk junk' : Mem} {success : Bool} {size : Nat}
    {errorMessage data : List UInt8} :
    dataResponse junk success size errorMessage data =
        dataResponse junk' success size errorMessage data ↔
      ∀ x, DataUnwritten errorMessage.length x → junk x = junk' x := by
  have hsizeof : sizeofDataResponse = 136 := rfl
  rw [dataResponse, dataResponse, read_eq_iff]
  refine forall_congr' fun x => ?_
  simp only [Nat.zero_add, blit_eq_blit_iff, strcpy_eq_strcpy_iff]
  unfold DataUnwritten
  constructor
  · intro h hx
    exact h (by omega) (by omega) (by omega) (by omega) (by omega)
  · intro h _ _ _ _ _
    exact h (by omega)

/-- **What a `SaveBytecodeResponse` shows of its storage.** -/
theorem saveBytecodeResponse_eq_iff {junk junk' : Mem} {success : Bool} {errorMessage : List UInt8} :
    saveBytecodeResponse junk success errorMessage =
        saveBytecodeResponse junk' success errorMessage ↔
      ∀ x, SaveUnwritten errorMessage.length x → junk x = junk' x := by
  have hsizeof : sizeofSaveBytecodeResponse = 129 := rfl
  rw [saveBytecodeResponse, saveBytecodeResponse, read_eq_iff]
  refine forall_congr' fun x => ?_
  simp only [Nat.zero_add, blit_eq_blit_iff, strcpy_eq_strcpy_iff]
  unfold SaveUnwritten
  constructor
  · intro h hx
    exact h (by omega) (by omega) (by omega)
  · intro h _ _ _
    exact h (by omega)

/-- Some byte of the storage shows in the response. -/
def Reveals (response : Mem → List UInt8) : Prop :=
  ∃ x, ∀ junk junk', response junk = response junk' → junk x = junk' x

theorem dataResponse_reveals (success : Bool) (size : Nat) (errorMessage data : List UInt8) :
    Reveals fun junk => dataResponse junk success size errorMessage data := by
  refine ⟨1, fun junk junk' h => dataResponse_eq_iff.mp h 1 ?_⟩
  exact .inl ⟨le_rfl, by decide⟩

theorem saveBytecodeResponse_reveals (success : Bool) {errorMessage : List UInt8}
    (hlen : errorMessage.length < 127) :
    Reveals fun junk => saveBytecodeResponse junk success errorMessage := by
  refine ⟨128, fun junk junk' h => saveBytecodeResponse_eq_iff.mp h 128 ?_⟩
  exact ⟨by omega, by decide⟩

theorem Reveals.differs {response : Mem → List UInt8} (h : Reveals response) :
    response (fun _ => 0) ≠ response fun _ => 1 := by
  obtain ⟨x, hx⟩ := h
  intro heq
  have hbyte : (0 : UInt8) = 1 := hx _ _ heq
  exact absurd hbyte (by decide)

/-! ## The responses of the handlers -/

/-- Every answer to a query reveals a byte: that of the padding at least. -/
theorem Query.response_reveals (q : Query) (cache : Mem) (hash : List UInt8) :
    Reveals fun junk => q.response junk cache hash := by
  cases q with
  | functionIr =>
    simp only [Query.response]
    by_cases hknown : hash = text "EXISTING_FUNCTION"
    · simp only [if_pos hknown]
      exact dataResponse_reveals _ _ _ _
    · simp only [if_neg hknown]
      exact dataResponse_reveals _ _ _ _
  | cached kind =>
    simp only [Query.response]
    generalize get cache (kind.keyPrefix ++ hash) = found
    cases found with
    | some view => exact dataResponse_reveals _ _ _ _
    | none => exact dataResponse_reveals _ _ _ _

section Handle

variable (cache : Mem) {m : Mem} (messageId : UInt32) {data size : Nat}

/-- Every answer to a `bytecode/save` reveals a byte: its messages are shorter than their field. -/
theorem save_reveals {hash : List UInt8} (hlong : sizeofStoreRequest ≤ size)
    (hscan : readString m data = some hash) :
    ∃ cache' response stored, Reveals response ∧
      (∀ junk, (response junk).length = sizeofSaveBytecodeResponse) ∧
      ∀ junk, Route.saveBytecode.handle junk cache m messageId data size =
        some ⟨cache', [⟨messageId, response junk⟩], stored⟩ := by
  have hhandle : ∀ junk, Route.saveBytecode.handle junk cache m messageId data size =
      (readStoreRequest m data size).map (Kind.bytecode.storeOutcome junk cache m messageId) :=
    fun _ => Kind.bytecode.store_eq
  simp only [hhandle, readStoreRequest_long hlong hscan, Option.map_some]
  split
  · -- the sizes agree, and `Put` decides
    generalize UInt32.ofNat (readWord m (data + 256)) = length
    simp only [Kind.storeOutcome]
    generalize put (.start cache) (Kind.bytecode.keyPrefix ++ hash)
      (some (blobAt m (data + sizeofStoreRequest) length)) = r
    obtain ⟨ok, s⟩ := r
    cases ok with
    | true =>
      exact ⟨s.mem, _, some true, saveBytecodeResponse_reveals true (by decide),
        fun _ => saveBytecodeResponse_length _ _ _, fun _ => rfl⟩
    | false =>
      exact ⟨s.mem, _, some false, saveBytecodeResponse_reveals false (by decide +kernel),
        fun _ => saveBytecodeResponse_length _ _ _, fun _ => rfl⟩
  · exact ⟨cache, _, none, saveBytecodeResponse_reveals false (by decide +kernel),
      fun _ => saveBytecodeResponse_length _ _ _, fun _ => rfl⟩

end Handle

/-! ## What is copied -/

/-- The bytes that the calls of `send_response` copy into the response buffer of the segment. -/
def Outcome.copied (out : Outcome) (d : SharedData) : List (List UInt8) :=
  out.replies.filterMap fun reply =>
    let (ok, d) := sendResponse d reply
    if ok then some (d.response.take d.responseSize) else none

/-- The bytes that the dispatch of the message in the slot makes `send_response` copy. -/
def copiedBytes (env : Env) (cache : Mem) (d : SharedData) : Option (List (List UInt8)) :=
  (dispatchMessage env cache d).map fun out => out.copied d

/-- Runs that differ in nothing but what the storage of the responses held at first copy the same
bytes. -/
def StorageHidden (pad cache : Mem) (d : SharedData) : Prop :=
  ∀ junk junk', copiedBytes ⟨pad, junk⟩ cache d = copiedBytes ⟨pad, junk'⟩ cache d

/-- A single call copies its response when that is not too large. -/
theorem copied_reply (cache : Mem) (d : SharedData) (messageId : UInt32) (response : List UInt8)
    (stored : Option Bool) :
    (⟨cache, [⟨messageId, response⟩], stored⟩ : Outcome).copied d =
      if response.length ≤ maxMessageSize then [response] else [] := by
  unfold Outcome.copied
  by_cases hfits : response.length ≤ maxMessageSize
  · simp [sendResponse, hfits, Nat.not_lt.mpr hfits]
  · simp [sendResponse, hfits, Nat.not_le.mp hfits]

section Found

variable {pad cache : Mem} {d : SharedData} {route : Route}

/-- A dispatch that finds a route runs its handler. -/
theorem dispatchMessage_found (junk : Mem)
    (hfound : (readString (image pad d) (messageAddr + 4)).bind findRoute = some route) :
    dispatchMessage ⟨pad, junk⟩ cache d = route.handle junk cache (image pad d) d.currentMessageId
      payloadAddr (payloadSize (image pad d)) := by
  obtain ⟨hash, hhash, hroute⟩ := Option.bind_eq_some_iff.mp hfound
  unfold dispatchMessage
  dsimp only
  rw [hhash, Option.bind_eq_bind, Option.bind_some, hroute]

section Answer

variable {cache' : Mem} {response : Mem → List UInt8} {stored : Option Bool} {n : Nat}
  (hlength : ∀ junk, (response junk).length = n)
  (hdispatch : ∀ junk, dispatchMessage ⟨pad, junk⟩ cache d =
    some ⟨cache', [⟨d.currentMessageId, response junk⟩], stored⟩)
include hlength hdispatch

theorem copiedBytes_answer (junk : Mem) : copiedBytes ⟨pad, junk⟩ cache d =
    some (if n ≤ maxMessageSize then [response junk] else []) := by
  rw [copiedBytes, hdispatch, Option.map_some, copied_reply, hlength]

/-- A handler that answers once, with a response that reveals a byte, keeps its storage hidden exactly
when the response is too large to be copied. -/
theorem storageHidden_iff_large (hreveals : Reveals response) :
    StorageHidden pad cache d ↔ maxMessageSize < n := by
  unfold StorageHidden
  simp only [copiedBytes_answer hlength hdispatch]
  constructor
  · intro h
    by_contra hfits
    have hsame := h (fun _ => 0) fun _ => 1
    rw [if_pos (Nat.not_lt.mp hfits), if_pos (Nat.not_lt.mp hfits)] at hsame
    exact hreveals.differs (List.head_eq_of_cons_eq (Option.some.inj hsame))
  · intro hlarge _ _
    rw [if_neg (Nat.not_le.mpr hlarge), if_neg (Nat.not_le.mpr hlarge)]

end Answer

end Found

/-! ## When the storage stays hidden -/

/-- A found value that is too large for the response buffer: its response is not copied. -/
def TooLarge (cache m : Mem) (route : Route) : Prop :=
  ∃ (kind : Kind) (hash : List UInt8) (view : View), route = kind.fetchRoute ∧
    readString m payloadAddr = some hash ∧ get cache (kind.keyPrefix ++ hash) = some view ∧
    maxMessageSize < sizeofDataResponse + view.length

/-- The response to a query is too large exactly when a found value is. -/
theorem Query.tooLarge_iff {junk cache m : Mem} {hash : List UInt8} (q : Query)
    (hscan : readString m payloadAddr = some hash) :
    maxMessageSize < (q.response junk cache hash).length ↔ TooLarge cache m q.route := by
  rw [← Nat.not_le, q.response_fits_iff]
  constructor
  · intro h
    push Not at h
    obtain ⟨kind, view, rfl, hget, hlarge⟩ := h
    exact ⟨kind, hash, view, rfl, hscan, hget, hlarge⟩
  · rintro ⟨kind, hash', view, hroute, hhash, hget, hlarge⟩ hall
    have hq : q = .cached kind := Query.route_injective hroute
    cases hscan.symm.trans hhash
    exact absurd (hall kind view hq hget) (Nat.not_le.mpr hlarge)

/-- The length of the response to a query does not depend on the storage. -/
theorem Query.response_length_eq (q : Query) (junk junk' cache : Mem) (hash : List UInt8) :
    (q.response junk cache hash).length = (q.response junk' cache hash).length := by
  cases q with
  | functionIr =>
    simp only [Query.response]
    split
    · rw [dataResponse_length, dataResponse_length]
    · rw [dataResponse_length, dataResponse_length]
  | cached kind =>
    simp only [Query.response]
    generalize get cache (kind.keyPrefix ++ hash) = found
    cases found with
    | some view => simp only [lookupResponse, dataResponse_length]
    | none => simp only [lookupResponse, dataResponse_length]

/-- A route that answers has no outcome when the scan of its hash field does not end. -/
theorem Route.Replies.handle_unscanned {junk cache m : Mem} {messageId : UInt32} {data size : Nat}
    {route : Route} (h : route.Replies) (hlong : route.requestSize ≤ size)
    (hscan : readString m data = none) : route.handle junk cache m messageId data size = none := by
  rcases h.query_or_save with ⟨q, rfl⟩ | rfl
  · have hsize : sizeofHashRequest ≤ size := q.requestSize_eq ▸ hlong
    rw [q.handle_eq, if_pos hsize, hscan, Option.map_none]
  · have hsize : sizeofStoreRequest ≤ size := hlong
    rw [Kind.bytecode.store_eq, readStoreRequest, if_neg (Nat.not_lt.mpr hsize), hscan]
    rfl

/-- **Uninitialised bytes reach the client whenever an answer does.** On a route that answers, whatever
the segment and the cache hold, the copied bytes do not depend on what the storage of the response held
exactly when nothing is copied: the payload is too short for its struct, the scan of the hash field does
not end, or the value that is found is too large. -/
theorem storageHidden_iff {pad cache : Mem} {d : SharedData} {route : Route} (hroute : route.Replies)
    (hfound : (readString (image pad d) (messageAddr + 4)).bind findRoute = some route) :
    StorageHidden pad cache d ↔
      payloadSize (image pad d) < route.requestSize ∨ readString (image pad d) payloadAddr = none ∨
        TooLarge cache (image pad d) route := by
  have hdispatch : ∀ junk, dispatchMessage ⟨pad, junk⟩ cache d = _ := fun junk =>
    dispatchMessage_found junk hfound
  generalize image pad d = m at hdispatch
  rcases Nat.lt_or_ge (payloadSize m) route.requestSize with hshort | hlong
  · -- only logged
    refine iff_of_true (fun junk junk' => ?_) (.inl hshort)
    rw [copiedBytes, copiedBytes, hdispatch, hdispatch, Route.handle_short hshort,
      Route.handle_short hshort]
  · rw [or_iff_right (Nat.not_lt.mpr hlong)]
    cases hscan : readString m payloadAddr with
    | none =>
      refine iff_of_true (fun junk junk' => ?_) (.inl rfl)
      rw [copiedBytes, copiedBytes, hdispatch, hdispatch, hroute.handle_unscanned hlong hscan,
        hroute.handle_unscanned hlong hscan]
    | some hash =>
      rw [or_iff_right (Option.some_ne_none hash)]
      rcases hroute.query_or_save with ⟨q, rfl⟩ | rfl
      · have hsize : sizeofHashRequest ≤ payloadSize m := q.requestSize_eq ▸ hlong
        have hanswer : ∀ junk, dispatchMessage ⟨pad, junk⟩ cache d =
            some ⟨cache, [⟨d.currentMessageId, q.response junk cache hash⟩], none⟩ := by
          intro junk
          rw [hdispatch, q.handle_eq, if_pos hsize, hscan, Option.map_some]
        rw [storageHidden_iff_large (fun junk => q.response_length_eq junk (fun _ => 0) cache hash)
          hanswer (q.response_reveals cache hash)]
        exact q.tooLarge_iff hscan
      · obtain ⟨cache', response, stored, hreveals, hlength, hhandle⟩ :=
          save_reveals cache d.currentMessageId hlong hscan
        rw [storageHidden_iff_large hlength (fun junk => (hdispatch junk).trans (hhandle junk)) hreveals]
        -- its response has no data, so it is always copied
        refine iff_of_false (by decide) ?_
        rintro ⟨kind, -, -, hkind, -⟩
        cases kind <;> cases hkind

/-- The dispatch finds the route of a message that was sent for it. -/
theorem Delivered.found {pad : Mem} {d : SharedData} {route : Route} {payload : List UInt8}
    (h : Delivered d route payload) :
    (readString (image pad d) (messageAddr + 4)).bind findRoute = some route := by
  obtain ⟨id, hm⟩ := h.handed
  rw [image_readString_routeHash (congrArg IPCMessage.routeHash hm), Option.bind_some,
    findRoute_hashRoute]

/-- A request that is only logged: nothing is copied, so nothing leaks. -/
theorem storageHidden_short :
    StorageHidden (fun _ => 0) (Cache.initMmap (.start fun _ => 0)).mem shortQuery := by
  have hdelivered : Delivered shortQuery .getBytecode [0x61, 0x62, 0] :=
    sendMessage_delivered _ _ _ (by decide)
  refine (storageHidden_iff (by simp [Route.Replies]) hdelivered.found).mpr (.inl ?_)
  rw [image_payloadSize]
  decide

theorem existingQuery_delivered :
    Delivered existingQuery .getFunctionIr (strncpy 256 (text "EXISTING_FUNCTION")) := by
  have hlength : (strncpy 256 (text "EXISTING_FUNCTION")).length = 256 := strncpy_length _ _
  exact sendMessage_delivered _ _ _ (hlength.trans_le (by decide))

/-- It is answered, on every cache. -/
theorem existingQuery_answer (pad cache : Mem) : ∃ hash, ∀ junk,
    dispatchMessage ⟨pad, junk⟩ cache existingQuery = some ⟨cache,
      [⟨existingQuery.currentMessageId, Query.functionIr.response junk cache hash⟩], none⟩ := by
  have hscan : (readString (image pad existingQuery) payloadAddr).isSome = true := by
    rw [image_readString_payload pad existingQuery (show 256 ≤ maxPayload by decide)
      (by decide +kernel) (by decide +kernel)]
    rfl
  obtain ⟨hash, hhash⟩ := Option.isSome_iff_exists.mp hscan
  have hlength : (strncpy 256 (text "EXISTING_FUNCTION")).length = 256 := strncpy_length _ _
  refine ⟨hash, fun junk => ?_⟩
  have hhandle : Query.functionIr.route.handle junk cache (image pad existingQuery)
      existingQuery.currentMessageId payloadAddr 256 = _ := Query.handle_eq _
  rw [hhash] at hhandle
  rw [existingQuery_delivered.dispatch, hlength]
  exact hhandle

/-- **A response leaks.** The answer to `function/get_ir` for the known function, on the cache of a new
file, depends on what its storage held: the padding behind `success` and the 127 bytes behind the empty
message are never written. -/
theorem existing_query_leaks :
    Delivered existingQuery .getFunctionIr (strncpy 256 (text "EXISTING_FUNCTION")) ∧
      copiedBytes ⟨fun _ => 0, fun _ => 0⟩ (Cache.initMmap (.start fun _ => 0)).mem existingQuery ≠
        copiedBytes ⟨fun _ => 0, fun _ => 1⟩ (Cache.initMmap (.start fun _ => 0)).mem existingQuery := by
  generalize (Cache.initMmap (.start fun _ => 0)).mem = cache
  refine ⟨existingQuery_delivered, fun hsame => ?_⟩
  obtain ⟨hash, hanswer⟩ := existingQuery_answer (fun _ => 0) cache
  have hcopied := copiedBytes_answer
    (fun junk => Query.functionIr.response_length_eq junk (fun _ => 0) cache hash) hanswer
  have hfits : (Query.functionIr.response (fun _ => 0) cache hash).length ≤ maxMessageSize := by
    rw [Query.response_fits_iff]
    intro kind view hkind
    cases hkind
  rw [hcopied, hcopied, if_pos hfits, if_pos hfits] at hsame
  exact (Query.functionIr.response_reveals cache hash).differs
    (List.head_eq_of_cons_eq (Option.some.inj hsame))

end CCache.Server
