/-
# CCache.Server.Service — what the server is for, and that one dispatch does it.

The abstract service takes a message to what it asks for and serves that from the bounded map: it
stores, looks up, or does nothing, and gives a verdict.  No buffer, no address and no byte of a slot is
left in it.  A dispatch on a cache that tracks the map refines it: the response, read through the
structs of the client's side, is the verdict of the service, and the file it leaves tracks the map the
service leaves.  The scans of unterminated strings end in the zeroed tail of the segment's last page.
-/
import CCache.Cache.Store
import CCache.Server.Leftovers

namespace CCache.Server

open CCache.Cache (Blob View Store Tracks HasBytes put get keyName put_congr)
open CCache.Ipc
open CCache.Lib
open CCache.Lib.ByteMemory
open CCache.Lib.CString

/-! ## Requests and verdicts -/

/-- What a message asks of the server. -/
inductive Ask where
  | nothing
  /-- A store whose announced size is not that of its data. -/
  | mismatch (kind : Kind)
  | store (kind : Kind) (hash data : List UInt8)
  | query (q : Query) (hash : List UInt8)
deriving DecidableEq, Repr

/-- A storing payload: the hash, the size, the data. -/
def Kind.ask (kind : Kind) (payload : List UInt8) : Ask :=
  if payload.length < sizeofStoreRequest then .nothing
  else if payload.length ≠ sizeofStoreRequest + storedSize payload then .mismatch kind
  else .store kind (trunc 255 payload) (storedData payload)

/-- A query's payload: the hash. -/
def Query.ask (q : Query) (payload : List UInt8) : Ask :=
  if payload.length < sizeofHashRequest then .nothing else .query q (trunc 255 payload)

def Route.ask (payload : List UInt8) : Route → Ask
  | .createUser | .getUser | .deleteUser => .nothing
  | .addFunctionIrGraph => Kind.irGraph.ask payload
  | .getFunctionIr => Query.functionIr.ask payload
  | .getFunctionIrGraph => (Query.cached .irGraph).ask payload
  | .saveBytecode => Kind.bytecode.ask payload
  | .getBytecode => (Query.cached .bytecode).ask payload

/-- The route that a message names. -/
def routeOf (m : IPCMessage) : Option Route := findRoute (cstr m.routeHash)

/-- What a message asks for; one without a route asks for nothing. -/
def askOf (m : IPCMessage) : Ask :=
  match routeOf m with
  | some route => route.ask m.payload
  | none => .nothing

/-- What the server answers, in the fields of the response structs. -/
inductive Verdict where
  | silent
  | acknowledged (success : Bool) (errorMessage : List UInt8)
  | data (success : Bool) (size : Nat) (errorMessage data : List UInt8)
deriving DecidableEq, Repr

/-- A store of bytecode is acknowledged, one of a graph is not. -/
def Kind.verdict (success : Bool) (errorMessage : List UInt8) : Kind → Verdict
  | .irGraph => .silent
  | .bytecode => .acknowledged success errorMessage

/-- The verdict on a lookup. -/
def Kind.lookup (kind : Kind) : Option (List UInt8) → Verdict
  | some v => .data true v.length [] v
  | none => .data false 0 kind.notFound []

/-- **The service.** -/
noncomputable def Ask.serve (b : Store) : Ask → Verdict × Store
  | .nothing => (.silent, b)
  | .mismatch kind => (kind.verdict false (text "Taille des données incorrecte"), b)
  | .store kind hash data =>
    let r := b.put (keyName (kind.keyPrefix ++ hash)) data
    (if r.1 then kind.verdict true []
      else kind.verdict false (text "Impossible de stocker dans le cache"), r.2)
  | .query .functionIr hash =>
    (if hash = text "EXISTING_FUNCTION" then
      .data true 80 [] [0x48, 0x89, 0xe5, 0x48, 0x83, 0xec, 0x10, 0xc7, 0x45, 0xfc]
    else .data false 0 (text "Fonction non trouvée") [], b)
  | .query (.cached kind) hash => (kind.lookup (b.get (keyName (kind.keyPrefix ++ hash))), b)

/-- The service on messages. -/
noncomputable def serve (b : Store) (m : IPCMessage) : Verdict × Store := (askOf m).serve b

/-! ## Reading a response -/

/-- A response through `SaveBytecodeResponse`. -/
def readAcknowledgement (response : List UInt8) : Verdict :=
  .acknowledged (responseSuccess response) (cstr ((response.drop 1).take 128))

/-- A response through one of the structs with data. -/
def readData (response : List UInt8) : Verdict :=
  .data (responseSuccess response) (responseSize response) (cstr ((response.drop 8).take 128))
    (responseData response)

/-- What the client of a message reads of its response. -/
def verdictOf (m : IPCMessage) : Option (List UInt8) → Verdict
  | none => .silent
  | some response =>
    if routeOf m = some .saveBytecode then readAcknowledgement response else readData response

/-- A string that `strcpy` stored is read back from a field that holds it and its NUL. -/
theorem cstr_read_strcpy (m : Mem) (a : Nat) {s : List UInt8} {n : Nat} (hs : ∀ b ∈ s, b ≠ 0)
    (hn : s.length < n) : cstr (read (strcpy m a s) a n) = s := by
  obtain ⟨k, rfl⟩ : ∃ k, n = (s ++ [0]).length + k :=
    ⟨n - (s.length + 1), by rw [List.length_append, List.length_singleton]; omega⟩
  have hfield : read (strcpy m a s) a (s ++ [0]).length = s ++ [0] := by
    rw [strcpy, show s.length + 1 = (s ++ [0]).length by simp, read_blit_content]
  rw [read_append, hfield, List.append_assoc]
  exact cstr_append_zero hs

section Read

variable (junk : Mem) (success : Bool) (size : Nat) {errorMessage : List UInt8} (data : List UInt8)

theorem readAcknowledgement_response (hs : ∀ b ∈ errorMessage, b ≠ 0)
    (hn : errorMessage.length < 128) :
    readAcknowledgement (saveBytecodeResponse junk success errorMessage) =
      .acknowledged success errorMessage := by
  have hflag : responseSuccess (saveBytecodeResponse junk success errorMessage) = success := by
    have hbyte : (saveBytecodeResponse junk success errorMessage).getD 0 0 = boolByte success := by
      rw [saveBytecodeResponse, read_getD _ _ (by decide), strcpy, blit_out (.inl (by decide))]
      exact blit_in le_rfl Nat.one_pos
    rw [responseSuccess, hbyte]
    cases success <;> rfl
  have hmessage : cstr (((saveBytecodeResponse junk success errorMessage).drop 1).take 128) =
      errorMessage := by
    rw [saveBytecodeResponse, read_drop _ _ _ _ (by decide), read_take _ _ _ _ (by decide)]
    exact cstr_read_strcpy _ 1 hs hn
  rw [readAcknowledgement, hflag, hmessage]

theorem readData_response (hs : ∀ b ∈ errorMessage, b ≠ 0) (hn : errorMessage.length < 128)
    (hsize : size < 2 ^ 32) :
    readData (dataResponse junk success size errorMessage data) =
      .data success size errorMessage data := by
  have hmessage : cstr (((dataResponse junk success size errorMessage data).drop 8).take 128) =
      errorMessage := by
    rw [dataResponse, read_drop _ _ _ _ (Nat.le_add_right_of_le (by decide)),
      read_take _ _ _ _ (by rw [sizeofDataResponse]; omega), read_blit_disjoint (.inl (by decide))]
    exact cstr_read_strcpy _ 8 hs hn
  rw [readData, dataResponse_success, dataResponse_size, Nat.mod_eq_of_lt hsize, dataResponse_data,
    hmessage]

end Read

/-! ## The tail of the segment -/

/-- A zero byte behind `SharedData` in its last page: `mmap` zeroes that tail, and nobody stores
there. -/
def TailEnds (pad : Mem) : Prop := ∃ a, sizeofSharedData ≤ a ∧ a < mappingSize ∧ pad a = 0

theorem image_tail (pad : Mem) (d : SharedData) {a : Nat} (h : sizeofSharedData ≤ a) :
    image pad d a = pad a := by
  unfold image
  iterate 11 rw [blit_out (.inr (le_trans (by decide) h))]

/-- Every scan that starts inside `SharedData` ends. -/
theorem image_readString_isSome {pad : Mem} (htail : TailEnds pad) (d : SharedData) {a : Nat}
    (ha : a ≤ sizeofSharedData) : (readString (image pad d) a).isSome = true := by
  obtain ⟨x, hlo, hhi, hzero⟩ := htail
  have hmem : 0 ∈ read (image pad d) a (mappingSize - a) := by
    refine List.mem_map.mpr ⟨x - a, List.mem_range.mpr (by omega), ?_⟩
    rw [show a + (x - a) = x by omega, image_tail pad d hlo, hzero]
  rw [readString_of_mem hmem (by omega)]
  rfl

theorem scansEnd_of_tail {pad : Mem} (htail : TailEnds pad) (d : SharedData) :
    ScansEnd (image pad d) := by
  intro route _ off hoff
  refine image_readString_isSome htail d ?_
  have hoff' : off ≤ 64 := by
    cases route <;> simp [Route.strings] at hoff <;> omega
  have hpayload : payloadAddr + 64 ≤ sizeofSharedData := by decide
  omega

/-! ## One dispatch -/

/-- What a handler left behind is what the service does with the message. -/
structure Outcome.Serves (out : Outcome) (b : Store) (m : IPCMessage) : Prop where
  verdict : verdictOf m (out.replies.head?.map Reply.response) = (serve b m).1
  tracks : Tracks HasBytes out.cache (serve b m).2.get

section Serve

variable {junk cache : Mem} {b : Store} {d : SharedData} {payload : List UInt8} {m : IPCMessage}

theorem trunc_trunc (n : Nat) (bs : List UInt8) : trunc n (trunc n bs) = trunc n bs := by
  rw [trunc_of_ne_zero fun c hc => trunc_ne_zero hc, List.take_of_length_le (trunc_length_le n bs)]

/-- The string that a handler scans and the one that the payload holds agree where it matters. -/
theorem Delivered.trunc_scanned {route : Route} {pad : Mem} {hash : List UInt8}
    (h : Delivered d route payload) (hlong : 255 ≤ payload.length)
    (hhash : readString (image pad d) payloadAddr = some hash) :
    trunc 255 hash = trunc 255 (trunc 255 payload) := by
  have hread : read (image pad d) payloadAddr 255 = payload.take 255 :=
    h.read_payload (show 0 + 255 ≤ _ by omega)
  rw [trunc_readString hhash (by decide), hread, trunc_take, trunc_trunc]

/-- What a handler hands to `Put` is what the payload announces. -/
theorem Delivered.blobAt_bytes {route : Route} (h : Delivered d route payload) (pad : Mem)
    (hsize : payload.length = sizeofStoreRequest + storedSize payload) :
    (blobAt (image pad d) (payloadAddr + sizeofStoreRequest)
      (UInt32.ofNat (storedSize payload))).bytes = storedData payload := by
  have hsize' : payload.length = 260 + storedSize payload := hsize
  have hmax : payload.length ≤ 20216 := h.payload_le
  have hnat : (UInt32.ofNat (storedSize payload)).toNat = storedSize payload :=
    UInt32.toNat_ofNat_of_lt' (lt_of_le_of_lt (show storedSize payload ≤ 20216 by omega) (by decide))
  show read _ _ _ = _
  rw [hnat, h.read_payload hsize.ge, storedData]

/-- Nothing is asked and nothing is done. -/
theorem Outcome.Serves.quiet (ht : Tracks HasBytes cache b.get) (hm : askOf m = .nothing) :
    (Outcome.quiet cache).Serves b m where
  verdict := by
    rw [serve, hm]
    rfl
  tracks := by
    rw [serve, hm]
    exact ht

/-- A value of the store is shorter than `2^32`. -/
theorem Store.length_lt {key v : List UInt8} (h : b.get key = some v) : v.length < 2 ^ 32 := by
  have hle : v.length ≤ Cache.roomOfFile.space := BoundedMap.weight_le h
  have hroom : Cache.roomOfFile.space < 2 ^ 32 := by decide
  omega

/-- The response to a query is the verdict of the service. -/
theorem Query.readData_response (ht : Tracks HasBytes cache b.get) (q : Query) (hash : List UInt8) :
    readData (q.response junk cache hash) = ((Ask.query q hash).serve b).1 := by
  cases q with
  | functionIr =>
    rw [Query.response, Ask.serve]
    split
    · exact Server.readData_response _ _ _ _ (List.forall_mem_nil _) (by decide) (by decide)
    · exact Server.readData_response _ _ _ _ (by decide +kernel) (by decide +kernel) (by decide)
  | cached kind =>
    have hbytes : (get cache (kind.keyPrefix ++ hash)).map (fun v => v.bytes cache) =
        b.get (keyName (kind.keyPrefix ++ hash)) := ht.getBytes_eq _
    rw [Query.response, Ask.serve]
    generalize get cache (kind.keyPrefix ++ hash) = found at hbytes
    cases found with
    | none =>
      have hnone : b.get (keyName (kind.keyPrefix ++ hash)) = none := hbytes.symm
      rw [hnone]
      refine Server.readData_response _ _ _ _ ?_ ?_ (by decide)
      · cases kind <;> decide +kernel
      · cases kind <;> decide +kernel
    | some view =>
      have hsome : b.get (keyName (kind.keyPrefix ++ hash)) = some (view.bytes cache) := hbytes.symm
      have hlength : (view.bytes cache).length = view.length := read_length _ _ _
      have hlt := Store.length_lt hsome
      rw [hsome]
      refine (Server.readData_response _ _ _ _ (List.forall_mem_nil _) (by decide)
        (hlength ▸ hlt)).trans ?_
      rw [Kind.lookup, hlength]

/-- **A query** is answered as the service answers it. -/
theorem Query.serves (ht : Tracks HasBytes cache b.get) {q : Query} {pad : Mem}
    (h : Delivered d q.route payload) (hroute : routeOf m = some q.route) (hm : m.payload = payload)
    {messageId : UInt32} {out : Outcome}
    (hout : q.route.handle junk cache (image pad d) messageId payloadAddr payload.length = some out) :
    out.Serves b m := by
  have hask : askOf m = q.ask payload := by
    rw [askOf, hroute, hm]
    rcases q with _ | _ | _ <;> rfl
  rw [q.handle_eq] at hout
  split at hout
  · rename_i hlong
    have hlong' : 256 ≤ payload.length := hlong
    obtain ⟨hash, hhash, rfl⟩ := Option.map_eq_some_iff.mp hout
    have hresponse : q.response junk cache hash = q.response junk cache (trunc 255 payload) :=
      q.response_trunc (readString_ne_zero hhash) (fun c hc => trunc_ne_zero hc)
        (h.trunc_scanned (by omega) hhash)
    have hserve : serve b m = (Ask.query q (trunc 255 payload)).serve b := by
      rw [serve, hask, Query.ask, if_neg (Nat.not_lt.mpr hlong)]
    have hsave : ¬ routeOf m = some .saveBytecode := by
      rw [hroute]
      rcases q with _ | _ | _ <;> simp [Query.route, Kind.fetchRoute]
    constructor
    · show verdictOf m (some (q.response junk cache hash)) = _
      rw [verdictOf, if_neg hsave, hserve, hresponse, Query.readData_response ht]
    · rw [hserve]
      rcases q with _ | _
      · exact ht
      · exact ht
  · rename_i hshort
    cases hout
    refine .quiet ht ?_
    rw [hask, Query.ask, if_pos (Nat.not_le.mp hshort)]

/-- The store of a valid request is the store of the service. -/
theorem Kind.serves_valid (ht : Tracks HasBytes cache b.get) {kind : Kind} {hash key : List UInt8}
    {blob : Blob} (hkey : keyName (kind.keyPrefix ++ hash) = keyName (kind.keyPrefix ++ key))
    (hguard : Cache.Compacts cache blob.length → (Cache.directory cache).NoClobber cache) :
    (put (.start cache) (kind.keyPrefix ++ hash) (some blob)).1 =
        (b.put (keyName (kind.keyPrefix ++ key)) blob.bytes).1 ∧
      Tracks HasBytes (put (.start cache) (kind.keyPrefix ++ hash) (some blob)).2.mem
        (b.put (keyName (kind.keyPrefix ++ key)) blob.bytes).2.get := by
  have hserve := ht.serve (c := ⟨.put (kind.keyPrefix ++ hash) (some blob), _⟩) hguard ⟨rfl, rfl⟩
  rw [← hkey]
  exact ⟨Cache.Answer.done.inj hserve.1, hserve.2⟩

/-- The answer to a store, as the client reads it. -/
theorem Kind.verdictOf_acknowledge {kind : Kind} (hroute : routeOf m = some kind.storeRoute)
    {messageId : UInt32} {success : Bool} {errorMessage : List UInt8}
    (hs : ∀ c ∈ errorMessage, c ≠ 0) (hn : errorMessage.length < 128) :
    verdictOf m ((kind.acknowledge messageId (saveBytecodeResponse junk success errorMessage)).head?.map
      Reply.response) = kind.verdict success errorMessage := by
  cases kind with
  | irGraph => rfl
  | bytecode =>
    show verdictOf m (some _) = _
    rw [verdictOf, if_pos (show routeOf m = some .saveBytecode from hroute)]
    exact readAcknowledgement_response _ _ hs hn

/-- **A store** is done and answered as the service does it. -/
theorem Kind.serves (ht : Tracks HasBytes cache b.get) {kind : Kind} {pad : Mem}
    (h : Delivered d kind.storeRoute payload) (hroute : routeOf m = some kind.storeRoute)
    (hm : m.payload = payload)
    (hguard : ∀ hash data, askOf m = .store kind hash data →
      Cache.Compacts cache data.length → (Cache.directory cache).NoClobber cache)
    {messageId : UInt32} {out : Outcome}
    (hout : kind.storeRoute.handle junk cache (image pad d) messageId payloadAddr payload.length =
      some out) : out.Serves b m := by
  have hask : askOf m = kind.ask payload := by
    rw [askOf, hroute, hm]
    cases kind <;> rfl
  rw [kind.store_eq] at hout
  obtain ⟨request, hrequest, rfl⟩ := Option.map_eq_some_iff.mp hout
  rcases Nat.lt_or_ge payload.length sizeofStoreRequest with hshort | hlong
  · rw [readStoreRequest, if_pos hshort] at hrequest
    cases hrequest
    exact .quiet ht (by rw [hask, Kind.ask, if_pos hshort])
  · obtain ⟨hash, hhash⟩ := readStoreRequest_scanned hlong hrequest
    have hlong' : 260 ≤ payload.length := hlong
    have hword : readWord (image pad d) (payloadAddr + 256) = storedSize payload := by
      rw [readWord, h.read_payload (by omega), storedSize]
    rw [readStoreRequest_long hlong hhash, hword] at hrequest
    by_cases hsize : payload.length = sizeofStoreRequest + storedSize payload
    · rw [if_pos hsize] at hrequest
      cases hrequest
      have hbytes := h.blobAt_bytes pad hsize
      have hkey := h.trunc_scanned (by omega) hhash
      have hasked : askOf m = .store kind (trunc 255 payload) (storedData payload) := by
        rw [hask, Kind.ask, if_neg (Nat.not_lt.mpr hlong), if_neg (not_not_intro hsize)]
      have hserve : serve b m =
          (Ask.store kind (trunc 255 payload) (storedData payload)).serve b := by
        rw [serve, hasked]
      have hclobber : Cache.Compacts cache (blobAt (image pad d) (payloadAddr + sizeofStoreRequest)
          (UInt32.ofNat (storedSize payload))).length → (Cache.directory cache).NoClobber cache :=
        fun hc => hguard _ _ hasked (by rw [← hbytes]; exact hc)
      obtain ⟨hok, htracks⟩ := Kind.serves_valid ht (kind.keyName_congr hkey) hclobber
      rw [hbytes] at hok htracks
      constructor
      · rw [hserve, Ask.serve]
        dsimp only [Kind.storeOutcome]
        rw [hok]
        cases (b.put (keyName (kind.keyPrefix ++ trunc 255 payload)) (storedData payload)).1 with
        | true => exact Kind.verdictOf_acknowledge hroute (List.forall_mem_nil _) (by decide)
        | false => exact Kind.verdictOf_acknowledge hroute (by decide +kernel) (by decide +kernel)
      · rw [hserve]
        exact htracks
    · rw [if_neg hsize] at hrequest
      cases hrequest
      have hserve : serve b m = (Ask.mismatch kind).serve b := by
        rw [serve, hask, Kind.ask, if_neg (Nat.not_lt.mpr hlong), if_pos hsize]
      constructor
      · rw [hserve]
        exact Kind.verdictOf_acknowledge hroute (by decide +kernel) (by decide +kernel)
      · rw [hserve]
        exact ht

end Serve

section Dispatch

variable {env : Env} {cache : Mem} {b : Store} {d : SharedData} {r : Request} {id : UInt32}

theorem routeOf_message (r : Request) (id : UInt32) :
    routeOf (r.message id) = findRoute (trunc 255 r.routeHash) := by
  rw [routeOf, Request.message, Request.routeField, cstr_strncpy_zero]

/-- The store that a dispatch makes meets `NoClobber` if it compacts. -/
def StoresSafely (cache : Mem) (m : IPCMessage) : Prop :=
  ∀ kind hash data, askOf m = .store kind hash data →
    Cache.Compacts cache data.length → (Cache.directory cache).NoClobber cache

/-- **One dispatch refines the service.** -/
theorem dispatchMessage_serves (hr : r.Fits) (hm : d.message.handed = r.message id)
    (htail : TailEnds env.pad) (ht : Tracks HasBytes cache b.get)
    (hguard : StoresSafely cache (r.message id)) :
    ∃ out, dispatchMessage env cache d = some out ∧ out.Serves b (r.message id) := by
  obtain ⟨out, hout⟩ := Option.isSome_iff_exists.mp
    (dispatchMessage_isSome hr hm (scansEnd_of_tail htail d) :
      (dispatchMessage env cache d).isSome = true)
  refine ⟨out, hout, ?_⟩
  rw [dispatchMessage_request hr hm] at hout
  have hroute := routeOf_message r id
  cases hfound : findRoute (trunc 255 r.routeHash) with
  | none =>
    rw [hfound] at hout hroute
    cases hout
    exact .quiet ht (by rw [askOf, hroute])
  | some route =>
    rw [hfound] at hout hroute
    have hdelivered := Delivered.of_found hr hm hfound
    rcases route.groups with hu | ⟨q, rfl⟩ | ⟨kind, rfl⟩
    · rw [hu.handle_eq hout]
      refine .quiet ht ?_
      rw [askOf, hroute]
      rcases hu with rfl | rfl | rfl <;> rfl
    · exact Query.serves ht hdelivered hroute rfl hout
    · exact Kind.serves ht hdelivered hroute rfl (hguard kind) hout

/-- The mailbox's handler, on a message that `send_message` took. -/
theorem serverHandle_serves (hr : r.Fits) (hm : d.message.handed = r.message id)
    (htail : TailEnds env.pad) (ht : Tracks HasBytes cache b.get)
    (hguard : StoresSafely cache (r.message id)) :
    verdictOf (r.message id) (serverHandle env cache d).2 = (serve b (r.message id)).1 ∧
      Tracks HasBytes (serverHandle env cache d).1 (serve b (r.message id)).2.get := by
  obtain ⟨out, hout, hserves⟩ := dispatchMessage_serves hr hm htail ht hguard
  rw [serverHandle_eq, hout, Option.elim_some]
  exact ⟨hserves.verdict, hserves.tracks⟩

end Dispatch

end CCache.Server
