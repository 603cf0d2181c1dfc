/-
# CCache.Server.Leftovers — a dispatch does not depend on what earlier messages left in the slot.

A hash field without a NUL makes the handlers build a string that runs on into the bytes behind the
payload, which are those of earlier messages.  Every consumer decides within the first 255 bytes all the
same: the key is cut to them when it is stored and when it is looked up, behind the prefix as without
it, and the one literal a handler compares with is shorter.  So two mappings that agree on the payload
give the same outcome on every route.
-/
import CCache.Server.RoundTrip

namespace CCache.Server

open CCache.Cache (put get get_congr put_congr)
open CCache.Ipc
open CCache.Lib.ByteMemory
open CCache.Lib.CString

/-! ## What is made of a hash string -/

/-- **A query decides within 255 bytes.** -/
theorem Query.response_trunc {junk cache : Mem} {hash hash' : List UInt8} (q : Query)
    (hn : ∀ b ∈ hash, b ≠ 0) (hn' : ∀ b ∈ hash', b ≠ 0) (h : trunc 255 hash = trunc 255 hash') :
    q.response junk cache hash = q.response junk cache hash' := by
  cases q with
  | functionIr =>
    have hne : ∀ b ∈ text "EXISTING_FUNCTION", b ≠ 0 := by decide +kernel
    have hlen : (text "EXISTING_FUNCTION").length < 255 := by decide +kernel
    have hname : hash = text "EXISTING_FUNCTION" ↔ hash' = text "EXISTING_FUNCTION" := by
      constructor
      · rintro rfl
        exact eq_of_trunc_eq hn' hne hlen h.symm
      · rintro rfl
        exact eq_of_trunc_eq hn hne hlen h
    rw [Query.response, Query.response]
    simp only [hname]
  | cached kind =>
    rw [Query.response, Query.response, get_congr cache (kind.keyName_congr h)]

/-- **A store decides within 255 bytes.** -/
theorem Kind.storeOutcome_trunc {junk cache m m' : Mem} {messageId : UInt32} {hash hash' : List UInt8}
    {a : Nat} {length : UInt32} (kind : Kind) (h : trunc 255 hash = trunc 255 hash')
    (hblob : blobAt m a length = blobAt m' a length) :
    kind.storeOutcome junk cache m messageId (.valid hash a length) =
      kind.storeOutcome junk cache m' messageId (.valid hash' a length) := by
  have hput : put (.start cache) (kind.keyPrefix ++ hash) (some (blobAt m a length)) =
      put (.start cache) (kind.keyPrefix ++ hash') (some (blobAt m' a length)) := by
    rw [hblob, put_congr _ _ (kind.keyName_congr h)]
  unfold Kind.storeOutcome
  dsimp only
  rw [hput]

/-! ## Two mappings with one payload -/

section Handle

variable {junk cache m m' : Mem} {messageId : UInt32} {data size : Nat}

theorem readString_trunc {n : Nat} {hash hash' : List UInt8} (hread : read m data size = read m' data size)
    (hmax : data + size ≤ mappingSize) (hn : n ≤ size) (h : readString m data = some hash)
    (h' : readString m' data = some hash') : trunc n hash = trunc n hash' := by
  have hcut := congrArg (List.take n) hread
  rw [read_take _ _ _ _ hn, read_take _ _ _ _ hn] at hcut
  rw [trunc_readString h (by omega), trunc_readString h' (by omega), hcut]

theorem Query.handle_agree {q : Query} {out out' : Outcome}
    (hread : read m data size = read m' data size) (hmax : data + size ≤ mappingSize)
    (h : q.route.handle junk cache m messageId data size = some out)
    (h' : q.route.handle junk cache m' messageId data size = some out') : out = out' := by
  rw [q.handle_eq] at h h'
  split at h
  · rename_i hsize
    have hsize' : 256 ≤ size := hsize
    rw [if_pos hsize] at h'
    obtain ⟨hash, hhash, rfl⟩ := Option.map_eq_some_iff.mp h
    obtain ⟨hash', hhash', rfl⟩ := Option.map_eq_some_iff.mp h'
    rw [q.response_trunc (readString_ne_zero hhash) (readString_ne_zero hhash')
      (readString_trunc hread hmax (by omega) hhash hhash')]
  · rename_i hsize
    rw [if_neg hsize] at h'
    exact Option.some.inj (h.symm.trans h')

/-- A payload that is long enough is checked once its hash string has been scanned. -/
theorem readStoreRequest_scanned {request : StoreRequest} (hlong : sizeofStoreRequest ≤ size)
    (h : readStoreRequest m data size = some request) : ∃ hash, readString m data = some hash := by
  rw [readStoreRequest, if_neg (Nat.not_lt.mpr hlong)] at h
  obtain ⟨hash, hhash, -⟩ := Option.bind_eq_some_iff.mp h
  exact ⟨hash, hhash⟩

theorem Kind.handle_agree {kind : Kind} {out out' : Outcome}
    (hread : read m data size = read m' data size) (hmax : data + size ≤ mappingSize)
    (h : kind.storeRoute.handle junk cache m messageId data size = some out)
    (h' : kind.storeRoute.handle junk cache m' messageId data size = some out') : out = out' := by
  rw [kind.store_eq] at h h'
  obtain ⟨request, hrequest, rfl⟩ := Option.map_eq_some_iff.mp h
  obtain ⟨request', hrequest', rfl⟩ := Option.map_eq_some_iff.mp h'
  rcases Nat.lt_or_ge size sizeofStoreRequest with hshort | hlong
  · rw [readStoreRequest, if_pos hshort] at hrequest hrequest'
    cases hrequest
    cases hrequest'
    rfl
  · have hlong' : 260 ≤ size := hlong
    obtain ⟨hash, hhash⟩ := readStoreRequest_scanned hlong hrequest
    obtain ⟨hash', hhash'⟩ := readStoreRequest_scanned hlong hrequest'
    -- the announced size lies in the payload
    have hword : readWord m (data + 256) = readWord m' (data + 256) := by
      refine readWord_congr fun i hi => ?_
      have hbyte := read_eq_iff.mp hread (256 + i) (by omega)
      rwa [← Nat.add_assoc] at hbyte
    rw [readStoreRequest_long hlong hhash] at hrequest
    rw [readStoreRequest_long hlong hhash', ← hword] at hrequest'
    cases hrequest
    cases hrequest'
    split
    · rename_i hsize
      refine kind.storeOutcome_trunc (readString_trunc hread hmax (by omega) hhash hhash') ?_
      -- and so does the announced data, since the sizes match
      have hnat : (UInt32.ofNat (readWord m (data + 256))).toNat = readWord m (data + 256) :=
        UInt32.toNat_ofNat_of_lt' (readWord_lt m _)
      have hdata := congrArg (List.drop sizeofStoreRequest) hread
      rw [read_drop _ _ _ _ hlong, read_drop _ _ _ _ hlong, hsize, Nat.add_sub_cancel_left] at hdata
      unfold blobAt
      simp only [hnat, hdata]
    · rfl

/-- **The handlers see the payload only.** -/
theorem Route.handle_agree {route : Route} {out out' : Outcome}
    (hread : read m data size = read m' data size) (hmax : data + size ≤ mappingSize)
    (h : route.handle junk cache m messageId data size = some out)
    (h' : route.handle junk cache m' messageId data size = some out') : out = out' := by
  rcases route.groups with hu | ⟨q, rfl⟩ | ⟨kind, rfl⟩
  · rw [hu.handle_eq h, hu.handle_eq h']
  · exact Query.handle_agree hread hmax h h'
  · exact Kind.handle_agree hread hmax h h'

/-- The strings that the handler of a route scans, by their offsets in the payload: those it prints and
the hash string. -/
def Route.strings : Route → List Nat
  | .createUser => [0, 64]
  | .getUser | .deleteUser => []
  | .addFunctionIrGraph | .getFunctionIr | .getFunctionIrGraph | .saveBytecode | .getBytecode => [0]

/-- A handler whose strings end inside the mapping has an outcome. -/
theorem Route.handle_isSome {route : Route}
    (h : ∀ off ∈ route.strings, (readString m (data + off)).isSome = true) :
    (route.handle junk cache m messageId data size).isSome = true := by
  have hregistered : ∀ {n : Nat} (handler : Nat → Option Outcome), (handler data).isSome = true →
      (registerRoute n cache handler data size).isSome = true := by
    intro n handler hh
    rw [registerRoute]
    split
    · exact hh
    · rfl
  have hquery : ∀ q : Query, (readString m data).isSome = true →
      (q.route.handle junk cache m messageId data size).isSome = true := by
    intro q hscan
    rw [q.handle_eq]
    split
    · rwa [Option.isSome_map]
    · rfl
  have hstore : ∀ kind : Kind, (readString m data).isSome = true →
      (kind.storeRoute.handle junk cache m messageId data size).isSome = true := by
    intro kind hscan
    rw [kind.store_eq, Option.isSome_map]
    rcases Nat.lt_or_ge size sizeofStoreRequest with hshort | hlong
    · rw [readStoreRequest, if_pos hshort]
      rfl
    · obtain ⟨hash, hhash⟩ := Option.isSome_iff_exists.mp hscan
      rw [readStoreRequest_long hlong hhash]
      rfl
  cases route with
  | createUser =>
    -- the one handler with two strings, both only printed
    refine hregistered (handleCreateUser cache m) ?_
    obtain ⟨username, husername⟩ := Option.isSome_iff_exists.mp (h 0 List.mem_cons_self)
    obtain ⟨email, hemail⟩ := Option.isSome_iff_exists.mp (h 64 (List.mem_cons_of_mem _ List.mem_cons_self))
    rw [Nat.add_zero] at husername
    unfold handleCreateUser
    rw [husername, hemail]
    rfl
  | getUser => exact hregistered (fun _ => handleGetUser cache) rfl
  | deleteUser => exact hregistered (fun _ => handleDeleteUser cache) rfl
  | addFunctionIrGraph => exact hstore .irGraph (h 0 List.mem_cons_self)
  | getFunctionIr => exact hquery .functionIr (h 0 List.mem_cons_self)
  | getFunctionIrGraph => exact hquery (.cached .irGraph) (h 0 List.mem_cons_self)
  | saveBytecode => exact hstore .bytecode (h 0 List.mem_cons_self)
  | getBytecode => exact hquery (.cached .bytecode) (h 0 List.mem_cons_self)

end Handle

/-! ## Two segments with one message -/

/-- Every string that a dispatch scans in the payload ends inside the mapping. -/
def ScansEnd (m : Mem) : Prop :=
  ∀ route, (readString m (messageAddr + 4)).bind findRoute = some route →
    ∀ off ∈ route.strings, (readString m (payloadAddr + off)).isSome = true

/-- A message whose hash string is that of a route is a message for this route. -/
theorem Delivered.of_found {d : SharedData} {r : Request} {id : UInt32} {route : Route} (hr : r.Fits)
    (hm : d.message.handed = r.message id) (hfound : findRoute (trunc 255 r.routeHash) = some route) :
    Delivered d route r.data := by
  have htrunc : trunc 255 r.routeHash = trunc 255 (hashRoute route.path) :=
    (findRoute_eq_some hfound).trans (trunc_hashRoute _).symm
  refine ⟨hr, id, hm.trans ?_⟩
  simp only [Request.message, Request.routeField, strncpy_congr htrunc]

section Dispatch

variable {junk cache pad pad' : Mem} {d d' : SharedData} {r : Request} {id : UInt32}

/-- What a dispatch does with the message in the slot. -/
theorem dispatchMessage_request {env : Env} (hr : r.Fits) (hm : d.message.handed = r.message id) :
    dispatchMessage env cache d =
      match findRoute (trunc 255 r.routeHash) with
      | some route =>
        route.handle env.junk cache (image env.pad d) d.currentMessageId payloadAddr r.data.length
      | none => some (.quiet cache) := by
  cases hfound : findRoute (trunc 255 r.routeHash) with
  | none =>
    unfold dispatchMessage
    dsimp only
    rw [image_readString_field (congrArg IPCMessage.routeHash hm), Option.bind_eq_bind,
      Option.bind_some, hfound]
  | some route => exact (Delivered.of_found hr hm hfound).dispatch env cache

theorem dispatchMessage_agree {out out' : Outcome} (hr : r.Fits)
    (hm : d.message.handed = r.message id) (hm' : d'.message.handed = r.message id)
    (hid : d.currentMessageId = d'.currentMessageId)
    (h : dispatchMessage ⟨pad, junk⟩ cache d = some out)
    (h' : dispatchMessage ⟨pad', junk⟩ cache d' = some out') : out = out' := by
  rw [dispatchMessage_request hr hm] at h
  rw [dispatchMessage_request hr hm', ← hid] at h'
  cases hfound : findRoute (trunc 255 r.routeHash) with
  | none =>
    rw [hfound] at h h'
    exact Option.some.inj (h.symm.trans h')
  | some route =>
    rw [hfound] at h h'
    have hread : read (image pad d) payloadAddr r.data.length = r.data :=
      (Delivered.of_found hr hm hfound).read_whole
    have hread' : read (image pad' d') payloadAddr r.data.length = r.data :=
      (Delivered.of_found hr hm' hfound).read_whole
    have hsize : r.data.length ≤ maxPayload := hr
    have hend : payloadAddr + maxPayload ≤ mappingSize := by decide
    exact route.handle_agree (hread.trans hread'.symm) (by omega) h h'

theorem dispatchMessage_isSome {env : Env} (hr : r.Fits) (hm : d.message.handed = r.message id)
    (hscans : ScansEnd (image env.pad d)) : (dispatchMessage env cache d).isSome = true := by
  rw [dispatchMessage_request hr hm]
  cases hfound : findRoute (trunc 255 r.routeHash) with
  | none => rfl
  | some route =>
    refine route.handle_isSome (hscans route ?_)
    rw [image_readString_field (congrArg IPCMessage.routeHash hm), Option.bind_some, hfound]

/-- **Leftovers do not matter.** Two segments hold the same message, header and payload, and differ in
whatever else they hold: what stands behind the payload, the response, the padding.  On the same cache,
under the same current id and with the same bytes in the storage of the responses, the outcomes of the
two dispatches are the same: the file, the calls of `send_response`, the answer of `Put`.  Both have one
when the scans end inside the mapping, which is for every route but `user/create` the one of the hash
string. -/
theorem leftovers_do_not_matter (hr : r.Fits) (hm : d.message.handed = r.message id)
    (hm' : d'.message.handed = r.message id) (hid : d.currentMessageId = d'.currentMessageId) :
    (∀ out out', dispatchMessage ⟨pad, junk⟩ cache d = some out →
        dispatchMessage ⟨pad', junk⟩ cache d' = some out' → out = out') ∧
      (ScansEnd (image pad d) → ScansEnd (image pad' d') →
        ∃ out, dispatchMessage ⟨pad, junk⟩ cache d = some out ∧
          dispatchMessage ⟨pad', junk⟩ cache d' = some out) := by
  have hagree : ∀ out out', dispatchMessage ⟨pad, junk⟩ cache d = some out →
      dispatchMessage ⟨pad', junk⟩ cache d' = some out' → out = out' :=
    fun _ _ h h' => dispatchMessage_agree hr hm hm' hid h h'
  refine ⟨hagree, fun hscans hscans' => ?_⟩
  have hsome : (dispatchMessage ⟨pad, junk⟩ cache d).isSome = true :=
    dispatchMessage_isSome hr hm hscans
  have hsome' : (dispatchMessage ⟨pad', junk⟩ cache d').isSome = true :=
    dispatchMessage_isSome hr hm' hscans'
  obtain ⟨out, h⟩ := Option.isSome_iff_exists.mp hsome
  obtain ⟨out', h'⟩ := Option.isSome_iff_exists.mp hsome'
  exact ⟨out, h, hagree out out' h h' ▸ h'⟩

end Dispatch

/-- A `bytecode/get` for a hash of 256 bytes without a NUL, over what a longer message left. -/
def unterminatedGet (left : List UInt8) : SharedData :=
  sendMessage (sendMessage .created ⟨hashRoute Route.saveBytecode.path, left⟩ 1)
    ⟨hashRoute Route.getBytecode.path, List.replicate 256 65⟩ 2

/-- The scan runs on into other bytes, and the dispatch answers the same. -/
theorem leftovers_do_not_matter_unterminated : ∃ out,
    dispatchMessage ⟨fun _ => 0, fun _ => 0⟩ (Cache.initMmap (.start fun _ => 0)).mem
        (unterminatedGet unterminatedSave) = some out ∧
      dispatchMessage ⟨fun _ => 7, fun _ => 0⟩ (Cache.initMmap (.start fun _ => 0)).mem
        (unterminatedGet (List.replicate 300 66 ++ [0])) = some out := by
  generalize (Cache.initMmap (.start fun _ => 0)).mem = cache
  have hfits : (⟨hashRoute Route.getBytecode.path, List.replicate 256 65⟩ : Request).Fits := by
    rw [Request.Fits, List.length_replicate]
    decide
  have hmessage : ∀ left, (unterminatedGet left).message.handed =
      (⟨hashRoute Route.getBytecode.path, List.replicate 256 65⟩ : Request).message 2 :=
    fun _ => sendMessage_handed _ _ _
  have hscans : ∀ {left : List UInt8} {n : Nat} (pad : Mem), n ≤ maxPayload →
      n ≤ (unterminatedGet left).message.payload.length →
      0 ∈ (unterminatedGet left).message.payload.take n → ScansEnd (image pad (unterminatedGet left)) := by
    intro left n pad hmax hlong hnul route hroute off hoff
    have hhash : (unterminatedGet left).message.routeHash =
        strncpy 255 (hashRoute Route.getBytecode.path) ++ [0] := rfl
    rw [image_readString_routeHash hhash, Option.bind_some, findRoute_hashRoute] at hroute
    cases hroute
    cases List.mem_singleton.mp hoff
    rw [Nat.add_zero, image_readString_payload pad _ hmax hlong hnul]
    rfl
  have hid : ∀ left, (unterminatedGet left).currentMessageId = 2 := fun _ => rfl
  refine (leftovers_do_not_matter hfits (hmessage unterminatedSave)
    (hmessage (List.replicate 300 66 ++ [0])) ((hid _).trans (hid _).symm)).2 ?_ ?_
  · exact hscans _ (show 261 ≤ maxPayload by decide) (by decide +kernel) (by decide +kernel)
  · exact hscans _ (show 301 ≤ maxPayload by decide) (by decide +kernel) (by decide +kernel)

end CCache.Server
