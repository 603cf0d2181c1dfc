/-
# CCache.Server.Replies — when a dispatch answers its request.

Four routes answer.  The waiting client needs one `sem_post` on `response_ready` and its own id in
`response_message_id`; it hangs when a handler only logs.  Two branches do that: the one for a payload
shorter than the request struct, and the one in `send_response` for a response that is too large.  On
every other branch there is exactly one answer.
-/
import CCache.Server.RoundTrip

namespace CCache.Server

open CCache.Cache (View get)
open CCache.Ipc
open CCache.Lib.ByteMemory
open CCache.Lib.CString

/-! ## Answers in the segment -/

/-- The segment after the calls of `send_response`. -/
def Outcome.sent (out : Outcome) (d : SharedData) : SharedData :=
  out.replies.foldl (fun d reply => (sendResponse d reply).2) d

/-- The client of the message in the slot is answered once. -/
structure AnsweredOnce (d : SharedData) (out : Outcome) : Prop where
  posted : (out.sent d).responseReady = d.responseReady + 1
  id : (out.sent d).responseMessageId = d.message.messageId

/-- The routes whose clients wait for an answer. -/
def Route.Replies (route : Route) : Prop :=
  route ∈ [.getFunctionIr, .getFunctionIrGraph, .saveBytecode, .getBytecode]

theorem Route.Replies.query_or_save {route : Route} (h : route.Replies) :
    (∃ q : Query, route = q.route) ∨ route = Kind.bytecode.storeRoute := by
  cases route with
  | getFunctionIr => exact .inl ⟨.functionIr, rfl⟩
  | getFunctionIrGraph => exact .inl ⟨.cached .irGraph, rfl⟩
  | saveBytecode => exact .inr rfl
  | getBytecode => exact .inl ⟨.cached .bytecode, rfl⟩
  | createUser => exact absurd h (by simp [Route.Replies])
  | getUser => exact absurd h (by simp [Route.Replies])
  | deleteUser => exact absurd h (by simp [Route.Replies])
  | addFunctionIrGraph => exact absurd h (by simp [Route.Replies])

section Answered

variable {d : SharedData} {cache : Mem}

theorem not_answeredOnce_quiet : ¬ AnsweredOnce d (.quiet cache) := by
  intro h
  have hposted : d.responseReady = d.responseReady + 1 := h.posted
  omega

/-- A single call of `send_response` answers unless the response is too large. -/
theorem answeredOnce_reply_iff {response : List UInt8} {stored : Option Bool}
    (hid : d.currentMessageId = d.message.messageId) :
    AnsweredOnce d ⟨cache, [⟨d.currentMessageId, response⟩], stored⟩ ↔
      response.length ≤ maxMessageSize := by
  have hsent : (⟨cache, [⟨d.currentMessageId, response⟩], stored⟩ : Outcome).sent d =
      (sendResponse d ⟨d.currentMessageId, response⟩).2 := rfl
  constructor
  · intro h
    by_contra hlarge
    have hposted := h.posted
    rw [hsent, sendResponse, if_pos (Nat.not_le.mp hlarge)] at hposted
    have : d.responseReady = d.responseReady + 1 := hposted
    omega
  · intro hfits
    constructor
    · rw [hsent, sendResponse, if_neg (Nat.not_lt.mpr hfits)]
    · rw [hsent, sendResponse, if_neg (Nat.not_lt.mpr hfits)]
      exact hid

end Answered

/-! ## The responses -/

@[simp] theorem saveBytecodeResponse_length (junk : Mem) (success : Bool) (errorMessage : List UInt8) :
    (saveBytecodeResponse junk success errorMessage).length = sizeofSaveBytecodeResponse :=
  read_length _ _ _

/-- Every response to a query fits, but for that with a cached value that is too large. -/
theorem Query.response_fits_iff {junk cache : Mem} {hash : List UInt8} (q : Query) :
    (q.response junk cache hash).length ≤ maxMessageSize ↔
      ∀ kind view, q = .cached kind → get cache (kind.keyPrefix ++ hash) = some view →
        sizeofDataResponse + view.length ≤ maxMessageSize := by
  cases q with
  | functionIr =>
    -- both answers of `handle_get_function_ir` are of fixed size
    refine iff_of_true ?_ fun kind view hq => ?_
    · rw [Query.response]
      split
      · rw [dataResponse_length]
        decide
      · rw [dataResponse_length]
        decide
    · cases hq
  | cached kind =>
    have hlookup : ∀ found : Option View,
        (lookupResponse junk cache kind.notFound found).length ≤ maxMessageSize ↔
          ∀ view, found = some view → sizeofDataResponse + view.length ≤ maxMessageSize := by
      intro found
      cases found with
      | none =>
        refine iff_of_true ?_ fun view hview => ?_
        · rw [lookupResponse, dataResponse_length]
          decide
        · cases hview
      | some view =>
        have hlength : (view.bytes cache).length = view.length := read_length _ _ _
        rw [lookupResponse, dataResponse_length, hlength]
        constructor
        · rintro h _ ⟨⟩
          exact h
        · intro h
          exact h view rfl
    rw [Query.response, hlookup]
    constructor
    · rintro h _ view ⟨⟩ hget
      exact h view hget
    · intro h view hget
      exact h kind view rfl hget

/-- A `bytecode/save` whose payload is not too short is answered, whatever the checks and `Put` say. -/
theorem save_answers {junk cache m : Mem} {messageId : UInt32} {data size : Nat}
    (hlong : sizeofStoreRequest ≤ size) (hscan : (readString m data).isSome = true) :
    ∃ cache' response stored, response.length = sizeofSaveBytecodeResponse ∧
      Route.saveBytecode.handle junk cache m messageId data size =
        some ⟨cache', [⟨messageId, response⟩], stored⟩ := by
  obtain ⟨hash, hhash⟩ := Option.isSome_iff_exists.mp hscan
  have hhandle : Route.saveBytecode.handle junk cache m messageId data size = _ :=
    Kind.bytecode.store_eq
  rw [hhandle, readStoreRequest_long hlong hhash, Option.map_some]
  split
  · refine ⟨_, _, _, ?_, rfl⟩
    split
    · exact saveBytecodeResponse_length _ _ _
    · exact saveBytecodeResponse_length _ _ _
  · exact ⟨_, _, _, saveBytecodeResponse_length _ _ _, rfl⟩

/-! ## One answer for every request -/

/-- **Answered once.** A message that `send_message` took for a replying route is answered exactly once
and under its own id, on any cache, exactly when its payload holds the request struct and no value that
is found is too large for the response buffer. -/
theorem answered_once_iff {env : Env} {cache : Mem} {d : SharedData} {route : Route}
    {payload : List UInt8} (hroute : route.Replies) (h : Delivered d route payload)
    (hid : d.currentMessageId = d.message.messageId)
    (hscan : (readString (image env.pad d) payloadAddr).isSome = true) :
    (∃ out, dispatchMessage env cache d = some out ∧ AnsweredOnce d out) ↔
      route.requestSize ≤ payload.length ∧
        ∀ (kind : Kind) hash view, route = kind.fetchRoute →
          readString (image env.pad d) payloadAddr = some hash →
          get cache (kind.keyPrefix ++ hash) = some view →
          sizeofDataResponse + view.length ≤ maxMessageSize := by
  rw [h.dispatch env cache]
  obtain ⟨hash, hhash⟩ := Option.isSome_iff_exists.mp hscan
  rcases Nat.lt_or_ge payload.length route.requestSize with hshort | hlong
  · -- the silent branch
    rw [Route.handle_short hshort]
    refine iff_of_false ?_ fun hlong => Nat.not_le.mpr hshort hlong.1
    rintro ⟨_, ⟨⟩, hanswered⟩
    exact not_answeredOnce_quiet hanswered
  · rw [and_iff_right hlong]
    rcases hroute.query_or_save with ⟨q, rfl⟩ | rfl
    · rw [q.handle_eq, if_pos (q.requestSize_eq ▸ hlong), hhash, Option.map_some]
      have hfits : (∃ out, some (⟨cache, [⟨d.currentMessageId, q.response env.junk cache hash⟩], none⟩
          : Outcome) = some out ∧ AnsweredOnce d out) ↔
            (q.response env.junk cache hash).length ≤ maxMessageSize := by
        rw [← answeredOnce_reply_iff hid]
        constructor
        · rintro ⟨_, ⟨⟩, hanswered⟩
          exact hanswered
        · exact fun hanswered => ⟨_, rfl, hanswered⟩
      rw [hfits, q.response_fits_iff]
      constructor
      · rintro hall kind _ view hq ⟨⟩ hget
        have hq : q.route = (Query.cached kind).route := hq
        exact hall kind view (Query.route_injective hq) hget
      · rintro hall kind view rfl hget
        exact hall kind hash view rfl rfl hget
    · obtain ⟨cache', response, stored, hlength, hhandle⟩ := save_answers hlong hscan
      -- its response has no data, so it always fits, and no value is looked up
      refine iff_of_true ⟨_, hhandle, (answeredOnce_reply_iff hid).mpr ?_⟩ ?_
      · rw [hlength]
        decide
      · intro kind _ _ hkind
        cases kind <;> cases hkind

/-- A `function/get_ir` for the function that the handler knows. -/
def existingQuery : SharedData :=
  sendMessage .created
    ⟨hashRoute Route.getFunctionIr.path, strncpy 256 (text "EXISTING_FUNCTION")⟩ 1

/-- It is answered, on the cache of a new file. -/
theorem answered_once_existing : ∃ out,
    dispatchMessage ⟨fun _ => 0, fun _ => 0⟩ (Cache.initMmap (.start fun _ => 0)).mem existingQuery =
      some out ∧ AnsweredOnce existingQuery out := by
  generalize (Cache.initMmap (.start fun _ => 0)).mem = cache
  generalize (⟨fun _ => 0, fun _ => 0⟩ : Env) = env
  have hroute : Route.getFunctionIr.Replies := List.mem_cons_self
  have hlength : (strncpy 256 (text "EXISTING_FUNCTION")).length = 256 := strncpy_length _ _
  have hdelivered : Delivered existingQuery .getFunctionIr (strncpy 256 (text "EXISTING_FUNCTION")) :=
    sendMessage_delivered _ _ _ (hlength.trans_le (by decide))
  have hscan : (readString (image env.pad existingQuery) payloadAddr).isSome = true := by
    rw [image_readString_payload env.pad existingQuery (show 256 ≤ maxPayload by decide)
      (by decide +kernel) (by decide +kernel)]
    rfl
  refine (answered_once_iff hroute hdelivered rfl hscan).mpr ⟨hlength.ge, fun kind _ _ hkind => ?_⟩
  cases kind <;> cases hkind

/-- A `bytecode/get` whose payload is a hash string without the rest of its field. -/
def shortQuery : SharedData :=
  sendMessage .created ⟨hashRoute Route.getBytecode.path, [0x61, 0x62, 0]⟩ 1

/-- It is only logged, on every cache: its client waits for ever. -/
theorem short_query_unanswered : Delivered shortQuery .getBytecode [0x61, 0x62, 0] ∧
    shortQuery.currentMessageId = shortQuery.message.messageId ∧
    ∀ env : Env, (readString (image env.pad shortQuery) payloadAddr).isSome = true ∧
      ∀ cache, ¬ ∃ out, dispatchMessage env cache shortQuery = some out ∧ AnsweredOnce shortQuery out := by
  have hdelivered : Delivered shortQuery .getBytecode [0x61, 0x62, 0] :=
    sendMessage_delivered _ _ _ (by decide)
  refine ⟨hdelivered, rfl, fun env => ⟨?_, fun cache => ?_⟩⟩
  · rw [image_readString_payload env.pad shortQuery (show 3 ≤ maxPayload by decide)
      (by decide +kernel) (by decide +kernel)]
    rfl
  · rintro ⟨out, hout, hanswered⟩
    rw [hdelivered.dispatch env cache, Route.handle_short (by decide)] at hout
    cases hout
    exact not_answeredOnce_quiet hanswered

end CCache.Server
