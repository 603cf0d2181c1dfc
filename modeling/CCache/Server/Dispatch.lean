/-
# CCache.Server.Dispatch — what one dispatched message can do, and what the server's runs keep.

`Outcome.Sound` says once what every handler can do: at most one `send_response`, under the id in the
slot, and at most one `Put` on the cache.  The cache file of a running server is therefore always a
state that the cache's own operations reach, whatever its clients send.

`Delivered` is a message as `send_message` leaves it in the slot.  The dispatch finds its route, and
the handler reads its payload byte for byte.
-/
import CCache.Cache.Operations
import CCache.Server.Answers

namespace CCache.Server

open CCache.Cache (put put_cases)
open CCache.Ipc
open CCache.Lib.ByteMemory
open CCache.Lib.CString
open CCache.Lib.Runs

/-! ## What a handler can do -/

/-- What any handler may leave behind, on a cache and for the id of the message. -/
structure Outcome.Sound (cache : Mem) (messageId : UInt32) (out : Outcome) : Prop where
  once : out.replies.length ≤ 1
  id : ∀ r ∈ out.replies, r.messageId = messageId
  put : out.stored = none ∧ out.cache = cache ∨
    ∃ key data, out.stored = some (put (.start cache) key (some data)).1 ∧
      out.cache = (put (.start cache) key (some data)).2.mem

section Sound

variable {junk cache m : Mem} {messageId : UInt32} {out : Outcome}

theorem Outcome.Sound.quiet : (Outcome.quiet cache).Sound cache messageId :=
  ⟨Nat.zero_le _, fun _ hr => absurd hr List.not_mem_nil, .inl ⟨rfl, rfl⟩⟩

/-- One answer and no `Put`. -/
theorem Outcome.Sound.reply (response : List UInt8) :
    (⟨cache, [⟨messageId, response⟩], none⟩ : Outcome).Sound cache messageId :=
  ⟨le_rfl, fun _ hr => by rw [List.mem_singleton.mp hr], .inl ⟨rfl, rfl⟩⟩

theorem Kind.storeOutcome_sound (kind : Kind) (request : StoreRequest) :
    (kind.storeOutcome junk cache m messageId request).Sound cache messageId := by
  cases request with
  | short => exact .quiet
  | mismatch =>
    cases kind with
    | irGraph => exact .quiet
    | bytecode => exact .reply _
  | valid hash a length =>
    cases kind with
    | irGraph =>
      exact ⟨Nat.zero_le _, fun _ hr => absurd hr List.not_mem_nil, .inr ⟨_, _, rfl, rfl⟩⟩
    | bytecode =>
      exact ⟨le_rfl, fun _ hr => by rw [List.mem_singleton.mp hr], .inr ⟨_, _, rfl, rfl⟩⟩

theorem Route.handle_sound {route : Route} {data size : Nat}
    (h : route.handle junk cache m messageId data size = some out) : out.Sound cache messageId := by
  rcases route.groups with hu | ⟨q, rfl⟩ | ⟨kind, rfl⟩
  · rw [hu.handle_eq h]
    exact .quiet
  · rw [q.handle_eq] at h
    split at h
    · obtain ⟨hash, -, rfl⟩ := Option.map_eq_some_iff.mp h
      exact .reply _
    · cases h
      exact .quiet
  · rw [kind.store_eq] at h
    obtain ⟨request, -, rfl⟩ := Option.map_eq_some_iff.mp h
    exact kind.storeOutcome_sound request

/-- **What one dispatch can do.** -/
theorem dispatchMessage_sound {env : Env} {d : SharedData}
    (h : dispatchMessage env cache d = some out) : out.Sound cache d.currentMessageId := by
  unfold dispatchMessage at h
  obtain ⟨hash, -, h⟩ := Option.bind_eq_some_iff.mp h
  cases hroute : findRoute hash with
  | none =>
    rw [hroute] at h
    cases h
    exact .quiet
  | some route =>
    rw [hroute] at h
    exact Route.handle_sound h

end Sound

/-! ## What the server's runs keep -/

/-- A message whose route cannot be read leaves the cache as it is and gets no answer. -/
theorem serverHandle_eq (env : Env) (cache : Mem) (d : SharedData) :
    serverHandle env cache d = (dispatchMessage env cache d).elim (cache, none) fun out =>
      (out.cache, out.replies.head?.map Reply.response) := by
  unfold serverHandle
  generalize dispatchMessage env cache d = answer
  cases answer with
  | none => rfl
  | some out => rfl

/-- The mailbox's handler sees every call of `send_response`. -/
theorem serverHandle_of_dispatch {env : Env} {cache : Mem} {d : SharedData} {out : Outcome}
    (h : dispatchMessage env cache d = some out) :
    (serverHandle env cache d).1 = out.cache ∧
      (serverHandle env cache d).2.toList = out.replies.map Reply.response := by
  have honce := (dispatchMessage_sound h).once
  rw [serverHandle_eq, h, Option.elim_some]
  refine ⟨rfl, ?_⟩
  match out.replies, honce with
  | [], _ => rfl
  | [r], _ => rfl

/-- A dispatch is one operation on the cache, or none. -/
theorem serverHandle_reachable {env : Env} {cache : Mem} (d : SharedData)
    (h : Cache.Reachable cache) : Cache.Reachable (serverHandle env cache d).1 := by
  rcases Option.eq_none_or_eq_some (dispatchMessage env cache d) with hd | ⟨out, hd⟩
  · rw [serverHandle_eq, hd, Option.elim_none]
    exact h
  · rw [(serverHandle_of_dispatch hd).1]
    rcases (dispatchMessage_sound hd).put with ⟨-, hsame⟩ | ⟨key, data, -, hput⟩
    · rw [hsame]
      exact h
    · obtain ⟨file, ops, haccepted, hrun⟩ := h
      rw [hput]
      have hop : Cache.Step cache (.put key (some data)) (put (.start cache) key (some data)).2.mem :=
        rfl
      exact ⟨file, ops ++ [.put key (some data)], haccepted, hrun.snoc hop⟩

section Runs

variable {ι σ : Type} [DecidableEq ι]

/-- Only a dispatch touches the cache, and it does what the handler does. -/
theorem step_cache {handle : σ → SharedData → σ × Option (List UInt8)} {s t : State ι σ}
    {a : Action ι} (h : Step handle s a t) :
    t.server.cache = s.server.cache ∨ t.server.cache = (handle s.server.cache s.shared).1 := by
  cases a with
  | send c r =>
    rcases (step_send h).2 with rfl | rfl <;> exact .inl rfl
  | wait c e =>
    rw [(step_wait h).2]
    exact .inl rfl
  | client c => exact .inl (congrArg Server.cache (clientStep_moves h).1)
  | server =>
    simp only [Step, step, serverStep] at h
    split at h
    all_goals try split at h
    all_goals cases h
    all_goals first | exact .inl rfl | exact .inr rfl

/-- **The server's cache stays a cache.** Whatever any number of clients send in whatever order, the
file of a running server is a state that the operations of the cache reach. -/
theorem server_cache_reachable {env : Env} {s₀ s : State ι Mem} {as : List (Action ι)}
    (h₀ : Cache.Reachable s₀.server.cache) (hrun : Run (Step (serverHandle env)) s₀ as s) :
    Cache.Reachable s.server.cache := by
  refine hrun.invariant (I := fun s => Cache.Reachable s.server.cache) (fun s a t hs hst => ?_) h₀
  rcases step_cache hst with hsame | hhandled
  · rw [hsame]
    exact hs
  · rw [hhandled]
    exact serverHandle_reachable _ hs

end Runs

/-! ## A message in the slot -/

/-- What `send_message` puts in the field of the route hash is read back up to the cut. -/
theorem image_readString_field {pad : Mem} {d : SharedData} {routeHash : List UInt8}
    (h : d.message.routeHash = strncpy 255 routeHash ++ [0]) :
    readString (image pad d) (messageAddr + 4) = some (trunc 255 routeHash) := by
  have hread : read (image pad d) (messageAddr + 4) 256 = d.message.routeHash :=
    image_read_routeHash pad d (by rw [h]; simp)
  have hnul : 0 ∈ read (image pad d) (messageAddr + 4) 256 := by
    rw [hread, h]
    exact List.mem_append_right _ (List.mem_singleton.mpr rfl)
  rw [readString_of_mem hnul (by decide), hread, h, cstr_strncpy_zero]

/-- The hash string of a path is read back whole. -/
theorem image_readString_routeHash {pad : Mem} {d : SharedData} {path : List UInt8}
    (h : d.message.routeHash = strncpy 255 (hashRoute path) ++ [0]) :
    readString (image pad d) (messageAddr + 4) = some (hashRoute path) := by
  rw [image_readString_field h, trunc_hashRoute]

/-- The slot holds a message that `send_message` took for `route`: the header and the payload are as
the call stores them, whatever stands behind the payload. -/
structure Delivered (d : SharedData) (route : Route) (payload : List UInt8) : Prop where
  fits : (⟨hashRoute route.path, payload⟩ : Request).Fits
  handed : ∃ id, d.message.handed = (⟨hashRoute route.path, payload⟩ : Request).message id

section Delivered

variable {pad : Mem} {d : SharedData} {route : Route} {payload : List UInt8}

theorem Delivered.payload_le (h : Delivered d route payload) : payload.length ≤ maxPayload := h.fits

theorem Delivered.payloadSize_eq (h : Delivered d route payload) :
    d.message.payloadSize = payload.length := by
  obtain ⟨id, hm⟩ := h.handed
  exact congrArg IPCMessage.payloadSize hm

/-- The handlers read the payload that was sent. -/
theorem Delivered.read_payload (h : Delivered d route payload) {off n : Nat}
    (hn : off + n ≤ payload.length) :
    read (image pad d) (payloadAddr + off) n = (payload.drop off).take n := by
  have hmax := h.payload_le
  obtain ⟨id, hm⟩ := h.handed
  have htake : d.message.payload.take d.message.payloadSize = payload :=
    congrArg IPCMessage.payload hm
  rw [h.payloadSize_eq] at htake
  rw [image_read_payload pad d (hn.trans hmax), ← range_map_content_drop payload hn]
  refine List.map_congr_left fun i hi => ?_
  have hi' : off + i < payload.length := by
    have := List.mem_range.mp hi
    omega
  rw [content, content, ← htake, List.getD_eq_getElem?_getD, List.getD_eq_getElem?_getD,
    List.getElem?_take_of_lt hi']

theorem Delivered.read_whole (h : Delivered d route payload) :
    read (image pad d) payloadAddr payload.length = payload := by
  have hread : read (image pad d) (payloadAddr + 0) payload.length = _ :=
    h.read_payload (Nat.zero_add payload.length).le
  rwa [List.drop_zero, List.take_length] at hread

/-- **The route is found.** The dispatch hands the payload to the handler of the route. -/
theorem Delivered.dispatch (h : Delivered d route payload) (env : Env) (cache : Mem) :
    dispatchMessage env cache d =
      route.handle env.junk cache (image env.pad d) d.currentMessageId payloadAddr payload.length := by
  obtain ⟨id, hm⟩ := h.handed
  have hhash : readString (image env.pad d) (messageAddr + 4) = some (hashRoute route.path) :=
    image_readString_routeHash (congrArg IPCMessage.routeHash hm)
  have hsize : payloadSize (image env.pad d) = payload.length := by
    rw [image_payloadSize, h.payloadSize_eq]
    exact Nat.mod_eq_of_lt (h.payload_le.trans_lt (by decide))
  rw [dispatchMessage]
  simp only [hhash, hsize, Option.bind_eq_bind, Option.bind_some, findRoute_hashRoute]

end Delivered

/-- The segment after all stores of a `send_message` call that drew `id`. -/
def sendMessage (d : SharedData) (r : Request) (id : UInt32) : SharedData :=
  { d with
    message := ⟨id, r.routeField, r.data.length, memcpy d.message.payload r.data⟩,
    messageSize := sizeofIPCMessage + r.data.length, hasMessage := true, currentMessageId := id }

theorem sendMessage_handed (d : SharedData) (r : Request) (id : UInt32) :
    (sendMessage d r id).message.handed = r.message id := by
  simp [sendMessage, IPCMessage.handed, Request.message]

theorem sendMessage_delivered (d : SharedData) (route : Route) {payload : List UInt8} (id : UInt32)
    (h : payload.length ≤ maxPayload) :
    Delivered (sendMessage d ⟨hashRoute route.path, payload⟩ id) route payload :=
  ⟨h, id, sendMessage_handed _ _ _⟩

end CCache.Server
