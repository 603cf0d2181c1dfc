/-
# CCache.Ipc.Mailbox — the shared segment, its clients and the server loop as a step relation.

One server process runs `IPCServer::run`, and any number of client processes call `send_message` and
`wait_for_response` on the same `SharedData`.  A step is one semaphore operation or one statement that
stores to the segment, so that every interleaving of these is a run; a `sem_wait` at 0 has no step.  What
a handler computes from the segment is a parameter: the dispatch is one step, the stores of
`send_response` that follow it are steps of their own.  `Bytes` takes the copies of `send_message` and
the dispatch apart into their single loads and stores.

`History` is bookkeeping that no step reads back: which calls were made, which call's store each
field of the slot comes from, what was handed to a handler, what was answered and received.
-/
import CCache.Lib.CString
import CCache.Lib.Runs
import Mathlib.Logic.Function.Basic

namespace CCache.Ipc

open CCache.Lib.CString
open CCache.Lib.Runs

/-! ## The shared segment -/

/-- `MAX_MESSAGE_SIZE`. -/
def maxMessageSize : Nat := 4096 * 5

/-- `sizeof(IPCMessage)`: an id, 256 bytes of route hash, a size. -/
def sizeofIPCMessage : Nat := 264

/-- `memcpy` to the start of a buffer. -/
def memcpy (dst src : List UInt8) : List UInt8 := src ++ dst.drop src.length

@[simp] theorem take_memcpy (dst src : List UInt8) : (memcpy dst src).take src.length = src := by
  simp [memcpy]

theorem getElem?_memcpy (dst src : List UInt8) (i : Nat) :
    (memcpy dst src)[i]? = if i < src.length then src[i]? else dst[i]? := by
  rw [memcpy]
  split
  · exact List.getElem?_append_left ‹_›
  · rw [List.getElem?_append_right (Nat.le_of_not_lt ‹_›), List.getElem?_drop,
      Nat.add_sub_cancel' (Nat.le_of_not_lt ‹_›)]

/-- `struct IPCMessage`.  In the segment `payload` is the rest of the message buffer. -/
structure IPCMessage where
  messageId : UInt32
  routeHash : List UInt8
  payloadSize : Nat
  payload : List UInt8
deriving DecidableEq, Repr

/-- What a reader that goes by `payload_size` sees of the slot. -/
def IPCMessage.handed (m : IPCMessage) : IPCMessage :=
  { m with payload := m.payload.take m.payloadSize }

/-- `struct SharedData`. -/
structure SharedData where
  mutex : Nat
  dataReady : Nat
  responseReady : Nat
  message : IPCMessage
  hasMessage : Bool
  messageSize : Nat
  response : List UInt8
  responseSize : Nat
  hasResponse : Bool
  currentMessageId : UInt32
  responseMessageId : UInt32
deriving DecidableEq, Repr

/-- The arguments of a `send_message` call: the route hash and the `message_size` bytes. -/
structure Request where
  routeHash : List UInt8
  data : List UInt8
deriving DecidableEq, Repr

/-- `send_message` takes the message (`message_size <= MAX_MESSAGE_SIZE - sizeof(IPCMessage)`). -/
def Request.Fits (r : Request) : Prop := r.data.length ≤ maxMessageSize - sizeofIPCMessage

instance (r : Request) : Decidable r.Fits := inferInstanceAs (Decidable (_ ≤ _))

/-- The 256 bytes `strncpy(route_hash, ..., 255)` and the closing NUL store. -/
def Request.routeField (r : Request) : List UInt8 := strncpy 255 r.routeHash ++ [0]

theorem Request.routeField_length (r : Request) : r.routeField.length = 256 := by
  simp [routeField]

/-- The header and payload that a call with this request and id writes. -/
def Request.message (r : Request) (id : UInt32) : IPCMessage :=
  ⟨id, r.routeField, r.data.length, r.data⟩

@[simp] theorem Request.handed_message (r : Request) (id : UInt32) :
    (r.message id).handed = r.message id := by
  simp [Request.message, IPCMessage.handed]

/-! ## The parties -/

/-- Where a client is: the next statement of `send_message` or `wait_for_response`. -/
inductive ClientPc where
  | idle
  | waitMutex
  | storeId
  | storeRouteHash
  | storePayloadSize
  | storePayload
  | storeMessageSize
  | storeHasMessage
  | storeCurrentId
  | postDataReady
  | postMutex
  | waitResponse
  | checkId
  | readResponseSize
  | copyResponse
  | clearHasResponse
  | clearResponseSize
deriving DecidableEq, Repr

/-- A client process.  `counter` is the `static` of its `generate_message_id`; `call` is the number
of the `send_message` call it is in, or was in last, and `awaits` tells that the last of its calls to
return is a `send_message` that returned true. -/
structure Client where
  pc : ClientPc
  counter : UInt32
  request : Request
  expected : UInt32
  responseSize : Nat
  responseBuffer : List UInt8
  call : Nat
  awaits : Bool
deriving DecidableEq, Repr

/-- Where the server is: the next statement of `run`, or of `send_response` inside the dispatch. -/
inductive ServerPc where
  | waitDataReady
  | testHasMessage
  | dispatch
  | readCurrentId
  | storeResponse
  | storeResponseSize
  | storeResponseId
  | storeHasResponse
  | postResponseReady
  | clearHasMessage
  | postMutex
deriving DecidableEq, Repr

/-- The server process: its cache, and the handler's response and message id. -/
structure Server (σ : Type) where
  pc : ServerPc
  cache : σ
  response : List UInt8
  messageId : UInt32
deriving DecidableEq, Repr

/-! ## History -/

/-- For each field of the slot, the call whose store it holds. -/
structure Origin where
  messageId : Option Nat
  routeHash : Option Nat
  payloadSize : Option Nat
  payload : Option Nat
deriving DecidableEq, Repr

/-- Every field comes from call `k`. -/
def Origin.whole (k : Nat) : Origin := ⟨some k, some k, some k, some k⟩

/-- One `dispatch_message`: what the handler was handed, where it came from, and the response the
handler computed (`none` for a handler that does not call `send_response`). -/
structure Dispatch where
  message : IPCMessage
  origin : Origin
  response : Option (List UInt8)
deriving DecidableEq, Repr

/-- What has happened so far.  Calls are numbered in the order in which they drew their ids; the
message of call `k` is in `calls`, with the client that made it. -/
structure History (ι : Type) where
  calls : List (ι × IPCMessage) := []
  origin : Origin := ⟨none, none, none, none⟩
  published : List Nat := []
  returned : List Nat := []
  dispatched : List Dispatch := []
  unreceived : List Nat := []
  received : List (ι × UInt32 × List UInt8) := []
  iterations : Nat := 0
deriving DecidableEq, Repr

structure State (ι σ : Type) where
  shared : SharedData
  client : ι → Client
  server : Server σ
  history : History ι

variable {ι σ : Type}

/-- `create_shared_memory` has set the semaphores and flags and `run` enters its loop; no client is
in a call.  The buffers and ids hold whatever the segment held. -/
structure Initial (s : State ι σ) : Prop where
  mutex : s.shared.mutex = 1
  dataReady : s.shared.dataReady = 0
  responseReady : s.shared.responseReady = 0
  hasMessage : s.shared.hasMessage = false
  client : ∀ c, (s.client c).pc = .idle ∧ (s.client c).awaits = false
  server : s.server.pc = .waitDataReady
  history : s.history = {}

/-- A client process that has made no call. -/
def Client.new : Client :=
  { pc := .idle, counter := 0, request := ⟨[], []⟩, expected := 0, responseSize := 0,
    responseBuffer := [], call := 0, awaits := false }

/-- A segment of zero bytes after `create_shared_memory`. -/
def SharedData.created : SharedData :=
  { mutex := 1, dataReady := 0, responseReady := 0, message := ⟨0, [], 0, []⟩, hasMessage := false,
    messageSize := 0, response := [], responseSize := 0, hasResponse := false, currentMessageId := 0,
    responseMessageId := 0 }

/-- The server has started on a zero segment, and every client is new. -/
def State.fresh (cache : σ) : State ι σ :=
  { shared := .created, client := fun _ => .new,
    server := { pc := .waitDataReady, cache := cache, response := [], messageId := 0 }, history := {} }

theorem fresh_initial (cache : σ) : Initial (State.fresh cache : State ι σ) :=
  ⟨rfl, rfl, rfl, rfl, fun _ => ⟨rfl, rfl⟩, rfl, rfl⟩

/-! ## Steps -/

variable [DecidableEq ι]

namespace State

/-- Client `c` becomes `x`. -/
def setClient (s : State ι σ) (c : ι) (x : Client) : State ι σ :=
  { s with client := Function.update s.client c x }

def setShared (s : State ι σ) (d : SharedData) : State ι σ := { s with shared := d }

def setServer (s : State ι σ) (x : Server σ) : State ι σ := { s with server := x }

def setHistory (s : State ι σ) (h : History ι) : State ι σ := { s with history := h }

theorem setClient_self (s : State ι σ) (c : ι) (x : Client) : (s.setClient c x).client c = x := by
  simp [setClient]

theorem setClient_of_ne (s : State ι σ) {c d : ι} (x : Client) (h : d ≠ c) :
    (s.setClient c x).client d = s.client d := by
  simp [setClient, h]

end State

/-- The calls in `ks` that `wait_for_response(e)`, returning true to `c`, does not answer. -/
def stillUnreceived (h : History ι) (c : ι) (e : UInt32) : List Nat :=
  h.unreceived.filter fun k =>
    match h.calls[k]? with
    | some (d, m) => ¬ (d = c ∧ m.messageId = e)
    | none => true

/-- The next statement of client `c` inside `send_message` or `wait_for_response`. -/
def clientStep (s : State ι σ) (c : ι) : Option (State ι σ) :=
  let x := s.client c
  let d := s.shared
  let h := s.history
  match x.pc with
  | .idle => none
  -- send_message
  | .waitMutex =>
    if 0 < d.mutex then
      some ((s.setShared { d with mutex := d.mutex - 1 }).setClient c { x with pc := .storeId })
    else none
  | .storeId =>
    let id := x.counter + 1
    some (((s.setShared { d with message := { d.message with messageId := id } }).setClient c
      { x with pc := .storeRouteHash, counter := id, call := h.calls.length }).setHistory
      { h with calls := h.calls ++ [(c, x.request.message id)],
               origin := { h.origin with messageId := some h.calls.length } })
  | .storeRouteHash =>
    some (((s.setShared { d with message := { d.message with routeHash := x.request.routeField } }
      ).setClient c { x with pc := .storePayloadSize }).setHistory
      { h with origin := { h.origin with routeHash := some x.call } })
  | .storePayloadSize =>
    some (((s.setShared { d with message := { d.message with payloadSize := x.request.data.length } }
      ).setClient c { x with pc := .storePayload }).setHistory
      { h with origin := { h.origin with payloadSize := some x.call } })
  | .storePayload =>
    some (((s.setShared
      { d with message := { d.message with payload := memcpy d.message.payload x.request.data } }
      ).setClient c { x with pc := .storeMessageSize }).setHistory
      { h with origin := { h.origin with payload := some x.call } })
  | .storeMessageSize =>
    some ((s.setShared { d with messageSize := sizeofIPCMessage + x.request.data.length }).setClient c
      { x with pc := .storeHasMessage })
  | .storeHasMessage =>
    some (((s.setShared { d with hasMessage := true }).setClient c
      { x with pc := .storeCurrentId }).setHistory { h with published := h.published ++ [x.call] })
  | .storeCurrentId =>
    -- the id is read back from the slot, not kept in a local
    some ((s.setShared { d with currentMessageId := d.message.messageId }).setClient c
      { x with pc := .postDataReady })
  | .postDataReady =>
    some ((s.setShared { d with dataReady := d.dataReady + 1 }).setClient c { x with pc := .postMutex })
  | .postMutex =>
    some (((s.setShared { d with mutex := d.mutex + 1 }).setClient c
      { x with pc := .idle, awaits := true }).setHistory { h with returned := h.returned ++ [x.call] })
  -- wait_for_response
  | .waitResponse =>
    if 0 < d.responseReady then
      some ((s.setShared { d with responseReady := d.responseReady - 1 }).setClient c
        { x with pc := .checkId })
    else none
  | .checkId =>
    if d.responseMessageId ≠ x.expected then some (s.setClient c { x with pc := .idle, awaits := false })
    else some (s.setClient c { x with pc := .readResponseSize })
  | .readResponseSize =>
    some (s.setClient c { x with pc := .copyResponse, responseSize := d.responseSize })
  | .copyResponse =>
    some (s.setClient c
      { x with pc := .clearHasResponse, responseBuffer := d.response.take x.responseSize })
  | .clearHasResponse =>
    some ((s.setShared { d with hasResponse := false }).setClient c { x with pc := .clearResponseSize })
  | .clearResponseSize =>
    some (((s.setShared { d with responseSize := 0 }).setClient c
      { x with pc := .idle, awaits := false }).setHistory
      { h with received := h.received ++ [(c, x.expected, x.responseBuffer)],
               unreceived := stillUnreceived h c x.expected })

/-- The call that the handler is serving, where the message it was handed is one call's. -/
def History.serving (h : History ι) : List Nat :=
  match h.dispatched.getLast? with
  | some ⟨_, ⟨some k, r, p, q⟩, _⟩ => if r = some k ∧ p = some k ∧ q = some k then [k] else []
  | _ => []

/-- The next statement of the server, with `handle` for what the handler of a route does with the
cache and the segment and which response it passes to `send_response`. -/
def serverStep (handle : σ → SharedData → σ × Option (List UInt8)) (s : State ι σ) :
    Option (State ι σ) :=
  let x := s.server
  let d := s.shared
  let h := s.history
  match x.pc with
  | .waitDataReady =>
    if 0 < d.dataReady then
      some ((s.setShared { d with dataReady := d.dataReady - 1 }).setServer
        { x with pc := .testHasMessage })
    else none
  | .testHasMessage =>
    if d.hasMessage then some (s.setServer { x with pc := .dispatch })
    else some (s.setServer { x with pc := .postMutex })
  | .dispatch =>
    let (cache, response) := handle x.cache d
    some ((s.setServer
      { x with pc := if response.isSome then .readCurrentId else .clearHasMessage,
               cache := cache, response := response.getD [] }).setHistory
      { h with dispatched := h.dispatched ++ [⟨d.message.handed, h.origin, response⟩] })
  | .readCurrentId =>
    -- send_response refuses a response that does not fit, and posts nothing
    some (s.setServer
      { x with pc := if x.response.length > maxMessageSize then .clearHasMessage else .storeResponse,
               messageId := d.currentMessageId })
  | .storeResponse =>
    some ((s.setShared { d with response := memcpy d.response x.response }).setServer
      { x with pc := .storeResponseSize })
  | .storeResponseSize =>
    some ((s.setShared { d with responseSize := x.response.length }).setServer
      { x with pc := .storeResponseId })
  | .storeResponseId =>
    some ((s.setShared { d with responseMessageId := x.messageId }).setServer
      { x with pc := .storeHasResponse })
  | .storeHasResponse =>
    some ((s.setShared { d with hasResponse := true }).setServer { x with pc := .postResponseReady })
  | .postResponseReady =>
    some (((s.setShared { d with responseReady := d.responseReady + 1 }).setServer
      { x with pc := .clearHasMessage }).setHistory
      { h with unreceived := h.unreceived ++ h.serving })
  | .clearHasMessage =>
    some ((s.setShared { d with hasMessage := false }).setServer { x with pc := .postMutex })
  | .postMutex =>
    some (((s.setShared { d with mutex := d.mutex + 1 }).setServer { x with pc := .waitDataReady }
      ).setHistory { h with iterations := h.iterations + 1 })

/-- Who moves: a client enters one of its two calls, a client inside a call or the server takes its
next step. -/
inductive Action (ι : Type) where
  | send (c : ι) (r : Request)
  | wait (c : ι) (expected : UInt32)
  | client (c : ι)
  | server
deriving DecidableEq, Repr

/-- One step of the system; `none` where the party cannot move.  A `send_message` that does not take
the message returns false at once. -/
def step (handle : σ → SharedData → σ × Option (List UInt8)) (s : State ι σ) :
    Action ι → Option (State ι σ)
  | .send c r =>
    if (s.client c).pc = .idle then
      if r.Fits then some (s.setClient c { s.client c with pc := .waitMutex, request := r })
      else some s
    else none
  | .wait c expected =>
    if (s.client c).pc = .idle then
      some (s.setClient c { s.client c with pc := .waitResponse, expected := expected })
    else none
  | .client c => clientStep s c
  | .server => serverStep handle s

/-- A step as a relation. -/
def Step (handle : σ → SharedData → σ × Option (List UInt8)) (s : State ι σ) (a : Action ι)
    (t : State ι σ) : Prop :=
  step handle s a = some t

/-- `s` is reached by some run from a start of the server. -/
def Reachable (handle : σ → SharedData → σ × Option (List UInt8)) (s : State ι σ) : Prop :=
  ∃ s₀ as, Initial s₀ ∧ Run (Step handle) s₀ as s

/-! ## What a step moves -/

variable {handle : σ → SharedData → σ × Option (List UInt8)}

/-- A client's step moves that client and nobody else. -/
theorem clientStep_moves {s t : State ι σ} {c : ι} (h : clientStep s c = some t) :
    t.server = s.server ∧ t.client = Function.update s.client c (t.client c) := by
  unfold clientStep at h
  dsimp only at h
  split at h
  all_goals try split at h
  all_goals cases h
  all_goals simp [State.setClient, State.setShared, State.setHistory]

theorem clientStep_other {s t : State ι σ} {c d : ι} (h : clientStep s c = some t) (hd : d ≠ c) :
    t.client d = s.client d := by
  rw [(clientStep_moves h).2, Function.update_of_ne hd]

omit [DecidableEq ι] in
/-- A server's step leaves every client where it is. -/
theorem serverStep_moves {s t : State ι σ} (h : serverStep handle s = some t) :
    t.client = s.client := by
  unfold serverStep at h
  dsimp only at h
  split at h
  all_goals try split at h
  all_goals cases h
  all_goals rfl

/-- A client's step records a call when it stores the id, and no other call. -/
theorem clientStep_calls_eq {s t : State ι σ} {c : ι} (h : clientStep s c = some t) :
    t.history.calls = s.history.calls ∨ (s.client c).pc = .storeId ∧
      t.history.calls = s.history.calls ++
        [(c, (s.client c).request.message ((s.client c).counter + 1))] := by
  cases hpc : (s.client c).pc
  all_goals simp only [clientStep, hpc] at h
  all_goals try split at h
  all_goals cases h
  all_goals simp [State.setClient, State.setShared, State.setHistory]

omit [DecidableEq ι] in
/-- A server's step records no call and publishes nothing. -/
theorem serverStep_calls {s t : State ι σ} (h : serverStep handle s = some t) :
    t.history.calls = s.history.calls ∧ t.history.published = s.history.published := by
  cases hpc : s.server.pc
  all_goals simp only [serverStep, hpc] at h
  all_goals try split at h
  all_goals cases h
  all_goals exact ⟨rfl, rfl⟩

/-- Entering `send_message` waits for the mutex, or does nothing when the message is refused. -/
theorem step_send {s t : State ι σ} {c : ι} {r : Request} (h : Step handle s (.send c r) t) :
    (s.client c).pc = .idle ∧
      (t = s ∨ t = s.setClient c { s.client c with pc := .waitMutex, request := r }) := by
  simp only [Step, step] at h
  split at h
  · rename_i hidle
    split at h <;> cases h
    · exact ⟨hidle, .inr rfl⟩
    · exact ⟨hidle, .inl rfl⟩
  · cases h

theorem step_wait {s t : State ι σ} {c : ι} {e : UInt32} (h : Step handle s (.wait c e) t) :
    (s.client c).pc = .idle ∧
      t = s.setClient c { s.client c with pc := .waitResponse, expected := e } := by
  simp only [Step, step] at h
  split at h
  · rename_i hidle
    cases h
    exact ⟨hidle, rfl⟩
  · cases h

end CCache.Ipc
