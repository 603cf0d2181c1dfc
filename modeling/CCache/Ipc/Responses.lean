/-
# CCache.Ipc.Responses — which runs bring every response to its requester.

The response channel is one buffer, one anonymous token and an id.  It serves one response at a time:
in a run without contention in which `send_response` begins to store only when no other response is
out and nobody waits for another, and in which only the client that a response is for enters
`wait_for_response` while it is out, the buffer and the token belong to one call from the first store
of `send_response` until its client has copied the response.  Meanwhile the other clients may send, and
the server may dispatch what they sent.
-/
import CCache.Ipc.Tokens

namespace CCache.Ipc

open CCache.Lib.Runs

variable {ι σ : Type}

/-! ## Places in the exchange -/

/-- In `wait_for_response`, past the semaphore. -/
def ClientPc.receiving : ClientPc → Bool
  | .checkId | .readResponseSize | .copyResponse | .clearHasResponse | .clearResponseSize => true
  | _ => false

/-- In `wait_for_response`. -/
def ClientPc.awaiting : ClientPc → Bool
  | .waitResponse => true
  | pc => pc.receiving

/-- The handler has a response that is not posted yet. -/
def ServerPc.answering : ServerPc → Bool
  | .readCurrentId | .storeResponse | .storeResponseSize | .storeResponseId | .storeHasResponse
  | .postResponseReady => true
  | _ => false

/-- `send_response` has taken the response and not posted it. -/
def ServerPc.storing : ServerPc → Bool
  | .storeResponse | .storeResponseSize | .storeResponseId | .storeHasResponse | .postResponseReady =>
    true
  | _ => false

/-- The next statement stores a part of the response. -/
def ServerPc.overwrites : ServerPc → Bool
  | .storeResponse | .storeResponseSize | .storeResponseId => true
  | _ => false

/-! ## Responses reach their requesters -/

/-- The wait of client `c` is for call `k`, and the response in the buffer is tagged with its id. -/
def Takes (s : State ι σ) (c : ι) (k : Nat) : Prop :=
  ∃ m, s.history.calls[k]? = some (c, m) ∧ (s.client c).expected = m.messageId ∧
    s.shared.responseMessageId = m.messageId

/-- The step loses the response to call `k`: a wait that will not return it takes the token, or the
server stores over the buffer. -/
def Loses (s : State ι σ) (k : Nat) : Action ι → Prop
  | .client c => (s.client c).pc = .waitResponse ∧ ¬ Takes s c k
  | .server => s.server.pc.overwrites = true
  | _ => False

/-- `bytes` is the response the server computed for a call of client `c` with the id `e`. -/
def History.Answered (h : History ι) (c : ι) (e : UInt32) (bytes : List UInt8) : Prop :=
  ∃ k m d, h.calls[k]? = some (c, m) ∧ m.messageId = e ∧ d ∈ h.dispatched ∧ d.Hands h k ∧
    d.response = some bytes

/-- What a `wait_for_response` that returned true has copied is the response computed for a call of
that client with that id; and no step loses a response that is posted and not received. -/
structure ResponsesReach (handle : σ → SharedData → σ × Option (List UInt8)) [DecidableEq ι]
    (s : State ι σ) : Prop where
  received : ∀ c e bytes, (c, e, bytes) ∈ s.history.received → s.history.Answered c e bytes
  kept : ∀ k ∈ s.history.unreceived, ∀ a t, Step handle s a t → ¬ Loses s k a

/-- A client waits with the id of one of its own requests. -/
def OwnId (s : State ι σ) : Action ι → Prop
  | .wait c e => (c, e) ∈ s.history.calls.map fun call => (call.1, call.2.messageId)
  | _ => True

/-- Call `k` is one of client `c`, with the id `e`. -/
def History.CallOf (h : History ι) (k : Nat) (c : ι) (e : UInt32) : Prop :=
  (h.calls[k]?).map (fun call => (call.1, call.2.messageId)) = some (c, e)

/-- The call whose response is being stored, or those whose responses are posted and not received. -/
def State.outstanding (s : State ι σ) : List Nat :=
  if s.server.pc.storing then s.history.serving else s.history.unreceived

/-- One response at a time: without contention, `send_response` begins to store when no other response
is posted or being copied and whoever waits does so for this one; and while a response is out only
the client it is for, with the id of its request, enters `wait_for_response`. -/
def OneAtATime (s : State ι σ) (a : Action ι) : Prop :=
  Uncontended s a ∧ match a with
    | .server => s.server.pc = .readCurrentId → s.server.response.length ≤ maxMessageSize →
        s.shared.responseReady = 0 ∧ ∀ d, (s.client d).pc.receiving = false ∧
          ((s.client d).pc = .waitResponse →
            ∀ k ∈ s.history.serving, s.history.CallOf k d (s.client d).expected)
    | .wait c e => ∀ k ∈ s.outstanding, s.history.CallOf k c e
    | _ => True

/-! ## The response channel -/

/-- The server has computed the response `r` for the call that published last. -/
structure Answer (s : State ι σ) (k : Nat) (c : ι) (m : IPCMessage) (r : List UInt8) : Prop where
  last : LastCall s k c m
  answered : ∃ d, s.history.dispatched.getLast? = some d ∧ d.Hands s.history k ∧ d.response = some r

/-- The response `r` is one to call `k`, and only the client that made the call waits. -/
structure Reply (s : State ι σ) (k : Nat) (c : ι) (m : IPCMessage) (r : List UInt8) : Prop where
  call : s.history.calls[k]? = some (c, m)
  answered : ∃ d ∈ s.history.dispatched, d.Hands s.history k ∧ d.response = some r
  waits : ∀ d, (s.client d).pc.awaiting = true → d = c ∧ (s.client d).expected = m.messageId

/-- The response buffer holds the response `r` to the message `m`. -/
structure Holds (d : SharedData) (m : IPCMessage) (r : List UInt8) : Prop where
  bytes : d.response.take r.length = r
  size : d.responseSize = r.length
  id : d.responseMessageId = m.messageId

theorem Holds.congr {d d' : SharedData} {m : IPCMessage} {r : List UInt8}
    (hresponse : d'.response = d.response) (hsize : d'.responseSize = d.responseSize)
    (hid : d'.responseMessageId = d.responseMessageId) (h : Holds d m r) : Holds d' m r :=
  ⟨by rw [hresponse]; exact h.bytes, by rw [hsize]; exact h.size, by rw [hid]; exact h.id⟩

/-- What `send_response` has stored of the response `r` to the message `m`. -/
def Prepared (d : SharedData) (id : UInt32) (m : IPCMessage) (r : List UInt8) : ServerPc → Prop
  | .storeResponse => id = m.messageId
  | .storeResponseSize => id = m.messageId ∧ d.response.take r.length = r
  | .storeResponseId => id = m.messageId ∧ d.response.take r.length = r ∧ d.responseSize = r.length
  | .storeHasResponse | .postResponseReady => Holds d m r
  | _ => True

/-- What `wait_for_response` has copied of the response `r`. -/
def Copied (x : Client) (r : List UInt8) : Prop :=
  (x.pc = .copyResponse → x.responseSize = r.length) ∧
    (x.pc = .clearHasResponse ∨ x.pc = .clearResponseSize → x.responseBuffer = r)

/-- Nothing is copied yet. -/
theorem Copied.before {x : Client} {r : List UInt8} (h : x.pc = .checkId ∨ x.pc = .readResponseSize) :
    Copied x r := by
  refine ⟨fun hpc => ?_, fun hpc => ?_⟩
  · rw [hpc] at h
    simp at h
  · rcases hpc with hpc | hpc <;> rw [hpc] at h <;> simp at h

/-- The size is copied. -/
theorem Copied.ofSize {x : Client} {r : List UInt8} (h : x.pc = .copyResponse)
    (hsize : x.responseSize = r.length) : Copied x r := by
  refine ⟨fun _ => hsize, fun hpc => ?_⟩
  rw [h] at hpc
  simp at hpc

/-- The bytes are copied. -/
theorem Copied.ofBuffer {x : Client} {r : List UInt8}
    (h : x.pc = .clearHasResponse ∨ x.pc = .clearResponseSize) (hbuffer : x.responseBuffer = r) :
    Copied x r := by
  refine ⟨fun hpc => ?_, fun _ => hbuffer⟩
  rw [hpc] at h
  simp at h

/-- The invariant of the response channel: where a response is out, it is being stored, or posted, or
being copied. -/
structure Channel (s : State ι σ) : Prop where
  computed : s.server.pc = .readCurrentId → ∃ k c m, Answer s k c m s.server.response
  storing : s.server.pc.storing = true →
    (s.shared.responseReady = 0 ∧ ∀ d, (s.client d).pc.receiving = false) ∧
      ∃ k c m, s.history.serving = [k] ∧ Reply s k c m s.server.response ∧
        Prepared s.shared s.server.messageId m s.server.response s.server.pc
  posted : 0 < s.shared.responseReady →
    (s.shared.responseReady = 1 ∧ ∀ d, (s.client d).pc.receiving = false) ∧
      ∃ k c m r, s.history.unreceived = [k] ∧ Reply s k c m r ∧ Holds s.shared m r
  receives : ∀ d, (s.client d).pc.receiving = true → s.shared.responseReady = 0 ∧
    ∃ k c m r, s.history.unreceived = [k] ∧ Reply s k c m r ∧ Holds s.shared m r ∧
      Copied (s.client d) r
  unreceived : s.history.unreceived ≠ [] →
    0 < s.shared.responseReady ∨ ∃ d, (s.client d).pc.receiving = true
  received : ∀ c e bytes, (c, e, bytes) ∈ s.history.received → s.history.Answered c e bytes

theorem Initial.channel {s : State ι σ} (h : Initial s) : Channel s := by
  constructor
  case computed =>
    rw [h.server]
    rintro ⟨⟩
  case storing =>
    rw [h.server]
    rintro ⟨⟩
  case posted =>
    rw [h.responseReady]
    rintro ⟨⟩
  case receives =>
    intro d hd
    rw [(h.client d).1] at hd
    cases hd
  case unreceived =>
    rw [h.history]
    exact fun hne => absurd rfl hne
  case received =>
    rw [h.history]
    exact fun _ _ _ hb => absurd hb List.not_mem_nil

theorem ClientPc.awaiting_of_receiving {pc : ClientPc} (h : pc.receiving = true) :
    pc.awaiting = true := by
  revert h
  cases pc <;> simp [ClientPc.awaiting, ClientPc.receiving]

theorem ClientPc.not_receiving {pc : ClientPc} (h : pc.awaiting = false) : pc.receiving = false := by
  by_contra hne
  rw [ClientPc.awaiting_of_receiving (by simpa using hne)] at h
  cases h

/-- A client in `wait_for_response` is at its semaphore or past it. -/
theorem ClientPc.awaiting_cases {pc : ClientPc} (h : pc.awaiting = true) :
    pc = .waitResponse ∨ pc.receiving = true := by
  revert h
  cases pc <;> simp [ClientPc.awaiting, ClientPc.receiving]

theorem ServerPc.handling_of_readCurrentId {pc : ServerPc} (h : pc = .readCurrentId) :
    pc.handling = true := by
  rw [h]
  rfl

/-- What the server is serving is read off the last dispatch. -/
theorem Answer.serving {s : State ι σ} {k : Nat} {c : ι} {m : IPCMessage} {r : List UInt8}
    (h : Answer s k c m r) : s.history.serving = [k] := by
  obtain ⟨d, hlast, ⟨horigin, -⟩, -⟩ := h.answered
  obtain ⟨message, origin, response⟩ := d
  cases horigin
  simp [History.serving, hlast]

theorem History.serving_congr {h h' : History ι} (hd : h'.dispatched = h.dispatched) :
    h'.serving = h.serving := by
  rw [History.serving, History.serving, hd]

/-- The clients that receive are one: they wait for the same call. -/
theorem Channel.receiving_unique {s : State ι σ} (hs : Channel s) {c d : ι}
    (hc : (s.client c).pc.receiving = true) (hd : (s.client d).pc.receiving = true) : c = d := by
  obtain ⟨-, k, x, m, r, hk, hreply, -⟩ := hs.receives c hc
  exact (hreply.waits c (ClientPc.awaiting_of_receiving hc)).1.trans
    (hreply.waits d (ClientPc.awaiting_of_receiving hd)).1.symm

/-- While a client receives, no token is there and no response is being stored. -/
theorem Channel.quiet_of_receiving {s : State ι σ} (hs : Channel s) {c : ι}
    (hc : (s.client c).pc.receiving = true) :
    s.shared.responseReady = 0 ∧ ¬ s.server.pc.storing = true := by
  refine ⟨(hs.receives c hc).1, fun hstoring => ?_⟩
  rw [(hs.storing hstoring).1.2 c] at hc
  cases hc

/-- With no token there and nobody receiving, every response that was posted is received. -/
theorem Channel.unreceived_nil {s : State ι σ} (hs : Channel s) (hzero : s.shared.responseReady = 0)
    (hnone : ∀ c, (s.client c).pc.receiving = false) : s.history.unreceived = [] := by
  by_contra hne
  rcases hs.unreceived hne with hpos | ⟨c, hc⟩
  · omega
  · rw [hnone c] at hc
    cases hc

/-- What was received stays the response to a call of its client. -/
theorem History.Answered.grows {h h' : History ι} {c : ι} {e : UInt32} {bytes : List UInt8}
    (hcalls : ∀ (k : Nat) x, h.calls[k]? = some x → h'.calls[k]? = some x)
    (hdispatched : ∀ d ∈ h.dispatched, d ∈ h'.dispatched) (hr : h.Answered c e bytes) :
    h'.Answered c e bytes := by
  obtain ⟨k, m, d, hk, hm, hd, ⟨horigin, x, hx⟩, hresp⟩ := hr
  exact ⟨k, m, d, hcalls _ _ hk, hm, hdispatched d hd, ⟨horigin, x, hcalls _ _ hx⟩, hresp⟩

theorem Answer.grows {s t : State ι σ} (hpublished : t.history.published = s.history.published)
    (hcalls : ∀ (k : Nat) x, s.history.calls[k]? = some x → t.history.calls[k]? = some x)
    (hdispatched : t.history.dispatched = s.history.dispatched) {k : Nat} {c : ι} {m : IPCMessage}
    {r : List UInt8} (h : Answer s k c m r) : Answer t k c m r := by
  obtain ⟨hl, d, hd, ⟨horigin, x, hx⟩, hr⟩ := h
  exact ⟨hl.grows hpublished hcalls, d, by rw [hdispatched]; exact hd, ⟨horigin, x, hcalls _ _ hx⟩, hr⟩

/-- A step that records nothing leaves the last call and its answer. -/
theorem Answer.unrecorded {s t : State ι σ} (hhistory : t.history = s.history) {k : Nat} {c : ι}
    {m : IPCMessage} {r : List UInt8} (h : Answer s k c m r) : Answer t k c m r :=
  h.grows (by rw [hhistory]) (fun _ _ hk => by rw [hhistory]; exact hk) (by rw [hhistory])

/-- A response that is out stays one to its call, and nobody else comes to wait. -/
theorem Reply.grows {s t : State ι σ}
    (hcalls : ∀ (k : Nat) x, s.history.calls[k]? = some x → t.history.calls[k]? = some x)
    (hdispatched : ∀ d ∈ s.history.dispatched, d ∈ t.history.dispatched)
    (hwaits : ∀ d, (t.client d).pc.awaiting = true →
      (s.client d).pc.awaiting = true ∧ (t.client d).expected = (s.client d).expected)
    {k : Nat} {c : ι} {m : IPCMessage} {r : List UInt8} (h : Reply s k c m r) : Reply t k c m r := by
  obtain ⟨hcall, ⟨d, hd, ⟨horigin, x, hx⟩, hr⟩, hw⟩ := h
  refine ⟨hcalls _ _ hcall, ⟨d, hdispatched d hd, ⟨horigin, x, hcalls _ _ hx⟩, hr⟩, fun y hy => ?_⟩
  obtain ⟨hwas, hexpected⟩ := hwaits y hy
  rw [hexpected]
  exact hw y hwas

/-! ## Steps outside the exchange -/

/-- The parts of a client that the response channel sees. -/
structure SameReceiver (x y : Client) : Prop where
  awaiting : x.pc.awaiting = y.pc.awaiting
  receiving : x.pc.receiving = y.pc.receiving
  same : y.pc.awaiting = true → x = y

theorem SameReceiver.refl (x : Client) : SameReceiver x x := ⟨rfl, rfl, fun _ => rfl⟩

theorem SameReceiver.of_not_awaiting {x y : Client} (hx : x.pc.awaiting = false)
    (hy : y.pc.awaiting = false) : SameReceiver x y := by
  refine ⟨by rw [hx, hy], ?_, fun h => ?_⟩
  · rw [ClientPc.not_receiving hx, ClientPc.not_receiving hy]
  · rw [hy] at h
    cases h

/-- A step that touches neither the response nor who waits for it. -/
theorem Channel.silent {s t : State ι σ} (hs : Channel s)
    (hready : t.shared.responseReady = s.shared.responseReady)
    (hresponse : t.shared.response = s.shared.response)
    (hsize : t.shared.responseSize = s.shared.responseSize)
    (hid : t.shared.responseMessageId = s.shared.responseMessageId)
    (hcomputed : t.server.pc = .readCurrentId → ∃ k c m, Answer t k c m t.server.response)
    (hstoring : t.server.pc.storing = true →
      t.server = s.server ∧ t.history.dispatched = s.history.dispatched)
    (hcalls : ∀ (k : Nat) x, s.history.calls[k]? = some x → t.history.calls[k]? = some x)
    (hdispatched : ∀ d ∈ s.history.dispatched, d ∈ t.history.dispatched)
    (hunreceived : t.history.unreceived = s.history.unreceived)
    (hreceived : t.history.received = s.history.received)
    (hclient : ∀ c, SameReceiver (t.client c) (s.client c)) : Channel t := by
  have hrec : ∀ c, (t.client c).pc.receiving = (s.client c).pc.receiving :=
    fun c => (hclient c).receiving
  have hholds : ∀ m r, Holds s.shared m r → Holds t.shared m r :=
    fun _ _ => Holds.congr hresponse hsize hid
  have hreply : ∀ {k c m r}, Reply s k c m r → Reply t k c m r :=
    Reply.grows hcalls hdispatched fun d hd => by
      rw [(hclient d).awaiting] at hd
      rw [(hclient d).same hd]
      exact ⟨hd, rfl⟩
  constructor
  case computed => exact hcomputed
  case storing =>
    intro hpc
    obtain ⟨hserver, hsame⟩ := hstoring hpc
    rw [hserver] at hpc ⊢
    obtain ⟨⟨hzero, hnone⟩, k, c, m, hserving, hr, hp⟩ := hs.storing hpc
    refine ⟨⟨hready.trans hzero, fun d => (hrec d).trans (hnone d)⟩, k, c, m, ?_, hreply hr, ?_⟩
    · rw [History.serving_congr hsame, hserving]
    · revert hp
      cases s.server.pc <;> simp only [Prepared, hresponse, hsize] <;>
        first | exact id | exact hholds _ _
  case posted =>
    intro hpos
    obtain ⟨⟨hone, hnone⟩, k, c, m, r, hk, hr, hh⟩ := hs.posted (hready ▸ hpos)
    exact ⟨⟨hready.trans hone, fun d => (hrec d).trans (hnone d)⟩, k, c, m, r, hunreceived.trans hk,
      hreply hr, hholds m r hh⟩
  case receives =>
    intro d hd
    rw [hrec] at hd
    rw [(hclient d).same (ClientPc.awaiting_of_receiving hd)]
    obtain ⟨hzero, k, c, m, r, hk, hr, hh, hcopy⟩ := hs.receives d hd
    exact ⟨hready.trans hzero, k, c, m, r, hunreceived.trans hk, hreply hr, hholds m r hh, hcopy⟩
  case unreceived =>
    intro hne
    rw [hunreceived] at hne
    rw [hready]
    exact (hs.unreceived hne).imp id fun ⟨d, hd⟩ => ⟨d, by rw [hrec]; exact hd⟩
  case received =>
    intro c e bytes hb
    rw [hreceived] at hb
    exact (hs.received c e bytes hb).grows hcalls hdispatched

variable [DecidableEq ι] {handle : σ → SharedData → σ × Option (List UInt8)}

theorem clientStep_outside {s t : State ι σ} {c : ι} (hw : (s.client c).pc.awaiting = false)
    (h : clientStep s c = some t) :
    (t.shared.responseReady = s.shared.responseReady ∧ t.shared.response = s.shared.response ∧
      t.shared.responseSize = s.shared.responseSize ∧
      t.shared.responseMessageId = s.shared.responseMessageId) ∧
    (t.history.unreceived = s.history.unreceived ∧ t.history.received = s.history.received) ∧
    t.history.dispatched = s.history.dispatched ∧ (t.client c).pc.awaiting = false := by
  cases hpc : (s.client c).pc
  all_goals simp only [clientStep, hpc] at h
  all_goals try split at h
  all_goals cases h
  all_goals simp_all [State.setClient, State.setShared, State.setHistory, ClientPc.awaiting,
    ClientPc.receiving]

/-- A client's steps in `send_message` are outside the exchange.  A publication is not one while the
server has just computed a response: the flag is still set then. -/
theorem Channel.sends {s t : State ι σ} {c : ι} (hs : Channel s) (hd : Delivery s)
    (hpub : (s.client c).pc = .storeHasMessage → s.shared.hasMessage = false)
    (hw : (s.client c).pc.awaiting = false) (h : clientStep s c = some t) : Channel t := by
  obtain ⟨⟨hready, hresponse, hsize, hid⟩, ⟨hunreceived, hreceived⟩, hdispatched, hw'⟩ :=
    clientStep_outside hw h
  have hserver := (clientStep_moves h).1
  refine hs.silent hready hresponse hsize hid ?_ (fun _ => ⟨hserver, hdispatched⟩)
    (fun _ _ => clientStep_calls h) (fun d hd' => by rw [hdispatched]; exact hd') hunreceived hreceived
    fun d => ?_
  · rw [hserver]
    intro hpc
    have hflag := hd.flag (.inr (ServerPc.handling_of_readCurrentId hpc))
    have hnot : (s.client c).pc ≠ .storeHasMessage := fun hpc' => by
      rw [hpub hpc'] at hflag
      cases hflag
    obtain ⟨k, d, m, ha⟩ := hs.computed hpc
    exact ⟨k, d, m, ha.grows (clientStep_published hnot h).1 (fun _ _ => clientStep_calls h) hdispatched⟩
  · by_cases hdc : d = c
    · subst hdc
      exact .of_not_awaiting hw' hw
    · rw [clientStep_other h hdc]
      exact .refl _

/-! ## Receiving -/

/-- The client that the response is for takes the token. -/
theorem Channel.takes {s t : State ι σ} {c : ι} (hs : Channel s)
    (hpc : (s.client c).pc = .waitResponse) (h : clientStep s c = some t) : Channel t := by
  have hserver := (clientStep_moves h).1
  have hother : ∀ d, d ≠ c → t.client d = s.client d := fun d hd => clientStep_other h hd
  simp only [clientStep, hpc] at h
  split at h
  · rename_i hpos
    obtain ⟨hready, hshared, hhistory, hx⟩ :
        t.shared.responseReady = s.shared.responseReady - 1 ∧
        (t.shared.response = s.shared.response ∧ t.shared.responseSize = s.shared.responseSize ∧
          t.shared.responseMessageId = s.shared.responseMessageId) ∧
        t.history = s.history ∧ t.client c = { s.client c with pc := .checkId } := by
      cases h
      simp [State.setClient, State.setShared]
    clear h
    obtain ⟨hresponse, hsize, hid⟩ := hshared
    obtain ⟨⟨hone, hnone⟩, k, x, m, r, hk, hreply, hh⟩ := hs.posted hpos
    have hzero : t.shared.responseReady = 0 := by omega
    have hreply' : Reply t k x m r := hreply.grows (fun _ _ hcall => by rw [hhistory]; exact hcall)
      (fun d hd => by rw [hhistory]; exact hd) fun d hd => by
        by_cases hdc : d = c
        · rw [hdc, hx]
          exact ⟨by rw [hpc]; rfl, rfl⟩
        · rw [hother d hdc] at hd ⊢
          exact ⟨hd, rfl⟩
    constructor
    case computed =>
      rw [hserver]
      intro hread
      obtain ⟨j, y, n, ha⟩ := hs.computed hread
      exact ⟨j, y, n, ha.unrecorded hhistory⟩
    case storing =>
      -- a token is there, so no response is being stored
      rw [hserver]
      intro hstoring
      have hno := (hs.storing hstoring).1.1
      omega
    case posted =>
      omega
    case receives =>
      intro d hd
      by_cases hdc : d = c
      · subst hdc
        exact ⟨hzero, k, x, m, r, by rw [hhistory]; exact hk, hreply',
          Holds.congr hresponse hsize hid hh, .before (.inl (by rw [hx]))⟩
      · rw [hother d hdc, hnone d] at hd
        cases hd
    case unreceived =>
      exact fun _ => .inr ⟨c, by rw [hx]; rfl⟩
    case received =>
      rw [hhistory]
      exact hs.received
  · cases h

/-- The client that receives goes on: it only reads the response. -/
theorem Channel.copies {s t : State ι σ} {c : ι} {x : Client} (hs : Channel s)
    (hc : (s.client c).pc.receiving = true) (hx : x.pc.receiving = true)
    (hexpected : x.expected = (s.client c).expected) (hclient : t.client = Function.update s.client c x)
    (hserver : t.server = s.server) (hhistory : t.history = s.history)
    (hready : t.shared.responseReady = s.shared.responseReady)
    (hresponse : t.shared.response = s.shared.response)
    (hsize : t.shared.responseSize = s.shared.responseSize)
    (hid : t.shared.responseMessageId = s.shared.responseMessageId)
    (hcopied : ∀ m r, Holds s.shared m r → Copied (s.client c) r → Copied x r) : Channel t := by
  have hself : t.client c = x := by rw [hclient, Function.update_self]
  have hother : ∀ d, d ≠ c → t.client d = s.client d := fun d hd => by
    rw [hclient, Function.update_of_ne hd]
  obtain ⟨hzero, hnot⟩ := hs.quiet_of_receiving hc
  constructor
  case computed =>
    rw [hserver]
    intro hread
    obtain ⟨j, y, n, ha⟩ := hs.computed hread
    exact ⟨j, y, n, ha.unrecorded hhistory⟩
  case storing =>
    rw [hserver]
    exact fun hstoring => absurd hstoring hnot
  case posted =>
    omega
  case receives =>
    intro d hd
    have hdc : d = c := by
      by_contra hdc
      rw [hother d hdc] at hd
      exact hdc (hs.receiving_unique hd hc)
    obtain ⟨-, k, y, m, r, hk, hreply, hh, hcopy⟩ := hs.receives c hc
    refine ⟨hready.trans hzero, k, y, m, r, by rw [hhistory]; exact hk, ?_,
      Holds.congr hresponse hsize hid hh, by rw [hdc, hself]; exact hcopied m r hh hcopy⟩
    refine hreply.grows (fun _ _ hcall => by rw [hhistory]; exact hcall)
      (fun d hd => by rw [hhistory]; exact hd) fun e he => ?_
    by_cases hec : e = c
    · rw [hec, hself]
      exact ⟨ClientPc.awaiting_of_receiving hc, hexpected⟩
    · rw [hother e hec] at he ⊢
      exact ⟨he, rfl⟩
  case unreceived =>
    exact fun _ => .inr ⟨c, by rw [hself]; exact hx⟩
  case received =>
    rw [hhistory]
    exact hs.received

/-- The return of `wait_for_response`: the bytes are the response to the client's call, and nothing is
out any more. -/
theorem Channel.finishes {s t : State ι σ} {c : ι} (hs : Channel s)
    (hpc : (s.client c).pc = .clearResponseSize) (h : clientStep s c = some t) : Channel t := by
  have hserver := (clientStep_moves h).1
  have hother : ∀ d, d ≠ c → t.client d = s.client d := fun d hd => clientStep_other h hd
  simp only [clientStep, hpc, Option.some.injEq] at h
  obtain ⟨hready, hx⟩ : t.shared.responseReady = s.shared.responseReady ∧
      t.client c = { s.client c with pc := .idle, awaits := false } := by
    subst h
    simp [State.setClient, State.setShared, State.setHistory]
  obtain ⟨hpublished, hcalls, hdispatched, hunreceived, hreceived⟩ :
      t.history.published = s.history.published ∧ t.history.calls = s.history.calls ∧
      t.history.dispatched = s.history.dispatched ∧
      t.history.unreceived = stillUnreceived s.history c (s.client c).expected ∧
      t.history.received = s.history.received ++
        [(c, (s.client c).expected, (s.client c).responseBuffer)] := by
    subst h
    exact ⟨rfl, rfl, rfl, rfl, rfl⟩
  clear h
  have hc : (s.client c).pc.receiving = true := by rw [hpc]; rfl
  obtain ⟨hzero, hnot⟩ := hs.quiet_of_receiving hc
  obtain ⟨-, k, x, m, r, hk, hreply, hh, hcopy⟩ := hs.receives c hc
  obtain ⟨rfl, hexpected⟩ := hreply.waits c (ClientPc.awaiting_of_receiving hc)
  have hbuffer : (s.client c).responseBuffer = r := hcopy.2 (.inr hpc)
  have hcalls' : ∀ (j : Nat) y, s.history.calls[j]? = some y → t.history.calls[j]? = some y :=
    fun _ _ hcall => by rw [hcalls]; exact hcall
  constructor
  case computed =>
    rw [hserver]
    intro hread
    obtain ⟨j, y, n, ha⟩ := hs.computed hread
    exact ⟨j, y, n, ha.grows hpublished hcalls' hdispatched⟩
  case storing =>
    rw [hserver]
    exact fun hstoring => absurd hstoring hnot
  case posted =>
    omega
  case receives =>
    intro d hd
    by_cases hdc : d = c
    · rw [hdc, hx] at hd
      cases hd
    · rw [hother d hdc] at hd
      exact absurd (hs.receiving_unique hd hc) hdc
  case unreceived =>
    -- the one response that was not received is the one that this wait answers
    intro hne
    refine absurd ?_ hne
    rw [hunreceived, stillUnreceived, hk]
    simp [hreply.call, hexpected]
  case received =>
    intro d e bytes hb
    rw [hreceived, List.mem_append, List.mem_singleton] at hb
    refine History.Answered.grows (h := s.history) hcalls' (fun y hy => by rw [hdispatched]; exact hy) ?_
    rcases hb with hb | hb
    · exact hs.received d e bytes hb
    · obtain ⟨rfl, rfl, rfl⟩ := by simpa using hb
      obtain ⟨y, hy, hhands, hresp⟩ := hreply.answered
      exact ⟨k, m, y, hreply.call, hexpected.symm, hy, hhands, by rw [hresp, hbuffer]⟩

theorem Channel.client {s t : State ι σ} {c : ι} (hs : Channel s) (hd : Delivery s)
    (hone : OneAtATime s (.client c)) (h : clientStep s c = some t) : Channel t := by
  cases hpc : (s.client c).pc with
  | waitResponse => exact hs.takes hpc h
  | clearResponseSize => exact hs.finishes hpc h
  | checkId =>
    -- the ids agree, since the response is that of the call the client waits for
    have hc : (s.client c).pc.receiving = true := by rw [hpc]; rfl
    obtain ⟨-, k, x, m, r, -, hreply, hh, -⟩ := hs.receives c hc
    obtain ⟨-, he⟩ := hreply.waits c (ClientPc.awaiting_of_receiving hc)
    simp only [clientStep, hpc] at h
    rw [if_neg (by rw [hh.id, he]; exact fun hne => hne rfl)] at h
    cases h
    exact hs.copies hc (x := { s.client c with pc := .readResponseSize }) rfl rfl rfl rfl rfl rfl
      rfl rfl rfl fun m r _ _ => .before (.inr rfl)
  | readResponseSize =>
    simp only [clientStep, hpc, Option.some.injEq] at h
    subst h
    exact hs.copies (by rw [hpc]; rfl)
      (x := { s.client c with pc := .copyResponse, responseSize := s.shared.responseSize })
      rfl rfl rfl rfl rfl rfl rfl rfl rfl fun m r hh _ => .ofSize rfl hh.size
  | copyResponse =>
    simp only [clientStep, hpc, Option.some.injEq] at h
    subst h
    refine hs.copies (by rw [hpc]; rfl)
      (x := { s.client c with
        pc := .clearHasResponse
        responseBuffer := s.shared.response.take (s.client c).responseSize })
      rfl rfl rfl rfl rfl rfl rfl rfl rfl fun m r hh hcopy => .ofBuffer (.inl rfl) ?_
    show s.shared.response.take (s.client c).responseSize = r
    rw [hcopy.1 hpc, hh.bytes]
  | clearHasResponse =>
    simp only [clientStep, hpc, Option.some.injEq] at h
    subst h
    exact hs.copies (by rw [hpc]; rfl) (x := { s.client c with pc := .clearResponseSize })
      rfl rfl rfl rfl rfl rfl rfl rfl rfl fun m r _ hcopy => .ofBuffer (.inr rfl) (hcopy.2 (.inl hpc))
  | _ => exact hs.sends hd (fun hpub => hone.1.2 hpub) (by rw [hpc]; rfl) h

/-! ## Answering -/

omit [DecidableEq ι] in
theorem serverStep_outside {s t : State ι σ} (hd : s.server.pc ≠ .readCurrentId)
    (hw : s.server.pc.storing = false) (h : serverStep handle s = some t) :
    (t.shared.responseReady = s.shared.responseReady ∧ t.shared.response = s.shared.response ∧
      t.shared.responseSize = s.shared.responseSize ∧
      t.shared.responseMessageId = s.shared.responseMessageId) ∧
    (t.history.unreceived = s.history.unreceived ∧ t.history.received = s.history.received) ∧
    t.server.pc.storing = false ∧ (t.server.pc = .readCurrentId → s.server.pc = .dispatch ∧
      (handle s.server.cache s.shared).2 = some t.server.response) := by
  cases hpc : s.server.pc
  all_goals simp only [serverStep, hpc] at h
  case dispatch =>
    cases h
    cases (handle s.server.cache s.shared).2 <;>
      simp [State.setServer, State.setHistory, ServerPc.storing]
  all_goals try split at h
  all_goals cases h
  all_goals simp_all [State.setServer, State.setShared, State.setHistory, ServerPc.storing]

omit [DecidableEq ι] in
/-- The server loop with the dispatch is outside the exchange: a response that the handler computes is
not stored yet. -/
theorem Channel.loops {s t : State ι σ} (hs : Channel s) (hd : Delivery s) (ht : Tokens s)
    (hpc : s.server.pc ≠ .readCurrentId) (hw : s.server.pc.storing = false)
    (h : serverStep handle s = some t) : Channel t := by
  obtain ⟨⟨hready, hresponse, hsize, hid⟩, ⟨hunreceived, hreceived⟩, hw', hread⟩ :=
    serverStep_outside hpc hw h
  have hcalls : ∀ (k : Nat) x, s.history.calls[k]? = some x → t.history.calls[k]? = some x :=
    fun _ _ hk => by rw [(serverStep_calls h).1]; exact hk
  refine hs.silent hready hresponse hsize hid ?_ ?_ hcalls ?_ hunreceived hreceived fun c => ?_
  · intro hpc'
    obtain ⟨hdispatch, hresp⟩ := hread hpc'
    obtain ⟨⟨hund, -, -⟩, -, hdispatched⟩ := hd.dispatch_counts hdispatch h
    obtain ⟨k, c, hl, horigin⟩ := ht.slot hd hund
    refine ⟨k, c, s.shared.message.handed, hl.server h, ?_⟩
    rw [hdispatched, List.getLast?_concat]
    exact ⟨_, rfl, ⟨horigin, c, (hl.server h).call⟩, hresp⟩
  · rw [hw']
    rintro ⟨⟩
  · intro d hmem
    by_cases hdispatch : s.server.pc = .dispatch
    · rw [(hd.dispatch_counts hdispatch h).2.2]
      exact List.mem_append_left _ hmem
    · rw [(serverStep_silent hdispatch (fun hh => hd.flag (.inr hh)) h).2.2.2.1]
      exact hmem
  · rw [serverStep_moves h]
    exact .refl _

omit [DecidableEq ι] in
/-- `send_response` takes the response, when none is out and whoever waits does so for this one; or it
refuses it. -/
theorem Channel.begins {s t : State ι σ} (hs : Channel s) (ht : Tokens s) (hcur : Current s)
    (hpc : s.server.pc = .readCurrentId)
    (hfree : s.server.response.length ≤ maxMessageSize →
      s.shared.responseReady = 0 ∧ ∀ d, (s.client d).pc.receiving = false ∧
        ((s.client d).pc = .waitResponse →
          ∀ k ∈ s.history.serving, s.history.CallOf k d (s.client d).expected))
    (h : serverStep handle s = some t) : Channel t := by
  have hclient := serverStep_moves h
  simp only [serverStep, hpc, Option.some.injEq] at h
  obtain ⟨hshared, hhistory, hpc', hresponse, hid⟩ : t.shared = s.shared ∧ t.history = s.history ∧
      t.server.pc = (if s.server.response.length > maxMessageSize then .clearHasMessage
        else .storeResponse) ∧
      t.server.response = s.server.response ∧ t.server.messageId = s.shared.currentMessageId := by
    subst h
    exact ⟨rfl, rfl, rfl, rfl, rfl⟩
  clear h
  rcases Nat.lt_or_ge maxMessageSize s.server.response.length with hlarge | hfits
  · rw [if_pos hlarge] at hpc'
    refine hs.silent (by rw [hshared]) (by rw [hshared]) (by rw [hshared]) (by rw [hshared]) ?_ ?_
      (fun _ _ hk => by rw [hhistory]; exact hk) (fun d hd => by rw [hhistory]; exact hd)
      (by rw [hhistory]) (by rw [hhistory]) fun c => by rw [hclient]; exact .refl _
    · rw [hpc']
      rintro ⟨⟩
    · rw [hpc']
      rintro ⟨⟩
  · rw [if_neg (Nat.not_lt.mpr hfits)] at hpc'
    obtain ⟨hzero, hall⟩ := hfree hfits
    have hnone : ∀ d, (s.client d).pc.receiving = false := fun d => (hall d).1
    obtain ⟨k, c, m, ha⟩ := hs.computed hpc
    constructor
    case computed =>
      rw [hpc']
      rintro ⟨⟩
    case storing =>
      intro _
      rw [hshared, hclient, hresponse, hhistory, hpc']
      refine ⟨⟨hzero, hnone⟩, k, c, m, ha.serving, ⟨?_, ?_, fun d hd => ?_⟩, ?_⟩
      · rw [hhistory]
        exact ha.last.call
      · obtain ⟨d, hd, hhands, hresp⟩ := ha.answered
        rw [hhistory]
        exact ⟨d, List.mem_of_getLast? hd, hhands, hresp⟩
      · rw [hclient] at hd ⊢
        rcases ClientPc.awaiting_cases hd with hwait | hreceiving
        · have hcall := (hall d).2 hwait k (by rw [ha.serving]; exact List.mem_singleton_self k)
          rw [History.CallOf, ha.last.call, Option.map_some, Option.some.injEq, Prod.mk.injEq] at hcall
          exact ⟨hcall.1.symm, hcall.2.symm⟩
        · rw [hnone d] at hreceiving
          cases hreceiving
      · exact hid.trans (hcur.handling ht ha.last (ServerPc.handling_of_readCurrentId hpc))
    case posted =>
      rw [hshared]
      omega
    case receives =>
      intro d hd
      rw [hclient, hnone d] at hd
      cases hd
    case unreceived =>
      rw [hhistory, hs.unreceived_nil hzero hnone]
      exact fun hne => absurd rfl hne
    case received =>
      rw [hhistory]
      exact hs.received

omit [DecidableEq ι] in
/-- A statement of `send_response` before its post: the response goes into the buffer. -/
theorem Channel.prepares {s t : State ι σ} (hs : Channel s) (hw : s.server.pc.storing = true)
    (hclient : t.client = s.client)
    (hready : t.shared.responseReady = s.shared.responseReady)
    (hhistory : t.history = s.history) (hpc : t.server.pc ≠ .readCurrentId)
    (hresponse : t.server.response = s.server.response)
    (hprepared : ∀ m, Prepared s.shared s.server.messageId m s.server.response s.server.pc →
      Prepared t.shared t.server.messageId m s.server.response t.server.pc) : Channel t := by
  obtain ⟨⟨hzero, hnone⟩, k, c, m, hserving, hreply, hp⟩ := hs.storing hw
  constructor
  case computed => exact fun hread => absurd hread hpc
  case storing =>
    intro _
    rw [hready, hclient, hresponse]
    refine ⟨⟨hzero, hnone⟩, k, c, m, by rw [hhistory]; exact hserving, ?_, hprepared m hp⟩
    refine hreply.grows (fun _ _ hk => by rw [hhistory]; exact hk)
      (fun d hd => by rw [hhistory]; exact hd) fun d hd => ?_
    rw [hclient] at hd ⊢
    exact ⟨hd, rfl⟩
  case posted =>
    omega
  case receives =>
    intro d hd
    rw [hclient, hnone d] at hd
    cases hd
  case unreceived =>
    rw [hhistory, hs.unreceived_nil hzero hnone]
    exact fun hne => absurd rfl hne
  case received =>
    rw [hhistory]
    exact hs.received

omit [DecidableEq ι] in
/-- The post: the response is there for the client that made the call. -/
theorem Channel.posts {s t : State ι σ} (hs : Channel s)
    (hpc : s.server.pc = .postResponseReady) (h : serverStep handle s = some t) : Channel t := by
  have hclient := serverStep_moves h
  obtain ⟨⟨hzero, hnone⟩, k, c, m, hserving, hreply, hholds⟩ := hs.storing (by rw [hpc]; rfl)
  rw [hpc] at hholds
  simp only [serverStep, hpc, Option.some.injEq] at h
  obtain ⟨hready, hresponse, hsize, hid⟩ : t.shared.responseReady = s.shared.responseReady + 1 ∧
      t.shared.response = s.shared.response ∧ t.shared.responseSize = s.shared.responseSize ∧
      t.shared.responseMessageId = s.shared.responseMessageId := by
    subst h
    exact ⟨rfl, rfl, rfl, rfl⟩
  obtain ⟨hserver, hcalls, hdispatched, hunreceived, hreceived⟩ :
      t.server.pc = .clearHasMessage ∧ t.history.calls = s.history.calls ∧
      t.history.dispatched = s.history.dispatched ∧
      t.history.unreceived = s.history.unreceived ++ s.history.serving ∧
      t.history.received = s.history.received := by
    subst h
    exact ⟨rfl, rfl, rfl, rfl, rfl⟩
  clear h
  have hcalls' : ∀ (k : Nat) x, s.history.calls[k]? = some x → t.history.calls[k]? = some x :=
    fun _ _ hk => by rw [hcalls]; exact hk
  have hdispatched' : ∀ d ∈ s.history.dispatched, d ∈ t.history.dispatched :=
    fun d hd => by rw [hdispatched]; exact hd
  constructor
  case computed =>
    rw [hserver]
    rintro ⟨⟩
  case storing =>
    rw [hserver]
    rintro ⟨⟩
  case posted =>
    intro _
    refine ⟨⟨by omega, fun d => by rw [hclient]; exact hnone d⟩, k, c, m, _, ?_,
      hreply.grows hcalls' hdispatched' fun d hd => ?_, Holds.congr hresponse hsize hid hholds⟩
    · rw [hunreceived, hserving, hs.unreceived_nil hzero hnone, List.nil_append]
    · rw [hclient] at hd ⊢
      exact ⟨hd, rfl⟩
  case receives =>
    intro d hd
    rw [hclient, hnone d] at hd
    cases hd
  case unreceived =>
    exact fun _ => .inl (by omega)
  case received =>
    intro d e bytes hb
    rw [hreceived] at hb
    exact (hs.received d e bytes hb).grows hcalls' hdispatched'

omit [DecidableEq ι] in
theorem Channel.server {s t : State ι σ} (hs : Channel s) (hd : Delivery s) (ht : Tokens s)
    (hcur : Current s) (hone : OneAtATime s .server) (h : serverStep handle s = some t) :
    Channel t := by
  cases hpc : s.server.pc with
  | postResponseReady => exact hs.posts hpc h
  | readCurrentId => exact hs.begins ht hcur hpc (hone.2 hpc) h
  | storeResponse | storeResponseSize | storeResponseId | storeHasResponse =>
    simp only [serverStep, hpc, Option.some.injEq] at h
    subst h
    refine hs.prepares (by rw [hpc]; rfl) rfl rfl rfl (by simp [State.setServer]) rfl fun m hp => ?_
    rw [hpc] at hp
    first
      | exact ⟨hp, take_memcpy _ _⟩
      | exact ⟨hp.1, hp.2, rfl⟩
      | exact ⟨hp.2.1, hp.2.2, hp.1⟩
      | exact ⟨hp.bytes, hp.size, hp.id⟩
  | _ => exact hs.loops hd ht (by rw [hpc]; simp) (by rw [hpc]; rfl) h

/-! ## Runs with one response at a time -/

/-- Entering `send_message`, or `wait_for_response` for the response that is out, if one is. -/
theorem Channel.enter {s : State ι σ} {c : ι} {x : Client} (hs : Channel s)
    (hidle : (s.client c).pc = .idle) (hx : x.pc.receiving = false)
    (hwait : x.pc.awaiting = true → ∀ k ∈ s.outstanding, s.history.CallOf k c x.expected) :
    Channel (s.setClient c x) := by
  have hrec : ∀ d, ((s.setClient c x).client d).pc.receiving = (s.client d).pc.receiving := by
    intro d
    by_cases hdc : d = c
    · rw [hdc, s.setClient_self, hx, hidle]
      rfl
    · rw [s.setClient_of_ne x hdc]
  -- whoever comes to wait does so for the call that is outstanding
  have hreply : ∀ {k y m r}, s.outstanding = [k] → Reply s k y m r →
      Reply (s.setClient c x) k y m r := by
    intro k y m r hout hr
    refine ⟨hr.call, hr.answered, fun d hd => ?_⟩
    by_cases hdc : d = c
    · subst hdc
      rw [s.setClient_self] at hd ⊢
      have hcall := hwait hd k (by rw [hout]; exact List.mem_singleton_self k)
      rw [History.CallOf, hr.call, Option.map_some, Option.some.injEq, Prod.mk.injEq] at hcall
      exact ⟨hcall.1.symm, hcall.2.symm⟩
    · rw [s.setClient_of_ne x hdc] at hd ⊢
      exact hr.waits d hd
  have hidleServer : 0 < s.shared.responseReady ∨ (∃ d, (s.client d).pc.receiving = true) →
      s.outstanding = s.history.unreceived := by
    intro hout
    have hnot : ¬ s.server.pc.storing = true := by
      intro hstoring
      obtain ⟨⟨hzero, hnone⟩, -⟩ := hs.storing hstoring
      rcases hout with hpos | ⟨d, hd⟩
      · omega
      · rw [hnone d] at hd
        cases hd
    rw [State.outstanding, if_neg hnot]
  constructor
  case computed =>
    intro hread
    obtain ⟨k, y, m, ha⟩ := hs.computed hread
    exact ⟨k, y, m, ⟨ha.last.last, ha.last.call⟩, ha.answered⟩
  case storing =>
    intro hstoring
    obtain ⟨⟨hzero, hnone⟩, k, y, m, hserving, hr, hp⟩ := hs.storing hstoring
    refine ⟨⟨hzero, fun d => (hrec d).trans (hnone d)⟩, k, y, m, hserving, hreply ?_ hr, hp⟩
    have hstoring' : s.server.pc.storing = true := hstoring
    rw [State.outstanding, if_pos hstoring', hserving]
  case posted =>
    intro hpos
    obtain ⟨⟨hone, hnone⟩, k, y, m, r, hk, hr, hh⟩ := hs.posted hpos
    exact ⟨⟨hone, fun d => (hrec d).trans (hnone d)⟩, k, y, m, r, hk,
      hreply ((hidleServer (.inl hpos)).trans hk) hr, hh⟩
  case receives =>
    intro d hd
    rw [hrec] at hd
    have hdc : d ≠ c := fun hdc => by
      rw [hdc, hidle] at hd
      cases hd
    rw [s.setClient_of_ne x hdc]
    obtain ⟨hzero, k, y, m, r, hk, hr, hh, hcopy⟩ := hs.receives d hd
    exact ⟨hzero, k, y, m, r, hk, hreply ((hidleServer (.inr ⟨d, hd⟩)).trans hk) hr, hh, hcopy⟩
  case unreceived =>
    exact fun hne => (hs.unreceived hne).imp id fun ⟨d, hd⟩ => ⟨d, by rw [hrec]; exact hd⟩
  case received => exact hs.received

theorem Channel.step {s t : State ι σ} {a : Action ι} (hs : Channel s) (hd : Delivery s)
    (ht : Tokens s) (hcur : Current s) (hone : OneAtATime s a) (h : Step handle s a t) :
    Channel t := by
  cases a with
  | send c r =>
    obtain ⟨hidle, rfl | rfl⟩ := step_send h
    · exact hs
    · exact hs.enter hidle rfl nofun
  | wait c e =>
    obtain ⟨hidle, rfl⟩ := step_wait h
    exact hs.enter hidle rfl fun _ => hone.2
  | client c => exact hs.client hd hone h
  | server => exact hs.server hd ht hcur hone h

/-- The channel holds what the claim of delivery says: the only client that can take a token is the
one the response is for, and the server does not store while a response is out. -/
theorem Channel.reach {s : State ι σ} (hs : Channel s) : ResponsesReach handle s := by
  refine ⟨hs.received, fun k hk a t hstep hloses => ?_⟩
  cases a with
  | client c =>
    obtain ⟨hpc, hnot⟩ := hloses
    have hpos : 0 < s.shared.responseReady := by
      by_contra hno
      have hmove : clientStep s c = some t := hstep
      simp only [clientStep, hpc] at hmove
      rw [if_neg hno] at hmove
      cases hmove
    obtain ⟨-, l, d, m, r, hl, hreply, hh⟩ := hs.posted hpos
    obtain ⟨rfl, he⟩ := hreply.waits c (by rw [hpc]; rfl)
    rw [hl, List.mem_singleton] at hk
    exact hnot ⟨m, by rw [hk]; exact hreply.call, he, hh.id⟩
  | server =>
    have hstoring : s.server.pc.storing = true := by
      have hover : s.server.pc.overwrites = true := hloses
      revert hover
      cases s.server.pc <;> simp [ServerPc.overwrites, ServerPc.storing]
    obtain ⟨hzero, hnone⟩ := (hs.storing hstoring).1
    rw [hs.unreceived_nil hzero hnone] at hk
    cases hk
  | send c r => exact hloses
  | wait c e => exact hloses

/-- **Responses reach their requesters, one response at a time.** -/
theorem responses_reach {s₀ s : State ι σ} {as : List (Action ι)} (h₀ : Initial s₀)
    (h : Run (Guarded OneAtATime (Step handle)) s₀ as s) : ResponsesReach handle s := by
  have hall : Channel s ∧ Delivery s ∧ Tokens s ∧ Current s :=
    Run.invariant (I := fun s => Channel s ∧ Delivery s ∧ Tokens s ∧ Current s)
      (fun _ _ _ hs hst => ⟨hs.1.step hs.2.1 hs.2.2.1 hs.2.2.2 hst.1 hst.2,
        hs.2.1.step hst.1.1 hst.2, hs.2.2.1.step hs.2.1 hst.1.1 hst.2,
        hs.2.2.2.step hs.2.1 hs.2.2.1 hst.2⟩)
      ⟨h₀.channel, h₀.delivery, h₀.tokens, h₀.current⟩ h
  exact hall.1.reach

instance (h : History ι) (k : Nat) (c : ι) (e : UInt32) : Decidable (h.CallOf k c e) :=
  inferInstanceAs (Decidable (_ = _))

instance [Fintype ι] (s : State ι σ) : (a : Action ι) → Decidable (OneAtATime s a)
  | .server => inferInstanceAs (Decidable (_ ∧ (_ → _ → _ ∧ ∀ _, _ ∧ (_ → ∀ _ ∈ s.history.serving, _))))
  | .wait .. => inferInstanceAs (Decidable (_ ∧ ∀ _ ∈ s.outstanding, _))
  | .send .. | .client _ => inferInstanceAs (Decidable (_ ∧ True))

instance (s : State ι σ) : (a : Action ι) → Decidable (OwnId s a)
  | .wait .. => inferInstanceAs (Decidable (_ ∈ _))
  | .send .. | .client _ | .server => inferInstanceAs (Decidable True)

/-- A handler that answers with the payload. -/
def echo : Unit → SharedData → Unit × Option (List UInt8) :=
  fun _ d => ((), some d.message.handed.payload)

/-- Client 1 sends, and the server computes its response, while the one to client 0 is out. -/
theorem responses_reach_received :
    ∃ s : State (Fin 2) Unit, s.history.received = [(0, 1, [7]), (1, 1, [8])] ∧
      ResponsesReach echo s := by
  obtain ⟨s, hs⟩ : ∃ s, exec (guarded OneAtATime (step echo)) (.fresh () : State (Fin 2) Unit)
      (sends 0 ⟨[], [7]⟩ ++ List.replicate 11 .server ++ sends 1 ⟨[], [8]⟩ ++
        List.replicate 3 .server ++ .wait 0 1 :: List.replicate 6 (.client 0) ++
        List.replicate 8 .server ++ .wait 1 1 :: List.replicate 6 (.client 1)) = some s := ⟨_, rfl⟩
  refine ⟨s, ?_, responses_reach (fresh_initial ()) (run_of_exec_guarded hs)⟩
  cases hs
  rfl

/-- Both clients draw the id 1.  The response to client 0 is posted, client 1 sends its own request
and waits for it first: it takes the token, the ids agree, and it returns the bytes of client 0. -/
theorem response_misdelivered :
    ¬ ∀ (s₀ s : State (Fin 2) Unit) (as : List (Action (Fin 2))), Initial s₀ →
      Run (Guarded OwnId (Step echo)) s₀ as s → ResponsesReach echo s := by
  intro h
  obtain ⟨s, hs⟩ : ∃ s, exec (guarded OwnId (step echo)) (.fresh () : State (Fin 2) Unit)
      (sends 0 ⟨[], [7]⟩ ++ List.replicate 11 .server ++ sends 1 ⟨[], [8]⟩ ++
        .wait 1 1 :: List.replicate 6 (.client 1)) = some s := ⟨_, rfl⟩
  have hreach := h _ s _ (fresh_initial ()) (run_of_exec_guarded hs)
  have hreceived : (1, 1, [7]) ∈ s.history.received := by
    cases hs
    decide
  -- the only dispatch so far is that of call 0, which is client 0's
  have hdispatched : ∀ d ∈ s.history.dispatched, d.origin = Origin.whole 0 := by
    cases hs
    decide
  have hcall : (s.history.calls[0]?).map Prod.fst = some 0 := by
    cases hs
    rfl
  obtain ⟨k, m, d, hk, -, hd, ⟨horigin, -⟩, -⟩ := hreach.received 1 1 [7] hreceived
  rw [hdispatched d hd] at horigin
  cases horigin
  rw [hk] at hcall
  cases hcall

end CCache.Ipc
