/-
# CCache.Ipc.Delivery — which runs of the mailbox deliver every message exactly once.

Calls are numbered in the order in which they draw their ids.  As long as a client begins to store
only when nobody else is storing and no published message waits for its dispatch, and publishes only
when `has_message` is false, call `k` is the `k`-th to be published and the `k`-th to be dispatched:
`Delivery` says where in this order the system is, and what the slot holds.
-/
import CCache.Ipc.Exclusion

namespace CCache.Ipc

open CCache.Lib.Runs

variable {ι σ : Type}

/-! ## Places in the order -/

/-- The id of the call is stored and the message not yet published. -/
def ClientPc.writing : ClientPc → Bool
  | .storeRouteHash | .storePayloadSize | .storePayload | .storeMessageSize | .storeHasMessage => true
  | _ => false

/-- The message is published and its `data_ready` token not yet posted. -/
def ClientPc.posting : ClientPc → Bool
  | .storeCurrentId | .postDataReady => true
  | _ => false

/-- The message is published and the call has not returned. -/
def ClientPc.published : ClientPc → Bool
  | .storeCurrentId | .postDataReady | .postMutex => true
  | _ => false

/-- In `send_message`, past its size check. -/
def ClientPc.sending (pc : ClientPc) : Bool := pc = .waitMutex || pc.inside

/-- The message in the slot is dispatched and its flag not yet cleared. -/
def ServerPc.handling : ServerPc → Bool
  | .readCurrentId | .storeResponse | .storeResponseSize | .storeResponseId | .storeHasResponse
  | .postResponseReady | .clearHasMessage => true
  | _ => false

/-- A published message that the server has not dispatched. -/
def State.undispatched (s : State ι σ) : Bool := s.shared.hasMessage && !s.server.pc.handling

theorem State.undispatched_congr {s t : State ι σ} (hflag : t.shared.hasMessage = s.shared.hasMessage)
    (hserver : t.server = s.server) : t.undispatched = s.undispatched := by
  rw [undispatched, undispatched, hflag, hserver]

/-- How many calls have published, when none was lost. -/
def State.publishedCount (s : State ι σ) : Nat :=
  s.history.dispatched.length + s.undispatched.toNat

theorem State.publishedCount_congr {s t : State ι σ} (hund : t.undispatched = s.undispatched)
    (hdispatched : t.history.dispatched = s.history.dispatched) :
    t.publishedCount = s.publishedCount := by
  rw [publishedCount, publishedCount, hund, hdispatched]

/-- The server waits for `data_ready` at 0 and no client is inside `send_message`. -/
structure Quiet (s : State ι σ) : Prop where
  server : s.server.pc = .waitDataReady
  dataReady : s.shared.dataReady = 0
  client : ∀ c, (s.client c).pc.sending = false

/-! ## Exactly-once delivery -/

/-- The handler was handed the header and payload of call `k`, and every field came from it. -/
def Dispatch.Hands (d : Dispatch) (h : History ι) (k : Nat) : Prop :=
  d.origin = Origin.whole k ∧ ∃ c, h.calls[k]? = some (c, d.message)

/-- Every dispatch hands the handler exactly one call's message, no call's message is dispatched
twice, and when the system is quiet the message of every call that returned true is dispatched. -/
structure ExactlyOnce (s : State ι σ) : Prop where
  one : ∀ d ∈ s.history.dispatched, ∃ k, d.Hands s.history k
  once : s.history.dispatched.Pairwise fun d e => ∀ k, d.Hands s.history k → ¬ e.Hands s.history k
  all : Quiet s → ∀ k ∈ s.history.returned, ∃ d ∈ s.history.dispatched, d.Hands s.history k

/-- The stores that make the delivery go wrong do not happen: a client begins to store only when no
other client is between its first store and its `has_message` store and no published message waits
for its dispatch, and stores `has_message = true` only when it is false. -/
def Uncontended (s : State ι σ) : Action ι → Prop
  | .client c =>
    ((s.client c).pc = .storeId → s.undispatched = false ∧ ∀ d, (s.client d).pc.writing = false) ∧
      ((s.client c).pc = .storeHasMessage → s.shared.hasMessage = false)
  | _ => True

/-! ## A published message has its token -/

/-- A message is published while the server is about to wait: its token is posted, or its client is
about to post it. -/
def TokenComes (s : State ι σ) : Prop :=
  s.shared.hasMessage = true → s.server.pc = .waitDataReady ∨ s.server.pc = .postMutex →
    0 < s.shared.dataReady ∨ ∃ c, (s.client c).pc.posting = true

variable [DecidableEq ι] {handle : σ → SharedData → σ × Option (List UInt8)}

omit [DecidableEq ι] in
theorem Initial.tokenComes {s : State ι σ} (h : Initial s) : TokenComes s := by
  intro hflag
  rw [h.hasMessage] at hflag
  cases hflag

/-- What a client posts keeps `posting` of the others, and its own until the token is there. -/
theorem TokenComes.client {s t : State ι σ} {c : ι} (hs : TokenComes s)
    (h : clientStep s c = some t) : TokenComes t := by
  have hmove := clientStep_moves h
  intro hflag hserver
  rw [hmove.1] at hserver
  by_cases hpost : (t.client c).pc.posting = true
  · exact .inr ⟨c, hpost⟩
  -- the client is not posting after the step: its token is posted, or it was not posting before
  have hkeep : 0 < t.shared.dataReady ∨ (t.shared.hasMessage = s.shared.hasMessage ∧
      t.shared.dataReady = s.shared.dataReady ∧ (s.client c).pc.posting = false) := by
    unfold clientStep at h
    dsimp only at h
    split at h
    all_goals try split at h
    all_goals cases h
    all_goals simp_all [State.setClient, State.setShared, State.setHistory, ClientPc.posting]
  rcases hkeep with hpos | ⟨hf, hd, hc⟩
  · exact .inl hpos
  · rcases hs (hf ▸ hflag) hserver with hpos | ⟨d, hd'⟩
    · exact .inl (hd ▸ hpos)
    · have hne : d ≠ c := fun hdc => by rw [hdc, hc] at hd'; cases hd'
      exact .inr ⟨d, by rw [hmove.2, Function.update_of_ne hne]; exact hd'⟩

omit [DecidableEq ι] in
theorem TokenComes.server {s t : State ι σ} (hs : TokenComes s) (h : serverStep handle s = some t) :
    TokenComes t := by
  intro hflag hserver
  have hback : s.shared.hasMessage = true ∧ s.shared.dataReady = t.shared.dataReady ∧
      s.server.pc = .postMutex := by
    unfold serverStep at h
    dsimp only at h
    split at h
    all_goals try split at h
    all_goals cases h
    all_goals simp_all [State.setServer, State.setShared, State.setHistory]
  rw [serverStep_moves h, ← hback.2.1]
  exact hs hback.1 (.inr hback.2.2)

theorem TokenComes.enter {s : State ι σ} {c : ι} {x : Client} (hs : TokenComes s)
    (hidle : (s.client c).pc = .idle) : TokenComes (s.setClient c x) := by
  intro hflag hserver
  rcases hs hflag hserver with hpos | ⟨d, hd⟩
  · exact .inl hpos
  · have hne : d ≠ c := fun hdc => by rw [hdc, hidle] at hd; cases hd
    exact .inr ⟨d, by rw [s.setClient_of_ne x hne]; exact hd⟩

theorem TokenComes.step {s t : State ι σ} {a : Action ι} (hs : TokenComes s)
    (h : Step handle s a t) : TokenComes t := by
  cases a with
  | send c r =>
    obtain ⟨hidle, rfl | rfl⟩ := step_send h
    · exact hs
    · exact hs.enter hidle
  | wait c e =>
    obtain ⟨hidle, rfl⟩ := step_wait h
    exact hs.enter hidle
  | client c => exact hs.client h
  | server => exact hs.server h

/-! ## The order of the calls -/

/-- What a client that is at `pc` has stored of its call `k`, message `m`. -/
def Filled (d : SharedData) (o : Origin) (k : Nat) (m : IPCMessage) : ClientPc → Prop
  | .storeRouteHash => d.message.messageId = m.messageId ∧ o.messageId = some k
  | .storePayloadSize =>
    (d.message.messageId = m.messageId ∧ o.messageId = some k) ∧
      d.message.routeHash = m.routeHash ∧ o.routeHash = some k
  | .storePayload =>
    (d.message.messageId = m.messageId ∧ o.messageId = some k) ∧
      (d.message.routeHash = m.routeHash ∧ o.routeHash = some k) ∧
        d.message.payloadSize = m.payloadSize ∧ o.payloadSize = some k
  | .storeMessageSize | .storeHasMessage => d.message.handed = m ∧ o = Origin.whole k
  | _ => True

/-- A client that is storing: nothing waits in the slot, its call is the last one and the next to be
published, and it has stored the fields before its next statement. -/
structure Writes (s : State ι σ) (c : ι) : Prop where
  free : s.undispatched = false
  last : s.history.calls.length = s.publishedCount + 1
  call : (s.client c).call = s.publishedCount
  filled : ∃ id, s.history.calls[(s.client c).call]? = some (c, (s.client c).request.message id) ∧
    Filled s.shared s.history.origin (s.client c).call ((s.client c).request.message id)
      (s.client c).pc

/-- The invariant of the runs without contention. -/
structure Delivery (s : State ι σ) : Prop where
  flag : s.server.pc = .dispatch ∨ s.server.pc.handling = true → s.shared.hasMessage = true
  solo : ∀ c d, (s.client c).pc.writing = true → (s.client d).pc.writing = true → c = d
  writes : ∀ c, (s.client c).pc.writing = true → Writes s c
  rest : (∀ c, (s.client c).pc.writing = false) → s.history.calls.length = s.publishedCount
  whole : s.undispatched = true → s.history.origin = Origin.whole s.history.dispatched.length ∧
    ∃ c, s.history.calls[s.history.dispatched.length]? = some (c, s.shared.message.handed)
  served : ∀ k (d : Dispatch), s.history.dispatched[k]? = some d → d.Hands s.history k
  own : ∀ c, (s.client c).pc.published = true → (s.client c).call < s.publishedCount
  returned : ∀ k ∈ s.history.returned, k < s.publishedCount

omit [DecidableEq ι] in
theorem Initial.delivery {s : State ι σ} (h : Initial s) : Delivery s := by
  have hidle : ∀ c, (s.client c).pc = .idle := fun c => (h.client c).1
  have hpub : s.publishedCount = 0 := by
    simp [State.publishedCount, State.undispatched, h.history, h.hasMessage]
  constructor
  case flag =>
    rw [h.server]
    rintro (hpc | hpc) <;> cases hpc
  case solo =>
    intro c d hc
    rw [hidle] at hc
    cases hc
  case writes =>
    intro c hc
    rw [hidle] at hc
    cases hc
  case rest =>
    rw [hpub, h.history]
    exact fun _ => rfl
  case whole =>
    rw [State.undispatched, h.hasMessage]
    rintro ⟨⟩
  case served =>
    rw [h.history]
    simp
  case own =>
    intro c hc
    rw [hidle] at hc
    cases hc
  case returned =>
    rw [h.history]
    simp

/-- The parts of a client that the order of the calls sees. -/
structure SameSender (x y : Client) : Prop where
  writing : x.pc.writing = y.pc.writing
  published : x.pc.published = true → y.pc.published = true
  pc : y.pc.writing = true → x.pc = y.pc
  request : y.pc.writing = true → x.request = y.request
  call : x.call = y.call

/-- A client that is not storing matters by its call alone. -/
theorem SameSender.of_not_writing {x y : Client} (hx : x.pc.writing = false)
    (hy : y.pc.writing = false) (hpub : x.pc.published = true → y.pc.published = true)
    (hcall : x.call = y.call) : SameSender x y :=
  have hnot : ¬ y.pc.writing = true := by simp [hy]
  ⟨by rw [hx, hy], hpub, fun h => absurd h hnot, fun h => absurd h hnot, hcall⟩

theorem SameSender.refl (x : Client) : SameSender x x := ⟨rfl, id, fun _ => rfl, fun _ => rfl, rfl⟩

omit [DecidableEq ι] in
/-- A step that touches neither the slot, nor what waits in it, nor who is sending. -/
theorem Delivery.silent {s t : State ι σ} (hs : Delivery s)
    (hmessage : t.shared.message = s.shared.message) (hund : t.undispatched = s.undispatched)
    (hflag : t.server.pc = .dispatch ∨ t.server.pc.handling = true → t.shared.hasMessage = true)
    (hcalls : t.history.calls = s.history.calls) (horigin : t.history.origin = s.history.origin)
    (hdispatched : t.history.dispatched = s.history.dispatched)
    (hreturned : ∀ k ∈ t.history.returned, k < s.publishedCount)
    (hclient : ∀ c, SameSender (t.client c) (s.client c)) : Delivery t := by
  have hpub : t.publishedCount = s.publishedCount := State.publishedCount_congr hund hdispatched
  have hwriting : ∀ c, (t.client c).pc.writing = (s.client c).pc.writing := fun c => (hclient c).writing
  constructor
  case flag =>
    exact hflag
  case solo =>
    intro c d
    rw [hwriting, hwriting]
    exact hs.solo c d
  case writes =>
    intro c hc
    rw [hwriting] at hc
    have hw := hs.writes c hc
    obtain ⟨id, hid, hfill⟩ := hw.filled
    refine ⟨by rw [hund, hw.free], ?_, ?_, id, ?_, ?_⟩
    · rw [hcalls, hpub, hw.last]
    · rw [(hclient c).call, hpub, hw.call]
    · rw [hcalls, (hclient c).call, (hclient c).request hc, hid]
    · rw [(hclient c).call, (hclient c).request hc, (hclient c).pc hc, horigin]
      revert hfill
      cases (s.client c).pc <;> simp [Filled, hmessage]
  case rest =>
    intro hnone
    rw [hcalls, hpub]
    exact hs.rest fun c => by rw [← hwriting]; exact hnone c
  case whole =>
    rw [hund, horigin, hdispatched, hcalls, hmessage]
    exact hs.whole
  case served =>
    intro k d
    rw [hdispatched, Dispatch.Hands, hcalls]
    exact hs.served k d
  case own =>
    intro c hc
    rw [(hclient c).call, hpub]
    exact hs.own c ((hclient c).published hc)
  case returned =>
    rw [hpub]
    exact hreturned

theorem sameSender_update {s : State ι σ} {c : ι} {x : Client} (hx : SameSender x (s.client c))
    (d : ι) : SameSender (Function.update s.client c x d) (s.client d) := by
  by_cases hd : d = c
  · subst hd
    rw [Function.update_self]
    exact hx
  · rw [Function.update_of_ne hd]
    exact .refl _

/-! ## The steps of a client -/

/-- The first store: the call gets its number, which is the next to be published. -/
theorem Delivery.begins {s t : State ι σ} {c : ι} (hs : Delivery s)
    (hpc : (s.client c).pc = .storeId) (hfree : s.undispatched = false)
    (halone : ∀ d, (s.client d).pc.writing = false) (h : clientStep s c = some t) : Delivery t := by
  simp only [clientStep, hpc, Option.some.injEq] at h
  obtain ⟨hflag, hid, hserver⟩ : t.shared.hasMessage = s.shared.hasMessage ∧
      t.shared.message.messageId = (s.client c).counter + 1 ∧ t.server = s.server := by
    subst h
    exact ⟨rfl, rfl, rfl⟩
  have hclient : t.client = Function.update s.client c { s.client c with
      pc := .storeRouteHash, counter := (s.client c).counter + 1, call := s.history.calls.length } := by
    subst h
    rfl
  obtain ⟨hcalls, horigin, hdispatched, hreturned⟩ : t.history.calls =
        s.history.calls ++ [(c, (s.client c).request.message ((s.client c).counter + 1))] ∧
      t.history.origin.messageId = some s.history.calls.length ∧
      t.history.dispatched = s.history.dispatched ∧ t.history.returned = s.history.returned := by
    subst h
    exact ⟨rfl, rfl, rfl, rfl⟩
  clear h
  have hund : t.undispatched = false := (State.undispatched_congr hflag hserver).trans hfree
  have hpub : t.publishedCount = s.publishedCount :=
    State.publishedCount_congr (hund.trans hfree.symm) hdispatched
  have hlen := hs.rest halone
  have hother : ∀ d, d ≠ c → t.client d = s.client d := fun d hd => by
    rw [hclient, Function.update_of_ne hd]
  have hself : t.client c = { s.client c with
      pc := .storeRouteHash, counter := (s.client c).counter + 1, call := s.history.calls.length } := by
    rw [hclient, Function.update_self]
  have hwriting : ∀ d, (t.client d).pc.writing = true → d = c := by
    intro d hd
    by_contra hne
    rw [hother d hne, halone] at hd
    cases hd
  constructor
  case flag =>
    rw [hflag, hserver]
    exact hs.flag
  case solo =>
    intro d e hd he
    rw [hwriting d hd, hwriting e he]
  case writes =>
    intro d hd
    rw [hwriting d hd]
    refine ⟨hund, by rw [hcalls, hpub, List.length_append, hlen]; rfl, ?_,
      (s.client c).counter + 1, ?_, ?_⟩
    · rw [hself, hpub]
      exact hlen
    · rw [hself, hcalls]
      simp
    · rw [hself]
      exact ⟨hid, horigin⟩
  case rest =>
    intro hnone
    have hc := hnone c
    rw [hself] at hc
    cases hc
  case whole =>
    rw [hund]
    rintro ⟨⟩
  case served =>
    intro k d hk
    rw [hdispatched] at hk
    obtain ⟨hd, e, he⟩ := hs.served k d hk
    refine ⟨hd, e, ?_⟩
    rw [hcalls, List.getElem?_append_left (List.getElem?_eq_some_iff.mp he).1]
    exact he
  case own =>
    intro d hd
    by_cases hdc : d = c
    · rw [hdc, hself] at hd
      cases hd
    · rw [hother d hdc] at hd ⊢
      rw [hpub]
      exact hs.own d hd
  case returned =>
    rw [hreturned, hpub]
    exact hs.returned

/-- A later store of the client that is writing: the slot is not waiting for a dispatch. -/
theorem Delivery.stores {s t : State ι σ} {c : ι} {x : Client} (hs : Delivery s)
    (hw : (s.client c).pc.writing = true) (hflag : t.shared.hasMessage = s.shared.hasMessage)
    (hserver : t.server = s.server) (hclient : t.client = Function.update s.client c x)
    (hx : x.pc.writing = true) (hcall : x.call = (s.client c).call)
    (hrequest : x.request = (s.client c).request)
    (hcalls : t.history.calls = s.history.calls)
    (hdispatched : t.history.dispatched = s.history.dispatched)
    (hreturned : t.history.returned = s.history.returned)
    (hfill : ∀ id, Filled s.shared s.history.origin (s.client c).call
        ((s.client c).request.message id) (s.client c).pc →
      Filled t.shared t.history.origin (s.client c).call ((s.client c).request.message id) x.pc) :
    Delivery t := by
  have hund : t.undispatched = s.undispatched := State.undispatched_congr hflag hserver
  have hpub : t.publishedCount = s.publishedCount := State.publishedCount_congr hund hdispatched
  have hself : t.client c = x := by rw [hclient, Function.update_self]
  have hother : ∀ d, d ≠ c → t.client d = s.client d := fun d hd => by
    rw [hclient, Function.update_of_ne hd]
  have hwriting : ∀ d, (t.client d).pc.writing = true → d = c := by
    intro d hd
    by_contra hne
    rw [hother d hne] at hd
    exact hne (hs.solo d c hd hw)
  have hwr := hs.writes c hw
  constructor
  case flag =>
    rw [hflag, hserver]
    exact hs.flag
  case solo =>
    intro d e hd he
    rw [hwriting d hd, hwriting e he]
  case writes =>
    intro d hd
    rw [hwriting d hd]
    obtain ⟨id, hid, hf⟩ := hwr.filled
    refine ⟨by rw [hund]; exact hwr.free, by rw [hcalls, hpub]; exact hwr.last, ?_, id, ?_, ?_⟩
    · rw [hself, hcall, hpub]
      exact hwr.call
    · rw [hself, hcall, hrequest, hcalls]
      exact hid
    · rw [hself, hcall, hrequest]
      exact hfill id hf
  case rest =>
    intro hnone
    have hc := hnone c
    rw [hself, hx] at hc
    cases hc
  case whole =>
    rw [hund, hwr.free]
    rintro ⟨⟩
  case served =>
    intro k d
    rw [hdispatched, Dispatch.Hands, hcalls]
    exact hs.served k d
  case own =>
    intro d hd
    by_cases hdc : d = c
    · rw [hdc, hself] at hd
      revert hd hx
      cases x.pc <;> simp [ClientPc.writing, ClientPc.published]
    · rw [hother d hdc] at hd ⊢
      rw [hpub]
      exact hs.own d hd
  case returned =>
    rw [hreturned, hpub]
    exact hs.returned

/-- What the publication does to the counts, where the flag was false. -/
theorem Delivery.publish_counts {s t : State ι σ} {c : ι} (hs : Delivery s)
    (hpc : (s.client c).pc = .storeHasMessage) (hflag : s.shared.hasMessage = false)
    (h : clientStep s c = some t) :
    s.undispatched = false ∧ t.undispatched = true ∧ t.publishedCount = s.publishedCount + 1 ∧
      s.publishedCount = s.history.dispatched.length := by
  have hfree := (hs.writes c (by rw [hpc]; rfl)).free
  -- the flag was false, so the server is not handling a message
  have hhandling : s.server.pc.handling = false := by
    by_contra hne
    rw [hs.flag (.inr (by simpa using hne))] at hflag
    cases hflag
  simp only [clientStep, hpc, Option.some.injEq] at h
  obtain ⟨hset, hserver, hdispatched⟩ : t.shared.hasMessage = true ∧ t.server = s.server ∧
      t.history.dispatched = s.history.dispatched := by
    subst h
    exact ⟨rfl, rfl, rfl⟩
  have hcount : s.publishedCount = s.history.dispatched.length := by
    rw [State.publishedCount, hfree]
    rfl
  have hund : t.undispatched = true := by
    rw [State.undispatched, hset, hserver, hhandling]
    rfl
  refine ⟨hfree, hund, ?_, hcount⟩
  rw [State.publishedCount, hund, hdispatched, hcount]
  rfl

/-- The publication, where no message was published before it. -/
theorem Delivery.publishes {s t : State ι σ} {c : ι} (hs : Delivery s)
    (hpc : (s.client c).pc = .storeHasMessage) (hflag : s.shared.hasMessage = false)
    (h : clientStep s c = some t) : Delivery t := by
  have hw : (s.client c).pc.writing = true := by rw [hpc]; rfl
  have hwr := hs.writes c hw
  obtain ⟨-, -, hpub, hcount⟩ := hs.publish_counts hpc hflag h
  simp only [clientStep, hpc, Option.some.injEq] at h
  obtain ⟨hset, hmessage⟩ : t.shared.hasMessage = true ∧ t.shared.message = s.shared.message := by
    subst h
    exact ⟨rfl, rfl⟩
  have hclient : t.client = Function.update s.client c { s.client c with pc := .storeCurrentId } := by
    subst h
    rfl
  obtain ⟨hcalls, horigin, hdispatched, hreturned⟩ : t.history.calls = s.history.calls ∧
      t.history.origin = s.history.origin ∧ t.history.dispatched = s.history.dispatched ∧
      t.history.returned = s.history.returned := by
    subst h
    exact ⟨rfl, rfl, rfl, rfl⟩
  clear h
  have hself : t.client c = { s.client c with pc := .storeCurrentId } := by
    rw [hclient, Function.update_self]
  have hother : ∀ d, d ≠ c → t.client d = s.client d := fun d hd => by
    rw [hclient, Function.update_of_ne hd]
  have hnone : ∀ d, (t.client d).pc.writing = false := by
    intro d
    by_cases hdc : d = c
    · rw [hdc, hself]
      rfl
    · rw [hother d hdc]
      by_contra hne
      exact hdc (hs.solo d c (by simpa using hne) hw)
  constructor
  case flag =>
    exact fun _ => hset
  case solo =>
    intro d e hd
    rw [hnone] at hd
    cases hd
  case writes =>
    intro d hd
    rw [hnone] at hd
    cases hd
  case rest =>
    intro _
    rw [hcalls, hpub]
    exact hwr.last
  case whole =>
    intro _
    obtain ⟨id, hid, hfill⟩ := hwr.filled
    rw [hpc, hwr.call, hcount] at hfill
    rw [hwr.call, hcount] at hid
    rw [horigin, hdispatched, hcalls, hmessage]
    exact ⟨hfill.2, c, by rw [hid, hfill.1]⟩
  case served =>
    intro k d
    rw [hdispatched, Dispatch.Hands, hcalls]
    exact hs.served k d
  case own =>
    intro d hd
    by_cases hdc : d = c
    · rw [hdc, hself, hpub]
      exact Nat.lt_succ_of_le (Nat.le_of_eq hwr.call)
    · rw [hother d hdc] at hd ⊢
      rw [hpub]
      exact Nat.lt_succ_of_lt (hs.own d hd)
  case returned =>
    intro k hk
    rw [hreturned] at hk
    rw [hpub]
    exact Nat.lt_succ_of_lt (hs.returned k hk)

/-- The statements that neither store to the slot or its flag nor draw an id. -/
theorem clientStep_silent {s t : State ι σ} {c : ι} (hid : (s.client c).pc ≠ .storeId)
    (hw : (s.client c).pc.writing = false) (h : clientStep s c = some t) :
    (t.shared.message = s.shared.message ∧ t.shared.hasMessage = s.shared.hasMessage) ∧
      (t.history.calls = s.history.calls ∧ t.history.origin = s.history.origin ∧
        t.history.dispatched = s.history.dispatched) ∧
      SameSender (t.client c) (s.client c) ∧
      ∀ k ∈ t.history.returned, k ∈ s.history.returned ∨
        (s.client c).pc.published = true ∧ k = (s.client c).call := by
  unfold clientStep at h
  dsimp only at h
  split at h
  all_goals try split at h
  all_goals cases h
  all_goals simp_all [State.setClient, State.setShared, State.setHistory, ClientPc.writing,
    ClientPc.published]
  all_goals apply SameSender.of_not_writing
  all_goals simp_all [ClientPc.writing, ClientPc.published]

theorem Delivery.clientSilent {s t : State ι σ} {c : ι} (hs : Delivery s)
    (hid : (s.client c).pc ≠ .storeId) (hw : (s.client c).pc.writing = false)
    (h : clientStep s c = some t) : Delivery t := by
  obtain ⟨hserver, hclient⟩ := clientStep_moves h
  obtain ⟨⟨hmessage, hflag⟩, ⟨hcalls, horigin, hdispatched⟩, hsame, hreturned⟩ :=
    clientStep_silent hid hw h
  refine hs.silent hmessage ?_ ?_ hcalls horigin hdispatched (fun k hk => ?_) fun d => ?_
  · exact State.undispatched_congr hflag hserver
  · rw [hflag, hserver]
    exact hs.flag
  · rcases hreturned k hk with hk | ⟨hpub, rfl⟩
    · exact hs.returned k hk
    · exact hs.own c hpub
  · rw [hclient]
    exact sameSender_update hsame d

/-- Every step of a client keeps the order, where it meets no contention. -/
theorem Delivery.client {s t : State ι σ} {c : ι} (hs : Delivery s)
    (hun : Uncontended s (.client c)) (h : clientStep s c = some t) : Delivery t := by
  obtain ⟨hserver, hclient⟩ := clientStep_moves h
  cases hpc : (s.client c).pc with
  | storeId => exact hs.begins hpc (hun.1 hpc).1 (hun.1 hpc).2 h
  | storeHasMessage => exact hs.publishes hpc (hun.2 hpc) h
  | storeRouteHash | storePayloadSize | storePayload =>
    simp only [clientStep, hpc, Option.some.injEq] at h
    refine hs.stores (by rw [hpc]; rfl) ?_ hserver hclient ?_ ?_ ?_ ?_ ?_ ?_ fun id hfill => ?_
    all_goals subst h
    all_goals try rw [hpc] at hfill
    all_goals simp_all [State.setClient, State.setShared, State.setHistory, ClientPc.writing, Filled,
      Request.message, IPCMessage.handed, Origin.whole]
  | storeMessageSize =>
    -- `message_size` lies outside the slot, so what is stored there stays
    simp only [clientStep, hpc, Option.some.injEq] at h
    have hself : t.client c = { s.client c with pc := .storeHasMessage } := by
      subst h
      exact Function.update_self ..
    rw [hself] at hclient
    refine hs.stores (by rw [hpc]; rfl) ?_ hserver hclient rfl rfl rfl ?_ ?_ ?_ fun id hfill => ?_
    all_goals subst h
    · rfl
    · rfl
    · rfl
    · rfl
    · rw [hpc] at hfill
      exact hfill
  | _ => exact hs.clientSilent (by rw [hpc]; simp) (by rw [hpc]; rfl) h

/-! ## The steps of the server -/

omit [DecidableEq ι] in
/-- What the dispatch does: the slot is handed over and is no longer waiting. -/
theorem Delivery.dispatch_counts {s t : State ι σ} (hs : Delivery s) (hpc : s.server.pc = .dispatch)
    (h : serverStep handle s = some t) :
    (s.undispatched = true ∧ t.undispatched = false ∧ t.publishedCount = s.publishedCount) ∧
      t.server.pc.handling = true ∧ t.history.dispatched = s.history.dispatched ++
        [⟨s.shared.message.handed, s.history.origin, (handle s.server.cache s.shared).2⟩] := by
  simp only [serverStep, hpc, Option.some.injEq] at h
  obtain ⟨hdispatched, hhandling⟩ : t.history.dispatched = s.history.dispatched ++
        [⟨s.shared.message.handed, s.history.origin, (handle s.server.cache s.shared).2⟩] ∧
      t.server.pc.handling = true := by
    subst h
    refine ⟨rfl, ?_⟩
    simp only [State.setServer, State.setHistory]
    split <;> rfl
  clear h
  have hund : s.undispatched = true := by
    rw [State.undispatched, hs.flag (.inl hpc), hpc]
    rfl
  have hund' : t.undispatched = false := by
    rw [State.undispatched, hhandling]
    simp
  refine ⟨⟨hund, hund', ?_⟩, hhandling, hdispatched⟩
  rw [State.publishedCount, State.publishedCount, hund, hund', hdispatched, List.length_append]
  rfl

omit [DecidableEq ι] in
/-- The dispatch hands over the message that waits, which is the next call's. -/
theorem Delivery.dispatches {s t : State ι σ} (hs : Delivery s) (hpc : s.server.pc = .dispatch)
    (h : serverStep handle s = some t) : Delivery t := by
  obtain ⟨⟨hund, hund', hpub⟩, -, hdispatched⟩ := hs.dispatch_counts hpc h
  have hclient := serverStep_moves h
  simp only [serverStep, hpc, Option.some.injEq] at h
  obtain ⟨hshared, hcalls, hreturned⟩ : t.shared = s.shared ∧
      t.history.calls = s.history.calls ∧ t.history.returned = s.history.returned := by
    subst h
    exact ⟨rfl, rfl, rfl⟩
  clear h
  have hflag := hs.flag (.inl hpc)
  have hnone : ∀ c, (s.client c).pc.writing = false := by
    intro c
    by_contra hne
    have hfree := (hs.writes c (by simpa using hne)).free
    rw [hund] at hfree
    cases hfree
  constructor
  case flag =>
    intro _
    rw [hshared]
    exact hflag
  case solo =>
    rw [hclient]
    exact hs.solo
  case writes =>
    intro c hc
    rw [hclient, hnone] at hc
    cases hc
  case rest =>
    intro _
    rw [hcalls, hpub]
    exact hs.rest hnone
  case whole =>
    rw [hund']
    rintro ⟨⟩
  case served =>
    intro k d hk
    rw [Dispatch.Hands, hcalls]
    rw [hdispatched] at hk
    rcases Nat.lt_trichotomy k s.history.dispatched.length with hlt | heq | hgt
    · rw [List.getElem?_append_left hlt] at hk
      exact hs.served k d hk
    · rw [heq, List.getElem?_concat_length] at hk
      cases hk
      rw [heq]
      exact hs.whole hund
    · rw [List.getElem?_eq_none (by rw [List.length_append]; simp; omega)] at hk
      cases hk
  case own =>
    rw [hclient, hpub]
    exact hs.own
  case returned =>
    rw [hreturned, hpub]
    exact hs.returned

omit [DecidableEq ι] in
/-- Outside the dispatch the server moves through an iteration without touching the slot: it goes on
to dispatch only when it finds the flag set, and what it clears it has dispatched. -/
theorem serverStep_silent {s t : State ι σ} (hpc : s.server.pc ≠ .dispatch)
    (hflag : s.server.pc.handling = true → s.shared.hasMessage = true)
    (h : serverStep handle s = some t) :
    (t.shared.message = s.shared.message ∧ t.undispatched = s.undispatched ∧
      (t.server.pc = .dispatch ∨ t.server.pc.handling = true → t.shared.hasMessage = true)) ∧
      t.history.calls = s.history.calls ∧ t.history.origin = s.history.origin ∧
      t.history.dispatched = s.history.dispatched ∧ t.history.returned = s.history.returned := by
  unfold serverStep at h
  dsimp only at h
  split at h
  all_goals try split at h
  all_goals cases h
  all_goals simp_all [State.setServer, State.setShared, State.setHistory, State.undispatched,
    ServerPc.handling]

omit [DecidableEq ι] in
theorem Delivery.server {s t : State ι σ} (hs : Delivery s) (h : serverStep handle s = some t) :
    Delivery t := by
  by_cases hpc : s.server.pc = .dispatch
  · exact hs.dispatches hpc h
  · obtain ⟨⟨hmessage, hund, hflag⟩, hcalls, horigin, hdispatched, hreturned⟩ :=
      serverStep_silent hpc (fun hh => hs.flag (.inr hh)) h
    refine hs.silent hmessage hund hflag hcalls horigin hdispatched ?_ fun c => ?_
    · rw [hreturned]
      exact hs.returned
    · rw [serverStep_moves h]
      exact .refl _

/-! ## Runs without contention -/

/-- Entering a call leaves the order alone. -/
theorem Delivery.enter {s : State ι σ} {c : ι} {x : Client} (hs : Delivery s)
    (hidle : (s.client c).pc = .idle) (hx : x.pc.writing = false) (hpub : x.pc.published = false)
    (hcall : x.call = (s.client c).call) : Delivery (s.setClient c x) := by
  refine hs.silent rfl rfl hs.flag rfl rfl rfl hs.returned fun d => sameSender_update ?_ d
  exact .of_not_writing hx (by rw [hidle]; rfl) (fun h => by rw [hpub] at h; cases h) hcall

theorem Delivery.step {s t : State ι σ} {a : Action ι} (hs : Delivery s) (hun : Uncontended s a)
    (h : Step handle s a t) : Delivery t := by
  cases a with
  | send c r =>
    obtain ⟨hidle, rfl | rfl⟩ := step_send h
    · exact hs
    · exact hs.enter hidle rfl rfl rfl
  | wait c e =>
    obtain ⟨hidle, rfl⟩ := step_wait h
    exact hs.enter hidle rfl rfl rfl
  | client c => exact hs.client hun h
  | server => exact hs.server h

omit [DecidableEq ι] in
/-- Call `k` is dispatched as the `k`-th, so each dispatch is of one call and of one only. -/
theorem Delivery.exactlyOnce {s : State ι σ} (hs : Delivery s) (htoken : TokenComes s) :
    ExactlyOnce s := by
  constructor
  · intro d hd
    obtain ⟨k, hk⟩ := List.mem_iff_getElem?.mp hd
    exact ⟨k, hs.served k d hk⟩
  · rw [List.pairwise_iff_getElem]
    intro i j hi hj hij k hik hjk
    have horigin : ∀ n (hn : n < s.history.dispatched.length),
        s.history.dispatched[n].Hands s.history k → n = k := by
      intro n hn hnk
      have hown := (hs.served n _ (List.getElem?_eq_getElem hn)).1
      have hsame := hnk.1.symm.trans hown
      simp only [Origin.whole, Origin.mk.injEq, Option.some.injEq] at hsame
      exact hsame.1.symm
    have hi' := horigin i hi hik
    have hj' := horigin j hj hjk
    omega
  · intro hquiet k hk
    -- nothing waits: its token would be posted, or about to be
    have hund : s.undispatched = false := by
      by_contra hne
      have hflag : s.shared.hasMessage = true := by
        by_contra hno
        simp [State.undispatched, hno] at hne
      rcases htoken hflag (.inl hquiet.server) with hpos | ⟨c, hc⟩
      · have hzero := hquiet.dataReady
        omega
      · have hsend := hquiet.client c
        revert hc hsend
        cases (s.client c).pc <;> simp [ClientPc.posting, ClientPc.sending, ClientPc.inside]
    have hlt := hs.returned k hk
    rw [State.publishedCount, hund, Bool.toNat_false, Nat.add_zero] at hlt
    exact ⟨_, List.getElem_mem hlt, hs.served k _ (List.getElem?_eq_getElem hlt)⟩

/-- **Exactly-once delivery, without contention.** In every run in which each client begins to store
only when no other client is between its first store and its `has_message` store and no published
message waits for its dispatch, and publishes only when `has_message` is false, every state reached
has delivered exactly once. -/
theorem delivers_exactly_once {s₀ s : State ι σ} {as : List (Action ι)} (h₀ : Initial s₀)
    (h : Run (Guarded Uncontended (Step handle)) s₀ as s) : ExactlyOnce s := by
  have hboth : Delivery s ∧ TokenComes s :=
    Run.invariant (I := fun s => Delivery s ∧ TokenComes s)
      (fun _ _ _ hs hst => ⟨hs.1.step hst.1 hst.2, hs.2.step hst.2⟩)
      ⟨h₀.delivery, h₀.tokenComes⟩ h
  exact hboth.1.exactlyOnce hboth.2

instance [Fintype ι] (s : State ι σ) : (a : Action ι) → Decidable (Uncontended s a)
  | .client _ => inferInstanceAs (Decidable (_ ∧ _))
  | .send .. | .wait .. | .server => inferInstanceAs (Decidable True)

/-- One exchange meets no contention, and its message is dispatched. -/
theorem delivers_exactly_once_exchange :
    ∃ s : State (Fin 2) Unit, s.history.returned = [0] ∧ s.server.pc = .waitDataReady ∧
      ExactlyOnce s := by
  obtain ⟨s, hs⟩ : ∃ s, exec (guarded Uncontended (step noReply))
      (.fresh () : State (Fin 2) Unit) oneExchange = some s := ⟨_, rfl⟩
  refine ⟨s, ?_, ?_, delivers_exactly_once (fresh_initial ()) (run_of_exec_guarded hs)⟩
  · cases hs
    rfl
  · cases hs
    rfl

/-- A whole `send_message` of client `c`. -/
def sends (c : Fin 2) (r : Request) : List (Action (Fin 2)) :=
  .send c r :: List.replicate 10 (.client c)

/-- Client 0 sends, client 1 sends before the server has looked, and the message of client 0 is
never dispatched: the second iteration of the server finds `has_message` false. -/
theorem second_send_overwrites :
    ¬ ∀ s : State (Fin 2) Unit, Reachable noReply s → ExactlyOnce s := by
  intro h
  obtain ⟨s, hs⟩ : ∃ s, exec (step noReply) (.fresh () : State (Fin 2) Unit)
      (sends 0 ⟨[], [1]⟩ ++ sends 1 ⟨[], [2]⟩ ++ List.replicate 8 .server) = some s := ⟨_, rfl⟩
  have honce := h s ⟨_, _, fresh_initial (), run_of_exec hs⟩
  have hquiet : Quiet s := by
    cases hs
    exact ⟨rfl, rfl, by decide⟩
  have hret : 0 ∈ s.history.returned := by
    cases hs
    decide
  have hnone : ∀ d ∈ s.history.dispatched, d.origin ≠ Origin.whole 0 := by
    cases hs
    decide
  obtain ⟨d, hd, hhands⟩ := honce.all hquiet 0 hret
  exact hnone d hd hhands.1

end CCache.Ipc
