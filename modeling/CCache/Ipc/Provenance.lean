/-
# CCache.Ipc.Provenance — which calls the slot and the id of a response come from.

Clients that store at the same time mix their messages in the slot.  In every interleaving a message is
dispatched only where one was published and each of its fields has been stored, a client that is storing
stores the message of the call it is in, and the id in the slot is that of a call.  So a response that a
client takes for its own carries the id of a call.
-/
import CCache.Ipc.Requests
import CCache.Ipc.Progress
import CCache.Ipc.Responses

namespace CCache.Ipc

open CCache.Lib.Runs
open CCache.Lib.Parties

variable {ι σ : Type}

/-! ## Fields of the slot and the calls that stored them -/

/-- Call `k` was made, and its message is as `P` says. -/
def History.Made (h : History ι) (k : Nat) (P : IPCMessage → Prop) : Prop :=
  ∃ c m, h.calls[k]? = some (c, m) ∧ P m

theorem History.Made.grows {h h' : History ι} {k : Nat} {P : IPCMessage → Prop}
    (hcalls : ∀ (k : Nat) x, h.calls[k]? = some x → h'.calls[k]? = some x) (hk : h.Made k P) :
    h'.Made k P := by
  obtain ⟨c, m, hcall, hm⟩ := hk
  exact ⟨c, m, hcalls k _ hcall, hm⟩

/-- The id of the slot is that of the call whose store it holds. -/
def IdOfCall (h : History ι) (m : IPCMessage) (o : Origin) : Prop :=
  ∀ k, o.messageId = some k → h.Made k fun n => m.messageId = n.messageId

theorem IdOfCall.grows {h h' : History ι} {m : IPCMessage} {o : Origin}
    (hcalls : ∀ (k : Nat) x, h.calls[k]? = some x → h'.calls[k]? = some x) (hs : IdOfCall h m o) :
    IdOfCall h' m o :=
  fun k hk => (hs k hk).grows hcalls

/-- Every field has been stored. -/
structure Origin.Complete (o : Origin) : Prop where
  messageId : o.messageId.isSome = true
  routeHash : o.routeHash.isSome = true
  payloadSize : o.payloadSize.isSome = true
  payload : o.payload.isSome = true

theorem Origin.complete_iff {o : Origin} : o.Complete ↔
    ((o.messageId.isSome = true ∧ o.routeHash.isSome = true) ∧ o.payloadSize.isSome = true) ∧
      o.payload.isSome = true :=
  ⟨fun h => ⟨⟨⟨h.messageId, h.routeHash⟩, h.payloadSize⟩, h.payload⟩,
    fun h => ⟨h.1.1.1, h.1.1.2, h.1.2, h.2⟩⟩

/-- The fields that a client at `pc` has stored, it or another after it. -/
def Origin.Reached (o : Origin) : ClientPc → Prop
  | .storeRouteHash => o.messageId.isSome = true
  | .storePayloadSize => o.messageId.isSome = true ∧ o.routeHash.isSome = true
  | .storePayload => (o.messageId.isSome = true ∧ o.routeHash.isSome = true) ∧
      o.payloadSize.isSome = true
  | .storeMessageSize | .storeHasMessage | .storeCurrentId => o.Complete
  | _ => True

/-- What was stored stays stored. -/
structure Origin.Le (o o' : Origin) : Prop where
  messageId : o.messageId.isSome = true → o'.messageId.isSome = true
  routeHash : o.routeHash.isSome = true → o'.routeHash.isSome = true
  payloadSize : o.payloadSize.isSome = true → o'.payloadSize.isSome = true
  payload : o.payload.isSome = true → o'.payload.isSome = true

theorem Origin.Le.complete {o o' : Origin} (h : o.Le o') (ho : o.Complete) : o'.Complete :=
  ⟨h.messageId ho.messageId, h.routeHash ho.routeHash, h.payloadSize ho.payloadSize,
    h.payload ho.payload⟩

theorem Origin.Le.reached {o o' : Origin} (h : o.Le o') {pc : ClientPc} (ho : o.Reached pc) :
    o'.Reached pc := by
  cases pc with
  | storeRouteHash => exact h.messageId ho
  | storePayloadSize => exact ⟨h.messageId ho.1, h.routeHash ho.2⟩
  | storePayload => exact ⟨⟨h.messageId ho.1.1, h.routeHash ho.1.2⟩, h.payloadSize ho.2⟩
  | storeMessageSize | storeHasMessage | storeCurrentId => exact h.complete ho
  | idle | waitMutex | storeId | postDataReady | postMutex | waitResponse | checkId
  | readResponseSize | copyResponse | clearHasResponse | clearResponseSize => trivial

/-! ## The invariant -/

/-- What every interleaving keeps of the slot and the order of its calls. -/
structure Provenance (s : State ι σ) : Prop where
  slot : IdOfCall s.history s.shared.message s.history.origin
  writing : ∀ c, (s.client c).pc.writing = true →
    s.history.Made (s.client c).call fun n => ∃ id, n = (s.client c).request.message id
  reached : ∀ c, s.history.origin.Reached (s.client c).pc
  offered : s.shared.hasMessage = true → s.history.origin.Complete
  flag : s.server.pc = .dispatch ∨ s.server.pc.handling = true → s.shared.hasMessage = true
  count : s.publishedCount ≤ s.history.published.length

theorem Initial.provenance {s : State ι σ} (h : Initial s) : Provenance s := by
  have hidle : ∀ c, (s.client c).pc = .idle := fun c => (h.client c).1
  constructor
  case slot =>
    rw [h.history]
    exact nofun
  case writing =>
    intro c hc
    rw [hidle] at hc
    cases hc
  case reached =>
    intro c
    rw [hidle]
    trivial
  case offered =>
    intro hflag
    rw [h.hasMessage] at hflag
    cases hflag
  case flag =>
    rw [h.server]
    rintro (hpc | hpc) <;> cases hpc
  case count =>
    rw [State.publishedCount, State.undispatched, h.hasMessage, h.history]
    exact le_refl _

variable [DecidableEq ι] {handle : σ → SharedData → σ × Option (List UInt8)}

/-- What a client's step does to the flag and the counts. -/
theorem clientStep_flag {s t : State ι σ} {c : ι} (h : clientStep s c = some t) :
    t.history.dispatched = s.history.dispatched ∧
      (s.shared.hasMessage = true → t.shared.hasMessage = true) ∧
      (t.shared.hasMessage = true → s.shared.hasMessage = true ∨ (s.client c).pc = .storeHasMessage) ∧
      s.history.published.length + t.undispatched.toNat ≤
        t.history.published.length + s.undispatched.toNat := by
  by_cases hpc : (s.client c).pc = .storeHasMessage
  · simp only [clientStep, hpc, Option.some.injEq] at h
    rw [← h]
    refine ⟨rfl, fun _ => rfl, fun _ => .inr hpc, ?_⟩
    have hle := Bool.toNat_le (State.undispatched (σ := σ) (ι := ι) t)
    rw [← h] at hle
    simp only [State.setHistory, State.setClient, State.setShared, List.length_append,
      List.length_singleton] at hle ⊢
    omega
  · obtain ⟨hpublished, hdispatched, hflag⟩ := clientStep_published hpc h
    refine ⟨hdispatched, fun hs => hflag.trans hs, fun ht => .inl (hflag.symm.trans ht), ?_⟩
    rw [hpublished, State.undispatched_congr hflag (clientStep_moves h).1]

/-- The slot after a client's step: what it has stored, in the call it is in. -/
structure Stores (s t : State ι σ) (c : ι) : Prop where
  slot : IdOfCall t.history t.shared.message t.history.origin
  le : s.history.origin.Le t.history.origin
  reached : t.history.origin.Reached (t.client c).pc
  writing : (t.client c).pc.writing = true →
    t.history.Made (t.client c).call fun n => ∃ id, n = (t.client c).request.message id

omit [DecidableEq ι] in
/-- A step that stores no id. -/
theorem Stores.same {s t : State ι σ} {c : ι} (hs : Provenance s)
    (hcalls : ∀ (k : Nat) x, s.history.calls[k]? = some x → t.history.calls[k]? = some x)
    (hmessage : t.shared.message.messageId = s.shared.message.messageId)
    (horigin : t.history.origin.messageId = s.history.origin.messageId)
    (hle : s.history.origin.Le t.history.origin)
    (hwriting : (t.client c).pc.writing = true →
      t.history.Made (t.client c).call fun n => ∃ id, n = (t.client c).request.message id)
    (hreached : t.history.origin.Reached (t.client c).pc) : Stores s t c := by
  refine ⟨fun k hk => ?_, hle, hreached, hwriting⟩
  rw [horigin] at hk
  rw [hmessage]
  exact (hs.slot k hk).grows hcalls

/-- A client that goes on storing goes on with its call and its request. -/
theorem clientStep_writes {s t : State ι σ} {c : ι} (hid : (s.client c).pc ≠ .storeId)
    (h : clientStep s c = some t) (hw : (t.client c).pc.writing = true) :
    (t.client c).call = (s.client c).call ∧ (t.client c).request = (s.client c).request ∧
      (s.client c).pc.writing = true := by
  cases hpc : (s.client c).pc
  all_goals simp only [clientStep, hpc] at h
  all_goals try split at h
  all_goals cases h
  all_goals simp_all [State.setClient, State.setShared, State.setHistory, ClientPc.writing]

/-- A client that goes on storing is in the call whose message it was storing. -/
theorem Provenance.goes_on {s t : State ι σ} {c : ι} (hs : Provenance s)
    (hid : (s.client c).pc ≠ .storeId) (h : clientStep s c = some t)
    (hw : (t.client c).pc.writing = true) :
    t.history.Made (t.client c).call fun n => ∃ id, n = (t.client c).request.message id := by
  obtain ⟨hcall, hrequest, hwas⟩ := clientStep_writes hid h hw
  rw [hcall, hrequest]
  exact (hs.writing c hwas).grows fun k x => clientStep_calls h (k := k) (x := x)

theorem Provenance.stores {s t : State ι σ} {c : ι} (hs : Provenance s)
    (h : clientStep s c = some t) : Stores s t c := by
  have hcalls := fun (k : Nat) x => clientStep_calls h (k := k) (x := x)
  have hreached := hs.reached c
  cases hpc : (s.client c).pc with
  | storeId =>
    obtain ⟨hmessage, horigin, hclient, hadd⟩ :
        t.shared.message.messageId = (s.client c).counter + 1 ∧
        t.history.origin = { s.history.origin with messageId := some s.history.calls.length } ∧
        t.client c = { s.client c with
          pc := .storeRouteHash, counter := (s.client c).counter + 1,
          call := s.history.calls.length } ∧
        t.history.calls = s.history.calls ++
          [(c, (s.client c).request.message ((s.client c).counter + 1))] := by
      simp only [clientStep, hpc, Option.some.injEq] at h
      rw [← h]
      simp [State.setClient, State.setShared, State.setHistory]
    have hmade : t.history.Made s.history.calls.length fun n =>
        n = (s.client c).request.message ((s.client c).counter + 1) := by
      refine ⟨c, _, ?_, rfl⟩
      rw [hadd]
      simp
    obtain ⟨d, n, hcall, rfl⟩ := hmade
    refine ⟨fun k hk => ?_, ?_, ?_, fun _ => ?_⟩
    · rw [horigin] at hk
      cases hk
      exact ⟨d, _, hcall, hmessage⟩
    · rw [horigin]
      exact ⟨fun _ => rfl, id, id, id⟩
    · rw [hclient, horigin]
      rfl
    · rw [hclient]
      exact ⟨d, _, hcall, _, rfl⟩
  | storeRouteHash | storePayloadSize | storePayload =>
    rw [hpc] at hreached
    have hgoes := hs.goes_on (by simp [hpc]) h
    simp only [clientStep, hpc, Option.some.injEq] at h
    subst h
    refine .same hs hcalls rfl rfl ?_ hgoes ?_
    · exact ⟨by simp [State.setHistory], by simp [State.setHistory], by simp [State.setHistory],
        by simp [State.setHistory]⟩
    · simp_all [State.setClient, State.setShared, State.setHistory, Origin.Reached,
        Origin.complete_iff]
  | storeMessageSize | storeHasMessage | storeCurrentId | postDataReady | postMutex | idle
  | waitMutex | waitResponse | checkId | readResponseSize | copyResponse | clearHasResponse
  | clearResponseSize =>
    rw [hpc] at hreached
    obtain ⟨hmessage, horigin, hnext⟩ : t.shared.message = s.shared.message ∧
        t.history.origin = s.history.origin ∧ s.history.origin.Reached (t.client c).pc := by
      simp only [clientStep, hpc] at h
      try split at h
      all_goals try cases h
      all_goals simp_all [State.setClient, State.setShared, State.setHistory, Origin.Reached]
    refine .same hs hcalls (by rw [hmessage]) (by rw [horigin]) ?_ (hs.goes_on (by simp [hpc]) h) ?_
    · rw [horigin]
      exact ⟨id, id, id, id⟩
    · rw [horigin]
      exact hnext

theorem Provenance.client {s t : State ι σ} {c : ι} (hs : Provenance s)
    (h : clientStep s c = some t) : Provenance t := by
  have hcalls := fun (k : Nat) x => clientStep_calls h (k := k) (x := x)
  have hst := hs.stores h
  have hserver := (clientStep_moves h).1
  obtain ⟨hdispatched, hkeeps, hback, hcount⟩ := clientStep_flag h
  constructor
  case slot => exact hst.slot
  case writing =>
    intro d hw
    by_cases hd : d = c
    · subst hd
      exact hst.writing hw
    · rw [clientStep_other h hd] at hw ⊢
      exact (hs.writing d hw).grows hcalls
  case reached =>
    intro d
    by_cases hd : d = c
    · subst hd
      exact hst.reached
    · rw [clientStep_other h hd]
      exact hst.le.reached (hs.reached d)
  case offered =>
    intro hflag
    rcases hback hflag with hold | hpc
    · exact hst.le.complete (hs.offered hold)
    · have hreached := hs.reached c
      rw [hpc] at hreached
      exact hst.le.complete hreached
  case flag =>
    rw [hserver]
    exact fun hpc => hkeeps (hs.flag hpc)
  case count =>
    have hle := hs.count
    unfold State.publishedCount at hle ⊢
    rw [hdispatched]
    omega

omit [DecidableEq ι] in
/-- The dispatch hands out a slot whose fields have all been stored. -/
theorem Provenance.dispatches {s t : State ι σ} (hs : Provenance s)
    (hpc : s.server.pc = .dispatch) (h : serverStep handle s = some t) : Provenance t := by
  have hflag := hs.flag (.inl hpc)
  simp only [serverStep, hpc, Option.some.injEq] at h
  obtain ⟨⟨hshared, hclient⟩, ⟨hcalls, horigin, hpublished⟩, hdispatched, hhandling⟩ :
      (t.shared = s.shared ∧ t.client = s.client) ∧
        (t.history.calls = s.history.calls ∧ t.history.origin = s.history.origin ∧
          t.history.published = s.history.published) ∧
        t.history.dispatched = s.history.dispatched ++
          [⟨s.shared.message.handed, s.history.origin, (handle s.server.cache s.shared).2⟩] ∧
        t.server.pc.handling = true := by
    rw [← h]
    refine ⟨⟨rfl, rfl⟩, ⟨rfl, rfl, rfl⟩, rfl, ?_⟩
    show ServerPc.handling (if _ then _ else _) = true
    split <;> rfl
  have hgrows : ∀ (k : Nat) x, s.history.calls[k]? = some x → t.history.calls[k]? = some x :=
    fun _ _ hx => by rw [hcalls]; exact hx
  have hund : s.undispatched = true ∧ t.undispatched = false := by
    unfold State.undispatched
    rw [hshared, hhandling, hflag, hpc]
    exact ⟨rfl, rfl⟩
  constructor
  case slot =>
    rw [hshared, horigin]
    exact hs.slot.grows hgrows
  case writing =>
    rw [hclient]
    exact fun c hw => (hs.writing c hw).grows hgrows
  case reached =>
    rw [hclient, horigin]
    exact hs.reached
  case offered =>
    rw [horigin]
    exact fun _ => hs.offered hflag
  case flag =>
    rw [hshared]
    exact fun _ => hflag
  case count =>
    have hle := hs.count
    unfold State.publishedCount at hle ⊢
    rw [hund.1, Bool.toNat_true] at hle
    rw [hund.2, Bool.toNat_false, hdispatched, hpublished, List.length_append,
      List.length_singleton]
    exact hle

omit [DecidableEq ι] in
theorem Provenance.server {s t : State ι σ} (hs : Provenance s)
    (h : serverStep handle s = some t) : Provenance t := by
  by_cases hpc : s.server.pc = .dispatch
  · exact hs.dispatches hpc h
  · obtain ⟨⟨hmessage, hund, hflag⟩, hcalls, horigin, hdispatched, -⟩ :=
      serverStep_silent hpc (fun hh => hs.flag (.inr hh)) h
    have hclient := serverStep_moves h
    have hpublished := (serverStep_calls h).2
    have hmade : ∀ {k : Nat} {P : IPCMessage → Prop}, s.history.Made k P → t.history.Made k P :=
      fun hk => hk.grows fun _ _ hx => by rw [hcalls]; exact hx
    constructor
    case slot =>
      rw [hmessage, horigin]
      exact hs.slot.grows fun _ _ hx => by rw [hcalls]; exact hx
    case writing =>
      rw [hclient]
      exact fun c hw => hmade (hs.writing c hw)
    case reached =>
      rw [hclient, horigin]
      exact hs.reached
    case offered =>
      rw [horigin]
      exact fun hf => hs.offered ((serverStep_size h).2 (.inl hf))
    case flag => exact hflag
    case count =>
      rw [State.publishedCount_congr hund hdispatched, hpublished]
      exact hs.count

theorem Provenance.enter {s : State ι σ} {c : ι} {x : Client} (hs : Provenance s)
    (hx : x.pc.inside = false) : Provenance (s.setClient c x) := by
  have hnot : x.pc.writing = false := by
    revert hx
    cases x.pc <;> simp [ClientPc.inside, ClientPc.writing]
  refine ⟨hs.slot, fun d hw => ?_, fun d => ?_, hs.offered, hs.flag, hs.count⟩
  · by_cases hd : d = c
    · rw [hd, s.setClient_self, hnot] at hw
      cases hw
    · rw [s.setClient_of_ne x hd] at hw ⊢
      exact hs.writing d hw
  · by_cases hd : d = c
    · rw [hd, s.setClient_self]
      revert hx
      cases x.pc <;> simp [ClientPc.inside, Origin.Reached, State.setClient]
    · rw [s.setClient_of_ne x hd]
      exact hs.reached d

theorem Provenance.step {s t : State ι σ} {a : Action ι} (hs : Provenance s)
    (h : Step handle s a t) : Provenance t := by
  cases a with
  | send c r =>
    obtain ⟨-, rfl | rfl⟩ := step_send h
    · exact hs
    · exact hs.enter rfl
  | wait c e =>
    obtain ⟨-, rfl⟩ := step_wait h
    exact hs.enter rfl
  | client c => exact hs.client h
  | server => exact hs.server h

/-! ## The id of a response -/

/-- Some call drew the id. -/
def History.Drew (h : History ι) (e : UInt32) : Prop := ∃ k, h.Made k fun n => n.messageId = e

omit [DecidableEq ι] in
theorem History.Drew.grows {h h' : History ι} {e : UInt32}
    (hcalls : ∀ (k : Nat) x, h.calls[k]? = some x → h'.calls[k]? = some x) (he : h.Drew e) :
    h'.Drew e := by
  obtain ⟨k, hk⟩ := he
  exact ⟨k, hk.grows hcalls⟩

/-- The response that the server has tagged is not posted yet. -/
def ServerPc.tagged : ServerPc → Bool
  | .storeHasResponse | .postResponseReady => true
  | _ => false

/-- The client has found its id at the response. -/
def ClientPc.matched : ClientPc → Bool
  | .readResponseSize | .copyResponse | .clearHasResponse | .clearResponseSize => true
  | _ => false

/-- Wherever an id is compared, tagged or recorded, a call drew it. -/
structure Attributed (s : State ι σ) : Prop where
  current : 0 < s.shared.dataReady ∨ s.server.pc.busy = true ∨
    (∃ c, (s.client c).pc = .postDataReady) → s.history.Drew s.shared.currentMessageId
  held : s.server.pc.overwrites = true → s.history.Drew s.server.messageId
  posted : 0 < s.shared.responseReady ∨ s.server.pc.tagged = true ∨
    (∃ c, (s.client c).pc.receiving = true) → s.history.Drew s.shared.responseMessageId
  expected : ∀ c, (s.client c).pc.matched = true → s.history.Drew (s.client c).expected
  received : ∀ c e bytes, (c, e, bytes) ∈ s.history.received → s.history.Drew e

omit [DecidableEq ι] in
theorem Initial.attributed {s : State ι σ} (h : Initial s) : Attributed s := by
  have hidle : ∀ c, (s.client c).pc = .idle := fun c => (h.client c).1
  constructor
  case current =>
    rw [h.dataReady, h.server]
    rintro (hpos | hbusy | ⟨c, hc⟩)
    · omega
    · cases hbusy
    · rw [hidle] at hc
      cases hc
  case held =>
    rw [h.server]
    rintro ⟨⟩
  case posted =>
    rw [h.responseReady, h.server]
    rintro (hpos | htagged | ⟨c, hc⟩)
    · omega
    · cases htagged
    · rw [hidle] at hc
      cases hc
  case expected =>
    intro c hc
    rw [hidle] at hc
    cases hc
  case received =>
    rw [h.history]
    exact fun _ _ _ hmem => absurd hmem List.not_mem_nil

/-- A client stores the id of the slot, or leaves the current id and offers no token for it. -/
theorem clientStep_currentId {s t : State ι σ} {c : ι} (h : clientStep s c = some t) :
    ((s.client c).pc = .storeCurrentId ∧
        t.shared.currentMessageId = s.shared.message.messageId) ∨
      t.shared.currentMessageId = s.shared.currentMessageId ∧
        (0 < t.shared.dataReady ∨ (t.client c).pc = .postDataReady →
          0 < s.shared.dataReady ∨ (s.client c).pc = .postDataReady) := by
  cases hpc : (s.client c).pc
  all_goals simp only [clientStep, hpc] at h
  all_goals try split at h
  all_goals cases h
  all_goals simp [State.setClient, State.setShared, State.setHistory]

/-- A client takes a posted token, finds its id at the response, and records it. -/
theorem clientStep_takes {s t : State ι σ} {c : ι} (h : clientStep s c = some t) :
    (t.shared.responseMessageId = s.shared.responseMessageId ∧
      (0 < t.shared.responseReady ∨ (t.client c).pc.receiving = true →
        0 < s.shared.responseReady ∨ (s.client c).pc.receiving = true)) ∧
      ((t.client c).pc.matched = true →
        (t.client c).expected = (s.client c).expected ∧ (s.client c).pc.matched = true ∨
          (s.client c).pc.receiving = true ∧
            (t.client c).expected = s.shared.responseMessageId) ∧
      (t.history.received = s.history.received ∨ (s.client c).pc.matched = true ∧
        t.history.received =
          s.history.received ++ [(c, (s.client c).expected, (s.client c).responseBuffer)]) := by
  cases hpc : (s.client c).pc
  all_goals simp only [clientStep, hpc] at h
  all_goals try split at h
  all_goals cases h
  all_goals simp_all [State.setClient, State.setShared, State.setHistory, ClientPc.receiving,
    ClientPc.matched]

/-- Who still needs an id after a client's step: a token, the server, or a client. -/
theorem clientStep_needs {s t : State ι σ} {c : ι} {token token' busy : Prop} {P : Client → Prop}
    (h : clientStep s c = some t) (hback : token' ∨ P (t.client c) → token ∨ P (s.client c))
    (hneeds : token' ∨ busy ∨ ∃ d, P (t.client d)) : token ∨ busy ∨ ∃ d, P (s.client d) := by
  have hmine : token ∨ P (s.client c) → token ∨ busy ∨ ∃ d, P (s.client d) :=
    fun hor => hor.imp_right fun hpc => .inr ⟨c, hpc⟩
  rcases hneeds with htoken | hbusy | ⟨d, hd⟩
  · exact hmine (hback (.inl htoken))
  · exact .inr (.inl hbusy)
  · by_cases hdc : d = c
    · subst hdc
      exact hmine (hback (.inr hd))
    · rw [clientStep_other h hdc] at hd
      exact .inr (.inr ⟨d, hd⟩)

theorem Attributed.client {s t : State ι σ} {c : ι} (hs : Attributed s) (hp : Provenance s)
    (h : clientStep s c = some t) : Attributed t := by
  have hcalls := fun (k : Nat) x => clientStep_calls h (k := k) (x := x)
  have hserver := (clientStep_moves h).1
  obtain ⟨⟨hid, hready⟩, hmatched, hreceived⟩ := clientStep_takes h
  constructor
  case current =>
    intro hneeds
    rcases clientStep_currentId h with ⟨hpc, hstored⟩ | ⟨hsame, hback⟩
    · have hcomplete := hp.reached c
      rw [hpc] at hcomplete
      obtain ⟨k, hk⟩ := Option.isSome_iff_exists.mp hcomplete.messageId
      obtain ⟨d, n, hcall, hn⟩ := hp.slot k hk
      rw [hstored, hn]
      exact ⟨k, d, n, hcalls k _ hcall, rfl⟩
    · rw [hsame]
      rw [hserver] at hneeds
      exact (hs.current (clientStep_needs (P := fun x => x.pc = .postDataReady) h hback hneeds)).grows
        hcalls
  case held =>
    rw [hserver]
    exact fun hw => (hs.held hw).grows hcalls
  case posted =>
    intro hneeds
    rw [hserver] at hneeds
    rw [hid]
    exact (hs.posted (clientStep_needs (P := fun x => x.pc.receiving = true) h hready hneeds)).grows
      hcalls
  case expected =>
    intro d hd
    by_cases hdc : d = c
    · subst hdc
      rcases hmatched hd with ⟨hsame, hwas⟩ | ⟨hreceiving, htagged⟩
      · rw [hsame]
        exact (hs.expected d hwas).grows hcalls
      · rw [htagged]
        exact (hs.posted (.inr (.inr ⟨d, hreceiving⟩))).grows hcalls
    · rw [clientStep_other h hdc] at hd ⊢
      exact (hs.expected d hd).grows hcalls
  case received =>
    intro d e bytes hmem
    rcases hreceived with hsame | ⟨hwas, hadd⟩
    · rw [hsame] at hmem
      exact (hs.received d e bytes hmem).grows hcalls
    · rw [hadd] at hmem
      rcases List.mem_append.mp hmem with hold | hnew
      · exact (hs.received d e bytes hold).grows hcalls
      · cases List.mem_singleton.mp hnew
        exact (hs.expected c hwas).grows hcalls

omit [DecidableEq ι] in
/-- The server tags a response with the current id, which it has read before. -/
theorem serverStep_ids {s t : State ι σ} (h : serverStep handle s = some t) :
    (t.shared.currentMessageId = s.shared.currentMessageId ∧
      (0 < t.shared.dataReady ∨ t.server.pc.busy = true →
        0 < s.shared.dataReady ∨ s.server.pc.busy = true)) ∧
      (t.server.pc.overwrites = true →
        t.server.messageId = s.server.messageId ∧ s.server.pc.overwrites = true ∨
          t.server.messageId = s.shared.currentMessageId ∧ s.server.pc.busy = true) ∧
      (t.shared.responseMessageId = s.shared.responseMessageId ∧
          (0 < t.shared.responseReady ∨ t.server.pc.tagged = true →
            0 < s.shared.responseReady ∨ s.server.pc.tagged = true) ∨
        t.shared.responseMessageId = s.server.messageId ∧ s.server.pc.overwrites = true) ∧
      t.history.received = s.history.received := by
  cases hpc : s.server.pc
  all_goals simp only [serverStep, hpc] at h
  all_goals try split at h
  all_goals cases h
  all_goals simp_all [State.setServer, State.setShared, State.setHistory, ServerPc.busy,
    ServerPc.overwrites, ServerPc.tagged]

omit [DecidableEq ι] in
theorem Attributed.server {s t : State ι σ} (hs : Attributed s) (h : serverStep handle s = some t) :
    Attributed t := by
  obtain ⟨⟨hcurrent, hready⟩, hheld, htagged, hreceived⟩ := serverStep_ids h
  have hclient := serverStep_moves h
  have hcalls : ∀ (k : Nat) x, s.history.calls[k]? = some x → t.history.calls[k]? = some x :=
    fun _ _ hx => by rw [(serverStep_calls h).1]; exact hx
  constructor
  case current =>
    rw [hcurrent, hclient]
    rintro (hpos | hbusy | hposting)
    · exact (hs.current ((hready (.inl hpos)).imp_right .inl)).grows hcalls
    · exact (hs.current ((hready (.inr hbusy)).imp_right .inl)).grows hcalls
    · exact (hs.current (.inr (.inr hposting))).grows hcalls
  case held =>
    intro hw
    rcases hheld hw with ⟨hsame, hwas⟩ | ⟨hread, hbusy⟩
    · rw [hsame]
      exact (hs.held hwas).grows hcalls
    · rw [hread]
      exact (hs.current (.inr (.inl hbusy))).grows hcalls
  case posted =>
    intro hneeds
    rw [hclient] at hneeds
    rcases htagged with ⟨hsame, hback⟩ | ⟨htag, hwas⟩
    · rw [hsame]
      rcases hneeds with hpos | htagged' | hreceiving
      · exact (hs.posted ((hback (.inl hpos)).imp_right .inl)).grows hcalls
      · exact (hs.posted ((hback (.inr htagged')).imp_right .inl)).grows hcalls
      · exact (hs.posted (.inr (.inr hreceiving))).grows hcalls
    · rw [htag]
      exact (hs.held hwas).grows hcalls
  case expected =>
    rw [hclient]
    exact fun c hc => (hs.expected c hc).grows hcalls
  case received =>
    rw [hreceived]
    exact fun c e bytes hmem => (hs.received c e bytes hmem).grows hcalls

theorem Attributed.enter {s : State ι σ} {c : ι} {x : Client} (hs : Attributed s)
    (hposting : x.pc ≠ .postDataReady) (hreceiving : x.pc.receiving = false)
    (hmatched : x.pc.matched = false) : Attributed (s.setClient c x) := by
  have hback : ∀ {P : Client → Prop}, ¬ P x → (∃ d, P ((s.setClient c x).client d)) →
      ∃ d, P (s.client d) := by
    rintro P hx ⟨d, hd⟩
    by_cases hdc : d = c
    · rw [hdc, s.setClient_self] at hd
      exact absurd hd hx
    · rw [s.setClient_of_ne x hdc] at hd
      exact ⟨d, hd⟩
  constructor
  case current =>
    exact fun hneeds => hs.current (hneeds.imp_right fun hor => hor.imp_right
      (hback (P := fun y => y.pc = .postDataReady) hposting))
  case held => exact hs.held
  case posted =>
    have hnot : ¬ x.pc.receiving = true := by simp [hreceiving]
    exact fun hneeds => hs.posted (hneeds.imp_right fun hor => hor.imp_right
      (hback (P := fun y => y.pc.receiving = true) hnot))
  case expected =>
    intro d hd
    by_cases hdc : d = c
    · rw [hdc, s.setClient_self, hmatched] at hd
      cases hd
    · rw [s.setClient_of_ne x hdc] at hd ⊢
      exact hs.expected d hd
  case received => exact hs.received

theorem Attributed.step {s t : State ι σ} {a : Action ι} (hs : Attributed s) (hp : Provenance s)
    (h : Step handle s a t) : Attributed t := by
  cases a with
  | send c r =>
    obtain ⟨-, rfl | rfl⟩ := step_send h
    · exact hs
    · exact hs.enter nofun rfl rfl
  | wait c e =>
    obtain ⟨-, rfl⟩ := step_wait h
    exact hs.enter nofun rfl rfl
  | client c => exact hs.client hp h
  | server => exact hs.server h

/-! ## How many responses are taken -/

/-- The handlers that have computed a response. -/
def History.replies (h : History ι) : Nat := h.dispatched.countP fun d => d.response.isSome

/-- Each response is being stored, or its token is there, or it has been taken once. -/
def ReplyCount [Fintype ι] (s : State ι σ) : Prop :=
  s.history.received.length + count (fun x : Client => x.pc.receiving) s.client +
    s.shared.responseReady + s.server.pc.answering.toNat ≤ s.history.replies

omit [DecidableEq ι] in
theorem Initial.replyCount [Fintype ι] {s : State ι σ} (h : Initial s) : ReplyCount s := by
  have hnone : count (fun x : Client => x.pc.receiving) s.client = 0 :=
    count_eq_zero.mpr fun c => by rw [(h.client c).1]; rfl
  rw [ReplyCount, hnone, h.responseReady, h.server, h.history]
  exact le_refl _

theorem clientStep_replies {s t : State ι σ} {c : ι} (h : clientStep s c = some t) :
    t.history.received.length + (t.client c).pc.receiving.toNat + t.shared.responseReady ≤
        s.history.received.length + (s.client c).pc.receiving.toNat + s.shared.responseReady ∧
      t.history.dispatched = s.history.dispatched := by
  cases hpc : (s.client c).pc
  all_goals simp only [clientStep, hpc] at h
  all_goals try split at h
  all_goals cases h
  all_goals simp [State.setClient, State.setShared, State.setHistory, ClientPc.receiving]
  all_goals omega

omit [DecidableEq ι] in
theorem serverStep_replies {s t : State ι σ} (h : serverStep handle s = some t) :
    t.shared.responseReady + t.server.pc.answering.toNat + s.history.replies ≤
        s.shared.responseReady + s.server.pc.answering.toNat + t.history.replies ∧
      t.history.received = s.history.received := by
  cases hpc : s.server.pc
  case dispatch =>
    simp only [serverStep, hpc, Option.some.injEq] at h
    rw [← h]
    cases hresponse : (handle s.server.cache s.shared).2
    all_goals simp [State.setServer, State.setHistory, ServerPc.answering, History.replies]
    omega
  all_goals simp only [serverStep, hpc] at h
  all_goals try split at h
  all_goals simp only [Option.some.injEq, reduceCtorEq] at h
  all_goals rw [← h]
  all_goals simp [State.setServer, State.setShared, State.setHistory, ServerPc.answering,
    History.replies]

theorem ReplyCount.enter [Fintype ι] {s : State ι σ} {c : ι} {x : Client} (hs : ReplyCount s)
    (hidle : (s.client c).pc = .idle) (hx : x.pc.receiving = false) :
    ReplyCount (s.setClient c x) := by
  have hcount := count_update (fun x : Client => x.pc.receiving) s.client c x
  rw [hidle, hx, show ClientPc.receiving .idle = false from rfl] at hcount
  show s.history.received.length + count _ (Function.update s.client c x) +
    s.shared.responseReady + s.server.pc.answering.toNat ≤ s.history.replies
  unfold ReplyCount at hs
  omega

theorem ReplyCount.step [Fintype ι] {s t : State ι σ} {a : Action ι} (hs : ReplyCount s)
    (h : Step handle s a t) : ReplyCount t := by
  cases a with
  | send c r =>
    obtain ⟨hidle, rfl | rfl⟩ := step_send h
    · exact hs
    · exact hs.enter hidle rfl
  | wait c e =>
    obtain ⟨hidle, rfl⟩ := step_wait h
    exact hs.enter hidle rfl
  | client c =>
    have hstep : clientStep s c = some t := h
    obtain ⟨hreplies, hdispatched⟩ := clientStep_replies hstep
    obtain ⟨hserver, hclient⟩ := clientStep_moves hstep
    have hcount := count_update (fun x : Client => x.pc.receiving) s.client c (t.client c)
    rw [← hclient] at hcount
    unfold ReplyCount History.replies at hs ⊢
    rw [hserver, hdispatched]
    omega
  | server =>
    have hstep : serverStep handle s = some t := h
    obtain ⟨hreplies, hreceived⟩ := serverStep_replies hstep
    unfold ReplyCount at hs ⊢
    rw [serverStep_moves hstep, hreceived]
    omega

/-- **Nothing is received that was not answered.** In every state of every interleaving, with any number of
clients, a `wait_for_response` has returned true only for an id that some call drew; and it has returned
true, over all clients, at most as many times as handlers have computed a response, less the tokens that
are still there. -/
theorem received_was_drawn [Fintype ι] {s : State ι σ} (h : Reachable handle s) :
    (∀ c e bytes, (c, e, bytes) ∈ s.history.received → s.history.Drew e) ∧
      s.history.received.length + s.shared.responseReady ≤ s.history.replies := by
  obtain ⟨s₀, as, h₀, hrun⟩ := h
  have hall : Provenance s ∧ Attributed s ∧ ReplyCount s :=
    Run.invariant (I := fun s => Provenance s ∧ Attributed s ∧ ReplyCount s)
      (fun _ _ _ hs hst => ⟨hs.1.step hst, hs.2.1.step hs.1 hst, hs.2.2.step hst⟩)
      ⟨h₀.provenance, h₀.attributed, h₀.replyCount⟩ hrun
  refine ⟨hall.2.1.received, ?_⟩
  have hle := hall.2.2
  unfold ReplyCount at hle
  omega

theorem received_was_drawn_taken :
    ∃ s : State Unit Unit, s.history.received = [((), 1, [])] ∧ s.history.Drew 1 ∧
      s.history.received.length + s.shared.responseReady ≤ s.history.replies := by
  obtain ⟨s, hs⟩ : ∃ s, exec (step alwaysReply) (.fresh () : State Unit Unit) requestTaken = some s :=
    ⟨_, rfl⟩
  have hreceived : s.history.received = [((), 1, [])] := by
    cases hs
    rfl
  obtain ⟨hdrew, hcount⟩ := received_was_drawn ⟨_, _, fresh_initial (), run_of_exec hs⟩
  exact ⟨s, hreceived, hdrew () 1 [] (by rw [hreceived]; exact List.mem_singleton_self _), hcount⟩

end CCache.Ipc
