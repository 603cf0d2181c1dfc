/-
# CCache.Ipc.Requests — what can stand in the slot, in every interleaving.

A client stores to the slot only what it took: a request that passed the size check of `send_message`.
So every recorded call is the message of such a request, and whatever the slot holds when the server
comes to dispatch it, torn or not, its size field is one that some client stored: it never announces
more than the buffer holds.
-/
import CCache.Ipc.Delivery

namespace CCache.Ipc

open CCache.Lib.Runs

variable {ι σ : Type}

/-! ## Every call's message is a request that was taken -/

/-- Clients that are sending have passed the size check, and so has every recorded call. -/
structure Requests (s : State ι σ) : Prop where
  fits : ∀ c, (s.client c).pc.sending = true → (s.client c).request.Fits
  calls : ∀ call ∈ s.history.calls, ∃ r id, Request.Fits r ∧ call.2 = r.message id

theorem Requests.of_initial {s : State ι σ} (h : Initial s) : Requests s := by
  constructor
  · intro c hc
    rw [(h.client c).1] at hc
    cases hc
  · rw [h.history]
    exact fun _ hcall => absurd hcall List.not_mem_nil

variable [DecidableEq ι] {handle : σ → SharedData → σ × Option (List UInt8)}

/-- A client that goes on sending goes on with its request. -/
theorem clientStep_request {s t : State ι σ} {c : ι} (h : clientStep s c = some t) :
    (t.client c).request = (s.client c).request ∧
      ((t.client c).pc.sending = true → (s.client c).pc.sending = true) := by
  unfold clientStep at h
  dsimp only at h
  split at h
  all_goals try split at h
  all_goals cases h
  all_goals simp_all [State.setClient, State.setShared, State.setHistory, ClientPc.sending,
    ClientPc.inside]

/-- A client elsewhere is as it was. -/
theorem Requests.client {s t : State ι σ} {c : ι} (hs : Requests s) (h : clientStep s c = some t) :
    Requests t := by
  obtain ⟨hrequest, hsending⟩ := clientStep_request h
  constructor
  · intro d hd
    by_cases hdc : d = c
    · subst hdc
      rw [hrequest]
      exact hs.fits d (hsending hd)
    · rw [clientStep_other h hdc] at hd ⊢
      exact hs.fits d hd
  · intro call hcall
    rcases clientStep_calls_eq h with hsame | ⟨hpc, happend⟩
    · exact hs.calls call (hsame ▸ hcall)
    · rw [happend] at hcall
      rcases List.mem_append.mp hcall with hold | hnew
      · exact hs.calls call hold
      · rw [List.mem_singleton.mp hnew]
        exact ⟨_, _, hs.fits c (by rw [hpc]; rfl), rfl⟩

theorem Requests.enter {s : State ι σ} {c : ι} {x : Client} (hs : Requests s)
    (hx : x.pc.sending = true → x.request.Fits) : Requests (s.setClient c x) := by
  refine ⟨fun d hd => ?_, hs.calls⟩
  by_cases hdc : d = c
  · subst hdc
    rw [s.setClient_self] at hd ⊢
    exact hx hd
  · rw [s.setClient_of_ne x hdc] at hd ⊢
    exact hs.fits d hd

theorem Requests.step {s t : State ι σ} {a : Action ι} (hs : Requests s) (h : Step handle s a t) :
    Requests t := by
  cases a with
  | send c r =>
    simp only [Step, Ipc.step] at h
    split at h
    · split at h
      · rename_i hfits
        cases h
        exact hs.enter fun _ => hfits
      · cases h
        exact hs
    · cases h
  | wait c e =>
    obtain ⟨-, rfl⟩ := step_wait h
    exact hs.enter fun hsending => by cases hsending
  | client c => exact hs.client h
  | server =>
    refine ⟨fun c hc => ?_, fun call hcall => ?_⟩
    · rw [serverStep_moves h] at hc ⊢
      exact hs.fits c hc
    · rw [(serverStep_calls h).1] at hcall
      exact hs.calls call hcall

/-- A step dispatches what is in the slot, or leaves the file and the dispatches alone. -/
theorem step_dispatch {s t : State ι σ} {a : Action ι} (h : Step handle s a t) :
    (t.server.cache = s.server.cache ∧ t.history.dispatched = s.history.dispatched) ∨
      (a = .server ∧ s.server.pc = .dispatch) ∧
        t.server.cache = (handle s.server.cache s.shared).1 ∧
        t.history.dispatched = s.history.dispatched ++
          [⟨s.shared.message.handed, s.history.origin, (handle s.server.cache s.shared).2⟩] := by
  cases a with
  | send c r =>
    rcases (step_send h).2 with rfl | rfl <;> exact .inl ⟨rfl, rfl⟩
  | wait c e =>
    rw [(step_wait h).2]
    exact .inl ⟨rfl, rfl⟩
  | client c =>
    have h : clientStep s c = some t := h
    refine .inl ⟨congrArg Server.cache (clientStep_moves h).1, ?_⟩
    unfold clientStep at h
    dsimp only at h
    split at h
    all_goals try split at h
    all_goals cases h
    all_goals rfl
  | server =>
    cases hpc : s.server.pc
    all_goals simp only [Step, Ipc.step, serverStep, hpc] at h
    all_goals try split at h
    all_goals cases h
    all_goals first | exact .inl ⟨rfl, rfl⟩ | exact .inr ⟨⟨rfl, rfl⟩, rfl, rfl⟩

/-! ## The size in the slot -/

/-- The client has stored the size of its payload and not yet published. -/
def ClientPc.sized : ClientPc → Bool
  | .storePayload | .storeMessageSize | .storeHasMessage => true
  | _ => false

/-- The slot may be dispatched, now or when a client that has stored its size goes on. -/
def Offered (s : State ι σ) : Prop :=
  s.shared.hasMessage = true ∨ s.server.pc = .dispatch ∨ ∃ c, (s.client c).pc.sized = true

/-- A slot that may be dispatched announces a payload that the buffer holds. -/
def SizeFits (s : State ι σ) : Prop :=
  Offered s → s.shared.message.payloadSize ≤ maxMessageSize - sizeofIPCMessage

omit [DecidableEq ι] in
theorem Initial.sizeFits {s : State ι σ} (h : Initial s) : SizeFits s := by
  rintro (hflag | hpc | ⟨c, hc⟩)
  · rw [h.hasMessage] at hflag
    cases hflag
  · rw [h.server] at hpc
    cases hpc
  · rw [(h.client c).1] at hc
    cases hc

/-- A client's step stores a size that fits, or keeps the size and offers nothing new. -/
theorem clientStep_size {s t : State ι σ} {c : ι} (h : clientStep s c = some t) :
    ((s.client c).pc.sending = true ∧
        t.shared.message.payloadSize = (s.client c).request.data.length) ∨
      t.shared.message.payloadSize = s.shared.message.payloadSize ∧
        (t.shared.hasMessage = true ∨ (t.client c).pc.sized = true →
          s.shared.hasMessage = true ∨ (s.client c).pc.sized = true) := by
  unfold clientStep at h
  dsimp only at h
  split at h
  all_goals try split at h
  all_goals cases h
  all_goals simp_all [State.setClient, State.setShared, State.setHistory, ClientPc.sending,
    ClientPc.inside, ClientPc.sized]

omit [DecidableEq ι] in
/-- The server stores no size, and goes on to dispatch only what is published. -/
theorem serverStep_size {s t : State ι σ} (h : serverStep handle s = some t) :
    t.shared.message.payloadSize = s.shared.message.payloadSize ∧
      (t.shared.hasMessage = true ∨ t.server.pc = .dispatch → s.shared.hasMessage = true) := by
  unfold serverStep at h
  dsimp only at h
  split at h
  all_goals try split at h
  all_goals cases h
  all_goals simp_all [State.setServer, State.setShared, State.setHistory]

/-- Entering a call offers nothing. -/
theorem SizeFits.enter {s : State ι σ} {c : ι} {x : Client} (hs : SizeFits s)
    (hx : x.pc.sized = false) : SizeFits (s.setClient c x) := by
  rintro (hflag | hpc | ⟨d, hd⟩)
  · exact hs (.inl hflag)
  · exact hs (.inr (.inl hpc))
  · by_cases hdc : d = c
    · rw [hdc, s.setClient_self, hx] at hd
      cases hd
    · rw [s.setClient_of_ne x hdc] at hd
      exact hs (.inr (.inr ⟨d, hd⟩))

theorem SizeFits.step {s t : State ι σ} {a : Action ι} (hs : SizeFits s) (hr : Requests s)
    (h : Step handle s a t) : SizeFits t := by
  cases a with
  | send c r =>
    obtain ⟨-, rfl | rfl⟩ := step_send h
    · exact hs
    · exact hs.enter rfl
  | wait c e =>
    obtain ⟨-, rfl⟩ := step_wait h
    exact hs.enter rfl
  | client c =>
    have h : clientStep s c = some t := h
    have hserver := (clientStep_moves h).1
    intro hoffered
    rcases clientStep_size h with ⟨hsending, hsize⟩ | ⟨hsize, hback⟩
    · rw [hsize]
      exact hr.fits c hsending
    · rw [hsize]
      refine hs ?_
      rcases hoffered with hflag | hpc | ⟨d, hd⟩
      · exact (hback (.inl hflag)).imp id fun hc => .inr ⟨c, hc⟩
      · exact .inr (.inl (by rw [← hserver]; exact hpc))
      · by_cases hdc : d = c
        · subst hdc
          exact (hback (.inr hd)).imp id fun hc => .inr ⟨d, hc⟩
        · rw [clientStep_other h hdc] at hd
          exact .inr (.inr ⟨d, hd⟩)
  | server =>
    obtain ⟨hsize, hback⟩ := serverStep_size h
    intro hoffered
    rw [hsize]
    refine hs ?_
    rcases hoffered with hflag | hpc | ⟨c, hc⟩
    · exact .inl (hback (.inl hflag))
    · exact .inl (hback (.inr hpc))
    · rw [serverStep_moves h] at hc
      exact .inr (.inr ⟨c, hc⟩)

end CCache.Ipc
