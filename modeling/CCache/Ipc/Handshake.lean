/-
# CCache.Ipc.Handshake — one client that alternates, and when it can be left waiting.

A single client alternates `send_message` and `wait_for_response` on routes that reply.  A request is
owed a reply from the store of `has_message` until the client takes the `response_ready` token; the
balance is that this reply is either posted or still to come from a message the server has not
cleared.  The balance breaks when the client publishes its next request before the server has cleared
the last one, since the clear then wipes it out, and when `send_response` refuses the response.
-/
import CCache.Ipc.Delivery

namespace CCache.Ipc

open CCache.Lib.Runs

variable {σ : Type} {handle : σ → SharedData → σ × Option (List UInt8)}

/-! ## The client and the conditions -/

/-- A request whose handler calls `send_response`, whatever the cache and the rest of the segment. -/
def Replying (handle : σ → SharedData → σ × Option (List UInt8)) (r : Request) : Prop :=
  ∀ (cache : σ) (d : SharedData) (id : UInt32), d.message.handed = r.message id →
    (handle cache d).2.isSome = true

/-- The client alternates its two calls, beginning with `send_message`. -/
def InTurn (s : State Unit σ) : Action Unit → Prop
  | .send _ _ => (s.client ()).awaits = false
  | .wait _ _ => (s.client ()).awaits = true
  | _ => True

/-- The client alternates and sends on routes that reply. -/
def Alternates (handle : σ → SharedData → σ × Option (List UInt8)) (s : State Unit σ)
    (a : Action Unit) : Prop :=
  InTurn s a ∧ ∀ c r, a = .send c r → Replying handle r

/-- The client publishes only after the server has cleared `has_message`, and the response fits. -/
def Unhurried (s : State Unit σ) : Action Unit → Prop
  | .client _ => (s.client ()).pc = .storeHasMessage → s.shared.hasMessage = false
  | .server => s.server.pc = .readCurrentId → s.server.response.length ≤ maxMessageSize
  | _ => True

/-- The client waits for a response and the server for a message, both at 0. -/
structure Stuck (s : State Unit σ) : Prop where
  client : (s.client ()).pc = .waitResponse
  responseReady : s.shared.responseReady = 0
  server : s.server.pc = .waitDataReady
  dataReady : s.shared.dataReady = 0

/-! ## The balance -/

/-- The client has published a request and not taken the token of its response. -/
def Client.owed (x : Client) : Bool :=
  match x.pc with
  | .idle => x.awaits
  | .storeCurrentId | .postDataReady | .postMutex | .waitResponse => true
  | _ => false

/-- The message in the slot is answered. -/
def ServerPc.answered : ServerPc → Bool
  | .clearHasMessage => true
  | _ => false

/-- The server will post the response of the message in the slot. -/
def State.replyComes (s : State Unit σ) : Bool := s.shared.hasMessage && !s.server.pc.answered

/-- The reply that is owed is posted or comes, and every request so far is one that is replied to. -/
structure Balance (handle : σ → SharedData → σ × Option (List UInt8)) (s : State Unit σ) : Prop where
  owed : s.shared.responseReady + s.replyComes.toNat = (s.client ()).owed.toNat
  calls : ∀ c m, (c, m) ∈ s.history.calls → ∃ r id, m = Request.message r id ∧ Replying handle r
  request : (s.client ()).pc.sending = true → Replying handle (s.client ()).request

theorem Initial.balance {s : State Unit σ} (h : Initial s) : Balance handle s := by
  refine ⟨?_, ?_, ?_⟩
  · rw [State.replyComes, h.hasMessage, h.responseReady, Client.owed, (h.client ()).1, (h.client ()).2]
    rfl
  · rw [h.history]
    simp
  · rw [(h.client ()).1]
    rintro ⟨⟩

/-- What a client's step changes in the balance: publishing into an empty slot adds a reply to come
and to be owed, taking the token ends both, and nothing else counts. -/
theorem clientStep_balance {s t : State Unit σ} {c : Unit}
    (hpub : (s.client ()).pc = .storeHasMessage →
      s.shared.hasMessage = false ∧ s.server.pc.answered = false)
    (h : clientStep s c = some t) :
    t.shared.responseReady + t.replyComes.toNat + (s.client ()).owed.toNat =
      s.shared.responseReady + s.replyComes.toNat + (t.client ()).owed.toNat := by
  cases hpc : (s.client ()).pc
  all_goals simp only [clientStep, hpc] at h
  all_goals try split at h
  all_goals cases h
  all_goals simp_all [State.setClient, State.setShared, State.setHistory, State.replyComes,
    Client.owed]
  omega

/-- A call of `send_message` goes on with the request it was entered with. -/
theorem clientStep_sending {s t : State Unit σ} {c : Unit} (h : clientStep s c = some t)
    (hsend : (t.client ()).pc.sending = true) :
    (s.client ()).pc.sending = true ∧ (t.client ()).request = (s.client ()).request := by
  cases hpc : (s.client ()).pc
  all_goals simp only [clientStep, hpc] at h
  all_goals try split at h
  all_goals cases h
  all_goals simp_all [State.setClient, State.setShared, State.setHistory, ClientPc.sending,
    ClientPc.inside]

/-- What a server's step changes in the balance: the reply comes until its token does. -/
theorem serverStep_balance {s t : State Unit σ}
    (hreply : s.server.pc = .dispatch → (handle s.server.cache s.shared).2.isSome = true)
    (hfits : s.server.pc = .readCurrentId → s.server.response.length ≤ maxMessageSize)
    (hpost : s.server.pc = .postResponseReady → s.shared.hasMessage = true)
    (h : serverStep handle s = some t) :
    t.shared.responseReady + t.replyComes.toNat = s.shared.responseReady + s.replyComes.toNat := by
  cases hpc : s.server.pc
  all_goals simp only [serverStep, hpc] at h
  all_goals try split at h
  all_goals cases h
  all_goals simp_all [State.setServer, State.setShared, State.setHistory, State.replyComes,
    ServerPc.answered]
  all_goals omega

/-- A client's step keeps the balance; publishing needs the flag to be false. -/
theorem Balance.client {s t : State Unit σ} {c : Unit} (hs : Balance handle s) (hd : Delivery s)
    (hun : Unhurried s (.client c)) (h : clientStep s c = some t) : Balance handle t := by
  refine ⟨?_, ?_, ?_⟩
  · have howed := hs.owed
    have hstep := clientStep_balance (fun hpc => ⟨hun hpc, by
      -- the flag is false, so the server is not about to clear it
      by_contra hne
      have hhandling : s.server.pc.handling = true := by
        revert hne
        cases s.server.pc <;> simp [ServerPc.answered, ServerPc.handling]
      have hflag := hd.flag (.inr hhandling)
      rw [hun hpc] at hflag
      cases hflag⟩) h
    omega
  · intro d m hm
    rcases clientStep_calls_eq h with hcalls | ⟨hpc, hcalls⟩
    · exact hs.calls d m (hcalls ▸ hm)
    · rw [hcalls, List.mem_append, List.mem_singleton] at hm
      rcases hm with hm | hm
      · exact hs.calls d m hm
      · cases hm
        exact ⟨_, _, rfl, hs.request (by rw [hpc]; rfl)⟩
  · intro hsend
    obtain ⟨hsending, hrequest⟩ := clientStep_sending h hsend
    rw [hrequest]
    exact hs.request hsending

/-- A server's step keeps the balance: what is dispatched is a request that is replied to. -/
theorem Balance.server {s t : State Unit σ} (hs : Balance handle s) (hd : Delivery s)
    (hun : Unhurried s .server) (h : serverStep handle s = some t) : Balance handle t := by
  have howed := hs.owed
  have hreply : s.server.pc = .dispatch → (handle s.server.cache s.shared).2.isSome = true := by
    intro hpc
    have hund : s.undispatched = true := by
      rw [State.undispatched, hd.flag (.inl hpc), hpc]
      rfl
    obtain ⟨-, c, hc⟩ := hd.whole hund
    obtain ⟨r, id, hm, hr⟩ := hs.calls c _ (List.mem_of_getElem? hc)
    exact hr _ _ id hm
  have hflag : s.server.pc = .postResponseReady → s.shared.hasMessage = true :=
    fun hpc => hd.flag (.inr (by rw [hpc]; rfl))
  refine ⟨?_, ?_, ?_⟩
  · rw [serverStep_moves h]
    have hstep := serverStep_balance hreply hun hflag h
    omega
  · rw [(serverStep_calls h).1]
    exact hs.calls
  · rw [serverStep_moves h]
    exact hs.request

/-- Entering a call in turn. -/
theorem Balance.enter {s : State Unit σ} {x : Client} (hs : Balance handle s)
    (hidle : (s.client ()).pc = .idle) (howed : x.owed = (s.client ()).awaits)
    (hreq : x.pc.sending = true → Replying handle x.request) :
    Balance handle (s.setClient () x) := by
  have hself : (s.setClient () x).client () = x := s.setClient_self () x
  refine ⟨?_, hs.calls, ?_⟩
  · rw [hself, howed]
    have h := hs.owed
    rw [Client.owed, hidle] at h
    exact h
  · rw [hself]
    exact hreq

theorem Balance.step {s t : State Unit σ} {a : Action Unit} (hs : Balance handle s)
    (hd : Delivery s) (halt : Alternates handle s a) (hun : Unhurried s a)
    (h : Step handle s a t) : Balance handle t := by
  cases a with
  | send c r =>
    obtain ⟨hidle, rfl | rfl⟩ := step_send h
    · exact hs
    · refine hs.enter hidle ?_ fun _ => halt.2 c r rfl
      exact (show (s.client ()).awaits = false from halt.1).symm
  | wait c e =>
    obtain ⟨hidle, rfl⟩ := step_wait h
    refine hs.enter hidle ?_ nofun
    exact (show (s.client ()).awaits = true from halt.1).symm
  | client c => exact hs.client hd hun h
  | server => exact hs.server hd hun h

/-! ## Runs of the alternating client -/

/-- An alternating client that publishes after the clear meets no contention: before its first store
every earlier request is answered and cleared, or answered and about to be. -/
theorem Balance.uncontended {s : State Unit σ} {a : Action Unit} (hs : Balance handle s)
    (hun : Unhurried s a) : Uncontended s a := by
  cases a with
  | client c =>
    refine ⟨fun hpc => ⟨?_, fun d => by rw [hpc]; rfl⟩, hun⟩
    have howed := hs.owed
    rw [Client.owed, hpc] at howed
    -- nothing is owed, so no reply comes, and what is published is dispatched
    have hno : s.replyComes = false := by
      cases hc : s.replyComes
      · rfl
      · rw [hc, Bool.toNat_true, Bool.toNat_false] at howed
        omega
    revert hno
    unfold State.replyComes State.undispatched
    cases s.shared.hasMessage <;> cases s.server.pc <;> simp [ServerPc.answered, ServerPc.handling]
  | send c r => trivial
  | wait c e => trivial
  | server => trivial

theorem Balance.not_stuck {s : State Unit σ} (hs : Balance handle s) (htoken : TokenComes s) :
    ¬ Stuck s := by
  intro hstuck
  have howed := hs.owed
  rw [Client.owed, hstuck.client, hstuck.responseReady, Bool.toNat_true] at howed
  have hflag : s.shared.hasMessage = true := by
    by_contra hno
    simp [State.replyComes, hno] at howed
  rcases htoken hflag (.inl hstuck.server) with hpos | ⟨c, hc⟩
  · have hzero := hstuck.dataReady
    omega
  · have hwait : (s.client c).pc = .waitResponse := hstuck.client
    rw [hwait] at hc
    cases hc

/-- **No stuck handshake for a client that does not publish too early.** In every run of the server
and one client that alternates `send_message` and `wait_for_response` on routes that reply, in which
the client stores `has_message = true` only when it is false and every response handed to
`send_response` fits, no state reached has both waiting at 0. -/
theorem handshake_not_stuck {s₀ s : State Unit σ} {as : List (Action Unit)} (h₀ : Initial s₀)
    (h : Run (Guarded (fun s a => Alternates handle s a ∧ Unhurried s a) (Step handle)) s₀ as s) :
    ¬ Stuck s := by
  have hall : Balance handle s ∧ Delivery s ∧ TokenComes s :=
    Run.invariant (I := fun s => Balance handle s ∧ Delivery s ∧ TokenComes s)
      (fun _ _ _ hs hst => ⟨hs.1.step hs.2.1 hst.1.1 hst.1.2 hst.2,
        hs.2.1.step (hs.1.uncontended hst.1.2) hst.2, hs.2.2.step hst.2⟩)
      ⟨h₀.balance, h₀.delivery, h₀.tokenComes⟩ h
  exact hall.1.not_stuck hall.2.2

/-- A handler that always replies. -/
def alwaysReply : Unit → SharedData → Unit × Option (List UInt8) := fun _ _ => ((), some [])

theorem alwaysReply_replying (r : Request) : Replying alwaysReply r := fun _ _ _ _ => rfl

instance (s : State Unit σ) : (a : Action Unit) → Decidable (InTurn s a)
  | .send .. | .wait .. => inferInstanceAs (Decidable (_ = _))
  | .client _ | .server => inferInstanceAs (Decidable True)

instance (s : State Unit σ) : (a : Action Unit) → Decidable (Unhurried s a)
  | .client _ | .server => inferInstanceAs (Decidable (_ → _))
  | .send .. | .wait .. => inferInstanceAs (Decidable True)

/-- The client sends, the server answers up to its clear of the flag, the client receives. -/
def requestAnswered : List (Action Unit) :=
  .send () ⟨[], []⟩ :: List.replicate 10 (.client ()) ++ List.replicate 9 .server ++
    .wait () 1 :: List.replicate 6 (.client ())

theorem handshake_not_stuck_waiting :
    ∃ s : State Unit Unit, (s.client ()).pc = .waitResponse ∧ s.server.pc = .waitDataReady ∧
      ¬ Stuck s := by
  obtain ⟨s, hs⟩ : ∃ s, exec (guarded (fun s a => InTurn s a ∧ Unhurried s a) (step alwaysReply))
      (.fresh () : State Unit Unit) (requestAnswered ++ [.server, .server] ++
        .send () ⟨[], []⟩ :: List.replicate 10 (.client ()) ++ [.wait () 2]) = some s := ⟨_, rfl⟩
  have hrun := (run_of_exec_guarded hs).mono fun s a t hst =>
    (⟨⟨⟨hst.1.1, fun _ r _ => alwaysReply_replying r⟩, hst.1.2⟩, hst.2⟩ :
      Guarded (fun s a => Alternates alwaysReply s a ∧ Unhurried s a) (Step alwaysReply) s a t)
  refine ⟨s, ?_, ?_, handshake_not_stuck (fresh_initial ()) hrun⟩
  · cases hs
    rfl
  · cases hs
    rfl

/-- The client receives its first response and publishes its second request before the server clears
the flag of the first: the clear wipes the second out, and both parties wait for ever. -/
theorem handshake_gets_stuck :
    ¬ ∀ (s₀ s : State Unit Unit) (as : List (Action Unit)), Initial s₀ →
      Run (Guarded (Alternates alwaysReply) (Step alwaysReply)) s₀ as s → ¬ Stuck s := by
  intro h
  obtain ⟨s, hs⟩ : ∃ s, exec (guarded InTurn (step alwaysReply)) (.fresh () : State Unit Unit)
      (requestAnswered ++ .send () ⟨[], []⟩ :: List.replicate 10 (.client ()) ++
        List.replicate 5 .server ++ [.wait () 2]) = some s := ⟨_, rfl⟩
  have hrun := (run_of_exec_guarded hs).mono fun s a t hst =>
    (⟨⟨hst.1, fun _ r _ => alwaysReply_replying r⟩, hst.2⟩ :
      Guarded (Alternates alwaysReply) (Step alwaysReply) s a t)
  refine h _ s _ (fresh_initial ()) hrun ?_
  cases hs
  exact ⟨rfl, rfl, rfl, rfl⟩

end CCache.Ipc
