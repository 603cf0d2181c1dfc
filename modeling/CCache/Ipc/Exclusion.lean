/-
# CCache.Ipc.Exclusion — what the mailbox mutex counts.

Clients wait on `mutex` and post it; the server only posts it, once per iteration of its loop.  So the
value of the semaphore plus the number of clients in the critical section of `send_message` is one
plus the number of iterations: the mutex excludes exactly until the first iteration ends.
-/
import CCache.Ipc.Mailbox
import CCache.Lib.Parties

namespace CCache.Ipc

open CCache.Lib.Runs
open CCache.Lib.Parties

variable {ι σ : Type} [DecidableEq ι]
variable {handle : σ → SharedData → σ × Option (List UInt8)}

/-! ## The critical section of `send_message` -/

/-- Between `sem_wait(mutex)` and `sem_post(mutex)`. -/
def ClientPc.inside : ClientPc → Bool
  | .storeId | .storeRouteHash | .storePayloadSize | .storePayload | .storeMessageSize
  | .storeHasMessage | .storeCurrentId | .postDataReady | .postMutex => true
  | _ => false

/-- A client's step keeps what the semaphore and the client hold together. -/
theorem clientStep_mutex {s t : State ι σ} {c : ι} (h : clientStep s c = some t) :
    t.shared.mutex + (t.client c).pc.inside.toNat = s.shared.mutex + (s.client c).pc.inside.toNat ∧
      t.history.iterations = s.history.iterations := by
  unfold clientStep at h
  dsimp only at h
  split at h
  all_goals try split at h
  all_goals cases h
  all_goals simp_all [State.setClient, State.setShared, State.setHistory, ClientPc.inside]
  omega

omit [DecidableEq ι] in
/-- A server's step posts the mutex exactly when it ends an iteration. -/
theorem serverStep_mutex {s t : State ι σ} (h : serverStep handle s = some t) :
    t.shared.mutex + s.history.iterations = s.shared.mutex + t.history.iterations := by
  unfold serverStep at h
  dsimp only at h
  split at h
  all_goals try split at h
  all_goals cases h
  all_goals simp [State.setServer, State.setShared, State.setHistory]
  omega

/-! ## The count over a run -/

variable [Fintype ι]

/-- The clients between their `sem_wait(mutex)` and their `sem_post(mutex)`. -/
def insideCount (s : State ι σ) : Nat := count (fun x : Client => x.pc.inside) s.client

/-- What the semaphore holds and who is inside: one, plus the posts of the server. -/
def MutexCount (s : State ι σ) : Prop :=
  s.shared.mutex + insideCount s = 1 + s.history.iterations

omit [DecidableEq ι] in
theorem Initial.mutexCount {s : State ι σ} (h : Initial s) : MutexCount s := by
  have hnone : insideCount s = 0 := by
    refine count_eq_zero.mpr fun c => ?_
    rw [(h.client c).1]
    rfl
  rw [MutexCount, h.mutex, hnone, h.history]

theorem MutexCount.client {s t : State ι σ} {c : ι} (hs : MutexCount s)
    (h : clientStep s c = some t) : MutexCount t := by
  obtain ⟨hmutex, hiter⟩ := clientStep_mutex h
  have hcount := count_update (fun x : Client => x.pc.inside) s.client c (t.client c)
  rw [← (clientStep_moves h).2] at hcount
  unfold MutexCount insideCount at *
  omega

omit [DecidableEq ι] in
theorem MutexCount.server {s t : State ι σ} (hs : MutexCount s) (h : serverStep handle s = some t) :
    MutexCount t := by
  have hmutex := serverStep_mutex h
  unfold MutexCount insideCount at *
  rw [serverStep_moves h]
  omega

/-- Entering a call changes neither the semaphore nor who is inside. -/
theorem MutexCount.enter {s : State ι σ} {c : ι} {x : Client} (hs : MutexCount s)
    (hidle : (s.client c).pc = .idle) (hx : x.pc.inside = false) : MutexCount (s.setClient c x) := by
  have hcount := count_update (fun x : Client => x.pc.inside) s.client c x
  rw [hidle, hx] at hcount
  show s.shared.mutex + count _ (Function.update s.client c x) = 1 + s.history.iterations
  unfold MutexCount insideCount at hs
  rw [show ClientPc.inside .idle = false from rfl] at hcount
  omega

theorem MutexCount.step {s t : State ι σ} {a : Action ι} (hs : MutexCount s)
    (h : Step handle s a t) : MutexCount t := by
  cases a with
  | send c r =>
    obtain ⟨hidle, rfl | rfl⟩ := step_send h
    · exact hs
    · exact hs.enter hidle rfl
  | wait c e =>
    obtain ⟨hidle, rfl⟩ := step_wait h
    exact hs.enter hidle rfl
  | client c => exact hs.client h
  | server => exact hs.server h

/-- The mutex excludes: its value and the clients inside make at most one. -/
def Excludes (s : State ι σ) : Prop := s.shared.mutex + insideCount s ≤ 1

/-- **When the mailbox mutex excludes.** Along any run, the value of `mutex` plus the number of
clients in the critical section is at most one exactly as long as the server has not posted the mutex,
that is, has not ended an iteration of its loop; and then no two clients are inside. -/
theorem mutex_excludes_iff {s₀ s : State ι σ} {as : List (Action ι)} (h₀ : Initial s₀)
    (h : Run (Step handle) s₀ as s) :
    (Excludes s ↔ s.history.iterations = 0) ∧
      (Excludes s → ∀ c d, (s.client c).pc.inside = true → (s.client d).pc.inside = true → c = d) := by
  have hcount : MutexCount s := Run.invariant (fun _ _ _ hs hst => hs.step hst) h₀.mutexCount h
  unfold MutexCount at hcount
  refine ⟨by unfold Excludes; omega, fun hex c d hc hd => ?_⟩
  have hone : count (fun x : Client => x.pc.inside) s.client ≤ 1 := by
    unfold Excludes insideCount at hex
    omega
  exact eq_of_count_le_one hone hc hd

/-- A handler that does not reply, as those of the user routes. -/
def noReply : Unit → SharedData → Unit × Option (List UInt8) := fun _ _ => ((), none)

/-- One exchange: client 0 sends, the server handles the message and goes back to wait. -/
def oneExchange : List (Action (Fin 2)) :=
  .send 0 ⟨[], []⟩ :: List.replicate 10 (.client 0) ++ List.replicate 5 .server

theorem mutex_excludes_iff_sending :
    ∃ s : State (Fin 2) Unit, (s.client 0).pc.inside = true ∧ Excludes s := by
  obtain ⟨s, hs⟩ : ∃ s, exec (step noReply) (.fresh () : State (Fin 2) Unit)
      (oneExchange.take 5) = some s := ⟨_, rfl⟩
  refine ⟨s, ?_, ((mutex_excludes_iff (fresh_initial ()) (run_of_exec hs)).1).mpr ?_⟩
  · cases hs
    rfl
  · cases hs
    rfl

/-- After one exchange the mutex holds 2, and both clients write the slot. -/
theorem mutex_admits_two :
    ¬ ∀ s : State (Fin 2) Unit, Reachable noReply s → Excludes s := by
  intro h
  obtain ⟨s, hs⟩ : ∃ s, exec (step noReply) (.fresh () : State (Fin 2) Unit)
      (oneExchange ++ [.send 0 ⟨[], []⟩, .client 0, .send 1 ⟨[], []⟩, .client 1]) = some s := ⟨_, rfl⟩
  have hex : Excludes s := h s ⟨_, _, fresh_initial (), run_of_exec hs⟩
  have htwo : s.shared.mutex + insideCount s = 2 := by
    cases hs
    rfl
  unfold Excludes at hex
  omega

end CCache.Ipc
