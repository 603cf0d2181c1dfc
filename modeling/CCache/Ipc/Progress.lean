/-
# CCache.Ipc.Progress — how much work a call makes, and where everybody rests.

A `send_message` takes ten statements and makes the server take at most eleven, a `wait_for_response`
takes six.  So whatever the interleaving, the statements of a run are bounded by the calls entered in
it: nobody spins.  Where no statement is left, the server waits with no token and an empty slot, no
client is kept from the mutex, and the semaphores are counted: `mutex` has gone up by one with every
`send_message`.  A client that alternates is answered after at most ten statements of the server.
-/
import CCache.Ipc.Exclusion
import CCache.Ipc.Handshake

namespace CCache.Ipc

open CCache.Lib.Runs
open CCache.Lib.Parties

variable {ι σ : Type}

/-! ## The work that is left -/

/-- How many statements the server has left to its wait for `data_ready`. -/
def ServerPc.toWait : ServerPc → Nat
  | .waitDataReady => 0
  | .testHasMessage => 10
  | .dispatch => 9
  | .readCurrentId => 8
  | .storeResponse => 7
  | .storeResponseSize => 6
  | .storeResponseId => 5
  | .storeHasResponse => 4
  | .postResponseReady => 3
  | .clearHasMessage => 2
  | .postMutex => 1

/-- How many statements a client has left in its call, with the eleven of the server that its
`data_ready` token will make. -/
def ClientPc.work : ClientPc → Nat
  | .idle => 0
  | .waitMutex => 21
  | .storeId => 20
  | .storeRouteHash => 19
  | .storePayloadSize => 18
  | .storePayload => 17
  | .storeMessageSize => 16
  | .storeHasMessage => 15
  | .storeCurrentId => 14
  | .postDataReady => 13
  | .postMutex => 1
  | .waitResponse => 6
  | .checkId => 5
  | .readResponseSize => 4
  | .copyResponse => 3
  | .clearHasResponse => 2
  | .clearResponseSize => 1

/-- The server's statements with the tokens it has been posted. -/
def serverWork (s : State ι σ) : Nat := 11 * s.shared.dataReady + s.server.pc.toWait

/-- What is left for everybody. -/
def work [Fintype ι] (s : State ι σ) : Nat := weigh (fun x : Client => x.pc.work) s.client + serverWork s

/-- A statement of a call or of the server, not the entry of a call. -/
def Action.isStatement : Action ι → Bool
  | .client _ | .server => true
  | .send .. | .wait .. => false

def Action.isSend : Action ι → Bool
  | .send .. => true
  | _ => false

def Action.isWait : Action ι → Bool
  | .wait .. => true
  | _ => false

/-- What entering a call adds to the work. -/
def Action.credit : Action ι → Nat
  | .send .. => 21
  | .wait .. => 6
  | .client _ | .server => 0

theorem credit_sum (as : List (Action ι)) :
    (as.map Action.credit).sum = 21 * as.countP Action.isSend + 6 * as.countP Action.isWait := by
  induction as with
  | nil => rfl
  | cons a as ih =>
    rw [List.map_cons, List.sum_cons, ih, List.countP_cons, List.countP_cons]
    cases a <;> simp [Action.credit, Action.isSend, Action.isWait] <;> omega

theorem Initial.work [Fintype ι] {s : State ι σ} (h : Initial s) : work s = 0 := by
  have hnone : weigh (fun x : Client => x.pc.work) s.client = 0 :=
    weigh_eq_zero.mpr fun c => by rw [(h.client c).1]; rfl
  rw [Ipc.work, serverWork, hnone, h.dataReady, h.server]
  rfl

variable {handle : σ → SharedData → σ × Option (List UInt8)}

/-- The server's own work goes down with each of its statements. -/
theorem serverStep_work {s t : State ι σ} (h : serverStep handle s = some t) :
    serverWork t + 1 ≤ serverWork s ∧
      (s.server.pc = .waitDataReady ∨ t.shared.dataReady = s.shared.dataReady) := by
  cases hpc : s.server.pc
  all_goals simp only [serverStep, hpc] at h
  all_goals try split at h
  all_goals simp only [Option.some.injEq, reduceCtorEq] at h
  all_goals rw [← h]
  all_goals simp [State.setServer, State.setShared, State.setHistory, serverWork, ServerPc.toWait, hpc]
  all_goals omega

variable [DecidableEq ι]

/-- What a client's statement takes from its own work it adds at most to the server's. -/
theorem clientStep_work {s t : State ι σ} {c : ι} (h : clientStep s c = some t) :
    (t.client c).pc.work + serverWork t + 1 ≤ (s.client c).pc.work + serverWork s := by
  unfold clientStep at h
  dsimp only at h
  split at h
  all_goals try split at h
  all_goals cases h
  all_goals simp_all [State.setClient, State.setShared, State.setHistory, serverWork, ClientPc.work]
  all_goals omega

/-- The work of all clients when one of them moves. -/
theorem work_client [Fintype ι] {s t : State ι σ} {c : ι} {x : Client}
    (hclient : t.client = Function.update s.client c x) :
    work t + (s.client c).pc.work + serverWork s = work s + x.pc.work + serverWork t := by
  have hweigh := weigh_update (fun x : Client => x.pc.work) s.client c x
  rw [← hclient] at hweigh
  unfold work
  omega

theorem work_enter [Fintype ι] {s : State ι σ} {c : ι} {x : Client} (hidle : (s.client c).pc = .idle) :
    work (s.setClient c x) = work s + x.pc.work := by
  have hwork := work_client (s := s) (t := s.setClient c x) (x := x) rfl
  rw [hidle] at hwork
  have hserver : serverWork (s.setClient c x) = serverWork s := rfl
  have hnone : ClientPc.work .idle = 0 := rfl
  omega

/-- A statement costs one of the work that is left; entering a call adds its own. -/
theorem step_work [Fintype ι] {s t : State ι σ} {a : Action ι} (h : Step handle s a t) :
    work t + a.isStatement.toNat ≤ work s + a.credit := by
  cases a with
  | send c r =>
    obtain ⟨hidle, rfl | rfl⟩ := step_send h
    · exact Nat.le_add_right _ _
    · rw [work_enter hidle]
      exact le_refl _
  | wait c e =>
    obtain ⟨hidle, rfl⟩ := step_wait h
    rw [work_enter hidle]
    exact le_refl _
  | client c =>
    have hstep : clientStep s c = some t := h
    have hwork := work_client (clientStep_moves hstep).2
    have hcost := clientStep_work hstep
    show work t + 1 ≤ work s + 0
    omega
  | server =>
    have hstep : serverStep handle s = some t := h
    have hcost := (serverStep_work hstep).1
    have hclient := serverStep_moves hstep
    show work t + 1 ≤ work s + 0
    rw [work, work, hclient]
    omega

/-- **Nobody spins.** In every interleaving the statements that the clients and the server have taken are
at most 21 for each `send_message` and 6 for each `wait_for_response` entered. -/
theorem bounded_work [Fintype ι] {s₀ s : State ι σ} {as : List (Action ι)} (h₀ : Initial s₀)
    (h : Run (Step handle) s₀ as s) :
    as.countP Action.isStatement ≤ 21 * as.countP Action.isSend + 6 * as.countP Action.isWait := by
  have hcredit : work s + as.countP Action.isStatement ≤ work s₀ + (as.map Action.credit).sum :=
    Run.credit (I := fun _ => True) (fun _ _ _ _ _ => trivial) (fun _ _ _ _ hst => step_work hst)
      trivial h
  rw [credit_sum, h₀.work] at hcredit
  omega

/-- The client sends, the server answers and goes back to wait, the client receives. -/
def requestTaken : List (Action Unit) :=
  .send () ⟨[], []⟩ :: List.replicate 10 (.client ()) ++ List.replicate 11 .server ++
    .wait () 1 :: List.replicate 6 (.client ())

/-- An exchange with its wait for the response takes all of the 27. -/
theorem bounded_work_exchange :
    ∃ s : State Unit Unit, Run (Step alwaysReply) (.fresh ()) requestTaken s ∧
      requestTaken.countP Action.isStatement = 27 ∧
      requestTaken.countP Action.isStatement ≤ 21 * requestTaken.countP Action.isSend +
        6 * requestTaken.countP Action.isWait := by
  obtain ⟨s, hs⟩ : ∃ s, exec (step alwaysReply) (.fresh () : State Unit Unit) requestTaken = some s :=
    ⟨_, rfl⟩
  exact ⟨s, run_of_exec hs, by decide, bounded_work (fresh_initial ()) (run_of_exec hs)⟩

/-! ## Every token makes one iteration -/

/-- The client has posted `data_ready` and not yet the mutex. -/
def ClientPc.handsBack : ClientPc → Bool
  | .postMutex => true
  | _ => false

/-- The server is in an iteration of its loop. -/
def ServerPc.busy : ServerPc → Bool
  | .waitDataReady => false
  | _ => true

/-- Each token posted is still there, or its iteration is begun or ended; each `send_message` has posted
one when it returns, and before it hands the mutex back. -/
def TokenCount [Fintype ι] (s : State ι σ) : Prop :=
  s.shared.dataReady + s.server.pc.busy.toNat + s.history.iterations =
    s.history.returned.length + count (fun x : Client => x.pc.handsBack) s.client

omit [DecidableEq ι] in
theorem Initial.tokenCount [Fintype ι] {s : State ι σ} (h : Initial s) : TokenCount s := by
  have hnone : count (fun x : Client => x.pc.handsBack) s.client = 0 :=
    count_eq_zero.mpr fun c => by rw [(h.client c).1]; rfl
  rw [TokenCount, hnone, h.dataReady, h.server, h.history]
  rfl

theorem clientStep_tokens {s t : State ι σ} {c : ι} (h : clientStep s c = some t) :
    t.shared.dataReady + s.history.returned.length + (s.client c).pc.handsBack.toNat =
        s.shared.dataReady + t.history.returned.length + (t.client c).pc.handsBack.toNat ∧
      t.history.iterations = s.history.iterations := by
  unfold clientStep at h
  dsimp only at h
  split at h
  all_goals try split at h
  all_goals cases h
  all_goals simp_all [State.setClient, State.setShared, State.setHistory, ClientPc.handsBack]
  all_goals omega

omit [DecidableEq ι] in
theorem serverStep_tokens {s t : State ι σ} (h : serverStep handle s = some t) :
    t.shared.dataReady + t.server.pc.busy.toNat + t.history.iterations =
        s.shared.dataReady + s.server.pc.busy.toNat + s.history.iterations ∧
      t.history.returned = s.history.returned := by
  cases hpc : s.server.pc
  all_goals simp only [serverStep, hpc] at h
  all_goals try split at h
  all_goals simp only [Option.some.injEq, reduceCtorEq] at h
  all_goals rw [← h]
  all_goals simp [State.setServer, State.setShared, State.setHistory, ServerPc.busy]
  all_goals omega

theorem TokenCount.enter [Fintype ι] {s : State ι σ} {c : ι} {x : Client} (hs : TokenCount s)
    (hidle : (s.client c).pc = .idle) (hx : x.pc.handsBack = false) :
    TokenCount (s.setClient c x) := by
  have hcount := count_update (fun x : Client => x.pc.handsBack) s.client c x
  rw [hidle, hx, show ClientPc.handsBack .idle = false from rfl] at hcount
  show s.shared.dataReady + s.server.pc.busy.toNat + s.history.iterations =
    s.history.returned.length + count _ (Function.update s.client c x)
  unfold TokenCount at hs
  omega

theorem TokenCount.step [Fintype ι] {s t : State ι σ} {a : Action ι} (hs : TokenCount s)
    (h : Step handle s a t) : TokenCount t := by
  cases a with
  | send c r =>
    obtain ⟨hidle, rfl | rfl⟩ := step_send h
    · exact hs
    · exact hs.enter hidle rfl
  | wait c e =>
    obtain ⟨hidle, rfl⟩ := step_wait h
    exact hs.enter hidle rfl
  | client c =>
    have hstep : clientStep s c = some t := h
    obtain ⟨htokens, hiterations⟩ := clientStep_tokens hstep
    obtain ⟨hserver, hclient⟩ := clientStep_moves hstep
    have hcount := count_update (fun x : Client => x.pc.handsBack) s.client c (t.client c)
    rw [← hclient] at hcount
    unfold TokenCount at hs ⊢
    rw [hserver]
    omega
  | server =>
    have hstep : serverStep handle s = some t := h
    obtain ⟨htokens, hreturned⟩ := serverStep_tokens hstep
    unfold TokenCount at hs ⊢
    rw [serverStep_moves hstep, hreturned]
    omega

/-! ## Where everybody rests -/

/-- No statement can be taken; the only steps are new calls. -/
def Resting (handle : σ → SharedData → σ × Option (List UInt8)) (s : State ι σ) : Prop :=
  (∀ c, clientStep s c = none) ∧ serverStep handle s = none

/-- The server waits without a token and with an empty slot, the clients are idle or wait for a response
without a token, and every `send_message` has made one iteration and left the mutex one higher. -/
structure AtRest (s : State ι σ) : Prop where
  server : s.server.pc = .waitDataReady
  dataReady : s.shared.dataReady = 0
  hasMessage : s.shared.hasMessage = false
  client : ∀ c, (s.client c).pc = .idle ∨
    (s.client c).pc = .waitResponse ∧ s.shared.responseReady = 0
  iterations : s.history.iterations = s.history.returned.length
  mutex : s.shared.mutex = 1 + s.history.returned.length

/-- A client that cannot move is idle or at one of its two waits, which is at 0. -/
theorem clientStep_eq_none {s : State ι σ} {c : ι} : clientStep s c = none ↔
    (s.client c).pc = .idle ∨ (s.client c).pc = .waitMutex ∧ s.shared.mutex = 0 ∨
      (s.client c).pc = .waitResponse ∧ s.shared.responseReady = 0 := by
  cases hpc : (s.client c).pc
  all_goals simp only [clientStep, hpc]
  all_goals try split
  all_goals simp
  all_goals omega

omit [DecidableEq ι] in
/-- The server is blocked at its wait only. -/
theorem serverStep_eq_none {s : State ι σ} : serverStep handle s = none ↔
    s.server.pc = .waitDataReady ∧ s.shared.dataReady = 0 := by
  cases hpc : s.server.pc
  all_goals simp only [serverStep, hpc]
  all_goals try split
  all_goals simp
  all_goals omega

/-- The invariants that decide where a run can rest. -/
structure Counted [Fintype ι] (s : State ι σ) : Prop where
  mutex : MutexCount s
  tokens : TokenCount s
  comes : TokenComes s

theorem Counted.step [Fintype ι] {s t : State ι σ} {a : Action ι} (hs : Counted s)
    (h : Step handle s a t) : Counted t :=
  ⟨hs.mutex.step h, hs.tokens.step h, hs.comes.step h⟩

theorem Reachable.counted [Fintype ι] {s : State ι σ} (h : Reachable handle s) : Counted s := by
  obtain ⟨s₀, as, h₀, hrun⟩ := h
  exact Run.invariant (fun _ _ _ hs hst => hs.step hst)
    ⟨h₀.mutexCount, h₀.tokenCount, h₀.tokenComes⟩ hrun

/-- Nobody is blocked on the mutex for good: whoever holds it can go on. -/
theorem Counted.atRest [Fintype ι] {s : State ι σ} (hs : Counted s) (h : Resting handle s) :
    AtRest s := by
  obtain ⟨hclient, hserver⟩ := h
  obtain ⟨hwait, hzero⟩ := serverStep_eq_none.mp hserver
  have hblocked : ∀ c, (s.client c).pc = .idle ∨ (s.client c).pc = .waitMutex ∧ s.shared.mutex = 0 ∨
      (s.client c).pc = .waitResponse ∧ s.shared.responseReady = 0 :=
    fun c => clientStep_eq_none.mp (hclient c)
  have hinside : insideCount s = 0 := by
    refine count_eq_zero.mpr fun c => ?_
    rcases hblocked c with hpc | ⟨hpc, -⟩ | ⟨hpc, -⟩
    all_goals rw [hpc]
    all_goals rfl
  have hback : count (fun x : Client => x.pc.handsBack) s.client = 0 := by
    refine count_eq_zero.mpr fun c => ?_
    rcases hblocked c with hpc | ⟨hpc, -⟩ | ⟨hpc, -⟩
    all_goals rw [hpc]
    all_goals rfl
  have hmutex := hs.mutex
  have htokens := hs.tokens
  rw [MutexCount, hinside] at hmutex
  rw [TokenCount, hback, hzero, hwait, show ServerPc.busy .waitDataReady = false from rfl,
    Bool.toNat_false] at htokens
  refine ⟨hwait, hzero, ?_, fun c => ?_, by omega, by omega⟩
  · by_contra hflag
    rw [Bool.not_eq_false] at hflag
    rcases hs.comes hflag (.inl hwait) with hpos | ⟨c, hc⟩
    · omega
    · rcases hblocked c with hpc | ⟨hpc, -⟩ | ⟨hpc, -⟩
      all_goals rw [hpc] at hc
      all_goals cases hc
  · rcases hblocked c with hpc | ⟨-, hno⟩ | hpc
    · exact .inl hpc
    · omega
    · exact .inr hpc

/-- **Every interleaving comes to rest.** From every reachable state statements alone, without a new
call, lead to rest, and where no statement is possible all is at rest: no client is kept from the mutex,
no message is left in the slot, and each `send_message` has made exactly one iteration of the server and
left the mutex one higher. -/
theorem comes_to_rest [Fintype ι] {s : State ι σ} (h : Reachable handle s) :
    (Resting handle s ↔ AtRest s) ∧
      ∃ as t, as.length ≤ work s ∧ (∀ a ∈ as, a.isStatement = true) ∧ Run (Step handle) s as t ∧
        AtRest t := by
  have hs := h.counted
  refine ⟨⟨hs.atRest, fun hrest => ⟨fun c => ?_, ?_⟩⟩, ?_⟩
  · exact clientStep_eq_none.mpr ((hrest.client c).imp_right .inr)
  · exact serverStep_eq_none.mpr ⟨hrest.server, hrest.dataReady⟩
  · refine Run.reaches (fun s a t _ hs hst => hs.step hst) (fun s hs => ?_) hs
    by_cases hrest : Resting handle s
    · exact .inl (hs.atRest hrest)
    · have hmoves : (∃ c t, clientStep s c = some t) ∨ ∃ t, serverStep handle s = some t := by
        by_contra hno
        rw [not_or] at hno
        refine hrest ⟨fun c => ?_, ?_⟩
        · exact Option.eq_none_iff_forall_ne_some.mpr fun t ht => hno.1 ⟨c, t, ht⟩
        · exact Option.eq_none_iff_forall_ne_some.mpr fun t ht => hno.2 ⟨t, ht⟩
      rcases hmoves with ⟨c, t, ht⟩ | ⟨t, ht⟩
      · have hst : Step handle s (.client c) t := ht
        exact .inr ⟨_, t, rfl, hst, step_work hst⟩
      · have hst : Step handle s .server t := ht
        exact .inr ⟨_, t, rfl, hst, step_work hst⟩

/-- From the middle of two sends, one inside the critical section and one before it. -/
theorem comes_to_rest_sending :
    ∃ s t : State (Fin 2) Unit, (s.client 0).pc = .storePayload ∧ (s.client 1).pc = .waitMutex ∧
      s.shared.mutex = 0 ∧ AtRest t := by
  obtain ⟨s, hs⟩ : ∃ s, exec (step noReply) (.fresh () : State (Fin 2) Unit)
      (oneExchange.take 5 ++ [.send 1 ⟨[], []⟩]) = some s := ⟨_, rfl⟩
  obtain ⟨-, -, t, -, -, -, hrest⟩ :=
    comes_to_rest (⟨_, _, fresh_initial (), run_of_exec hs⟩ : Reachable noReply s)
  refine ⟨s, t, ?_, ?_, ?_, hrest⟩
  all_goals cases hs
  all_goals rfl

/-! ## The response of a client that alternates -/

/-- How many statements the server has left to its post of the response, when a message waits. -/
def ServerPc.toPost : ServerPc → Nat
  | .clearHasMessage => 0
  | .postMutex => 10
  | .waitDataReady => 9
  | .testHasMessage => 8
  | .dispatch => 7
  | .readCurrentId => 6
  | .storeResponse => 5
  | .storeResponseSize => 4
  | .storeResponseId => 3
  | .storeHasResponse => 2
  | .postResponseReady => 1

omit [DecidableEq ι] in
/-- While a message waits for its reply, the server comes nearer to the post with each statement. -/
theorem serverStep_toPost {s t : State ι σ} (hflag : s.shared.hasMessage = true)
    (hpc : s.server.pc ≠ .clearHasMessage)
    (hreply : s.server.pc = .dispatch → (handle s.server.cache s.shared).2.isSome = true)
    (hfits : s.server.pc = .readCurrentId → s.server.response.length ≤ maxMessageSize)
    (h : serverStep handle s = some t) : t.server.pc.toPost < s.server.pc.toPost := by
  have hshort : s.server.pc = .readCurrentId → ¬ maxMessageSize < s.server.response.length :=
    fun hread => Nat.not_lt.mpr (hfits hread)
  cases hpc' : s.server.pc
  all_goals simp only [serverStep, hpc'] at h
  all_goals try split at h
  all_goals cases h
  all_goals simp_all [State.setServer, State.setShared, State.setHistory, ServerPc.toPost]

/-- What is dispatched is a request that is replied to. -/
theorem Balance.replies {s : State Unit σ} (hs : Balance handle s) (hd : Delivery s)
    (hpc : s.server.pc = .dispatch) : (handle s.server.cache s.shared).2.isSome = true := by
  have hund : s.undispatched = true := by
    rw [State.undispatched, hd.flag (.inl hpc), hpc]
    rfl
  obtain ⟨-, c, hc⟩ := hd.whole hund
  obtain ⟨r, id, hm, hr⟩ := hs.calls c _ (List.mem_of_getElem? hc)
  exact hr _ _ id hm

/-- The reply that the client waits for is posted or still to come. -/
structure Answering (handle : σ → SharedData → σ × Option (List UInt8)) (s : State Unit σ) : Prop where
  balance : Balance handle s
  delivery : Delivery s
  comes : TokenComes s

theorem Initial.answering {s : State Unit σ} (h : Initial s) : Answering handle s :=
  ⟨h.balance, h.delivery, h.tokenComes⟩

theorem Answering.step {s t : State Unit σ} {a : Action Unit} (hs : Answering handle s)
    (halt : Alternates handle s a) (hun : Unhurried s a) (h : Step handle s a t) :
    Answering handle t :=
  ⟨hs.balance.step hs.delivery halt hun h, hs.delivery.step (hs.balance.uncontended hun) h,
    hs.comes.step h⟩

/-- While the client waits and nothing is posted, the server is not blocked, and its next statement takes
it nearer to the post. -/
theorem Answering.nearer {s : State Unit σ} (hs : Answering handle s)
    (hwait : (s.client ()).pc = .waitResponse) (hzero : s.shared.responseReady = 0)
    (hfits : Unhurried s .server) :
    ∃ t, Step handle s .server t ∧ t.server.pc.toPost < s.server.pc.toPost := by
  have howed := hs.balance.owed
  rw [Client.owed, hwait, hzero, Bool.toNat_true] at howed
  have hcomes : s.replyComes = true := by
    by_contra hno
    rw [Bool.not_eq_true] at hno
    rw [hno, Bool.toNat_false] at howed
    cases howed
  obtain ⟨hflag, hanswered⟩ := Bool.and_eq_true_iff.mp hcomes
  have hpc : s.server.pc ≠ .clearHasMessage := by
    intro hpc
    rw [hpc] at hanswered
    cases hanswered
  have hmoves : ∃ t, serverStep handle s = some t := by
    by_contra hno
    have hnone : serverStep handle s = none :=
      Option.eq_none_iff_forall_ne_some.mpr fun t ht => hno ⟨t, ht⟩
    obtain ⟨hserver, hdata⟩ := serverStep_eq_none.mp hnone
    exact hs.balance.not_stuck hs.comes ⟨hwait, hzero, hserver, hdata⟩
  obtain ⟨t, ht⟩ := hmoves
  exact ⟨t, ht, serverStep_toPost hflag hpc (hs.balance.replies hs.delivery) hfits ht⟩

/-- **The server alone posts it**, when the responses that it comes to on its way fit. -/
theorem Answering.posts {s : State Unit σ} (hs : Answering handle s)
    (hwait : (s.client ()).pc = .waitResponse)
    (hfits : ∀ bs u, (∀ b ∈ bs, b = Action.server) → Run (Step handle) s bs u →
      Unhurried u .server) :
    ∃ bs t, bs.length ≤ 10 ∧ (∀ b ∈ bs, b = Action.server) ∧ Run (Step handle) s bs t ∧
      t.client = s.client ∧ 0 < t.shared.responseReady := by
  have hposts : ∃ bs t, bs.length ≤ s.server.pc.toPost ∧ (∀ b ∈ bs, b = Action.server) ∧
      Run (Step handle) s bs t ∧ t.client = s.client ∧ 0 < t.shared.responseReady := by
    refine Run.reaches (I := fun t => (Answering handle t ∧ t.client = s.client) ∧
      ∃ bs, (∀ b ∈ bs, b = Action.server) ∧ Run (Step handle) s bs t)
      (μ := fun t : State Unit σ => t.server.pc.toPost) ?_ ?_ ⟨⟨hs, rfl⟩, [], nofun, .nil⟩
    · rintro u b v rfl ⟨⟨hu, hclient⟩, bs, hbs, hrun⟩ hst
      have hstep : serverStep handle u = some v := hst
      have halt : Alternates handle u .server := ⟨trivial, nofun⟩
      refine ⟨⟨hu.step halt (hfits bs u hbs hrun) hst, by rw [serverStep_moves hstep, hclient]⟩,
        bs ++ [.server], fun b hb => ?_, hrun.snoc hst⟩
      rcases List.mem_append.mp hb with hb | hb
      · exact hbs b hb
      · exact List.mem_singleton.mp hb
    · rintro u ⟨⟨hu, hclient⟩, bs, hbs, hrun⟩
      rcases Nat.eq_zero_or_pos u.shared.responseReady with hzero | hpos
      · obtain ⟨v, hv, hlt⟩ := hu.nearer (by rw [hclient, hwait]) hzero (hfits bs u hbs hrun)
        exact .inr ⟨.server, v, rfl, hv, hlt⟩
      · exact .inl ⟨hclient, hpos⟩
  obtain ⟨bs, t, hlength, hrest⟩ := hposts
  have hten : s.server.pc.toPost ≤ 10 := by
    cases s.server.pc <;> decide
  exact ⟨bs, t, hlength.trans hten, hrest⟩

end CCache.Ipc
