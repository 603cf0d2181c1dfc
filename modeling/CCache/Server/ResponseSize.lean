/-
# CCache.Server.ResponseSize — a running server never computes a response that is too large.

`send_response` refuses what does not fit the response buffer, and its client then waits for ever.  A
server whose file holds no value longer than a response can carry never refuses one, whatever its
clients send and however they tear each other's messages: every value that it stores came in a message
buffer, behind a longer header.  The handlers of the stores read the announced size from the slot
twice, once for the check and once for `Put`, so this is about runs in which no client stores to the
slot while the server handles a message.

A client that alternates its two calls on routes that reply is then answered, whatever it stores and
fetches.
-/
import CCache.Ipc.Progress
import CCache.Server.EndToEnd
import CCache.Server.Replies

namespace CCache.Server

open CCache.Cache (Store Tracks HasBytes get)
open CCache.Ipc
open CCache.Lib.ByteMemory
open CCache.Lib.CString
open CCache.Lib.Runs

variable {ι : Type} {env : Env}

/-! ## Runs in which the server handles alone -/

/-- The next statement of the client stores to the slot that the handlers read. -/
def fillsSlot : ClientPc → Bool
  | .storeId | .storeRouteHash | .storePayloadSize | .storePayload => true
  | _ => false

/-- No client stores to the slot while the server handles a message. -/
def HandledAlone (s : State ι Mem) : Action ι → Prop
  | .client c => fillsSlot (s.client c).pc = true → s.server.pc ≠ .dispatch
  | _ => True

variable [DecidableEq ι]

/-- A step whose dispatch finds the route hash and the payload in whatever state the byte loops of other
calls have left them: of the slot only the size, one word, is what was stored last. -/
def TornStep (env : Env) (s : State ι Mem) (a : Action ι) (t : State ι Mem) : Prop :=
  ∃ tear : SharedData → SharedData, (∀ d, (tear d).message.payloadSize = d.message.payloadSize) ∧
    Step (fun cache d => serverHandle env cache (tear d)) s a t

theorem TornStep.of_step {s t : State ι Mem} {a : Action ι} (h : Step (serverHandle env) s a t) :
    TornStep env s a t :=
  ⟨id, fun _ => rfl, h⟩

omit [DecidableEq ι] in
/-- What is handed to `send_response` is what the handler has just computed. -/
theorem serverStep_computes {σ : Type} {handle : σ → SharedData → σ × Option (List UInt8)}
    {s t : State ι σ} (h : serverStep handle s = some t) (hpc : t.server.pc = .readCurrentId) :
    s.server.pc = .dispatch ∧ (handle s.server.cache s.shared).2 = some t.server.response := by
  cases hpc' : s.server.pc
  all_goals simp only [serverStep, hpc'] at h
  case dispatch =>
    cases h
    revert hpc
    cases (handle s.server.cache s.shared).2 <;> simp [State.setServer, State.setHistory]
  all_goals try split at h
  all_goals cases h
  all_goals simp_all [State.setServer, State.setShared, State.setHistory]

/-- The file has no long value, every response computed so far fits, and so does the one that is handed
to `send_response`. -/
structure AllFit (s : State ι Mem) : Prop where
  cache : ShortValues s.server.cache
  responses : ∀ d ∈ s.history.dispatched, ∀ response, d.response = some response →
    response.length ≤ maxMessageSize
  handed : s.server.pc = .readCurrentId → s.server.response.length ≤ maxMessageSize

omit [DecidableEq ι] in
theorem AllFit.of_initial {s : State ι Mem} (h : Initial s) (hshort : ShortValues s.server.cache) :
    AllFit s := by
  refine ⟨hshort, ?_, ?_⟩
  · rw [h.history]
    exact fun _ hd => absurd hd List.not_mem_nil
  · rw [h.server]
    rintro ⟨⟩

/-- **A step keeps the file short**, torn or not. -/
theorem AllFit.step {s t : State ι Mem} {a : Action ι} (hs : AllFit s) (hsize : SizeFits s)
    (h : TornStep env s a t) : AllFit t := by
  obtain ⟨tear, htear, hstep⟩ := h
  -- what a dispatch finds announces no more than the buffer holds
  have hdispatch : s.server.pc = .dispatch →
      ShortValues (serverHandle env s.server.cache (tear s.shared)).1 ∧
        ∀ response, (serverHandle env s.server.cache (tear s.shared)).2 = some response →
          response.length ≤ maxMessageSize :=
    fun hpc => @serverHandle_short _ env _ hs.cache
      ((htear s.shared).trans_le (hsize (.inr (.inl hpc))))
  have hhanded : t.server.pc = .readCurrentId → t.server.response.length ≤ maxMessageSize := by
    intro hread
    cases a with
    | server =>
      have hmove : serverStep (fun cache d => serverHandle env cache (tear d)) s = some t := hstep
      obtain ⟨hpc, hresponse⟩ := serverStep_computes hmove hread
      exact (hdispatch hpc).2 _ hresponse
    | client c =>
      have hserver := (clientStep_moves hstep).1
      rw [hserver] at hread ⊢
      exact hs.handed hread
    | send c r =>
      rcases (step_send hstep).2 with rfl | rfl
      · exact hs.handed hread
      · exact hs.handed hread
    | wait c e =>
      rw [(step_wait hstep).2] at hread ⊢
      exact hs.handed hread
  rcases step_dispatch hstep with ⟨hcache, hdispatched⟩ | ⟨⟨-, hpc⟩, hcache, hdispatched⟩
  · refine ⟨hcache ▸ hs.cache, ?_, hhanded⟩
    rw [hdispatched]
    exact hs.responses
  · obtain ⟨hvalues, hfits⟩ := hdispatch hpc
    refine ⟨hcache ▸ hvalues, fun d hd => ?_, hhanded⟩
    rw [hdispatched] at hd
    rcases List.mem_append.mp hd with hold | hnew
    · exact hs.responses d hold
    · have hresponse : d.response = (serverHandle env s.server.cache (tear s.shared)).2 := by
        rw [List.mem_singleton.mp hnew]
      rw [hresponse]
      exact hfits

theorem allFit_of_run {s₀ s : State ι Mem} {as : List (Action ι)} (h₀ : Initial s₀)
    (hshort : ShortValues s₀.server.cache) (h : Run (TornStep env) s₀ as s) : AllFit s := by
  have hall : Requests s ∧ SizeFits s ∧ AllFit s :=
    Run.invariant (I := fun s => Requests s ∧ SizeFits s ∧ AllFit s)
      (fun _ _ _ hs ⟨tear, htear, hst⟩ =>
        ⟨hs.1.step hst, hs.2.1.step hs.1 hst, hs.2.2.step hs.2.1 ⟨tear, htear, hst⟩⟩)
      ⟨.of_initial h₀, h₀.sizeFits, .of_initial h₀ hshort⟩ h
  exact hall.2.2

/-- **No response is too large.** In every run of a server whose file holds no value longer than a
response can carry, with any number of clients whose messages may tear each other, in which no client
stores to the slot while the server handles a message: every response a handler computes fits the
response buffer, so that `send_response` refuses none, and every value `Get` finds in the file fits
one. -/
theorem responses_fit {s₀ s : State ι Mem} {as : List (Action ι)} (h₀ : Initial s₀)
    (hshort : ShortValues s₀.server.cache) (h : Run (Guarded HandledAlone (TornStep env)) s₀ as s) :
    (∀ d ∈ s.history.dispatched, ∀ response, d.response = some response →
        response.length ≤ maxMessageSize) ∧
      ∀ key view, get s.server.cache key = some view →
        sizeofDataResponse + view.length ≤ maxMessageSize := by
  have hall := allFit_of_run h₀ hshort (h.mono fun _ _ _ hst => hst.2)
  refine ⟨hall.responses, fun key view hget => ?_⟩
  have hview := hall.cache.get_le hget
  have hroom : sizeofDataResponse + maxValue ≤ maxMessageSize := by decide
  omega

/-- A store and a fetch on a new file. -/
theorem responses_fit_byte : ∃ s : State (Fin 2) Mem, s.history.received.length = 2 ∧
    (∀ d ∈ s.history.dispatched, ∀ response, d.response = some response →
      response.length ≤ maxMessageSize) ∧
    ∀ key view, get s.server.cache key = some view →
      sizeofDataResponse + view.length ≤ maxMessageSize := by
  have hfresh := Cache.initMmap_fresh (Cache.runFrom_zeros []).1
  generalize (Cache.initMmap (.start fun _ => 0)).mem = cache at hfresh
  obtain ⟨as, s, ack, bytes, hrun, hreceived, -⟩ := byte_received hfresh zeroEnv_tail
  have halone : ∀ (s : State (Fin 2) Mem) a, Orderly s a → HandledAlone s a := by
    rintro s (_ | _ | c | _) ho
    · trivial
    · trivial
    · exact fun _ hpc => by cases ho.alone hpc
    · trivial
  exact ⟨s, by rw [hreceived]; rfl, responses_fit (fresh_initial cache) (.of_fresh hfresh)
    (hrun.mono fun s a t hst => ⟨halone s a hst.1, .of_step hst.2⟩)⟩

/-! ## The response of a client that alternates -/

/-- Every request on a replying route that holds its struct is replied to. -/
theorem serverHandle_replying (route : Route) {data : List UInt8} (hroute : route.Replies)
    (hlong : route.requestSize ≤ data.length) (hfits : (⟨hashRoute route.path, data⟩ : Request).Fits)
    (htail : TailEnds env.pad) : Replying (serverHandle env) ⟨hashRoute route.path, data⟩ := by
  intro cache d id hm
  have hfound : findRoute (trunc 255 (hashRoute route.path)) = some route := by
    rw [trunc_hashRoute, findRoute_hashRoute]
  have hdelivered : Delivered d route data := .of_found hfits hm hfound
  have hscan := image_readString_isSome htail d (show payloadAddr ≤ sizeofSharedData by decide)
  rw [serverHandle_eq, hdelivered.dispatch]
  rcases hroute.query_or_save with ⟨q, rfl⟩ | rfl
  · obtain ⟨hash, hhash⟩ := Option.isSome_iff_exists.mp hscan
    rw [q.handle_eq, if_pos (q.requestSize_eq ▸ hlong), hhash]
    rfl
  · obtain ⟨cache', response, stored, -, hhandle⟩ : ∃ cache' response stored, _ ∧
        Kind.bytecode.storeRoute.handle env.junk cache (image env.pad d) d.currentMessageId
          payloadAddr data.length = some ⟨cache', [⟨d.currentMessageId, response⟩], stored⟩ :=
      save_answers hlong hscan
    rw [hhandle]
    rfl

/-- **An alternating client is answered.** In every run of the server and one client that alternates its
two calls on routes that reply, publishes only into an empty slot, and whose responses fit: whenever the
client waits for a response, the server is nowhere blocked before it is posted, and posts it within ten
statements. -/
theorem response_comes {σ : Type} {handle : σ → SharedData → σ × Option (List UInt8)}
    {s₀ s : State Unit σ} {as : List (Action Unit)} (h₀ : Initial s₀)
    (h : Run (Guarded (fun s a => Alternates handle s a ∧ Unhurried s a) (Step handle)) s₀ as s)
    (hwait : (s.client ()).pc = .waitResponse)
    (hfits : ∀ bs u, (∀ b ∈ bs, b = Action.server) → Run (Step handle) s bs u →
      Unhurried u .server) :
    ∃ bs t, bs.length ≤ 10 ∧ (∀ b ∈ bs, b = Action.server) ∧ Run (Step handle) s bs t ∧
      t.client = s.client ∧ 0 < t.shared.responseReady := by
  have hs : Answering handle s :=
    Run.invariant (fun _ _ _ hs hst => hs.step hst.1.1 hst.1.2 hst.2) h₀.answering h
  exact hs.posts hwait hfits

/-- The conditions of the theorem, for a client that enters no `send_message`. -/
def Calm (s : State Unit Mem) (a : Action Unit) : Prop :=
  (InTurn s a ∧ Unhurried s a) ∧ a.isSend = false

instance (s : State Unit Mem) (a : Action Unit) : Decidable (Calm s a) :=
  inferInstanceAs (Decidable (_ ∧ _))

theorem run_calm {s t : State Unit Mem} {as : List (Action Unit)}
    (h : exec (guarded Calm (Ipc.step (serverHandle env))) s as = some t) :
    Run (Guarded (fun s a => Alternates (serverHandle env) s a ∧ Unhurried s a)
      (Step (serverHandle env))) s as t := by
  refine (run_of_exec_guarded h).mono fun s a t hst => ⟨⟨⟨hst.1.1.1, ?_⟩, hst.1.1.2⟩, hst.2⟩
  rintro c r rfl
  cases hst.1.2

theorem run_send {s t : State Unit Mem} {r : Request} (hawaits : (s.client ()).awaits = false)
    (hr : Replying (serverHandle env) r)
    (h : Step (serverHandle env) s (.send () r) t) :
    Run (Guarded (fun s a => Alternates (serverHandle env) s a ∧ Unhurried s a)
      (Step (serverHandle env))) s [.send () r] t := by
  refine .single ⟨⟨⟨hawaits, ?_⟩, trivial⟩, h⟩
  rintro c r' heq
  cases heq
  exact hr

set_option maxRecDepth 8000 in
/-- The client has stored a byte, has been answered, and waits for the fetch of it before the server has
looked at that message. -/
theorem response_comes_byte :
    ∃ (s t : State Unit Mem) (bs : List (Action Unit)),
      s.shared.message.handed = fetchByte.message 2 ∧ s.history.received.length = 1 ∧
      s.server.pc = .waitDataReady ∧ bs.length ≤ 10 ∧ Run (Step (serverHandle zeroEnv)) s bs t ∧
      t.client = s.client ∧ 0 < t.shared.responseReady := by
  have hfresh := Cache.initMmap_fresh (Cache.runFrom_zeros []).1
  generalize (Cache.initMmap (.start fun _ => 0)).mem = cache at hfresh
  have hsave : Replying (serverHandle zeroEnv) saveByte :=
    serverHandle_replying .saveBytecode (by simp [Route.Replies]) (by decide) (by decide)
      zeroEnv_tail
  have hfetch : Replying (serverHandle zeroEnv) fetchByte :=
    serverHandle_replying .getBytecode (by simp [Route.Replies]) (by decide) (by decide)
      zeroEnv_tail
  obtain ⟨s, hs⟩ : ∃ s, Step (serverHandle zeroEnv) (.fresh cache) (.send () saveByte) s := ⟨_, rfl⟩
  obtain ⟨t, ht⟩ : ∃ t, exec (guarded Calm (Ipc.step (serverHandle zeroEnv))) s
      (List.replicate 10 (.client ()) ++ [.server, .server]) = some t := by
    cases hs
    exact ⟨_, rfl⟩
  obtain ⟨hpc, hcache, hm⟩ : t.server.pc = .dispatch ∧ t.server.cache = cache ∧
      t.shared.message.handed = saveByte.message 1 := by
    cases hs
    cases ht
    exact ⟨rfl, rfl, rfl⟩
  obtain ⟨cache', ack, hhandle, hfits, -⟩ := serverHandle_answers zeroEnv
    (b := .empty) (by decide) hm zeroEnv_tail (.of_fresh (hcache ▸ hfresh))
    (.of_fresh (hcache ▸ hfresh)) (storesSafely_saveByte (hcache ▸ hfresh) 1)
    (by rw [(saveByte_served 1).1]; simp)
  obtain ⟨u, hdispatch, hbegin, -, hread, hresponse⟩ := steps_answering hpc hhandle hfits
  obtain ⟨v, hv⟩ : ∃ v, exec (guarded Calm (Ipc.step (serverHandle zeroEnv))) (answering t cache' ack)
      (List.replicate 7 .server ++ .wait () 1 :: List.replicate 6 (.client ())) = some v := by
    cases hs
    cases ht
    exact ⟨_, rfl⟩
  obtain ⟨w, hw⟩ : ∃ w, Step (serverHandle zeroEnv) v (.send () fetchByte) w := by
    cases hs
    cases ht
    cases hv
    exact ⟨_, rfl⟩
  obtain ⟨x, hx⟩ : ∃ x, exec (guarded Calm (Ipc.step (serverHandle zeroEnv))) w
      (List.replicate 10 (.client ()) ++ [.wait () 2]) = some x := by
    cases hs
    cases ht
    cases hv
    cases hw
    exact ⟨_, rfl⟩
  obtain ⟨hawaits, hwait, hserver, hmessage, hreceived⟩ : (v.client ()).awaits = false ∧
      (x.client ()).pc = .waitResponse ∧ x.server.pc = .waitDataReady ∧
      x.shared.message.handed = fetchByte.message 2 ∧ x.history.received.length = 1 := by
    cases hs
    cases ht
    cases hv
    cases hw
    cases hx
    exact ⟨rfl, rfl, rfl, rfl, rfl⟩
  -- the two statements between the dispatch and the stores
  have hcomputes : Run (Guarded (fun s a => Alternates (serverHandle zeroEnv) s a ∧ Unhurried s a)
      (Step (serverHandle zeroEnv))) t [.server, .server] (answering t cache' ack) := by
    have hnobody : ∀ s : State Unit Mem, Alternates (serverHandle zeroEnv) s .server :=
      fun s => ⟨trivial, fun _ _ hsend => by cases hsend⟩
    refine .cons ⟨⟨hnobody _, fun hno => ?_⟩, hdispatch⟩
      (.single ⟨⟨hnobody _, fun _ => hresponse.symm ▸ hfits⟩, hbegin⟩)
    rw [hpc] at hno
    cases hno
  have hrun := ((((run_send rfl hsave hs).append (run_calm ht)).append hcomputes).append
    (run_calm hv)).append ((run_send hawaits hfetch hw).append (run_calm hx))
  obtain ⟨bs, y, hlength, -, hsteps, hclient, hpost⟩ :=
    response_comes (fresh_initial cache) hrun hwait fun bs z _ hz =>
      (allFit_of_run (fresh_initial cache) (.of_fresh hfresh)
        (((hrun.mono fun _ _ _ hst => hst.2).append hz).mono fun _ _ _ hst => .of_step hst)).handed
  exact ⟨x, y, bs, hmessage, hreceived, hserver, hlength, hsteps, hclient, hpost⟩

end CCache.Server
