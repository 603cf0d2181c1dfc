/-
# CCache.Server.EndToEnd — what the clients of a running server see.

The pieces meet here: the mailbox hands every call over once and in order, a dispatch refines the
service, and a response that is received is the one computed for the call.  So in runs without
contention the responses computed are those of one service that takes the calls one after the other,
from an empty store; and with one response at a time every response a client receives is the answer of
that service to its own call.  What the file is beyond a bounded map, and how many parties share the
segment, is not visible.
-/
import CCache.Ipc.Requests
import CCache.Ipc.Responses
import CCache.Server.Service
import CCache.Server.ShortValues

namespace CCache.Server

open CCache.Cache (Store Tracks HasBytes getBytes keyName)
open CCache.Ipc
open CCache.Lib
open CCache.Lib.ByteMemory
open CCache.Lib.CString
open CCache.Lib.Machine
open CCache.Lib.Runs

variable {ι σ : Type} [DecidableEq ι] {handle : σ → SharedData → σ × Option (List UInt8)}

/-! ## The dispatches are served -/

/-- The step dispatches no store whose compaction loses bytes. -/
def KeepsValues (s : State ι Mem) : Action ι → Prop
  | .server => s.server.pc = .dispatch → StoresSafely s.server.cache s.shared.message.handed
  | _ => True

/-- The messages dispatched so far, in order. -/
def History.messages (h : History ι) : List IPCMessage := h.dispatched.map Dispatch.message

/-- The verdicts on them. -/
def History.verdicts (h : History ι) : List Verdict :=
  h.dispatched.map fun d => verdictOf d.message d.response

/-- The verdicts so far are those of the service, and the file tracks its store. -/
structure Served (s : State ι Mem) : Prop where
  verdicts : History.verdicts s.history = answers serve .empty (History.messages s.history)
  tracks : Tracks HasBytes s.server.cache (after serve .empty (History.messages s.history)).get

omit [DecidableEq ι] in
theorem Served.of_initial {s : State ι Mem} (h : Initial s)
    (hfresh : Cache.directory s.server.cache = .fresh) : Served s := by
  have hnone : History.messages s.history = [] := by
    rw [h.history]
    rfl
  constructor
  · rw [hnone, h.history]
    rfl
  · rw [hnone]
    exact .of_fresh hfresh

variable {env : Env}

/-- **A step keeps the refinement**: a dispatch serves the next message. -/
theorem Served.step {s t : State ι Mem} {a : Action ι} (hs : Served s) (hd : Delivery s)
    (hr : Requests s) (htail : TailEnds env.pad) (hkeeps : KeepsValues s a)
    (h : Step (serverHandle env) s a t) : Served t := by
  rcases step_dispatch h with ⟨hcache, hdispatched⟩ | ⟨⟨rfl, hpc⟩, hcache, hdispatched⟩
  · constructor
    · rw [History.verdicts, History.messages, hdispatched]
      exact hs.verdicts
    · rw [History.messages, hdispatched, hcache]
      exact hs.tracks
  · have hund : s.undispatched = true := by
      rw [State.undispatched, hd.flag (.inl hpc), hpc]
      rfl
    obtain ⟨c, hcall⟩ := (hd.whole hund).2
    obtain ⟨r, id, hfits, hm⟩ := hr.calls _ (List.mem_of_getElem? hcall)
    have hm : s.shared.message.handed = r.message id := hm
    have hserves := serverHandle_serves hfits hm htail hs.tracks (hm ▸ hkeeps hpc)
    have hmessages : History.messages t.history = History.messages s.history ++ [r.message id] := by
      rw [History.messages, hdispatched, List.map_append, hm]
      rfl
    constructor
    · rw [hmessages, answers_snoc, ← hs.verdicts, ← hserves.1, History.verdicts, History.verdicts,
        hdispatched, List.map_append, List.map_singleton, hm]
    · rw [hmessages, after_snoc, hcache]
      exact hserves.2

/-! ## A store and a fetch, from start to end -/

/-- A request that the service answers is answered by a dispatch on a short file, with a response that
fits and reads as the service's verdict. -/
theorem serverHandle_answers (env : Env) {cache : Mem} {b : Store} {d : SharedData} {r : Request} {id : UInt32}
    (hr : r.Fits) (hm : d.message.handed = r.message id) (htail : TailEnds env.pad)
    (ht : Tracks HasBytes cache b.get) (hshort : ShortValues cache)
    (hguard : StoresSafely cache (r.message id)) (hanswer : (serve b (r.message id)).1 ≠ .silent) :
    ∃ cache' response, serverHandle env cache d = (cache', some response) ∧
      response.length ≤ maxMessageSize ∧
      verdictOf (r.message id) (some response) = (serve b (r.message id)).1 ∧
      Tracks HasBytes cache' (serve b (r.message id)).2.get ∧ ShortValues cache' := by
  obtain ⟨hverdict, htracks⟩ := serverHandle_serves hr hm htail ht hguard
  have hsize : d.message.payloadSize ≤ maxPayload := by
    have hsize := congrArg IPCMessage.payloadSize hm
    exact hsize.trans_le hr
  obtain ⟨hvalues, hfits⟩ := serverHandle_short env hshort hsize
  generalize serverHandle env cache d = out at hverdict htracks hvalues hfits
  obtain ⟨cache', response⟩ := out
  cases response with
  | none => exact absurd hverdict.symm hanswer
  | some response => exact ⟨cache', response, rfl, hfits _ rfl, hverdict, htracks, hvalues⟩

/-- A `bytecode/save` of one byte under the empty hash string. -/
def saveByte : Request :=
  ⟨hashRoute Route.saveBytecode.path, List.replicate 256 0 ++ toLE 4 1 ++ [7]⟩

/-- The `bytecode/get` that asks for it. -/
def fetchByte : Request := ⟨hashRoute Route.getBytecode.path, List.replicate 256 0⟩

theorem routeOf_hashRoute (route : Route) (data : List UInt8) (id : UInt32) :
    routeOf ((⟨hashRoute route.path, data⟩ : Request).message id) = some route := by
  rw [routeOf_message, trunc_hashRoute, findRoute_hashRoute]

theorem askOf_saveByte (id : UInt32) : askOf (saveByte.message id) = .store .bytecode [] [7] := by
  rw [askOf, saveByte, routeOf_hashRoute]
  show Kind.bytecode.ask (List.replicate 256 0 ++ toLE 4 1 ++ [7]) = _
  decide +kernel

theorem askOf_fetchByte (id : UInt32) :
    askOf (fetchByte.message id) = .query (.cached .bytecode) [] := by
  rw [askOf, fetchByte, routeOf_hashRoute]
  show (Query.cached .bytecode).ask (List.replicate 256 0) = _
  decide +kernel

/-- The store with the one byte. -/
noncomputable def oneByte : Store :=
  (Ask.serve .empty (.store .bytecode [] [7])).2

theorem saveByte_served (id : UInt32) :
    serve .empty (saveByte.message id) = (.acknowledged true [], oneByte) ∧
      oneByte.get (keyName Kind.bytecode.keyPrefix) = some [7] := by
  have haccepts : (BoundedMap.empty : Store).Accepts (keyName Kind.bytecode.keyPrefix) [7] := by
    refine ⟨Nat.one_pos, ?_, .inr ?_⟩
    · rw [show PartialMap.total List.length (BoundedMap.empty : Store).get = 0 from PartialMap.total_none]
      decide
    · have hnone : PartialMap.keySet (BoundedMap.empty : Store).get = ∅ := by
        ext
        simp [PartialMap.keySet, BoundedMap.empty]
      rw [hnone, Set.ncard_empty]
      decide
  obtain ⟨hok, hget⟩ := BoundedMap.put_of_accepts haccepts
  constructor
  · rw [serve, askOf_saveByte, oneByte, Ask.serve]
    simp only [List.append_nil, hok]
    rfl
  · rw [oneByte, Ask.serve]
    simp only [List.append_nil, hget, Function.update_self]

theorem fetchByte_served (id : UInt32) :
    serve oneByte (fetchByte.message id) = (.data true 1 [] [7], oneByte) := by
  rw [serve, askOf_fetchByte, Ask.serve, List.append_nil, (saveByte_served id).2]
  rfl

theorem answers_byte : answers serve .empty [saveByte.message 1, fetchByte.message 1] =
    [.acknowledged true [], .data true 1 [] [7]] := by
  simp only [answers, (saveByte_served 1).1, fetchByte_served]

theorem after_byte : after serve .empty [saveByte.message 1, fetchByte.message 1] = oneByte := by
  simp only [after, List.foldl, (saveByte_served 1).1, fetchByte_served]

/-- A query stores nothing. -/
theorem storesSafely_query {cache : Mem} {m : IPCMessage} {q : Query} {hash : List UInt8}
    (hm : askOf m = .query q hash) : StoresSafely cache m := by
  intro kind h data hstore
  rw [hm] at hstore
  cases hstore

/-- A new file has room for the byte as it is. -/
theorem storesSafely_saveByte {cache : Mem} (hfresh : Cache.directory cache = .fresh) (id : UInt32) :
    StoresSafely cache (saveByte.message id) := by
  intro kind h data hstore hcompacts
  rw [askOf_saveByte] at hstore
  cases hstore
  refine absurd hcompacts (Cache.not_compacts (hfresh ▸ .fresh) ?_)
  rw [hfresh]
  decide

/-- The server after its dispatch and the start of `send_response`. -/
def answering (s : State ι Mem) (cache : Mem) (response : List UInt8) : State ι Mem :=
  (s.setServer ⟨.storeResponse, cache, response, s.shared.currentMessageId⟩).setHistory
    { s.history with dispatched := s.history.dispatched ++
        [⟨s.shared.message.handed, s.history.origin, some response⟩] }

/-- Steps with one response at a time that are not the dispatch. -/
def Beside {ι σ : Type} (s : State ι σ) (a : Action ι) : Prop :=
  OneAtATime s a ∧ s.server.pc ≠ .dispatch

instance {ι σ : Type} [Fintype ι] [DecidableEq ι] (s : State ι σ) (a : Action ι) :
    Decidable (Beside s a) :=
  inferInstanceAs (Decidable (_ ∧ _))

/-- A step that meets every condition of these runs, with nobody moving while the server handles. -/
structure Orderly (s : State ι Mem) (a : Action ι) : Prop where
  one : OneAtATime s a
  keeps : KeepsValues s a
  alone : s.server.pc = .dispatch → a = .server

theorem run_beside [Fintype ι] {s t : State ι Mem} {as : List (Action ι)}
    (h : exec (guarded Beside (Ipc.step (serverHandle env))) s as = some t) :
    Run (Guarded Orderly (Step (serverHandle env))) s as t := by
  refine (run_of_exec_guarded h).mono fun s a t hst => ⟨⟨hst.1.1, ?_, fun hpc => ?_⟩, hst.2⟩
  · cases a with
    | server => exact fun hpc => absurd hpc hst.1.2
    | _ => trivial
  · exact absurd hpc hst.1.2

/-- The dispatch and the first statement of `send_response`. -/
theorem steps_answering {s : State ι Mem} {cache : Mem} {response : List UInt8}
    (hpc : s.server.pc = .dispatch)
    (hhandle : serverHandle env s.server.cache s.shared = (cache, some response))
    (hfits : response.length ≤ maxMessageSize) :
    ∃ t, Step (serverHandle env) s .server t ∧
      Step (serverHandle env) t .server (answering s cache response) ∧
      (t.shared = s.shared ∧ t.client = s.client) ∧
      t.server.pc = .readCurrentId ∧ t.server.response = response := by
  refine ⟨(s.setServer
      { s.server with pc := .readCurrentId, cache := cache, response := response }).setHistory
      { s.history with dispatched := s.history.dispatched ++
          [⟨s.shared.message.handed, s.history.origin, some response⟩] }, ?_, ?_, ⟨rfl, rfl⟩, rfl, rfl⟩
  · simp only [Step, Ipc.step, serverStep, hpc, hhandle]
    rfl
  · simp only [Step, Ipc.step, serverStep, State.setServer, State.setHistory, gt_iff_lt,
      if_neg (Nat.not_lt.mpr hfits)]
    rfl

/-- They are orderly when nobody waits. -/
theorem run_answering {s : State ι Mem} {cache : Mem} {response : List UInt8}
    (hpc : s.server.pc = .dispatch)
    (hhandle : serverHandle env s.server.cache s.shared = (cache, some response))
    (hfits : response.length ≤ maxMessageSize)
    (hkeeps : StoresSafely s.server.cache s.shared.message.handed)
    (hready : s.shared.responseReady = 0) (hnone : ∀ d, (s.client d).pc.awaiting = false) :
    Run (Guarded Orderly (Step (serverHandle env))) s [.server, .server]
      (answering s cache response) := by
  obtain ⟨t, hdispatch, hbegin, ⟨hshared, hclient⟩, hread, -⟩ := steps_answering hpc hhandle hfits
  have hfirst : Orderly s .server :=
    ⟨⟨trivial, fun hno => by rw [hpc] at hno; cases hno⟩, fun _ => hkeeps, fun _ => rfl⟩
  have hsecond : Orderly t .server := by
    refine ⟨⟨trivial, fun _ _ => ⟨hshared ▸ hready, fun d => ?_⟩⟩, fun hno => ?_, fun _ => rfl⟩
    · rw [hclient]
      refine ⟨ClientPc.not_receiving (hnone d), fun hwait => ?_⟩
      have hawaiting := hnone d
      rw [hwait] at hawaiting
      cases hawaiting
    · rw [hread] at hno
      cases hno
  exact .cons ⟨hfirst, hdispatch⟩ (.single ⟨hsecond, hbegin⟩)

/-- What a client receives once its response is posted. -/
def receives (c : Fin 2) : List (Action (Fin 2)) :=
  List.replicate 7 .server ++ .wait c 1 :: List.replicate 6 (.client c)

set_option maxRecDepth 8000 in
/-- **A store by one client and a fetch by another.** -/
theorem byte_received {cache : Mem} (hfresh : Cache.directory cache = .fresh)
    (htail : TailEnds env.pad) :
    ∃ (as : List (Action (Fin 2))) (s : State (Fin 2) Mem) (ack bytes : List UInt8),
      Run (Guarded Orderly (Step (serverHandle env))) (.fresh cache) as s ∧
        s.history.received = [(0, 1, ack), (1, 1, bytes)] ∧
        s.history.calls = [(0, saveByte.message 1), (1, fetchByte.message 1)] ∧
        s.history.dispatched.length = 2 ∧
        verdictOf (fetchByte.message 1) (some bytes) = .data true 1 [] [7] := by
  obtain ⟨s, hs⟩ : ∃ s, exec (guarded Beside (Ipc.step (serverHandle env))) (.fresh cache)
      (sends 0 saveByte ++ [.server, .server]) = some s := ⟨_, rfl⟩
  have hrun := run_beside hs
  obtain ⟨hpc, hcache, hm, hready, hnone⟩ : s.server.pc = .dispatch ∧ s.server.cache = cache ∧
      s.shared.message.handed = saveByte.message 1 ∧ s.shared.responseReady = 0 ∧
      ∀ d, (s.client d).pc.awaiting = false := by
    cases hs
    exact ⟨rfl, rfl, rfl, rfl, Fin.forall_fin_two.mpr ⟨rfl, rfl⟩⟩
  obtain ⟨cache', ack, hhandle, hfits, -, htracks, hshort⟩ := serverHandle_answers env
    (b := .empty) (by decide) hm htail (.of_fresh (hcache ▸ hfresh)) (.of_fresh (hcache ▸ hfresh))
    (storesSafely_saveByte (hcache ▸ hfresh) 1) (by rw [(saveByte_served 1).1]; simp)
  have hanswer := run_answering hpc hhandle hfits
    (hm ▸ storesSafely_saveByte (hcache ▸ hfresh) 1) hready hnone
  obtain ⟨u, hu⟩ : ∃ u, exec (guarded Beside (Ipc.step (serverHandle env))) (answering s cache' ack)
      (receives 0 ++ sends 1 fetchByte ++ [.server, .server]) = some u := by
    cases hs
    exact ⟨_, rfl⟩
  obtain ⟨hpc', hcache', hm', hready', hnone'⟩ : u.server.pc = .dispatch ∧ u.server.cache = cache' ∧
      u.shared.message.handed = fetchByte.message 1 ∧ u.shared.responseReady = 0 ∧
      ∀ d, (u.client d).pc.awaiting = false := by
    cases hs
    cases hu
    exact ⟨rfl, rfl, rfl, rfl, Fin.forall_fin_two.mpr ⟨rfl, rfl⟩⟩
  rw [(saveByte_served 1).1] at htracks
  obtain ⟨cache'', bytes, hhandle', hfits', hverdict, -⟩ := serverHandle_answers env
    (b := oneByte) (by decide) hm' htail (hcache' ▸ htracks) (hcache' ▸ hshort)
    (storesSafely_query (askOf_fetchByte 1)) (by rw [fetchByte_served]; simp)
  have hanswer' := run_answering hpc' hhandle' hfits'
    (hm' ▸ storesSafely_query (askOf_fetchByte 1)) hready' hnone'
  obtain ⟨v, hv⟩ : ∃ v, exec (guarded Beside (Ipc.step (serverHandle env))) (answering u cache'' bytes)
      (receives 1) = some v := by
    cases hs
    cases hu
    exact ⟨_, rfl⟩
  obtain ⟨hreceived, hcalls, hlength⟩ : v.history.received =
        [(0, 1, (memcpy [] ack).take ack.length),
          (1, 1, (memcpy (memcpy [] ack) bytes).take bytes.length)] ∧
      v.history.calls = [(0, saveByte.message 1), (1, fetchByte.message 1)] ∧
      v.history.dispatched.length = 2 := by
    cases hs
    cases hu
    cases hv
    exact ⟨rfl, rfl, rfl⟩
  rw [take_memcpy, take_memcpy] at hreceived
  rw [fetchByte_served] at hverdict
  exact ⟨_, v, ack, bytes, (((hrun.append hanswer).append (run_beside hu)).append hanswer').append
    (run_beside hv), hreceived, hcalls, hlength, hverdict⟩

/-- Bytes of a segment whose last page ends in zeros. -/
def zeroEnv : Env := ⟨fun _ => 0, fun _ => 0⟩

theorem zeroEnv_tail : TailEnds zeroEnv.pad := ⟨41096, le_rfl, by decide, rfl⟩

/-! ## Runs -/

omit [DecidableEq ι] in
/-- The messages dispatched are those of the first calls. -/
theorem messages_eq {s : State ι σ} (hs : Delivery s) : History.messages s.history =
    (s.history.calls.map Prod.snd).take s.history.dispatched.length := by
  refine List.ext_getElem? fun k => ?_
  rw [History.messages, List.getElem?_map]
  rcases Nat.lt_or_ge k s.history.dispatched.length with hlt | hge
  · obtain ⟨-, c, hcall⟩ := hs.served k _ (List.getElem?_eq_getElem hlt)
    rw [List.getElem?_take_of_lt hlt, List.getElem?_map, hcall, List.getElem?_eq_getElem hlt]
    rfl
  · rw [List.getElem?_eq_none hge, List.getElem?_eq_none]
    · rfl
    · exact (List.length_take_le _ _).trans hge

/-- **The server serves the calls in order.** In every run without contention of a server that started
on a new cache file, whose stores lose no bytes to a compaction, the responses computed so far, read
through the response structs, are the verdicts of the service on as many calls, taken in the order in
which they drew their ids; and `Get` finds in the file what the service has stored by then. -/
theorem dispatches_serve {s₀ s : State ι Mem} {as : List (Action ι)} (h₀ : Initial s₀)
    (hfresh : Cache.directory s₀.server.cache = .fresh) (htail : TailEnds env.pad)
    (h : Run (Guarded (fun s a => Uncontended s a ∧ KeepsValues s a) (Step (serverHandle env))) s₀ as
      s) :
    History.verdicts s.history = (answers serve .empty (s.history.calls.map Prod.snd)).take
        s.history.dispatched.length ∧
      ∀ key, getBytes s.server.cache key = (after serve .empty
        ((s.history.calls.map Prod.snd).take s.history.dispatched.length)).get (keyName key) := by
  have hall : Delivery s ∧ Requests s ∧ Served s :=
    Run.invariant (I := fun s => Delivery s ∧ Requests s ∧ Served s)
      (fun _ _ _ hs hst => ⟨hs.1.step hst.1.1 hst.2, hs.2.1.step hst.2,
        hs.2.2.step hs.1 hs.2.1 htail hst.1.2 hst.2⟩)
      ⟨h₀.delivery, .of_initial h₀, .of_initial h₀ hfresh⟩ h
  obtain ⟨hdelivery, -, hserved⟩ := hall
  rw [answers_take, ← messages_eq hdelivery]
  exact ⟨hserved.verdicts, hserved.tracks.getBytes_eq⟩

/-- The verdicts on a store by one client and a fetch by another, and what is in the file then. -/
theorem dispatches_serve_byte : ∃ s : State (Fin 2) Mem, s.history.received.length = 2 ∧
    History.verdicts s.history = [.acknowledged true [], .data true 1 [] [7]] ∧
    getBytes s.server.cache Kind.bytecode.keyPrefix = some [7] := by
  have hfresh := Cache.initMmap_fresh (Cache.runFrom_zeros []).1
  generalize (Cache.initMmap (.start fun _ => 0)).mem = cache at hfresh
  obtain ⟨as, s, ack, bytes, hrun, hreceived, hcalls, hlength, -⟩ := byte_received hfresh zeroEnv_tail
  have hrun' := hrun.mono fun s a t hst =>
    (⟨⟨hst.1.one.1, hst.1.keeps⟩, hst.2⟩ :
      Guarded (fun s a => Uncontended s a ∧ KeepsValues s a) (Step (serverHandle zeroEnv)) s a t)
  obtain ⟨hverdicts, hget⟩ := dispatches_serve (fresh_initial cache) hfresh zeroEnv_tail hrun'
  refine ⟨s, by rw [hreceived]; rfl, ?_, ?_⟩
  · rw [hverdicts, hcalls, hlength, List.map_cons, List.map_singleton, answers_byte]
    rfl
  · rw [hget, hcalls, hlength, List.map_cons, List.map_singleton]
    exact after_byte ▸ (saveByte_served 1).2

/-! ## What a client receives -/

/-- **A client receives the service's answer to its own call.** In every run with one response at a
time, on a new cache file and with stores that lose no bytes to a compaction, whatever a
`wait_for_response` that returned true has copied is the verdict of the service on a call of that
client with the id it waited for, where the service has taken all calls one after the other. -/
theorem received_is_served {s₀ s : State ι Mem} {as : List (Action ι)} (h₀ : Initial s₀)
    (hfresh : Cache.directory s₀.server.cache = .fresh) (htail : TailEnds env.pad)
    (h : Run (Guarded (fun s a => OneAtATime s a ∧ KeepsValues s a) (Step (serverHandle env))) s₀ as
      s) {c : ι} {e : UInt32} {bytes : List UInt8} (hreceived : (c, e, bytes) ∈ s.history.received) :
    ∃ (k : Nat) (m : IPCMessage), s.history.calls[k]? = some (c, m) ∧ m.messageId = e ∧
      (answers serve .empty (s.history.calls.map Prod.snd))[k]? =
        some (verdictOf m (some bytes)) := by
  have hall : (Channel s ∧ Delivery s ∧ Tokens s ∧ Current s) ∧ Requests s ∧ Served s :=
    Run.invariant (I := fun s => (Channel s ∧ Delivery s ∧ Tokens s ∧ Current s) ∧ Requests s ∧ Served s)
      (fun _ _ _ hs hst =>
        ⟨⟨hs.1.1.step hs.1.2.1 hs.1.2.2.1 hs.1.2.2.2 hst.1.1 hst.2,
          hs.1.2.1.step hst.1.1.1 hst.2, hs.1.2.2.1.step hs.1.2.1 hst.1.1.1 hst.2,
          hs.1.2.2.2.step hs.1.2.1 hs.1.2.2.1 hst.2⟩,
        hs.2.1.step hst.2, hs.2.2.step hs.1.2.1 hs.2.1 htail hst.1.2 hst.2⟩)
      ⟨⟨h₀.channel, h₀.delivery, h₀.tokens, h₀.current⟩, .of_initial h₀, .of_initial h₀ hfresh⟩ h
  obtain ⟨⟨hchannel, hdelivery, -, -⟩, -, hserved⟩ := hall
  obtain ⟨k, m, d, hcall, hid, hd, hhands, hresponse⟩ := hchannel.received c e bytes hreceived
  refine ⟨k, m, hcall, hid, ?_⟩
  -- the dispatch of call `k` is the `k`-th
  obtain ⟨j, hj⟩ := List.mem_iff_getElem?.mp hd
  obtain ⟨horigin, c', hcall'⟩ := hdelivery.served j d hj
  have hjk : j = k := by
    have hsame := horigin.symm.trans hhands.1
    simp only [Origin.whole, Origin.mk.injEq, Option.some.injEq] at hsame
    exact hsame.1
  subst hjk
  have hm : d.message = m := by
    rw [hcall] at hcall'
    exact (congrArg Prod.snd (Option.some.inj hcall')).symm
  have hlt : j < s.history.dispatched.length := (List.getElem?_eq_some_iff.mp hj).1
  have hverdict : (History.verdicts s.history)[j]? = some (verdictOf m (some bytes)) := by
    rw [History.verdicts, List.getElem?_map, hj, Option.map_some, hm, hresponse]
  rw [hserved.verdicts, messages_eq hdelivery, ← answers_take, List.getElem?_take_of_lt hlt] at hverdict
  exact hverdict

/-- What the second client receives of the first one's byte is the service's answer to its call. -/
theorem received_is_served_byte : ∃ (s : State (Fin 2) Mem) (bytes : List UInt8),
    (1, 1, bytes) ∈ s.history.received ∧
      verdictOf (fetchByte.message 1) (some bytes) = .data true 1 [] [7] ∧
      ∃ (k : Nat) (m : IPCMessage), s.history.calls[k]? = some (1, m) ∧ m.messageId = 1 ∧
        (answers serve .empty (s.history.calls.map Prod.snd))[k]? =
          some (verdictOf m (some bytes)) := by
  have hfresh := Cache.initMmap_fresh (Cache.runFrom_zeros []).1
  generalize (Cache.initMmap (.start fun _ => 0)).mem = cache at hfresh
  obtain ⟨as, s, ack, bytes, hrun, hreceived, -, -, hverdict⟩ := byte_received hfresh zeroEnv_tail
  have hrun' := hrun.mono fun s a t hst =>
    (⟨⟨hst.1.one, hst.1.keeps⟩, hst.2⟩ :
      Guarded (fun s a => OneAtATime s a ∧ KeepsValues s a) (Step (serverHandle zeroEnv)) s a t)
  have hmem : (1, 1, bytes) ∈ s.history.received := by
    rw [hreceived]
    exact List.mem_cons_of_mem _ List.mem_cons_self
  exact ⟨s, bytes, hmem, hverdict,
    received_is_served (fresh_initial cache) hfresh zeroEnv_tail hrun' hmem⟩

end CCache.Server
