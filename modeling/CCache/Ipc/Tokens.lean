/-
# CCache.Ipc.Tokens — one token for one message, and the id the server reads.

In a run without contention the calls are published in the order of their numbers, the `data_ready`
token of a message is posted after its `current_message_id` is stored, and the server looks at the
slot only with that token in hand.  So `current_message_id` is the id of the message that the server
handles, from its dispatch to its clear.
-/
import CCache.Ipc.Delivery

namespace CCache.Ipc

open CCache.Lib.Runs

variable {ι σ : Type}

/-- The server has taken a token and not yet dispatched or given up. -/
def ServerPc.looking : ServerPc → Bool
  | .testHasMessage | .dispatch => true
  | _ => false

/-- `k` is the call that published last; `c` made it, with the message `m`. -/
structure LastCall (s : State ι σ) (k : Nat) (c : ι) (m : IPCMessage) : Prop where
  last : s.history.published.getLast? = some k
  call : s.history.calls[k]? = some (c, m)

theorem LastCall.unique {s : State ι σ} {k l : Nat} {c d : ι} {m n : IPCMessage}
    (h : LastCall s k c m) (h' : LastCall s l d n) : k = l ∧ c = d ∧ m = n := by
  have hk : k = l := Option.some.inj (h.last.symm.trans h'.last)
  subst hk
  have hcall := Option.some.inj (h.call.symm.trans h'.call)
  exact ⟨rfl, congrArg Prod.fst hcall, congrArg Prod.snd hcall⟩

/-- The last call stays the last until the next publication. -/
theorem LastCall.grows {s t : State ι σ} (hpublished : t.history.published = s.history.published)
    (hcalls : ∀ (k : Nat) x, s.history.calls[k]? = some x → t.history.calls[k]? = some x) {k : Nat}
    {c : ι} {m : IPCMessage} (h : LastCall s k c m) : LastCall t k c m :=
  ⟨by rw [hpublished]; exact h.last, hcalls _ _ h.call⟩

/-- The tokens of a run without contention. -/
structure Tokens (s : State ι σ) : Prop where
  published : s.history.published = List.range s.publishedCount
  one : s.shared.dataReady + s.server.pc.looking.toNat ≤ 1
  token : 0 < s.shared.dataReady + s.server.pc.looking.toNat →
    s.undispatched = true ∧ ∀ c, (s.client c).pc.posting = false
  posting : ∀ c, (s.client c).pc.posting = true → s.undispatched = true ∧
    ∃ m, LastCall s (s.client c).call c m

theorem Initial.tokens {s : State ι σ} (h : Initial s) : Tokens s := by
  have hidle : ∀ c, (s.client c).pc = .idle := fun c => (h.client c).1
  have hnot : s.shared.dataReady + s.server.pc.looking.toNat = 0 := by
    rw [h.dataReady, h.server]
    rfl
  refine ⟨?_, ?_, ?_, ?_⟩
  · rw [State.publishedCount, State.undispatched, h.hasMessage, h.history]
    rfl
  · omega
  · omega
  · intro c hc
    rw [hidle] at hc
    cases hc

/-- Two clients that post are one: both made the last call. -/
theorem Tokens.posting_unique {s : State ι σ} (hs : Tokens s) {c d : ι}
    (hc : (s.client c).pc.posting = true) (hd : (s.client d).pc.posting = true) : c = d := by
  obtain ⟨-, m, hm⟩ := hs.posting c hc
  obtain ⟨-, n, hn⟩ := hs.posting d hd
  exact (hm.unique hn).2.1

/-- What waits in the slot is the message of the last call. -/
theorem Tokens.slot {s : State ι σ} (hs : Tokens s) (hd : Delivery s) (hund : s.undispatched = true) :
    ∃ k c, LastCall s k c s.shared.message.handed ∧ s.history.origin = Origin.whole k := by
  obtain ⟨horigin, c, hc⟩ := hd.whole hund
  refine ⟨_, c, ⟨?_, hc⟩, horigin⟩
  rw [hs.published, State.publishedCount, hund, Bool.toNat_true, List.range_succ]
  simp

/-! ## What a step adds to the history -/

variable [DecidableEq ι] {handle : σ → SharedData → σ × Option (List UInt8)}

theorem clientStep_calls {s t : State ι σ} {c : ι} (h : clientStep s c = some t) {k : Nat}
    {x : ι × IPCMessage} (hk : s.history.calls[k]? = some x) : t.history.calls[k]? = some x := by
  rcases clientStep_calls_eq h with hsame | ⟨-, hadd⟩
  · rw [hsame]
    exact hk
  · rw [hadd, List.getElem?_append_left (List.getElem?_eq_some_iff.mp hk).1]
    exact hk

/-- Only the publication changes what was published last. -/
theorem clientStep_published {s t : State ι σ} {c : ι} (hpc : (s.client c).pc ≠ .storeHasMessage)
    (h : clientStep s c = some t) :
    t.history.published = s.history.published ∧ t.history.dispatched = s.history.dispatched ∧
      t.shared.hasMessage = s.shared.hasMessage := by
  cases hpc' : (s.client c).pc
  all_goals simp only [clientStep, hpc'] at h
  all_goals try split at h
  all_goals cases h
  all_goals simp_all [State.setClient, State.setShared, State.setHistory]

theorem LastCall.client {s t : State ι σ} {c : ι} (hpc : (s.client c).pc ≠ .storeHasMessage)
    (h : clientStep s c = some t) {k : Nat} {d : ι} {m : IPCMessage} (hl : LastCall s k d m) :
    LastCall t k d m :=
  hl.grows (clientStep_published hpc h).1 fun _ _ => clientStep_calls h

omit [DecidableEq ι] in
theorem LastCall.server {s t : State ι σ} (h : serverStep handle s = some t) {k : Nat} {d : ι}
    {m : IPCMessage} (hl : LastCall s k d m) : LastCall t k d m :=
  hl.grows (serverStep_calls h).2 fun _ _ hk => by rw [(serverStep_calls h).1]; exact hk

/-! ## The steps -/

/-- The publication: no token is out, and the client that published is the one to post it. -/
theorem Tokens.publishes {s t : State ι σ} {c : ι} (hs : Tokens s) (hd : Delivery s)
    (hpc : (s.client c).pc = .storeHasMessage) (hflag : s.shared.hasMessage = false)
    (h : clientStep s c = some t) : Tokens t := by
  obtain ⟨hfree, hund, hpub, -⟩ := hd.publish_counts hpc hflag h
  have hw := hd.writes c (by rw [hpc]; rfl)
  obtain ⟨id, hid, -⟩ := hw.filled
  have hserver := (clientStep_moves h).1
  have hother : ∀ d, d ≠ c → t.client d = s.client d := fun d hd => clientStep_other h hd
  have hcalls : t.history.calls[(s.client c).call]? = _ := clientStep_calls h hid
  simp only [clientStep, hpc, Option.some.injEq] at h
  obtain ⟨hpublished, hready, hcall⟩ : t.history.published =
        s.history.published ++ [(s.client c).call] ∧ t.shared.dataReady = s.shared.dataReady ∧
      (t.client c).call = (s.client c).call := by
    subst h
    simp [State.setClient, State.setShared, State.setHistory]
  -- no message waits, so no token is out
  have hzero : s.shared.dataReady + s.server.pc.looking.toNat = 0 := by
    by_contra hne
    have hwait := (hs.token (Nat.pos_of_ne_zero hne)).1
    rw [hfree] at hwait
    cases hwait
  refine ⟨?_, ?_, ?_, fun d hpost => ⟨hund, ?_⟩⟩
  · rw [hpublished, hpub, hs.published, hw.call, List.range_succ]
  · rw [hready, hserver]
    omega
  · rw [hready, hserver]
    omega
  · have hdc : d = c := by
      by_contra hne
      rw [hother d hne] at hpost
      have hwait := (hs.posting d hpost).1
      rw [hfree] at hwait
      cases hwait
    subst hdc
    rw [hcall]
    exact ⟨_, by rw [hpublished, List.getLast?_concat], hcalls⟩

/-- Outside the publication a client comes to post only from posting, and posts the token last. -/
theorem clientStep_token {s t : State ι σ} {c : ι} (hpc : (s.client c).pc ≠ .storeHasMessage)
    (h : clientStep s c = some t) :
    ((t.client c).pc.posting = true → (s.client c).pc.posting = true ∧
      (t.client c).call = (s.client c).call) ∧
    (t.shared.dataReady = s.shared.dataReady ∨ t.shared.dataReady = s.shared.dataReady + 1 ∧
      (s.client c).pc.posting = true ∧ (t.client c).pc.posting = false) := by
  cases hpc' : (s.client c).pc
  all_goals simp only [clientStep, hpc'] at h
  all_goals try split at h
  all_goals cases h
  all_goals simp_all [State.setClient, State.setShared, State.setHistory, ClientPc.posting]

theorem Tokens.client {s t : State ι σ} {c : ι} (hs : Tokens s) (hd : Delivery s)
    (hun : Uncontended s (.client c)) (h : clientStep s c = some t) : Tokens t := by
  by_cases hpc : (s.client c).pc = .storeHasMessage
  · exact hs.publishes hd hpc (hun.2 hpc) h
  have hserver := (clientStep_moves h).1
  obtain ⟨hpublished, hdispatched, hflag⟩ := clientStep_published hpc h
  obtain ⟨hpost, hready⟩ := clientStep_token hpc h
  have hund : t.undispatched = s.undispatched := State.undispatched_congr hflag hserver
  have hpub : t.publishedCount = s.publishedCount := State.publishedCount_congr hund hdispatched
  have hback : ∀ d, (t.client d).pc.posting = true → (s.client d).pc.posting = true ∧
      (t.client d).call = (s.client d).call := by
    intro d hd'
    by_cases hdc : d = c
    · subst hdc
      exact hpost hd'
    · rw [clientStep_other h hdc] at hd' ⊢
      exact ⟨hd', rfl⟩
  have hlast : ∀ d, (t.client d).pc.posting = true → t.undispatched = true ∧
      ∃ m, LastCall t (t.client d).call d m := by
    intro d hd'
    obtain ⟨hd'', hcall⟩ := hback d hd'
    obtain ⟨hwait, m, hm⟩ := hs.posting d hd''
    exact ⟨hund ▸ hwait, m, hcall ▸ hm.client hpc h⟩
  rcases hready with hready | ⟨hready, hc, hc'⟩
  · refine ⟨by rw [hpublished, hpub, hs.published], by rw [hready, hserver]; exact hs.one, ?_, hlast⟩
    rw [hready, hserver]
    intro hpos
    refine ⟨hund ▸ (hs.token hpos).1, fun d => ?_⟩
    by_contra hne
    have hno := (hs.token hpos).2 d
    rw [(hback d (by simpa using hne)).1] at hno
    cases hno
  · -- the token is posted: none was out, and the client was the only one to post
    have hzero : s.shared.dataReady + s.server.pc.looking.toNat = 0 := by
      by_contra hne
      have hno := (hs.token (Nat.pos_of_ne_zero hne)).2 c
      rw [hc] at hno
      cases hno
    refine ⟨by rw [hpublished, hpub, hs.published], by rw [hready, hserver]; omega, ?_, hlast⟩
    intro _
    refine ⟨hund ▸ (hs.posting c hc).1, fun d => ?_⟩
    by_contra hne
    have hd' := (hback d (by simpa using hne)).1
    rw [hs.posting_unique hd' hc, hc'] at hne
    exact hne rfl

omit [DecidableEq ι] in
/-- The server moves a token from the semaphore to its hand and lays it down with the dispatch. -/
theorem serverStep_token {s t : State ι σ} (h : serverStep handle s = some t) :
    t.shared.dataReady + t.server.pc.looking.toNat ≤ s.shared.dataReady + s.server.pc.looking.toNat ∧
      (s.server.pc = .dispatch → t.shared.dataReady = s.shared.dataReady ∧
        t.server.pc.looking = false) := by
  cases hpc : s.server.pc
  all_goals simp only [serverStep, hpc] at h
  all_goals try split at h
  all_goals cases h
  all_goals simp [State.setServer, State.setShared, State.setHistory, ServerPc.looking]
  all_goals omega

omit [DecidableEq ι] in
theorem Tokens.server {s t : State ι σ} (hs : Tokens s) (hd : Delivery s)
    (h : serverStep handle s = some t) : Tokens t := by
  obtain ⟨htoken, hlay⟩ := serverStep_token h
  have hclient := serverStep_moves h
  have hone := hs.one
  by_cases hpc : s.server.pc = .dispatch
  · -- the token in hand was the only one, and nobody is posting
    have hlook : s.server.pc.looking = true := by rw [hpc]; rfl
    obtain ⟨hwait, hnone⟩ := hs.token (by rw [hlook]; simp)
    obtain ⟨⟨-, -, hpub⟩, -, -⟩ := hd.dispatch_counts hpc h
    obtain ⟨hready, hlay⟩ := hlay hpc
    rw [hlook, Bool.toNat_true] at hone
    refine ⟨?_, ?_, ?_, fun c hc => ?_⟩
    · rw [(serverStep_calls h).2, hpub, hs.published]
    · rw [hlay, hready, Bool.toNat_false]
      omega
    · rw [hlay, hready, Bool.toNat_false]
      omega
    · rw [hclient, hnone] at hc
      cases hc
  · obtain ⟨⟨-, hund, -⟩, hcalls, -, hdispatched, -⟩ :=
      serverStep_silent hpc (fun hh => hd.flag (.inr hh)) h
    refine ⟨?_, by omega, fun hpos => ?_, fun c hc => ?_⟩
    · rw [(serverStep_calls h).2, State.publishedCount, hund, hdispatched, hs.published]
      rfl
    · rw [hund, hclient]
      exact hs.token (by omega)
    · rw [hclient] at hc ⊢
      obtain ⟨hwait, m, hm⟩ := hs.posting c hc
      exact ⟨hund ▸ hwait, m, hm.server h⟩

theorem Tokens.enter {s : State ι σ} {c : ι} {x : Client} (hs : Tokens s)
    (hx : x.pc.posting = false) : Tokens (s.setClient c x) := by
  have hback : ∀ d, ((s.setClient c x).client d).pc.posting = true →
      (s.setClient c x).client d = s.client d := by
    intro d hd
    refine s.setClient_of_ne x fun hdc => ?_
    rw [hdc, s.setClient_self, hx] at hd
    cases hd
  refine ⟨hs.published, hs.one, fun hpos => ⟨(hs.token hpos).1, fun d => ?_⟩, fun d hd => ?_⟩
  · by_contra hne
    have hd : ((s.setClient c x).client d).pc.posting = true := by simpa using hne
    have hno := (hs.token hpos).2 d
    rw [hback d hd, hno] at hd
    cases hd
  · have hsame := hback d hd
    rw [hsame] at hd ⊢
    obtain ⟨hwait, m, hm⟩ := hs.posting d hd
    exact ⟨hwait, m, hm.last, hm.call⟩

theorem Tokens.step {s t : State ι σ} {a : Action ι} (hs : Tokens s) (hd : Delivery s)
    (hun : Uncontended s a) (h : Step handle s a t) : Tokens t := by
  cases a with
  | send c r =>
    obtain ⟨-, rfl | rfl⟩ := step_send h
    · exact hs
    · exact hs.enter rfl
  | wait c e =>
    obtain ⟨-, rfl⟩ := step_wait h
    exact hs.enter rfl
  | client c => exact hs.client hd hun h
  | server => exact hs.server hd h

/-! ## The id in the segment -/

/-- Unless a client is about to store it, `current_message_id` is the id of the last call. -/
def Current (s : State ι σ) : Prop :=
  (∀ c, (s.client c).pc ≠ .storeCurrentId) → s.history.published ≠ [] →
    ∃ k c m, LastCall s k c m ∧ s.shared.currentMessageId = m.messageId

omit [DecidableEq ι] in
theorem Initial.current {s : State ι σ} (h : Initial s) : Current s := by
  intro _ hne
  rw [h.history] at hne
  exact absurd rfl hne

theorem clientStep_current {s t : State ι σ} {c : ι} (h : clientStep s c = some t) :
    (t.shared.currentMessageId = s.shared.currentMessageId ∧ (s.client c).pc ≠ .storeCurrentId) ∨
      ((s.client c).pc = .storeCurrentId ∧
        t.shared.currentMessageId = s.shared.message.messageId) := by
  cases hpc : (s.client c).pc
  all_goals simp only [clientStep, hpc] at h
  all_goals try split at h
  all_goals cases h
  all_goals simp [State.setClient, State.setShared, State.setHistory]

theorem Current.client {s t : State ι σ} {c : ι} (hs : Current s) (hd : Delivery s) (ht : Tokens s)
    (h : clientStep s c = some t) : Current t := by
  intro hnone hne
  have hpub : (s.client c).pc ≠ .storeHasMessage := by
    intro hpc
    refine hnone c ?_
    simp only [clientStep, hpc, Option.some.injEq] at h
    subst h
    simp [State.setClient, State.setHistory]
  rcases clientStep_current h with ⟨hid, hpc⟩ | ⟨hpc, hid⟩
  · have hnone' : ∀ d, (s.client d).pc ≠ .storeCurrentId := by
      intro d
      by_cases hdc : d = c
      · rw [hdc]
        exact hpc
      · rw [← clientStep_other h hdc]
        exact hnone d
    rw [(clientStep_published hpub h).1] at hne
    obtain ⟨k, d, m, hl, hm⟩ := hs hnone' hne
    exact ⟨k, d, m, hl.client hpub h, hid.trans hm⟩
  · obtain ⟨k, d, hl, -⟩ := ht.slot hd (ht.posting c (by rw [hpc]; rfl)).1
    exact ⟨k, d, _, hl.client hpub h, hid⟩

omit [DecidableEq ι] in
theorem Current.server {s t : State ι σ} (hs : Current s) (h : serverStep handle s = some t) :
    Current t := by
  have hid : t.shared.currentMessageId = s.shared.currentMessageId := by
    cases hpc : s.server.pc
    all_goals simp only [serverStep, hpc] at h
    all_goals try split at h
    all_goals cases h
    all_goals rfl
  intro hnone hne
  rw [serverStep_moves h] at hnone
  rw [(serverStep_calls h).2] at hne
  obtain ⟨k, c, m, hl, hm⟩ := hs hnone hne
  exact ⟨k, c, m, hl.server h, hid.trans hm⟩

theorem Current.enter {s : State ι σ} {c : ι} {x : Client} (hs : Current s)
    (hidle : (s.client c).pc = .idle) : Current (s.setClient c x) := by
  intro hnone hne
  have hnone' : ∀ d, (s.client d).pc ≠ .storeCurrentId := by
    intro d
    by_cases hdc : d = c
    · rw [hdc, hidle]
      simp
    · rw [← s.setClient_of_ne x hdc]
      exact hnone d
  obtain ⟨k, d, m, hl, hm⟩ := hs hnone' hne
  exact ⟨k, d, m, ⟨hl.last, hl.call⟩, hm⟩

theorem Current.step {s t : State ι σ} {a : Action ι} (hs : Current s) (hd : Delivery s)
    (ht : Tokens s) (h : Step handle s a t) : Current t := by
  cases a with
  | send c r =>
    obtain ⟨hidle, rfl | rfl⟩ := step_send h
    · exact hs
    · exact hs.enter hidle
  | wait c e =>
    obtain ⟨hidle, rfl⟩ := step_wait h
    exact hs.enter hidle
  | client c => exact hs.client hd ht h
  | server => exact hs.server h

omit [DecidableEq ι] in
/-- While the server handles a message, `current_message_id` is that message's id. -/
theorem Current.handling {s : State ι σ} (hs : Current s) (ht : Tokens s) {k : Nat} {c : ι}
    {m : IPCMessage} (hl : LastCall s k c m) (hh : s.server.pc.handling = true) :
    s.shared.currentMessageId = m.messageId := by
  have hnone : ∀ c, (s.client c).pc ≠ .storeCurrentId := by
    intro c hpc
    have hwait := (ht.posting c (by rw [hpc]; rfl)).1
    rw [State.undispatched, hh] at hwait
    simp at hwait
  have hne : s.history.published ≠ [] := fun hnil => by
    have hlast := hl.last
    rw [hnil] at hlast
    cases hlast
  obtain ⟨k', c', m', hl', hm'⟩ := hs hnone hne
  rw [hm', (hl.unique hl').2.2]

end CCache.Ipc
