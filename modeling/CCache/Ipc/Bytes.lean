/-
# CCache.Ipc.Bytes — the slot at the granularity of single loads and stores.

`Mailbox` stores a field of the message in one step and dispatches in another.  In the source `strncpy`
and `memcpy` are loops over bytes, and a handler loads the slot byte by byte while clients may be in
these loops.  `Wire` puts such a buffer beside the mailbox: a client finishes the statement of a buffer
once each byte of it is stored, and the server loads any places, in any order and as often as it likes,
before its dispatch is over.  In every interleaving what a load finds is what some call stored at that
place; where nobody stores while the server dispatches, it finds the message that the mailbox hands over.
-/
import CCache.Ipc.Provenance
import CCache.Lib.SharedBuffer

namespace CCache.Ipc

open CCache.Lib.CString
open CCache.Lib.Runs
open CCache.Lib.SharedBuffer

variable {ι σ : Type}

/-! ## Places -/

/-- What one store or one load of an `IPCMessage` reaches: a word, or one byte of a buffer. -/
inductive Place where
  | messageId
  | routeHash (i : Nat)
  | payloadSize
  | payload (i : Nat)
deriving DecidableEq, Repr

/-- The place lies in `SharedData::message`. -/
def Place.inBuffer : Place → Bool
  | .routeHash i => i < 256
  | .payload i => i < maxMessageSize - sizeofIPCMessage
  | .messageId | .payloadSize => true

/-- The place lies before the flexible array. -/
def Place.header : Place → Bool
  | .payload _ => false
  | .messageId | .routeHash _ | .payloadSize => true

/-- What a message has at a place. -/
def IPCMessage.value (m : IPCMessage) : Place → Option Nat
  | .messageId => some m.messageId.toNat
  | .routeHash i => m.routeHash[i]?.map UInt8.toNat
  | .payloadSize => some m.payloadSize
  | .payload i => m.payload[i]?.map UInt8.toNat

/-- What is handed of a message is the message's. -/
theorem IPCMessage.value_of_handed {m : IPCMessage} {p : Place} {v : Nat}
    (h : m.handed.value p = some v) : m.value p = some v := by
  cases p with
  | messageId | routeHash i | payloadSize => exact h
  | payload i =>
    obtain ⟨b, hb, hv⟩ := Option.map_eq_some_iff.mp h
    have hb : (m.payload.take m.payloadSize)[i]? = some b := hb
    rw [List.getElem?_take] at hb
    split at hb
    · exact Option.map_eq_some_iff.mpr ⟨b, hb, hv⟩
    · cases hb

/-- What call `k` stores at a place. -/
def History.stores (h : History ι) (k : Nat) (p : Place) : Option Nat :=
  h.calls[k]?.bind fun call => call.2.value p

theorem History.stores_grows {h h' : History ι}
    (hcalls : ∀ (k : Nat) x, h.calls[k]? = some x → h'.calls[k]? = some x) (k : Nat) (p : Place)
    (v : Nat) (hv : h.stores k p = some v) : h'.stores k p = some v := by
  obtain ⟨call, hcall, hvalue⟩ := Option.bind_eq_some_iff.mp hv
  exact Option.bind_eq_some_iff.mpr ⟨call, hcalls k call hcall, hvalue⟩

/-! ## The wire -/

/-- The mailbox, and the bytes of its slot.  `stored` has what a client has stored of the buffer it is
copying to, and `loads` what the server has loaded, with the number of the dispatch. -/
structure Wire (ι σ : Type) where
  mailbox : State ι σ
  buffer : Buffer Place Nat Nat
  stored : ι → List Place
  loads : List (Nat × Load Place Nat Nat)

/-- Nobody has stored, and the buffer shows what the slot held from the start. -/
structure Wire.Initial (w : Wire ι σ) : Prop where
  mailbox : Ipc.Initial w.mailbox
  buffer : w.buffer = .start w.buffer.cell
  shows : ∀ p v, w.mailbox.shared.message.value p = some v → w.buffer.cell p = v
  stored : ∀ c, w.stored c = []
  loads : w.loads = []

/-- A step of the mailbox, a byte of a client's `strncpy` or `memcpy`, or a load of the server. -/
inductive Access (ι : Type) where
  | mailbox (a : Action ι)
  | byte (c : ι) (p : Place)
  | load (p : Place)
deriving DecidableEq, Repr

/-- The bytes that the client's next statement copies: `strncpy` with the closing NUL, or `memcpy`. -/
def Client.loop (x : Client) : List Place :=
  match x.pc with
  | .storeRouteHash => (List.range 256).map .routeHash
  | .storePayload => (List.range x.request.data.length).map .payload
  | _ => []

/-- The word that the client's next statement stores in the slot: its call, the place, the value. -/
def State.word (s : State ι σ) (c : ι) : Option (Nat × Place × Nat) :=
  let x := s.client c
  match x.pc with
  | .storeId => some (s.history.calls.length, .messageId, (x.counter + 1).toNat)
  | .storePayloadSize => some (x.call, .payloadSize, x.request.data.length)
  | _ => none

/-- The buffer after a client's statement. -/
def Wire.storeWord (w : Wire ι σ) (c : ι) : Buffer Place Nat Nat :=
  match w.mailbox.word c with
  | some (k, p, v) => w.buffer.store k p v
  | none => w.buffer

theorem Wire.storeWord_eq (w : Wire ι σ) (c : ι) :
    (∃ k p v, w.mailbox.word c = some (k, p, v) ∧ w.storeWord c = w.buffer.store k p v) ∨
      w.mailbox.word c = none ∧ w.storeWord c = w.buffer := by
  unfold Wire.storeWord
  cases hword : w.mailbox.word c with
  | none => exact .inr ⟨rfl, rfl⟩
  | some x => exact .inl ⟨_, _, _, rfl, rfl⟩

theorem Wire.storeWord_written {w : Wire ι σ} {c : ι} {p : Place} (h : w.buffer.Written p) :
    (w.storeWord c).Written p := by
  rcases w.storeWord_eq c with ⟨k, q, v, -, heq⟩ | ⟨-, heq⟩
  · rw [heq]
    exact h.store
  · rw [heq]
    exact h

variable [DecidableEq ι]

/-- One step; `none` where it cannot be taken. -/
def wireStep (handle : σ → SharedData → σ × Option (List UInt8)) (w : Wire ι σ) :
    Access ι → Option (Wire ι σ)
  | .mailbox (.client c) =>
    -- the loop of the statement is over
    if ∀ p ∈ (w.mailbox.client c).loop, p ∈ w.stored c then
      (clientStep w.mailbox c).map fun s =>
        { w with mailbox := s, buffer := w.storeWord c, stored := Function.update w.stored c [] }
    else none
  | .mailbox a => (step handle w.mailbox a).map fun s => { w with mailbox := s }
  | .byte c p =>
    let x := w.mailbox.client c
    if p ∈ x.loop then
      ((x.request.message x.counter).value p).map fun v =>
        { w with buffer := w.buffer.store x.call p v,
                 stored := Function.update w.stored c (p :: w.stored c) }
    else none
  | .load p =>
    if w.mailbox.server.pc = .dispatch ∧ p.inBuffer = true then
      some { w with loads := w.loads ++ [(w.mailbox.history.dispatched.length, w.buffer.load p)] }
    else none

/-- A step as a relation.  What a handler comes to depends on what it has loaded, so a dispatch may come
to anything. -/
def WireStep (w : Wire ι σ) (d : Access ι) (w' : Wire ι σ) : Prop :=
  ∃ handle, wireStep handle w d = some w'

/-! ## What a step does -/

/-- The steps of the wire, one for each kind of access. -/
inductive Access.Takes (w : Wire ι σ) : Access ι → Wire ι σ → Prop
  | client {c : ι} {s : State ι σ} (hloop : ∀ p ∈ (w.mailbox.client c).loop, p ∈ w.stored c)
      (hstep : clientStep w.mailbox c = some s) :
      Takes w (.mailbox (.client c))
        { w with mailbox := s, buffer := w.storeWord c, stored := Function.update w.stored c [] }
  | other {a : Action ι} {s : State ι σ} {handle : σ → SharedData → σ × Option (List UInt8)}
      (ha : ∀ c, a ≠ .client c) (hstep : Step handle w.mailbox a s) :
      Takes w (.mailbox a) { w with mailbox := s }
  | byte {c : ι} {p : Place} {v : Nat} (hp : p ∈ (w.mailbox.client c).loop)
      (hv : ((w.mailbox.client c).request.message (w.mailbox.client c).counter).value p = some v) :
      Takes w (.byte c p) { w with buffer := w.buffer.store (w.mailbox.client c).call p v,
                                   stored := Function.update w.stored c (p :: w.stored c) }
  | load {p : Place} (hpc : w.mailbox.server.pc = .dispatch) (hp : p.inBuffer = true) :
      Takes w (.load p)
        { w with loads := w.loads ++ [(w.mailbox.history.dispatched.length, w.buffer.load p)] }

theorem wireStep_takes {w w' : Wire ι σ} {d : Access ι} (h : WireStep w d w') : d.Takes w w' := by
  obtain ⟨handle, h⟩ := h
  cases d with
  | mailbox a =>
    cases a with
    | client c =>
      simp only [wireStep] at h
      split at h
      · obtain ⟨s, hs, rfl⟩ := Option.map_eq_some_iff.mp h
        exact .client ‹_› hs
      · cases h
    | send c r =>
      obtain ⟨s, hs, rfl⟩ := Option.map_eq_some_iff.mp h
      exact .other nofun hs
    | wait c e =>
      obtain ⟨s, hs, rfl⟩ := Option.map_eq_some_iff.mp h
      exact .other nofun hs
    | server =>
      obtain ⟨s, hs, rfl⟩ := Option.map_eq_some_iff.mp h
      exact .other nofun hs
  | byte c p =>
    simp only [wireStep] at h
    split at h
    · obtain ⟨v, hv, rfl⟩ := Option.map_eq_some_iff.mp h
      exact .byte ‹_› hv
    · cases h
  | load p =>
    simp only [wireStep] at h
    split at h
    · rename_i hp
      cases h
      exact .load hp.1 hp.2
    · cases h

theorem Access.Takes.wireStep {w w' : Wire ι σ} {d : Access ι} (h : d.Takes w w') :
    WireStep w d w' := by
  cases h with
  | client hloop hstep =>
    refine ⟨fun cache _ => (cache, none), ?_⟩
    simp only [Ipc.wireStep, if_pos hloop, hstep, Option.map_some]
  | @other a s handle ha hstep =>
    have hstep : step handle w.mailbox a = some s := hstep
    refine ⟨handle, ?_⟩
    cases a with
    | client c => exact absurd rfl (ha c)
    | send c r | wait c e | server => simp only [Ipc.wireStep, hstep, Option.map_some]
  | byte hp hv =>
    refine ⟨fun cache _ => (cache, none), ?_⟩
    simp only [Ipc.wireStep, if_pos hp, hv, Option.map_some]
  | load hpc hp => exact ⟨fun cache _ => (cache, none), if_pos ⟨hpc, hp⟩⟩

/-! ## Runs of the mailbox are runs of the wire -/

/-- Every byte of a copy is one of the message. -/
theorem Client.loop_value {x : Client} {p : Place} (hp : p ∈ x.loop) :
    ∃ v, (x.request.message x.counter).value p = some v := by
  cases hpc : x.pc
  case storeRouteHash =>
    simp only [Client.loop, hpc, List.mem_map, List.mem_range] at hp
    obtain ⟨i, hi, rfl⟩ := hp
    rw [← x.request.routeField_length] at hi
    exact ⟨_, congrArg (Option.map UInt8.toNat) (List.getElem?_eq_getElem hi)⟩
  case storePayload =>
    simp only [Client.loop, hpc, List.mem_map, List.mem_range] at hp
    obtain ⟨i, hi, rfl⟩ := hp
    exact ⟨_, congrArg (Option.map UInt8.toNat) (List.getElem?_eq_getElem hi)⟩
  all_goals simp [Client.loop, hpc] at hp

/-- A client can copy what it has before it, one byte after the other. -/
theorem Wire.copies {w : Wire ι σ} {c : ι} (ps : List Place)
    (hps : ∀ p ∈ ps, p ∈ (w.mailbox.client c).loop) :
    ∃ w', Run WireStep w (ps.map (.byte c)) w' ∧ w'.mailbox = w.mailbox ∧ w'.loads = w.loads ∧
      (∀ p ∈ ps, p ∈ w'.stored c) ∧ ∀ p ∈ w.stored c, p ∈ w'.stored c := by
  induction ps generalizing w with
  | nil => exact ⟨w, .nil, rfl, rfl, fun _ hp => absurd hp List.not_mem_nil, fun _ hp => hp⟩
  | cons p ps ih =>
    have hp := hps p List.mem_cons_self
    obtain ⟨v, hv⟩ := Client.loop_value hp
    -- the first byte
    have hstep := (Access.Takes.byte hp hv).wireStep
    obtain ⟨w', hrun, hmailbox, hloads, hall, hkeeps⟩ := ih (w := { w with
      buffer := w.buffer.store (w.mailbox.client c).call p v,
      stored := Function.update w.stored c (p :: w.stored c) })
      fun q hq => hps q (List.mem_cons_of_mem _ hq)
    simp only [Function.update_self] at hkeeps
    refine ⟨w', Run.cons hstep hrun, hmailbox, hloads, fun q hq => ?_,
      fun q hq => hkeeps q (List.mem_cons_of_mem _ hq)⟩
    rcases List.mem_cons.mp hq with rfl | hq
    · exact hkeeps q List.mem_cons_self
    · exact hall q hq

/-- A step of the mailbox, after the copy that its statement is. -/
theorem Wire.follows {w : Wire ι σ} {s : State ι σ} {a : Action ι}
    {handle : σ → SharedData → σ × Option (List UInt8)} (h : Step handle w.mailbox a s) :
    ∃ ds w', Run WireStep w ds w' ∧ w'.mailbox = s ∧ w'.loads = w.loads := by
  cases a with
  | client c =>
    obtain ⟨w', hrun, hmailbox, hloads, hall, -⟩ :=
      Wire.copies (w := w) (w.mailbox.client c).loop fun _ hp => hp
    have h : clientStep w.mailbox c = some s := h
    rw [← hmailbox] at h hall
    exact ⟨_, _, hrun.snoc (Access.Takes.client hall h).wireStep, rfl, hloads⟩
  | send c r => exact ⟨_, _, .single (Access.Takes.other (a := .send c r) nofun h).wireStep, rfl, rfl⟩
  | wait c e => exact ⟨_, _, .single (Access.Takes.other (a := .wait c e) nofun h).wireStep, rfl, rfl⟩
  | server => exact ⟨_, _, .single (Access.Takes.other (a := .server) nofun h).wireStep, rfl, rfl⟩

/-- **Every run of the mailbox is a run of the wire**, in which the server loads nothing. -/
theorem Wire.follows_run {w : Wire ι σ} {s t : State ι σ} {as : List (Action ι)}
    {handle : σ → SharedData → σ × Option (List UInt8)} (hs : w.mailbox = s)
    (h : Run (Step handle) s as t) :
    ∃ ds w', Run WireStep w ds w' ∧ w'.mailbox = t ∧ w'.loads = w.loads := by
  induction h with
  | nil => exact ⟨[], w, .nil, hs, rfl⟩
  | snoc _ hst ih =>
    obtain ⟨ds, w', hrun, rfl, hloads⟩ := ih
    obtain ⟨es, w'', hmore, hmailbox, hsame⟩ := Wire.follows hst
    exact ⟨ds ++ es, w'', hrun.append hmore, hmailbox, hsame.trans hloads⟩

/-- A client draws its id and copies the first byte of its route; nothing else moves. -/
theorem Wire.begins {w : Wire ι σ} {c : ι} (hpc : (w.mailbox.client c).pc = .storeId) {b : UInt8}
    (hb : (w.mailbox.client c).request.routeField[0]? = some b) :
    ∃ w', Run WireStep w [.mailbox (.client c), .byte c (.routeHash 0)] w' ∧
      w'.mailbox.server = w.mailbox.server ∧
      w'.mailbox.history.dispatched = w.mailbox.history.dispatched ∧ w'.loads = w.loads ∧
      w'.buffer = (w.buffer.store w.mailbox.history.calls.length .messageId
        ((w.mailbox.client c).counter + 1).toNat).store w.mailbox.history.calls.length
          (.routeHash 0) b.toNat := by
  have hloop : (w.mailbox.client c).loop = [] := by rw [Client.loop, hpc]
  obtain ⟨s, hs⟩ : ∃ s, clientStep w.mailbox c = some s := by
    simp only [clientStep, hpc]
    exact ⟨_, rfl⟩
  have hstep := (Access.Takes.client (w := w) (by simp [hloop]) hs).wireStep
  simp only [clientStep, hpc, Option.some.injEq] at hs
  obtain ⟨hserver, hdispatched, hclient⟩ : s.server = w.mailbox.server ∧
      s.history.dispatched = w.mailbox.history.dispatched ∧ s.client c = { w.mailbox.client c with
        pc := .storeRouteHash, counter := (w.mailbox.client c).counter + 1,
        call := w.mailbox.history.calls.length } := by
    rw [← hs]
    exact ⟨rfl, rfl, State.setClient_self _ _ _⟩
  have hword : w.storeWord c = w.buffer.store w.mailbox.history.calls.length .messageId
      ((w.mailbox.client c).counter + 1).toNat := by
    rw [Wire.storeWord, State.word, hpc]
  have hcopied : .routeHash 0 ∈ (s.client c).loop := by
    rw [hclient]
    exact List.mem_cons_self
  have hbyte : ((s.client c).request.message (s.client c).counter).value (.routeHash 0) =
      some b.toNat := by
    rw [hclient]
    exact congrArg (Option.map UInt8.toNat) hb
  refine ⟨_, Run.cons hstep (.single (Access.Takes.byte hcopied hbyte).wireStep), hserver, hdispatched,
    rfl, ?_⟩
  show (w.storeWord c).store (s.client c).call (.routeHash 0) b.toNat = _
  rw [hword, hclient]

/-- A segment of zero bytes, and nobody has stored. -/
def Wire.fresh (cache : σ) : Wire ι σ :=
  { mailbox := .fresh cache, buffer := .start fun _ => 0, stored := fun _ => [], loads := [] }

omit [DecidableEq ι] in
theorem Wire.fresh_initial (cache : σ) : (Wire.fresh cache : Wire ι σ).Initial := by
  refine ⟨Ipc.fresh_initial cache, rfl, fun p v hv => ?_, fun _ => rfl, rfl⟩
  cases p <;> cases hv <;> rfl

/-! ## What is loaded comes from calls -/

/-- A client in a loop is writing, and its id is not among what it copies. -/
theorem Client.loop_writing {x : Client} {p : Place} (hp : p ∈ x.loop) :
    x.pc.writing = true ∧ ∀ id id', (x.request.message id).value p = (x.request.message id').value p := by
  cases hpc : x.pc
  case storeRouteHash =>
    simp only [Client.loop, hpc, List.mem_map] at hp
    obtain ⟨i, -, rfl⟩ := hp
    exact ⟨rfl, fun _ _ => rfl⟩
  case storePayload =>
    simp only [Client.loop, hpc, List.mem_map] at hp
    obtain ⟨i, -, rfl⟩ := hp
    exact ⟨rfl, fun _ _ => rfl⟩
  all_goals simp [Client.loop, hpc] at hp

/-- The field that a place lies in. -/
def Origin.of (o : Origin) : Place → Option Nat
  | .messageId => o.messageId
  | .routeHash _ => o.routeHash
  | .payloadSize => o.payloadSize
  | .payload _ => o.payload

/-- A header field is new in the slot when the client has stored its word, or all of its bytes. -/
theorem clientStep_header {s t : State ι σ} {c : ι} {p : Place} (h : clientStep s c = some t)
    (hheader : p.header = true) (hp : p.inBuffer = true) (ht : (t.history.origin.of p).isSome = true) :
    (s.history.origin.of p).isSome = true ∨ (∃ k v, s.word c = some (k, p, v)) ∨
      p ∈ (s.client c).loop := by
  cases hpc : (s.client c).pc
  all_goals simp only [clientStep, hpc] at h
  all_goals try split at h
  all_goals cases h
  all_goals cases p
  all_goals simp_all [State.setClient, State.setShared, State.setHistory, Origin.of, State.word,
    Client.loop, Place.header, Place.inBuffer]

/-- The word that a client stores is that of its call. -/
theorem Provenance.word {s t : State ι σ} {c : ι} {k : Nat} {p : Place} {v : Nat} (hs : Provenance s)
    (h : clientStep s c = some t) (hword : s.word c = some (k, p, v)) :
    t.history.stores k p = some v := by
  cases hpc : (s.client c).pc
  case storeId =>
    simp only [State.word, hpc, Option.some.injEq, Prod.mk.injEq] at hword
    obtain ⟨rfl, rfl, rfl⟩ := hword
    simp only [clientStep, hpc, Option.some.injEq] at h
    rw [← h]
    simp [History.stores, State.setClient, State.setHistory, IPCMessage.value, Request.message]
  case storePayloadSize =>
    simp only [State.word, hpc, Option.some.injEq, Prod.mk.injEq] at hword
    obtain ⟨rfl, rfl, rfl⟩ := hword
    obtain ⟨d, n, hcall, id, rfl⟩ := hs.writing c (by rw [hpc]; rfl)
    exact Option.bind_eq_some_iff.mpr ⟨_, clientStep_calls h hcall, rfl⟩
  all_goals simp [State.word, hpc] at hword

/-- What every interleaving keeps of the buffer and of what is loaded from it. -/
structure Wire.Faithful (cell : Place → Nat) (w : Wire ι σ) : Prop where
  provenance : Provenance w.mailbox
  buffer : w.buffer.Sourced w.mailbox.history.stores cell
  stored : ∀ c, ∀ p ∈ w.stored c, w.buffer.Written p
  header : ∀ p : Place, p.header = true → p.inBuffer = true →
    (w.mailbox.history.origin.of p).isSome = true → w.buffer.Written p
  loads : ∀ j l, (j, l) ∈ w.loads → j < w.mailbox.history.published.length ∧
    l.Sourced w.mailbox.history.stores cell ∧ (l.place.header = true → l.writer.isSome = true)

theorem clientStep_published_le {s t : State ι σ} {c : ι} (h : clientStep s c = some t) :
    s.history.published.length ≤ t.history.published.length := by
  by_cases hpc : (s.client c).pc = .storeHasMessage
  · simp only [clientStep, hpc, Option.some.injEq] at h
    rw [← h]
    simp [State.setHistory]
  · rw [(clientStep_published hpc h).1]

/-- Only clients in a call make history in the slot. -/
theorem step_other_history {s t : State ι σ} {a : Action ι}
    {handle : σ → SharedData → σ × Option (List UInt8)} (ha : ∀ c, a ≠ .client c)
    (h : Step handle s a t) : t.history.calls = s.history.calls ∧
      t.history.origin = s.history.origin ∧ t.history.published = s.history.published := by
  cases a with
  | send c r =>
    obtain ⟨-, rfl | rfl⟩ := step_send h <;> exact ⟨rfl, rfl, rfl⟩
  | wait c e =>
    obtain ⟨-, rfl⟩ := step_wait h
    exact ⟨rfl, rfl, rfl⟩
  | client c => exact absurd rfl (ha c)
  | server =>
    have hstep : serverStep handle s = some t := h
    cases hpc : s.server.pc
    all_goals simp only [serverStep, hpc] at hstep
    all_goals try split at hstep
    all_goals cases hstep
    all_goals exact ⟨rfl, rfl, rfl⟩

namespace Wire.Faithful

variable {cell : Place → Nat} {w : Wire ι σ}

omit [DecidableEq ι] in
theorem start (h : w.Initial) : w.Faithful w.buffer.cell := by
  refine ⟨h.mailbox.provenance, ?_, ?_, ?_, ?_⟩
  · rw [h.buffer]
    exact Buffer.sourced_start _ _
  · intro c p hp
    rw [h.stored] at hp
    cases hp
  · intro p _ _ hsome
    rw [h.mailbox.history] at hsome
    cases p <;> cases hsome
  · rw [h.loads]
    exact fun _ _ hl => absurd hl List.not_mem_nil

omit [DecidableEq ι] in
/-- What was loaded stays the value of a call. -/
theorem loads_grow (hs : w.Faithful cell) {h : History ι}
    (hcalls : ∀ (k : Nat) x, w.mailbox.history.calls[k]? = some x → h.calls[k]? = some x)
    (hpublished : w.mailbox.history.published.length ≤ h.published.length) :
    ∀ j l, (j, l) ∈ w.loads → j < h.published.length ∧ l.Sourced h.stores cell ∧
      (l.place.header = true → l.writer.isSome = true) := by
  intro j l hl
  obtain ⟨hj, hsourced, hheader⟩ := hs.loads j l hl
  exact ⟨hj.trans_le hpublished, hsourced.mono (History.stores_grows hcalls), hheader⟩

/-- A statement of a client: the word it stores is its call's, and a buffer it has copied is stored. -/
theorem client (hs : w.Faithful cell) {c : ι} {s : State ι σ}
    (hloop : ∀ p ∈ (w.mailbox.client c).loop, p ∈ w.stored c)
    (h : clientStep w.mailbox c = some s) :
    Wire.Faithful cell
      { w with mailbox := s, buffer := w.storeWord c, stored := Function.update w.stored c [] } := by
  have hcalls := fun (k : Nat) x => clientStep_calls h (k := k) (x := x)
  refine ⟨hs.provenance.client h, ?_, ?_, ?_,
    hs.loads_grow hcalls (clientStep_published_le h)⟩
  · have hbuffer : w.buffer.Sourced s.history.stores cell :=
      hs.buffer.mono (History.stores_grows hcalls)
    show (w.storeWord c).Sourced s.history.stores cell
    rcases w.storeWord_eq c with ⟨k, p, v, hword, heq⟩ | ⟨-, heq⟩
    · rw [heq]
      exact hbuffer.store (hs.provenance.word h hword)
    · rw [heq]
      exact hbuffer
  · intro d p hp
    apply Wire.storeWord_written
    have hp : p ∈ Function.update w.stored c [] d := hp
    by_cases hd : d = c
    · rw [hd, Function.update_self] at hp
      cases hp
    · rw [Function.update_of_ne hd] at hp
      exact hs.stored d p hp
  · intro p hheader hp hsome
    show (w.storeWord c).Written p
    rcases clientStep_header h hheader hp hsome with hold | ⟨k, v, hword⟩ | hcopied
    · exact Wire.storeWord_written (hs.header p hheader hp hold)
    · rw [Wire.storeWord, hword]
      exact Buffer.written_store_self
    · exact Wire.storeWord_written (hs.stored c p (hloop p hcopied))

/-- A byte of a client's copy is that of its call. -/
theorem byte (hs : w.Faithful cell) {c : ι} {p : Place} {v : Nat}
    (hp : p ∈ (w.mailbox.client c).loop)
    (hv : ((w.mailbox.client c).request.message (w.mailbox.client c).counter).value p = some v) :
    Wire.Faithful cell { w with buffer := w.buffer.store (w.mailbox.client c).call p v,
                                stored := Function.update w.stored c (p :: w.stored c) } := by
  obtain ⟨hwriting, hany⟩ := Client.loop_writing hp
  refine ⟨hs.provenance, ?_, ?_, fun q hheader hq hsome =>
    (hs.header q hheader hq hsome).store, hs.loads⟩
  · obtain ⟨d, n, hcall, id, rfl⟩ := hs.provenance.writing c hwriting
    exact hs.buffer.store (Option.bind_eq_some_iff.mpr ⟨_, hcall, (hany _ _).trans hv⟩)
  · intro d q hq
    have hq : q ∈ Function.update w.stored c (p :: w.stored c) d := hq
    by_cases hd : d = c
    · rw [hd, Function.update_self] at hq
      rcases List.mem_cons.mp hq with rfl | hq
      · exact Buffer.written_store_self
      · exact (hs.stored c q hq).store
    · rw [Function.update_of_ne hd] at hq
      exact (hs.stored d q hq).store

omit [DecidableEq ι] in
/-- A load at the dispatch: a message is published, and its header is stored. -/
theorem load (hs : w.Faithful cell) {p : Place} (hpc : w.mailbox.server.pc = .dispatch)
    (hp : p.inBuffer = true) :
    Wire.Faithful cell
      { w with loads := w.loads ++ [(w.mailbox.history.dispatched.length, w.buffer.load p)] } := by
  refine ⟨hs.provenance, hs.buffer, hs.stored, hs.header, fun j l hl => ?_⟩
  rcases List.mem_append.mp hl with hold | hnew
  · exact hs.loads j l hold
  cases List.mem_singleton.mp hnew
  have hflag := hs.provenance.flag (.inl hpc)
  refine ⟨?_, hs.buffer p, fun hheader => hs.header p hheader hp ?_⟩
  · have hle := hs.provenance.count
    have hwaits : w.mailbox.undispatched = true := by
      rw [State.undispatched, hflag, hpc]
      rfl
    rw [State.publishedCount, hwaits, Bool.toNat_true] at hle
    exact hle
  · have hcomplete := hs.provenance.offered hflag
    have hheader : p.header = true := hheader
    cases p with
    | messageId => exact hcomplete.messageId
    | routeHash i => exact hcomplete.routeHash
    | payloadSize => exact hcomplete.payloadSize
    | payload i => cases hheader

theorem step (hs : w.Faithful cell) {w' : Wire ι σ} {d : Access ι} (h : WireStep w d w') :
    w'.Faithful cell := by
  cases wireStep_takes h with
  | client hloop hstep => exact hs.client hloop hstep
  | other ha hstep =>
    obtain ⟨hcalls, horigin, hpublished⟩ := step_other_history ha hstep
    have hgrows : ∀ (k : Nat) x, w.mailbox.history.calls[k]? = some x →
        (_ : State ι σ).history.calls[k]? = some x := fun _ _ hx => by rw [hcalls]; exact hx
    refine ⟨hs.provenance.step hstep, hs.buffer.mono (History.stores_grows hgrows), hs.stored, ?_,
      hs.loads_grow hgrows (by rw [hpublished])⟩
    rw [horigin]
    exact hs.header
  | byte hp hv => exact hs.byte hp hv
  | load hpc hp => exact hs.load hpc hp

end Wire.Faithful

omit [DecidableEq ι] in
/-- Where only one call was made, what is stored of the header is its. -/
theorem Wire.Faithful.only_call {cell : Place → Nat} {w : Wire ι σ} (hs : w.Faithful cell)
    {x : ι × IPCMessage} (hone : w.mailbox.history.calls = [x]) {p : Place}
    (hheader : p.header = true) (hp : p.inBuffer = true)
    (hsome : (w.mailbox.history.origin.of p).isSome = true) {v : Nat} (hv : x.2.value p = some v) :
    w.buffer.load p = ⟨p, v, some 0⟩ := by
  obtain ⟨k, hk⟩ := Option.isSome_iff_exists.mp (hs.header p hheader hp hsome)
  have hvalue : w.mailbox.history.stores k p = some (w.buffer.cell p) := by
    simpa only [Load.Sourced, Buffer.load, hk] using hs.buffer p
  rw [History.stores, hone] at hvalue
  cases k with
  | zero => rw [Buffer.load, hk, Option.some.inj (hvalue.symm.trans hv)]
  | succ k => cases hvalue

/-- **Nothing is dispatched that was not sent.** In every interleaving of the loads and stores of any
number of clients and the server, the server has dispatched at most as many messages as were published,
it loads only while a published message waits for its dispatch, and each load finds what some call stored
at that place; only a byte of the payload that nobody has stored is the one from the start. -/
theorem loads_come_from_calls {w₀ w : Wire ι σ} {ds : List (Access ι)} (h₀ : w₀.Initial)
    (h : Run WireStep w₀ ds w) :
    w.mailbox.history.dispatched.length ≤ w.mailbox.history.published.length ∧
      ∀ j l, (j, l) ∈ w.loads → j < w.mailbox.history.published.length ∧
        l.Sourced w.mailbox.history.stores w₀.buffer.cell ∧
        (l.place.header = true → l.writer.isSome = true) := by
  have hfaithful : w.Faithful w₀.buffer.cell :=
    Run.invariant (fun _ _ _ hs hst => hs.step hst) (.start h₀) h
  refine ⟨?_, hfaithful.loads⟩
  have hle := hfaithful.provenance.count
  unfold State.publishedCount at hle
  omega

/-- While the server dispatches the message of client 0 with the route "ab", client 1 begins to store
the route "cd": what the server loads of the route is "cb". -/
theorem loads_come_from_calls_torn :
    ∃ w : Wire (Fin 2) Unit,
      w.loads = [(0, ⟨.routeHash 0, 99, some 1⟩), (0, ⟨.routeHash 1, 98, some 0⟩)] ∧
      w.mailbox.history.dispatched.length ≤ w.mailbox.history.published.length ∧
      ∀ j l, (j, l) ∈ w.loads → j < w.mailbox.history.published.length ∧
        l.Sourced w.mailbox.history.stores (fun _ => 0) ∧
        (l.place.header = true → l.writer.isSome = true) := by
  obtain ⟨s, hs⟩ : ∃ s, exec (step noReply) (.fresh () : State (Fin 2) Unit)
      (sends 0 ⟨[97, 98], [1]⟩ ++ [.send 1 ⟨[99, 100], [2]⟩, .client 1, .server, .server]) = some s :=
    ⟨_, rfl⟩
  obtain ⟨ds, w, hrun, hmailbox, hloads⟩ :=
    Wire.follows_run (w := .fresh ()) rfl (run_of_exec hs)
  have hfaithful : w.Faithful fun _ => 0 :=
    Run.invariant (fun _ _ _ hs hst => hs.step hst) (.start (Wire.fresh_initial ())) hrun
  -- before client 1 stores, the second byte of the route is that of the only call
  have hsecond : w.buffer.load (.routeHash 1) = ⟨.routeHash 1, 98, some 0⟩ := by
    refine hfaithful.only_call (x := (0, Request.message ⟨[97, 98], [1]⟩ 1)) ?_ rfl rfl ?_ rfl
    · rw [hmailbox]
      cases hs
      rfl
    · rw [hmailbox]
      cases hs
      rfl
  obtain ⟨hpc, hb, hcalls, hcounter⟩ : (w.mailbox.client 1).pc = .storeId ∧
      (w.mailbox.client 1).request.routeField[0]? = some 99 ∧ w.mailbox.history.calls.length = 1 ∧
        ((w.mailbox.client 1).counter + 1).toNat = 1 := by
    rw [hmailbox]
    cases hs
    exact ⟨rfl, rfl, rfl, rfl⟩
  obtain ⟨hdispatch, hnone⟩ : w.mailbox.server.pc = .dispatch ∧
      w.mailbox.history.dispatched = [] := by
    rw [hmailbox]
    cases hs
    exact ⟨rfl, rfl⟩
  obtain ⟨v, hbegins, hserver, hdispatched, hsame, hbuffer⟩ := Wire.begins hpc hb
  rw [hcalls, hcounter] at hbuffer
  have hfirst : v.buffer.load (.routeHash 0) = ⟨.routeHash 0, 99, some 1⟩ := by
    rw [hbuffer]
    exact Buffer.load_store_self
  have hnext : v.buffer.load (.routeHash 1) = ⟨.routeHash 1, 98, some 0⟩ := by
    rw [hbuffer, Buffer.load_store_of_ne (by decide), Buffer.load_store_of_ne (by decide), hsecond]
  -- the server loads the first two bytes of the route
  have hload := fun p hp loads => (Access.Takes.load (w := { v with loads := loads }) (p := p)
    ((congrArg Server.pc hserver).trans hdispatch) hp).wireStep
  refine ⟨_, ?_, loads_come_from_calls (Wire.fresh_initial ()) (hrun.append (hbegins.append
    (.cons (hload (.routeHash 0) rfl v.loads) (.single (hload (.routeHash 1) rfl _)))))⟩
  show (v.loads ++ [(v.mailbox.history.dispatched.length, v.buffer.load (.routeHash 0))]) ++
    [(v.mailbox.history.dispatched.length, v.buffer.load (.routeHash 1))] = _
  rw [hsame, hloads, hdispatched, hnone, hfirst, hnext]
  rfl

/-! ## Without contention a dispatch is one step -/

/-- The steps of the mailbox meet no contention. -/
def Wire.Uncontended (w : Wire ι σ) : Access ι → Prop
  | .mailbox a => Ipc.Uncontended w.mailbox a
  | .byte .. | .load .. => True

omit [DecidableEq ι] in
/-- No word of the header is among what a client copies. -/
theorem State.word_not_loop {s : State ι σ} {c : ι} {k : Nat} {p : Place} {v : Nat}
    (h : s.word c = some (k, p, v)) (x : Client) : p ∉ x.loop := by
  have hplace : p = .messageId ∨ p = .payloadSize := by
    cases hpc : (s.client c).pc
    all_goals simp [State.word, hpc] at h
    · exact .inl h.2.1.symm
    · exact .inr h.2.1.symm
  intro hp
  cases hpc : x.pc
  all_goals simp [Client.loop, hpc] at hp
  all_goals obtain ⟨i, -, rfl⟩ := hp
  all_goals simp at hplace

/-- After a client's statement the slot has at a place the word stored, the byte copied, or what it
had. -/
theorem clientStep_value {s t : State ι σ} {c : ι} {p : Place} {v : Nat}
    (h : clientStep s c = some t) (hv : t.shared.message.value p = some v) :
    (∃ k, s.word c = some (k, p, v)) ∨
      (p ∈ (s.client c).loop ∧ s.word c = none ∧
        ((s.client c).request.message (s.client c).counter).value p = some v) ∨
      (s.shared.message.value p = some v ∧ p ∉ (s.client c).loop ∧ ∀ k u, s.word c ≠ some (k, p, u)) := by
  cases hpc : (s.client c).pc
  all_goals simp only [clientStep, hpc] at h
  all_goals try split at h
  all_goals cases h
  all_goals cases p
  all_goals simp_all [State.setClient, State.setShared, State.setHistory, State.word, Client.loop,
    IPCMessage.value, Request.message]
  case storeRouteHash.refl.routeHash i =>
    obtain ⟨a, ha, -⟩ := hv
    have hi := (List.getElem?_eq_some_iff.mp ha).1
    rw [Request.routeField_length] at hi
    exact .inl hi
  case storePayload.refl.payload i =>
    obtain ⟨a, ha, rfl⟩ := hv
    rw [getElem?_memcpy] at ha
    split at ha
    · exact .inl ⟨‹_›, a, ha, rfl⟩
    · exact .inr ⟨⟨a, ha, rfl⟩, Nat.le_of_not_lt ‹_›⟩

/-- The invariant of the runs without contention: the buffer shows the slot where no copy is under way,
the part that is copied is the client's, and what was loaded is what the dispatch hands over. -/
structure Wire.Exact (w : Wire ι σ) : Prop where
  delivery : Delivery w.mailbox
  shows : ∀ p v, (∀ c, p ∉ w.stored c) → w.mailbox.shared.message.value p = some v →
    w.buffer.cell p = v
  copied : ∀ c, ∀ p ∈ w.stored c, p ∈ (w.mailbox.client c).loop ∧
    ((w.mailbox.client c).request.message (w.mailbox.client c).counter).value p =
      some (w.buffer.cell p)
  loads : ∀ j l, (j, l) ∈ w.loads →
    (j = w.mailbox.history.dispatched.length ∧ w.mailbox.server.pc = .dispatch ∧
      ∀ v, w.mailbox.shared.message.value l.place = some v → l.value = v) ∨
    ∃ d, w.mailbox.history.dispatched[j]? = some d ∧
      ∀ v, d.message.value l.place = some v → l.value = v

namespace Wire.Exact

variable {w : Wire ι σ}

omit [DecidableEq ι] in
theorem start (h : w.Initial) : w.Exact := by
  refine ⟨h.mailbox.delivery, fun p v _ => h.shows p v, ?_, ?_⟩
  · intro c p hp
    rw [h.stored] at hp
    cases hp
  · rw [h.loads]
    exact fun _ _ hl => absurd hl List.not_mem_nil

omit [DecidableEq ι] in
/-- While the server dispatches, nobody stores. -/
theorem nobody_writes (hs : w.Exact) (hpc : w.mailbox.server.pc = .dispatch) :
    w.mailbox.undispatched = true ∧ ∀ c, (w.mailbox.client c).pc.writing = false := by
  have hwaits : w.mailbox.undispatched = true := by
    rw [State.undispatched, hs.delivery.flag (.inl hpc), hpc]
    rfl
  refine ⟨hwaits, fun c => ?_⟩
  by_contra hwriting
  have hfree := (hs.delivery.writes c (by simpa using hwriting)).free
  rw [hwaits] at hfree
  cases hfree

omit [DecidableEq ι] in
/-- A client's statement changes no cell but that of its word. -/
theorem storeWord_cell {c : ι} {p : Place} (h : ∀ k v, w.mailbox.word c ≠ some (k, p, v)) :
    (w.storeWord c).cell p = w.buffer.cell p := by
  rcases w.storeWord_eq c with ⟨k, q, v, hword, heq⟩ | ⟨-, heq⟩
  · have hpq : p ≠ q := by
      rintro rfl
      exact h k v hword
    rw [heq]
    exact Function.update_of_ne hpq _ _
  · rw [heq]

theorem client (hs : w.Exact) {c : ι} {s : State ι σ} (hun : Ipc.Uncontended w.mailbox (.client c))
    (hloop : ∀ p ∈ (w.mailbox.client c).loop, p ∈ w.stored c)
    (h : clientStep w.mailbox c = some s) :
    Wire.Exact
      { w with mailbox := s, buffer := w.storeWord c, stored := Function.update w.stored c [] } := by
  obtain ⟨hserver, -⟩ := clientStep_moves h
  refine ⟨hs.delivery.client hun h, fun p v hnone hv => ?_, fun d p hp => ?_, fun j l hl => ?_⟩
  · show (w.storeWord c).cell p = v
    rcases clientStep_value h hv with ⟨k, hword⟩ | ⟨hp, hword, hvalue⟩ | ⟨hold, hp, hword⟩
    · rw [Wire.storeWord, hword]
      exact Function.update_self _ _ _
    · rw [storeWord_cell fun k u => by rw [hword]; exact nofun]
      exact Option.some.inj ((hs.copied c p (hloop p hp)).2.symm.trans hvalue)
    · rw [storeWord_cell hword]
      refine hs.shows p v (fun d hd => ?_) hold
      by_cases hdc : d = c
      · subst hdc
        exact hp (hs.copied d p hd).1
      · have hd' : p ∈ Function.update w.stored c [] d := by
          rw [Function.update_of_ne hdc]
          exact hd
        exact hnone d hd'
  · have hp : p ∈ Function.update w.stored c [] d := hp
    by_cases hdc : d = c
    · rw [hdc, Function.update_self] at hp
      cases hp
    · rw [Function.update_of_ne hdc] at hp
      show p ∈ (s.client d).loop ∧
        ((s.client d).request.message (s.client d).counter).value p = some ((w.storeWord c).cell p)
      rw [clientStep_other h hdc,
        storeWord_cell fun k u hword => State.word_not_loop hword _ (hs.copied d p hp).1]
      exact hs.copied d p hp
  · have hdispatched := (clientStep_flag h).1
    show (j = s.history.dispatched.length ∧ s.server.pc = .dispatch ∧ _) ∨
      ∃ d, s.history.dispatched[j]? = some d ∧ _
    rw [hdispatched, hserver]
    rcases hs.loads j l hl with ⟨hj, hpc, hvalue⟩ | hdone
    · -- the slot is as it was: nobody writes, and nobody may begin
      obtain ⟨hwaits, hnobody⟩ := hs.nobody_writes hpc
      have hid : (w.mailbox.client c).pc ≠ .storeId := by
        intro hid
        have hfree := (hun.1 hid).1
        rw [hwaits] at hfree
        cases hfree
      have hmessage := (clientStep_silent hid (hnobody c) h).1.1
      refine .inl ⟨hj, hpc, ?_⟩
      rw [hmessage]
      exact hvalue
    · exact .inr hdone

omit [DecidableEq ι] in
/-- Where no client is storing, what a load finds is what the slot has. -/
theorem load (hs : w.Exact) {p : Place} (hpc : w.mailbox.server.pc = .dispatch) :
    Wire.Exact
      { w with loads := w.loads ++ [(w.mailbox.history.dispatched.length, w.buffer.load p)] } := by
  refine ⟨hs.delivery, hs.shows, hs.copied, fun j l hl => ?_⟩
  rcases List.mem_append.mp hl with hold | hnew
  · exact hs.loads j l hold
  cases List.mem_singleton.mp hnew
  refine .inl ⟨rfl, hpc, fun v hv => hs.shows p v (fun c hc => ?_) hv⟩
  have hwriting := (Client.loop_writing (hs.copied c p hc).1).1
  rw [(hs.nobody_writes hpc).2 c] at hwriting
  cases hwriting

theorem byte (hs : w.Exact) {c : ι} {p : Place} {v : Nat}
    (hp : p ∈ (w.mailbox.client c).loop)
    (hv : ((w.mailbox.client c).request.message (w.mailbox.client c).counter).value p = some v) :
    Wire.Exact { w with buffer := w.buffer.store (w.mailbox.client c).call p v,
                        stored := Function.update w.stored c (p :: w.stored c) } := by
  refine ⟨hs.delivery, fun q u hnone hu => ?_, fun d q hq => ?_, hs.loads⟩
  · have hq : q ≠ p := by
      rintro rfl
      refine hnone c ?_
      show q ∈ Function.update w.stored c (q :: w.stored c) c
      rw [Function.update_self]
      exact List.mem_cons_self
    have hcell : (w.buffer.store (w.mailbox.client c).call p v).cell q = w.buffer.cell q :=
      Function.update_of_ne hq _ _
    show (w.buffer.store (w.mailbox.client c).call p v).cell q = u
    rw [hcell]
    refine hs.shows q u (fun d hd => hnone d ?_) hu
    show q ∈ Function.update w.stored c (p :: w.stored c) d
    by_cases hdc : d = c
    · rw [hdc, Function.update_self]
      exact List.mem_cons_of_mem _ (hdc ▸ hd)
    · rw [Function.update_of_ne hdc]
      exact hd
  · have hq : q ∈ Function.update w.stored c (p :: w.stored c) d := hq
    by_cases hdc : d = c
    · subst hdc
      show q ∈ (w.mailbox.client d).loop ∧
        ((w.mailbox.client d).request.message (w.mailbox.client d).counter).value q =
          some ((Function.update w.buffer.cell p v) q)
      by_cases hqp : q = p
      · subst hqp
        rw [Function.update_self]
        exact ⟨hp, hv⟩
      · rw [Function.update_self] at hq
        rw [Function.update_of_ne hqp]
        exact hs.copied d q ((List.mem_cons.mp hq).resolve_left hqp)
    · -- two clients would be writing
      rw [Function.update_of_ne hdc] at hq
      exact absurd (hs.delivery.solo d c (Client.loop_writing (hs.copied d q hq).1).1
        (Client.loop_writing hp).1) hdc

/-- Entering a call stores nothing. -/
theorem enter (hs : w.Exact) {c : ι} {x : Client} (hidle : (w.mailbox.client c).pc = .idle)
    (hdelivery : Delivery (w.mailbox.setClient c x)) :
    Wire.Exact { w with mailbox := w.mailbox.setClient c x } := by
  refine ⟨hdelivery, hs.shows, fun d p hp => ?_, hs.loads⟩
  have hold := hs.copied d p hp
  have hdc : d ≠ c := by
    rintro rfl
    have hwriting := (Client.loop_writing hold.1).1
    rw [hidle] at hwriting
    cases hwriting
  show p ∈ ((w.mailbox.setClient c x).client d).loop ∧ _
  rw [w.mailbox.setClient_of_ne x hdc]
  exact hold

omit [DecidableEq ι] in
/-- The message handed has what was loaded of the slot. -/
theorem server (hs : w.Exact) {s : State ι σ} {handle : σ → SharedData → σ × Option (List UInt8)}
    (h : serverStep handle w.mailbox = some s) : Wire.Exact { w with mailbox := s } := by
  have hclient := serverStep_moves h
  by_cases hpc : w.mailbox.server.pc = .dispatch
  · have hdelivery := hs.delivery.server h
    obtain ⟨-, -, hdispatched⟩ := hs.delivery.dispatch_counts hpc h
    have hshared : s.shared = w.mailbox.shared := by
      simp only [serverStep, hpc, Option.some.injEq] at h
      rw [← h]
      rfl
    refine ⟨hdelivery, ?_, ?_, fun j l hl => .inr ?_⟩
    · show ∀ p v, _ → s.shared.message.value p = some v → _
      rw [hshared]
      exact hs.shows
    · show ∀ c, ∀ p ∈ w.stored c, p ∈ (s.client c).loop ∧ _
      rw [hclient]
      exact hs.copied
    · show ∃ d, s.history.dispatched[j]? = some d ∧ _
      rw [hdispatched]
      rcases hs.loads j l hl with ⟨rfl, -, hvalue⟩ | ⟨d, hd, hvalue⟩
      · refine ⟨_, List.getElem?_concat_length, fun v hv => hvalue v ?_⟩
        exact IPCMessage.value_of_handed hv
      · have hlt := (List.getElem?_eq_some_iff.mp hd).1
        exact ⟨d, by rw [List.getElem?_append_left hlt, hd], hvalue⟩
  · obtain ⟨⟨hmessage, -, -⟩, -, -, hdispatched, -⟩ :=
      serverStep_silent hpc (fun hh => hs.delivery.flag (.inr hh)) h
    refine ⟨hs.delivery.server h, ?_, ?_, fun j l hl => .inr ?_⟩
    · show ∀ p v, _ → s.shared.message.value p = some v → _
      rw [hmessage]
      exact hs.shows
    · show ∀ c, ∀ p ∈ w.stored c, p ∈ (s.client c).loop ∧ _
      rw [hclient]
      exact hs.copied
    · show ∃ d, s.history.dispatched[j]? = some d ∧ _
      rw [hdispatched]
      exact (hs.loads j l hl).resolve_left fun hpending => hpc hpending.2.1

theorem step (hs : w.Exact) {w' : Wire ι σ} {d : Access ι} (hun : w.Uncontended d)
    (h : WireStep w d w') : w'.Exact := by
  cases wireStep_takes h with
  | client hloop hstep => exact hs.client hun hloop hstep
  | @other a s handle ha hstep =>
    have hdelivery := hs.delivery.step hun hstep
    cases a with
    | send c r =>
      obtain ⟨hidle, rfl | rfl⟩ := step_send hstep
      · exact hs
      · exact hs.enter hidle hdelivery
    | wait c e =>
      obtain ⟨hidle, rfl⟩ := step_wait hstep
      exact hs.enter hidle hdelivery
    | client c => exact absurd rfl (ha c)
    | server => exact hs.server hstep
  | byte hp hv => exact hs.byte hp hv
  | load hpc _ => exact hs.load hpc

end Wire.Exact

/-- **Without contention the dispatch is one step.** In every run of single loads and stores whose
statements meet no contention, every load of a dispatch finds what the message has that the mailbox
hands over in one step. -/
theorem loads_find_the_message {w₀ w : Wire ι σ} {ds : List (Access ι)} (h₀ : w₀.Initial)
    (h : Run (Guarded Wire.Uncontended WireStep) w₀ ds w) {j : Nat} {l : Load Place Nat Nat}
    (hl : (j, l) ∈ w.loads) {d : Dispatch} (hd : w.mailbox.history.dispatched[j]? = some d) {v : Nat}
    (hv : d.message.value l.place = some v) : l.value = v := by
  have hexact : w.Exact := Run.invariant (fun _ _ _ hs hst => hs.step hst.1 hst.2) (.start h₀) h
  rcases hexact.loads j l hl with ⟨rfl, -, -⟩ | ⟨e, he, hvalue⟩
  · have hlt := (List.getElem?_eq_some_iff.mp hd).1
    exact absurd hlt (Nat.lt_irrefl _)
  · rw [hd] at he
    cases he
    exact hvalue v hv

end CCache.Ipc
