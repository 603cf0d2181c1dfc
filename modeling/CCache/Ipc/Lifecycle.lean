/-
# CCache.Ipc.Lifecycle — the server process from its start to its end.

`IPCServer::run` sets `running` once the segment is there and loops while it is set; `stop`, which the
signal handler calls in the same process at any moment, clears it and posts `data_ready`, so that a
waiting loop wakes up.  A `Process` is the mailbox with the flag and the place in `run` that the
mailbox's own program counter does not tell: before the loop, at either test of the flag, in the body,
or after it.  Signals come in any number and in any place between two statements, and a `sem_wait` that
one interrupts is taken up again.  A `Launch` is the server before that too: `main` has installed the
handler, and `initialize` sets the segment up or fails.

A stop that comes once `running` is set ends the loop: the server is never blocked again, takes at most
eleven more steps and dispatches at most the message it has already found.  One that comes before is
lost, and one that comes while `shared_data` is still `nullptr` kills the process.
-/
import CCache.Ipc.Tokens
import CCache.Ipc.Progress

namespace CCache.Ipc

open CCache.Lib.Runs

variable {ι σ : Type}

/-! ## The process -/

/-- Where the server is in `run`, beside the statements of the loop's body. -/
inductive Phase where
  /-- `initialize` has returned; `running = true` comes next. -/
  | created
  /-- At `while (running)`. -/
  | testRunning
  /-- In the body; which statement the mailbox tells. -/
  | body
  /-- Behind `sem_wait`, at `if (!running) break`. -/
  | testStop
  | finished
deriving DecidableEq, Repr

structure Process (ι σ : Type) where
  mailbox : State ι σ
  running : Bool
  phase : Phase

/-- The constructor has cleared `running`, and `initialize` has set the segment up. -/
structure Process.Started (p : Process ι σ) : Prop where
  mailbox : Initial p.mailbox
  running : p.running = false
  phase : p.phase = .created

/-- The server has set up a zero segment, and every client is new. -/
def Process.fresh (cache : σ) : Process ι σ :=
  { mailbox := .fresh cache, running := false, phase := .created }

theorem Process.fresh_started (cache : σ) : (Process.fresh cache : Process ι σ).Started :=
  ⟨fresh_initial cache, rfl, rfl⟩

/-- A step of the mailbox, or a signal. -/
inductive Deed (ι : Type) where
  | mailbox (a : Action ι)
  | stop
deriving DecidableEq, Repr

/-- The server's own next statement. -/
def runStep (handle : σ → SharedData → σ × Option (List UInt8)) (p : Process ι σ) :
    Option (Process ι σ) :=
  match p.phase with
  | .created => some { p with running := true, phase := .testRunning }
  | .testRunning => some { p with phase := if p.running then .body else .finished }
  | .body => (serverStep handle p.mailbox).map fun s =>
      { p with mailbox := s, phase :=
          if p.mailbox.server.pc = .waitDataReady then .testStop
          else if s.server.pc = .waitDataReady then .testRunning else .body }
  | .testStop => some { p with phase := if p.running then .body else .finished }
  | .finished => none

/-- `IPCServer::stop`, called by `signal_handler`. -/
def stop (p : Process ι σ) : Process ι σ :=
  { p with
    running := false,
    mailbox := p.mailbox.setShared
      { p.mailbox.shared with dataReady := p.mailbox.shared.dataReady + 1 } }

variable [DecidableEq ι]

/-- One step of the system; signals come until `run` has returned. -/
def processStep (handle : σ → SharedData → σ × Option (List UInt8)) (p : Process ι σ) :
    Deed ι → Option (Process ι σ)
  | .stop => if p.phase = .finished then none else some (stop p)
  | .mailbox .server => runStep handle p
  | .mailbox (.send c r) => (step handle p.mailbox (.send c r)).map fun s => { p with mailbox := s }
  | .mailbox (.wait c e) => (step handle p.mailbox (.wait c e)).map fun s => { p with mailbox := s }
  | .mailbox (.client c) => (step handle p.mailbox (.client c)).map fun s => { p with mailbox := s }

def ProcessStep (handle : σ → SharedData → σ × Option (List UInt8)) (p : Process ι σ) (a : Deed ι)
    (q : Process ι σ) : Prop :=
  processStep handle p a = some q

/-- The server's own steps. -/
def Deed.isServer : Deed ι → Bool
  | .mailbox .server => true
  | _ => false

variable {handle : σ → SharedData → σ × Option (List UInt8)}

/-! ## What a step can do -/

/-- A step of a client: the mailbox moves, the server and its place in `run` stay. -/
def ClientMoves (handle : σ → SharedData → σ × Option (List UInt8)) (p q : Process ι σ)
    (a : Action ι) : Prop :=
  a ≠ .server ∧ Step handle p.mailbox a q.mailbox ∧ q.running = p.running ∧ q.phase = p.phase

/-- **All a step can do**: a signal, a client's step, or the server's next statement. -/
theorem processStep_cases {p q : Process ι σ} {a : Deed ι} (h : ProcessStep handle p a q) :
    (a = .stop ∧ p.phase ≠ .finished ∧ q = stop p) ∨
      (∃ b, a = .mailbox b ∧ ClientMoves handle p q b) ∨
      a = .mailbox .server ∧ runStep handle p = some q := by
  cases a with
  | stop =>
    simp only [ProcessStep, processStep] at h
    split at h
    · cases h
    · rename_i hphase
      cases h
      exact .inl ⟨rfl, hphase, rfl⟩
  | mailbox b =>
    have hclient : b ≠ .server → (step handle p.mailbox b).map (fun s => { p with mailbox := s }) =
        some q → ∃ b', Deed.mailbox b = .mailbox b' ∧ ClientMoves handle p q b' := by
      intro hb hmap
      obtain ⟨s, hs, rfl⟩ := Option.map_eq_some_iff.mp hmap
      exact ⟨b, rfl, hb, hs, rfl, rfl⟩
    cases b with
    | send c r => exact .inr (.inl (hclient (by simp) h))
    | wait c e => exact .inr (.inl (hclient (by simp) h))
    | client c => exact .inr (.inl (hclient (by simp) h))
    | server => exact .inr (.inr ⟨rfl, h⟩)

/-- A client's step leaves the server's program counter, its dispatches and a posted token alone. -/
theorem ClientMoves.keeps {p q : Process ι σ} {a : Action ι} (h : ClientMoves handle p q a) :
    q.mailbox.server = p.mailbox.server ∧
      q.mailbox.history.dispatched = p.mailbox.history.dispatched ∧
      p.mailbox.shared.dataReady ≤ q.mailbox.shared.dataReady := by
  obtain ⟨hne, hstep, -, -⟩ := h
  cases a with
  | send c r =>
    rcases (step_send hstep).2 with heq | heq
    · rw [heq]
      exact ⟨rfl, rfl, le_refl _⟩
    · rw [heq]
      exact ⟨rfl, rfl, le_refl _⟩
  | wait c e =>
    rw [(step_wait hstep).2]
    exact ⟨rfl, rfl, le_refl _⟩
  | client c =>
    have hstep : clientStep p.mailbox c = some q.mailbox := hstep
    refine ⟨(clientStep_moves hstep).1, ?_⟩
    unfold clientStep at hstep
    dsimp only at hstep
    split at hstep
    all_goals try split at hstep
    all_goals simp only [Option.some.injEq, reduceCtorEq] at hstep
    all_goals rw [← hstep]
    all_goals simp [State.setClient, State.setShared, State.setHistory]
  | server => exact absurd rfl hne

/-! ## The place in `run` -/

/-- The phase and the mailbox's program counter agree, and where the loop waits although it is told to
stop, the token of the stop is there. -/
structure Coherent (p : Process ι σ) : Prop where
  outside : p.phase = .created ∨ p.phase = .testRunning → p.mailbox.server.pc = .waitDataReady
  woken : p.phase = .testStop → p.mailbox.server.pc = .testHasMessage
  token : p.phase = .body → p.mailbox.server.pc = .waitDataReady → p.running = false →
    0 < p.mailbox.shared.dataReady

omit [DecidableEq ι] in
theorem Process.Started.coherent {p : Process ι σ} (h : p.Started) : Coherent p := by
  have hphase := h.phase
  constructor
  · exact fun _ => h.mailbox.server
  · intro htest
    rw [hphase] at htest
    cases htest
  · intro hbody
    rw [hphase] at hbody
    cases hbody

omit [DecidableEq ι] in
theorem Coherent.stop {p : Process ι σ} (h : Coherent p) : Coherent (stop p) :=
  ⟨h.outside, h.woken, fun _ _ _ => Nat.succ_pos _⟩

omit [DecidableEq ι] in
/-- `sem_wait` goes on to `has_message`; nothing else leads there. -/
theorem serverStep_pc {s t : State ι σ} (h : serverStep handle s = some t) :
    (s.server.pc = .waitDataReady → t.server.pc = .testHasMessage) ∧
      (t.server.pc = .testHasMessage → s.server.pc = .waitDataReady) := by
  cases hpc : s.server.pc
  all_goals simp only [serverStep, hpc] at h
  all_goals try split at h
  all_goals simp only [Option.some.injEq, reduceCtorEq] at h
  all_goals rw [← h]
  all_goals simp [State.setServer, State.setShared, State.setHistory]

omit [DecidableEq ι] in
theorem Coherent.run {p q : Process ι σ} (h : Coherent p) (hstep : runStep handle p = some q) :
    Coherent q := by
  cases hphase : p.phase with
  | created =>
    simp only [runStep, hphase, Option.some.injEq] at hstep
    rw [← hstep]
    exact ⟨fun _ => h.outside (.inl hphase), nofun, nofun⟩
  | testRunning =>
    simp only [runStep, hphase, Option.some.injEq] at hstep
    rw [← hstep]
    cases hrunning : p.running with
    | true => exact ⟨nofun, nofun, fun _ _ hno => by cases hno⟩
    | false => exact ⟨nofun, nofun, nofun⟩
  | body =>
    simp only [runStep, hphase] at hstep
    obtain ⟨s, hs, rfl⟩ := Option.map_eq_some_iff.mp hstep
    have hpc := serverStep_pc hs
    constructor
    · intro hout
      dsimp only at hout ⊢
      split at hout
      · simp at hout
      · split at hout
        · assumption
        · simp at hout
    · intro hwoken
      dsimp only at hwoken ⊢
      split at hwoken
      · exact hpc.1 ‹_›
      · split at hwoken <;> cases hwoken
    · intro hbody hwait
      dsimp only at hbody hwait
      split at hbody
      · cases hbody
      · cases hbody
  | testStop =>
    simp only [runStep, hphase, Option.some.injEq] at hstep
    rw [← hstep]
    have hwoken := h.woken hphase
    cases hrunning : p.running with
    | true => exact ⟨nofun, nofun, fun _ hwait => by rw [hwoken] at hwait; cases hwait⟩
    | false => exact ⟨nofun, nofun, nofun⟩
  | finished =>
    simp only [runStep, hphase] at hstep
    cases hstep

theorem Coherent.step {p q : Process ι σ} {a : Deed ι} (h : Coherent p)
    (hstep : ProcessStep handle p a q) : Coherent q := by
  rcases processStep_cases hstep with ⟨-, -, rfl⟩ | ⟨b, -, hclient⟩ | ⟨-, hrun⟩
  · exact h.stop
  · obtain ⟨hserver, -, htoken⟩ := hclient.keeps
    obtain ⟨-, -, hrunning, hphase⟩ := hclient
    constructor
    · rw [hphase, hserver]
      exact h.outside
    · rw [hphase, hserver]
      exact h.woken
    · rw [hphase, hserver, hrunning]
      exact fun hbody hwait hno => (h.token hbody hwait hno).trans_le htoken
  · exact h.run hrun

/-! ## The end of the run -/

/-- How many statements are left to a server that has been told to stop. -/
def Process.left (p : Process ι σ) : Nat :=
  match p.phase with
  | .created | .finished => 0
  | .testRunning | .testStop => 1
  | .body => if p.mailbox.server.pc = .waitDataReady then 2 else p.mailbox.server.pc.toWait + 1

omit [DecidableEq ι] in
theorem Process.left_le (p : Process ι σ) : p.left ≤ 11 := by
  unfold Process.left
  cases p.phase with
  | body => cases p.mailbox.server.pc <;> decide
  | created | testRunning | testStop | finished => simp

/-- The dispatch that a server told to stop still makes. -/
def Process.finds (p : Process ι σ) : Nat :=
  if p.phase = .body then p.mailbox.server.pc.looking.toNat else 0

/-- Told to stop once the loop is entered. -/
structure Stopping (p : Process ι σ) : Prop where
  coherent : Coherent p
  running : p.running = false
  entered : p.phase ≠ .created

omit [DecidableEq ι] in
/-- Only the dispatch uses up what the server has found, and only the wait finds something. -/
theorem serverStep_finds {s t : State ι σ} (h : serverStep handle s = some t) :
    t.history.dispatched.length + t.server.pc.looking.toNat ≤
      s.history.dispatched.length + s.server.pc.looking.toNat +
        (if s.server.pc = .waitDataReady then 1 else 0) := by
  cases hpc : s.server.pc
  all_goals simp only [serverStep, hpc] at h
  all_goals try split at h
  all_goals simp only [Option.some.injEq, reduceCtorEq] at h
  all_goals rw [← h]
  all_goals simp [State.setServer, State.setShared, State.setHistory, ServerPc.looking]

omit [DecidableEq ι] in
/-- A server told to stop has one statement less left after each, and dispatches what it has found. -/
theorem Stopping.run {p q : Process ι σ} (h : Stopping p) (hstep : runStep handle p = some q) :
    Stopping q ∧ q.left + 1 ≤ p.left ∧
      q.mailbox.history.dispatched.length + q.finds ≤
        p.mailbox.history.dispatched.length + p.finds := by
  have hcoherent := h.coherent.run hstep
  cases hphase : p.phase with
  | created => exact absurd hphase h.entered
  | testRunning | testStop =>
    simp only [runStep, hphase, h.running, Bool.false_eq_true, if_false, Option.some.injEq] at hstep
    subst hstep
    exact ⟨⟨hcoherent, rfl, nofun⟩, by simp [Process.left, hphase], by simp [Process.finds]⟩
  | body =>
    simp only [runStep, hphase] at hstep
    obtain ⟨s, hs, rfl⟩ := Option.map_eq_some_iff.mp hstep
    obtain ⟨hwork, htokens⟩ := serverStep_work hs
    have hfinds := serverStep_finds hs
    have hentered : (if p.mailbox.server.pc = .waitDataReady then Phase.testStop
        else if s.server.pc = .waitDataReady then .testRunning else .body) ≠ .created := by
      split
      · nofun
      · split <;> nofun
    refine ⟨⟨hcoherent, h.running, hentered⟩, ?_, ?_⟩
    · unfold Process.left
      rw [hphase]
      by_cases hwait : p.mailbox.server.pc = .waitDataReady
      · simp [hwait]
      · have hsame := htokens.resolve_left hwait
        have hlt : s.server.pc.toWait + 1 ≤ p.mailbox.server.pc.toWait := by
          unfold serverWork at hwork
          omega
        by_cases hend : s.server.pc = .waitDataReady
        · simp only [hwait, hend, if_false, if_true]
          omega
        · simp only [hwait, hend, if_false]
          omega
    · unfold Process.finds
      rw [hphase]
      by_cases hwait : p.mailbox.server.pc = .waitDataReady
      · simp only [hwait, if_true] at hfinds ⊢
        have hfound := (serverStep_pc hs).1 hwait
        rw [hfound] at hfinds
        simp [ServerPc.looking] at hfinds ⊢
        omega
      · have hnot : ServerPc.looking .waitDataReady = false := rfl
        by_cases hend : s.server.pc = .waitDataReady
        · simpa [hwait, hend, hnot] using hfinds
        · simpa [hwait, hend] using hfinds
  | finished =>
    simp only [runStep, hphase] at hstep
    cases hstep

/-- What a step of any party leaves of the way to the end. -/
theorem Stopping.step {p q : Process ι σ} {a : Deed ι} (h : Stopping p)
    (hstep : ProcessStep handle p a q) : Stopping q ∧ q.left + a.isServer.toNat ≤ p.left ∧
      q.mailbox.history.dispatched.length + q.finds ≤
        p.mailbox.history.dispatched.length + p.finds := by
  have hcoherent := h.coherent.step hstep
  rcases processStep_cases hstep with ⟨rfl, -, rfl⟩ | ⟨b, rfl, hclient⟩ | ⟨rfl, hrun⟩
  · exact ⟨⟨hcoherent, rfl, h.entered⟩, le_refl _, le_refl _⟩
  · obtain ⟨hserver, hdispatched, -⟩ := hclient.keeps
    obtain ⟨hne, -, hrunning, hphase⟩ := hclient
    have hkind : Deed.isServer (.mailbox b) = false := by
      cases b with
      | server => exact absurd rfl hne
      | send c r | wait c e | client c => rfl
    refine ⟨⟨hcoherent, by rw [hrunning, h.running], by rw [hphase]; exact h.entered⟩, ?_, ?_⟩
    · rw [hkind, Process.left, Process.left, hserver, hphase]
      exact le_refl _
    · rw [Process.finds, Process.finds, hserver, hphase, hdispatched]
  · exact h.run hrun

omit [DecidableEq ι] in
/-- A server told to stop is nowhere blocked. -/
theorem Stopping.moves {p : Process ι σ} (h : Stopping p) (hphase : p.phase ≠ .finished) :
    ∃ q, runStep handle p = some q := by
  cases hp : p.phase with
  | created | testRunning | testStop => exact ⟨_, by simp only [runStep, hp]; rfl⟩
  | finished => exact absurd hp hphase
  | body =>
    obtain ⟨s, hs⟩ : ∃ s, serverStep handle p.mailbox = some s := by
      cases hpc : p.mailbox.server.pc with
      | waitDataReady =>
        have htoken := h.coherent.token hp hpc h.running
        exact ⟨_, by simp only [serverStep, hpc, if_pos htoken]; rfl⟩
      | testHasMessage =>
        cases hflag : p.mailbox.shared.hasMessage with
        | true => exact ⟨_, by simp only [serverStep, hpc, hflag]; rfl⟩
        | false => exact ⟨_, by simp only [serverStep, hpc, hflag]; rfl⟩
      | dispatch | readCurrentId | storeResponse | storeResponseSize | storeResponseId
      | storeHasResponse | postResponseReady | clearHasMessage | postMutex =>
        exact ⟨_, by simp only [serverStep, hpc]; rfl⟩
    exact ⟨_, by simp only [runStep, hp, hs]; rfl⟩

/-- The server alone comes to its end. -/
theorem Stopping.ends {p : Process ι σ} (h : Stopping p) :
    ∃ as t, as.length ≤ p.left ∧ (∀ a ∈ as, a = Deed.mailbox .server) ∧
      Run (ProcessStep handle) p as t ∧ t.phase = .finished := by
  refine Run.reaches (fun s a t _ hs hst => (hs.step hst).1) (fun s hs => ?_) h
  by_cases hphase : s.phase = .finished
  · exact .inl hphase
  · obtain ⟨t, ht⟩ := hs.moves hphase
    exact .inr ⟨.mailbox .server, t, rfl, ht, (hs.run ht).2.1⟩

/-- **A stop ends the run.** Once the loop is entered, `stop` at any statement of the server and in any
state of the clients lets the server take at most eleven more statements, whatever the clients do and
however many signals follow; it dispatches at most one more message, is never blocked again, and alone
comes to its end. -/
theorem stop_ends_run {p₀ p q r : Process ι σ} {as bs : List (Deed ι)} (h₀ : p₀.Started)
    (h : Run (ProcessStep handle) p₀ as p) (hentered : p.phase ≠ .created)
    (hstop : ProcessStep handle p .stop q) (hrun : Run (ProcessStep handle) q bs r) :
    bs.countP Deed.isServer ≤ 11 ∧
      r.mailbox.history.dispatched.length ≤ p.mailbox.history.dispatched.length + 1 ∧
      ∃ cs t, cs.length ≤ 11 ∧ (∀ c ∈ cs, c = Deed.mailbox .server) ∧
        Run (ProcessStep handle) r cs t ∧ t.phase = .finished := by
  have hp : Coherent p := Run.invariant (fun _ _ _ hs hst => hs.step hst) h₀.coherent h
  obtain rfl : q = stop p := by
    rcases processStep_cases hstop with ⟨-, -, hq⟩ | ⟨b, hb, -⟩ | ⟨hb, -⟩
    · exact hq
    · cases hb
    · cases hb
  have hq : Stopping (stop p) := ⟨hp.stop, rfl, hentered⟩
  have hcount : r.left + bs.countP Deed.isServer ≤ (stop p).left :=
    Run.measure (fun _ _ _ hs hst => (hs.step hst).1) (fun _ _ _ hs hst => (hs.step hst).2.1) hq hrun
  have hr : Stopping r ∧ r.mailbox.history.dispatched.length + r.finds ≤
      p.mailbox.history.dispatched.length + p.finds :=
    Run.invariant (I := fun r => Stopping r ∧ r.mailbox.history.dispatched.length + r.finds ≤
        p.mailbox.history.dispatched.length + p.finds)
      (fun _ _ _ hs hst => ⟨(hs.1.step hst).1, (hs.1.step hst).2.2.trans hs.2⟩) ⟨hq, le_refl _⟩ hrun
  have hfinds : p.finds ≤ 1 := by
    unfold Process.finds
    cases p.mailbox.server.pc.looking <;> split <;> simp
  refine ⟨by have := (stop p).left_le; omega, by omega, ?_⟩
  obtain ⟨cs, t, hlength, hends⟩ := hr.1.ends
  exact ⟨cs, t, hlength.trans r.left_le, hends⟩

/-- A stop while the server looks at the first message: it dispatches the message, and ends. -/
theorem stop_ends_run_sent :
    ∃ p r : Process (Fin 2) Unit, p.mailbox.history.dispatched = [] ∧
      r.mailbox.history.dispatched.length = 1 ∧ r.phase = .finished ∧
      r.mailbox.history.dispatched.length ≤ p.mailbox.history.dispatched.length + 1 := by
  obtain ⟨p, hp⟩ : ∃ p, exec (processStep noReply) (.fresh () : Process (Fin 2) Unit)
      ((sends 0 ⟨[], []⟩).map .mailbox ++ List.replicate 4 (.mailbox .server)) = some p := ⟨_, rfl⟩
  obtain ⟨q, hq⟩ : ∃ q, processStep noReply p .stop = some q := by
    cases hp
    exact ⟨_, rfl⟩
  obtain ⟨r, hr⟩ : ∃ r, exec (processStep noReply) q (List.replicate 5 (.mailbox .server)) =
      some r := by
    cases hp
    cases hq
    exact ⟨_, rfl⟩
  have hentered : p.phase ≠ .created := by
    cases hp
    decide
  have hends := stop_ends_run (Process.fresh_started ()) (run_of_exec hp) hentered hq (run_of_exec hr)
  refine ⟨p, r, ?_, ?_, ?_, hends.2.1⟩
  all_goals cases hp
  all_goals cases hq
  all_goals cases hr
  all_goals rfl

/-! ## A stop before the loop is lost -/

/-- The server's process once `main` has installed the handler and calls `run`. -/
inductive Launch (ι σ : Type) where
  /-- In `initialize`: `shared_data` is still `nullptr`. -/
  | starting
  /-- `shared_data` points to the segment. -/
  | mapped (p : Process ι σ)
  /-- `initialize` has failed, and `run` has returned. -/
  | refused
  /-- `stop` has dereferenced `nullptr`. -/
  | crashed

/-- `run` has returned. -/
def Launch.Returned : Launch ι σ → Prop
  | .refused => True
  | .mapped p => p.phase = .finished
  | .starting | .crashed => False

/-- The steps without contention; signals come as they like. -/
def Undisturbed (p : Process ι σ) : Deed ι → Prop
  | .mailbox a => Uncontended p.mailbox a
  | .stop => True

/-- The server's statements that the mailbox does not see change nothing in it. -/
theorem runStep_mailbox {p q : Process ι σ} (h : runStep handle p = some q) :
    q.mailbox = p.mailbox ∨ Step handle p.mailbox .server q.mailbox := by
  cases hphase : p.phase
  all_goals simp only [runStep, hphase] at h
  case body =>
    obtain ⟨s, hs, rfl⟩ := Option.map_eq_some_iff.mp h
    exact .inr hs
  case finished => cases h
  all_goals
    cases h
    exact .inl rfl

/-- **A stop loses one message at most.** In every run without contention, with signals at any moment,
the messages are delivered exactly once; and whatever moment `run` ends at, only the last call to
return can still wait in the slot: every earlier one is dispatched. -/
theorem stops_deliver_once {p₀ p : Process ι σ} {as : List (Deed ι)} (h₀ : p₀.Started)
    (h : Run (Guarded Undisturbed (ProcessStep handle)) p₀ as p) :
    ExactlyOnce p.mailbox ∧ ∀ k ∈ p.mailbox.history.returned,
      (∃ d ∈ p.mailbox.history.dispatched, d.Hands p.mailbox.history k) ∨
        p.mailbox.shared.hasMessage = true ∧ k = p.mailbox.history.dispatched.length := by
  have hboth : Delivery p.mailbox ∧ TokenComes p.mailbox := by
    refine Run.invariant (I := fun p : Process ι σ => Delivery p.mailbox ∧ TokenComes p.mailbox)
      (fun s a t hs hst => ?_) ⟨h₀.mailbox.delivery, h₀.mailbox.tokenComes⟩ h
    obtain ⟨hguard, hst⟩ := hst
    rcases processStep_cases hst with ⟨-, -, rfl⟩ | ⟨b, rfl, hclient⟩ | ⟨rfl, hrun⟩
    · -- the token of a stop is one more
      refine ⟨hs.1.silent rfl rfl hs.1.flag rfl rfl rfl hs.1.returned fun c => .refl _, ?_⟩
      intro hflag hserver
      exact .inl (Nat.succ_pos _)
    · exact ⟨hs.1.step hguard hclient.2.1, hs.2.step hclient.2.1⟩
    · rcases runStep_mailbox hrun with heq | hstep
      · rw [heq]
        exact hs
      · exact ⟨hs.1.step (a := .server) trivial hstep, hs.2.step hstep⟩
  refine ⟨hboth.1.exactlyOnce hboth.2, fun k hk => ?_⟩
  have hlt := hboth.1.returned k hk
  unfold State.publishedCount at hlt
  by_cases hdispatched : k < p.mailbox.history.dispatched.length
  · have hget := List.getElem?_eq_getElem hdispatched
    exact .inl ⟨_, List.getElem_mem hdispatched, hboth.1.served k _ hget⟩
  · have hund : p.mailbox.undispatched = true := by
      by_contra hno
      rw [Bool.not_eq_true] at hno
      rw [hno, Bool.toNat_false] at hlt
      omega
    rw [hund, Bool.toNat_true] at hlt
    have hflag : p.mailbox.shared.hasMessage = true := by
      unfold State.undispatched at hund
      exact (Bool.and_eq_true_iff.mp hund).1
    exact .inr ⟨hflag, by omega⟩

instance [Fintype ι] (p : Process ι σ) : (a : Deed ι) → Decidable (Undisturbed p a)
  | .mailbox a => inferInstanceAs (Decidable (Uncontended p.mailbox a))
  | .stop => inferInstanceAs (Decidable True)

/-- A stop before the server looks: the message stays in the slot, and it is the last. -/
theorem stops_deliver_once_sent :
    ∃ p : Process (Fin 2) Unit, p.phase = .finished ∧ p.mailbox.history.returned = [0] ∧
      p.mailbox.history.dispatched = [] ∧ ExactlyOnce p.mailbox := by
  obtain ⟨p, hp⟩ : ∃ p, exec (guarded Undisturbed (processStep noReply))
      (.fresh () : Process (Fin 2) Unit) ([.mailbox .server, .mailbox .server] ++
        (sends 0 ⟨[], []⟩).map .mailbox ++ [.stop, .mailbox .server, .mailbox .server]) = some p := ⟨_, rfl⟩
  refine ⟨p, ?_, ?_, ?_,
    (stops_deliver_once (Process.fresh_started ()) (run_of_exec_guarded hp)).1⟩
  all_goals cases hp
  all_goals rfl

end CCache.Ipc
