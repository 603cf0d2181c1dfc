/-
# CCache.Ipc.Segments — which processes share a mailbox, and what they hold of it.

`SHARED_MEM_NAME` names at most one segment.  A server creates it or opens the one that is there, and
removes the name when it is done, whatever segment it names by then; a client opens what is named; anyone
may remove the file, as `restart_server.sh` does.  Two processes share the mailbox exactly when the name
was not removed between their opens: a client is cut off from every server that starts later, and a server
whose name was removed gets no new client.  On every path the server closes what it opened; a server that
is initialized again, and a client that connects again, loses the mapping it had.
-/
import CCache.Lib.Runs
import Mathlib.Data.List.Nodup
import Mathlib.Logic.Function.Basic

namespace CCache.Ipc.Segments

open CCache.Lib.Runs

/-! ## The system calls -/

/-- Segments are numbered as they are created.  `epochs` keeps, for each, how often the name had been
removed by then. -/
structure Kernel where
  name : Option Nat
  epochs : List Nat
  removals : Nat
deriving DecidableEq, Repr

/-- `shm_open` with `O_CREAT`, when it succeeds. -/
def Kernel.shmOpenCreate (k : Kernel) : Nat × Kernel :=
  match k.name with
  | some g => (g, k)
  | none => (k.epochs.length,
      { k with name := some k.epochs.length, epochs := k.epochs ++ [k.removals] })

/-- `shm_unlink`, and `rm` of the file: without a name nothing happens. -/
def Kernel.shmUnlink (k : Kernel) : Kernel :=
  match k.name with
  | some _ => { k with name := none, removals := k.removals + 1 }
  | none => k

/-- What a process holds: open descriptors and mappings, each by its segment. -/
structure Holdings where
  fds : List Nat
  maps : List Nat
deriving DecidableEq, Repr

namespace Holdings

def nothing : Holdings := ⟨[], []⟩

/-- A descriptor of the segment is opened. -/
def opened (h : Holdings) (g : Nat) : Holdings := { h with fds := g :: h.fds }

def close (h : Holdings) (g : Nat) : Holdings := { h with fds := h.fds.erase g }

def mmap (h : Holdings) (g : Nat) : Holdings := { h with maps := g :: h.maps }

def munmap (h : Holdings) (g : Nat) : Holdings := { h with maps := h.maps.erase g }

end Holdings

/-- Which of the system calls of one attempt succeed; `semInit` is for the three `sem_init`. -/
structure Calls where
  shmOpen : Bool
  ftruncate : Bool
  mmap : Bool
  semInit : Bool
deriving DecidableEq, Repr

/-! ## The server and the client -/

/-- `IPCServer`, with what its process holds; `openedAt` is how often the name had been removed at its
`shm_open`, `lost` counts the calls of `initialize` that came while `shared_data` was set. -/
structure IPCServer where
  sharedData : Option Nat
  held : Holdings
  openedAt : Nat
  lost : Nat
deriving DecidableEq, Repr

/-- `IPCServer::IPCServer`. -/
def IPCServer.new : IPCServer := ⟨none, .nothing, 0, 0⟩

/-- `IPCServer::create_shared_memory`. -/
def createSharedMemory (y : Calls) (k : Kernel) (h : Holdings) : Option Nat × Kernel × Holdings :=
  if !y.shmOpen then (none, k, h)
  else
    let (g, k) := k.shmOpenCreate
    let h := h.opened g
    if !y.ftruncate then (none, k, h.close g)
    else
      -- the descriptor is closed before the result of mmap is looked at
      let h := (if y.mmap then h.mmap g else h).close g
      if !y.mmap then (none, k, h)
      else if !y.semInit then (none, k, h.munmap g)
      else (some g, k, h)

/-- `IPCServer::initialize`: whatever `shared_data` was is overwritten, also when the attempt fails. -/
def initializeServer (y : Calls) (k : Kernel) (o : IPCServer) : IPCServer × Kernel :=
  let (data, k', h) := createSharedMemory y k o.held
  ({ sharedData := data, held := h, openedAt := k.removals,
     lost := o.lost + o.sharedData.isSome.toNat }, k')

/-- `IPCServer::~IPCServer`. -/
def IPCServer.destroy (o : IPCServer) (k : Kernel) : Holdings × Kernel :=
  match o.sharedData with
  | some g => (o.held.munmap g, k.shmUnlink)
  | none => (o.held, k)

/-- `IPCClient`, with what its process holds; `openedAt` and `lost` are as for the server, of the calls of
`connect`. -/
structure IPCClient where
  sharedData : Option Nat
  connected : Bool
  held : Holdings
  openedAt : Nat
  lost : Nat
deriving DecidableEq, Repr

/-- A new client process. -/
def IPCClient.new : IPCClient := ⟨none, false, .nothing, 0, 0⟩

/-- `IPCClient::open_shared_memory`. -/
def openSharedMemory (y : Calls) (k : Kernel) (h : Holdings) : Option Nat × Holdings :=
  match k.name with
  | none => (none, h)
  | some g =>
    if !y.shmOpen then (none, h)
    else
      let h := ((if y.mmap then (h.opened g).mmap g else h.opened g)).close g
      (if y.mmap then some g else none, h)

/-- `IPCClient::connect`: the old `shared_data` is overwritten, `connected` stays when it was set. -/
def IPCClient.connect (y : Calls) (k : Kernel) (x : IPCClient) : Bool × IPCClient :=
  let (data, h) := openSharedMemory y k x.held
  let x' := { x with sharedData := data, held := h, openedAt := k.removals,
                     lost := x.lost + x.sharedData.isSome.toNat }
  if data.isSome then (true, { x' with connected := true }) else (false, x')

/-- `IPCClient::disconnect`. -/
def IPCClient.disconnect (x : IPCClient) : IPCClient :=
  match x.sharedData with
  | some g =>
    if x.connected then { x with sharedData := none, connected := false, held := x.held.munmap g }
    else x
  | none => x

/-! ## The world -/

variable {κ ι : Type}

/-- Any number of server and of client processes on one machine. -/
structure World (κ ι : Type) where
  kernel : Kernel
  server : κ → Option IPCServer
  client : ι → IPCClient

/-- A server process starts and initializes its server, initializes it again (as `run` does for a server
that is initialized already), comes to its end or is killed; a client calls `connect` or `disconnect`, or
its process ends; the file of the segment is removed. -/
inductive Event (κ ι : Type) where
  | start (j : κ) (y : Calls)
  | initializeAgain (j : κ) (y : Calls)
  | finish (j : κ)
  | kill (j : κ)
  | connect (c : ι) (y : Calls)
  | disconnect (c : ι)
  | leave (c : ι)
  | remove
deriving DecidableEq, Repr

variable [DecidableEq κ] [DecidableEq ι]

/-- One event. -/
def happen (w : World κ ι) : Event κ ι → Option (World κ ι)
  | .start j y =>
    match w.server j with
    | some _ => none
    | none =>
      let (o, k) := initializeServer y w.kernel .new
      some { w with kernel := k, server := Function.update w.server j (some o) }
  | .initializeAgain j y =>
    match w.server j with
    | some o =>
      let (o, k) := initializeServer y w.kernel o
      some { w with kernel := k, server := Function.update w.server j (some o) }
    | none => none
  | .finish j =>
    match w.server j with
    | some o => some { w with kernel := (o.destroy w.kernel).2,
                              server := Function.update w.server j none }
    | none => none
  | .kill j => some { w with server := Function.update w.server j none }
  | .connect c y =>
    some { w with client := Function.update w.client c ((w.client c).connect y w.kernel).2 }
  | .disconnect c => some { w with client := Function.update w.client c (w.client c).disconnect }
  | .leave c => some { w with client := Function.update w.client c .new }
  | .remove => some { w with kernel := w.kernel.shmUnlink }

def Happens (w : World κ ι) (e : Event κ ι) (v : World κ ι) : Prop := happen w e = some v

/-- Nothing has been started; the name may be left over from before. -/
structure Initial (w : World κ ι) : Prop where
  kernel : w.kernel.removals = 0 ∧ w.kernel.epochs = (w.kernel.name.map fun _ => 0).toList ∧
    ∀ g, w.kernel.name = some g → g = 0
  server : ∀ j, w.server j = none
  client : ∀ c, w.client c = .new

/-- A machine on which nothing has run yet. -/
def World.unused : World κ ι := ⟨⟨none, [], 0⟩, fun _ => none, fun _ => .new⟩

omit [DecidableEq κ] [DecidableEq ι] in
theorem World.unused_initial : Initial (World.unused : World κ ι) :=
  ⟨⟨rfl, rfl, nofun⟩, fun _ => rfl, fun _ => rfl⟩

/-! ## The name -/

/-- Segments are created one after the other, at most one between two removals. -/
structure Kernel.Ok (k : Kernel) : Prop where
  sorted : k.epochs.Pairwise (· < ·)
  bound : ∀ e ∈ k.epochs, e ≤ k.removals
  named : ∀ g, k.name = some g → k.epochs[g]? = some k.removals
  unnamed : k.name = none → ∀ e ∈ k.epochs, e < k.removals

/-- One segment for each epoch, and one epoch for each segment. -/
theorem Kernel.Ok.segment_unique {k : Kernel} (hk : k.Ok) {g g' e e' : Nat}
    (hg : k.epochs[g]? = some e) (hg' : k.epochs[g']? = some e') : g = g' ↔ e = e' := by
  constructor
  · rintro rfl
    exact Option.some.inj (hg.symm.trans hg')
  · rintro rfl
    obtain ⟨hlt, hget⟩ := List.getElem?_eq_some_iff.mp hg
    obtain ⟨hlt', hget'⟩ := List.getElem?_eq_some_iff.mp hg'
    have hnodup : k.epochs.Nodup := hk.sorted.imp fun hab => Nat.ne_of_lt hab
    exact (List.Nodup.getElem_inj_iff hnodup).mp (hget.trans hget'.symm)

theorem Kernel.Ok.shmUnlink {k : Kernel} (hk : k.Ok) : k.shmUnlink.Ok := by
  unfold Kernel.shmUnlink
  cases hname : k.name with
  | none => exact hk
  | some g =>
    refine ⟨hk.sorted, fun e he => Nat.le_succ_of_le (hk.bound e he), nofun, fun _ e he => ?_⟩
    exact Nat.lt_succ_of_le (hk.bound e he)

/-- Opening names the segment of this epoch and keeps the others. -/
theorem Kernel.Ok.shmOpenCreate {k : Kernel} (hk : k.Ok) :
    (k.shmOpenCreate).2.Ok ∧ (k.shmOpenCreate).2.removals = k.removals ∧
      (k.shmOpenCreate).2.epochs[(k.shmOpenCreate).1]? = some k.removals ∧
      k.epochs <+: (k.shmOpenCreate).2.epochs := by
  unfold Kernel.shmOpenCreate
  cases hname : k.name with
  | some g => exact ⟨hk, rfl, hk.named g hname, List.prefix_rfl⟩
  | none =>
    have hnew := hk.unnamed hname
    have hget : (k.epochs ++ [k.removals])[k.epochs.length]? = some k.removals := by simp
    refine ⟨⟨?_, ?_, ?_, nofun⟩, rfl, hget, List.prefix_append _ _⟩
    · rw [List.pairwise_append]
      refine ⟨hk.sorted, List.pairwise_singleton _ _, fun e he f hf => ?_⟩
      rw [List.mem_singleton.mp hf]
      exact hnew e he
    · intro e he
      rcases List.mem_append.mp he with hold | hlast
      · exact hk.bound e hold
      · exact Nat.le_of_eq (List.mem_singleton.mp hlast)
    · intro g hg
      cases hg
      exact hget

/-! ## What the processes hold -/

/-- No descriptor is open; what `shared_data` points to is mapped, and `lost` segments besides. -/
structure Holdings.Exact (h : Holdings) (data : Option Nat) (lost : Nat) : Prop where
  fds : h.fds = []
  maps : h.maps.length = data.isSome.toNat + lost
  mapped : ∀ g, data = some g → g ∈ h.maps

/-- What a server holds between its calls. -/
structure IPCServer.Ok (k : Kernel) (o : IPCServer) : Prop where
  held : o.held.Exact o.sharedData o.lost
  opened : ∀ g, o.sharedData = some g → k.epochs[g]? = some o.openedAt

/-- What a client holds between its calls. -/
structure IPCClient.Ok (k : Kernel) (x : IPCClient) : Prop where
  held : x.held.Exact x.sharedData x.lost
  connected : x.sharedData.isSome = true → x.connected = true
  opened : ∀ g, x.sharedData = some g → k.epochs[g]? = some x.openedAt

theorem Holdings.nothing_exact : Holdings.nothing.Exact none 0 := ⟨rfl, rfl, nofun⟩

/-- Without a lost mapping there is the one of `shared_data`, or none. -/
theorem Holdings.Exact.eq_of_lost {h : Holdings} {data : Option Nat} (hx : h.Exact data 0) :
    h = ⟨[], data.toList⟩ := by
  obtain ⟨fds, maps⟩ := h
  obtain ⟨hfds, hmaps, hmapped⟩ := hx
  obtain rfl : fds = [] := hfds
  cases data with
  | none =>
    obtain rfl : maps = [] := List.eq_nil_of_length_eq_zero hmaps
    rfl
  | some g =>
    obtain ⟨x, hx⟩ := List.length_eq_one_iff.mp hmaps
    have hin : g ∈ maps := hmapped g rfl
    obtain rfl : maps = [x] := hx
    rw [List.mem_singleton.mp hin, Option.toList_some]

/-- The mapping of `shared_data` is given up. -/
theorem Holdings.Exact.munmap {h : Holdings} {g lost : Nat} (hx : h.Exact (some g) lost) :
    (h.munmap g).Exact none lost := by
  refine ⟨hx.fds, ?_, nofun⟩
  have hlength := List.length_erase_of_mem (hx.mapped g rfl)
  have hmaps := hx.maps
  simp only [Option.isSome_some, Bool.toNat_true] at hmaps
  simp only [Holdings.munmap, Option.isSome_none, Bool.toNat_false]
  omega

theorem getElem?_of_prefix {l l' : List Nat} (h : l <+: l') {n x : Nat} (hn : l[n]? = some x) :
    l'[n]? = some x := by
  obtain ⟨r, rfl⟩ := h
  rw [List.getElem?_append_left (List.getElem?_eq_some_iff.mp hn).1]
  exact hn

theorem IPCServer.Ok.grows {k k' : Kernel} {o : IPCServer} (h : o.Ok k)
    (hgrows : k.epochs <+: k'.epochs) : o.Ok k' :=
  ⟨h.held, fun g hg => getElem?_of_prefix hgrows (h.opened g hg)⟩

theorem IPCClient.Ok.grows {k k' : Kernel} {x : IPCClient} (h : x.Ok k)
    (hgrows : k.epochs <+: k'.epochs) : x.Ok k' :=
  ⟨h.held, h.connected, fun g hg => getElem?_of_prefix hgrows (h.opened g hg)⟩

theorem IPCServer.new_ok (k : Kernel) : IPCServer.new.Ok k := ⟨Holdings.nothing_exact, nofun⟩

theorem IPCClient.new_ok (k : Kernel) : IPCClient.new.Ok k := ⟨Holdings.nothing_exact, nofun, nofun⟩

theorem Kernel.shmUnlink_epochs (k : Kernel) : k.shmUnlink.epochs = k.epochs := by
  unfold Kernel.shmUnlink
  split <;> rfl

/-- **Every way out of `create_shared_memory`**: what was opened is closed, and one more segment is mapped
exactly on success. -/
theorem createSharedMemory_spec (y : Calls) {k : Kernel} (hk : k.Ok) {h : Holdings} (hfds : h.fds = []) :
    (createSharedMemory y k h).2.1.Ok ∧
      k.epochs <+: (createSharedMemory y k h).2.1.epochs ∧
      (createSharedMemory y k h).2.1.removals = k.removals ∧
      (createSharedMemory y k h).2.2 = ⟨[], (createSharedMemory y k h).1.toList ++ h.maps⟩ ∧
      ∀ g, (createSharedMemory y k h).1 = some g →
        (createSharedMemory y k h).2.1.epochs[g]? = some k.removals := by
  obtain ⟨hok, hremovals, hget, hprefix⟩ := hk.shmOpenCreate
  obtain ⟨shmOpen, ftruncate, mmap, semInit⟩ := y
  obtain ⟨fds, maps⟩ := h
  obtain rfl : fds = [] := hfds
  cases shmOpen with
  | false => exact ⟨hk, List.prefix_rfl, rfl, rfl, nofun⟩
  | true =>
    cases ftruncate <;> cases mmap <;> cases semInit
    all_goals
      simp only [createSharedMemory, Holdings.opened, Holdings.close, Holdings.mmap, Holdings.munmap,
        Bool.not_true, Bool.not_false, Bool.false_eq_true, if_true, if_false,
        List.erase_cons_head, Option.toList_none, Option.toList_some, reduceCtorEq,
        Option.some.injEq]
    all_goals
      first
        | exact ⟨hok, hprefix, hremovals, rfl, fun g hg => by rw [← hg]; exact hget⟩
        | exact ⟨hok, hprefix, hremovals, rfl, nofun⟩

/-- **`initialize`**, on a new server or on one that is initialized already. -/
theorem initializeServer_ok {k : Kernel} (hk : k.Ok) {o : IPCServer} (ho : o.Ok k) (y : Calls) :
    (initializeServer y k o).2.Ok ∧ k.epochs <+: (initializeServer y k o).2.epochs ∧
      (initializeServer y k o).2.removals = k.removals ∧ (initializeServer y k o).1.Ok (initializeServer y k o).2 ∧
      (initializeServer y k o).1.openedAt = k.removals := by
  obtain ⟨hok, hprefix, hremovals, hheld, hget⟩ := createSharedMemory_spec y hk ho.held.fds
  refine ⟨hok, hprefix, hremovals, ⟨?_, hget⟩, rfl⟩
  show Holdings.Exact (createSharedMemory y k o.held).2.2 (createSharedMemory y k o.held).1
    (o.lost + o.sharedData.isSome.toNat)
  rw [hheld]
  have hmaps := ho.held.maps
  refine ⟨rfl, ?_, fun g hg => by simp [hg]⟩
  rw [List.length_append, hmaps]
  cases (createSharedMemory y k o.held).1 with
  | none => simp [Nat.add_comm]
  | some g =>
    simp only [Option.toList_some, List.length_singleton, Option.isSome_some, Bool.toNat_true]
    omega

/-- `destroy` unmaps what `shared_data` points to. -/
theorem IPCServer.destroy_spec {k : Kernel} (hk : k.Ok) {o : IPCServer} (ho : o.Ok k) :
    (o.destroy k).1.Exact none o.lost ∧ (o.destroy k).2.Ok ∧ (o.destroy k).2.epochs = k.epochs := by
  have hheld := ho.held
  unfold IPCServer.destroy
  cases hdata : o.sharedData with
  | none =>
    rw [hdata] at hheld
    exact ⟨hheld, hk, rfl⟩
  | some g =>
    rw [hdata] at hheld
    exact ⟨hheld.munmap, hk.shmUnlink, k.shmUnlink_epochs⟩

theorem IPCClient.Ok.connect {k : Kernel} (hk : k.Ok) {x : IPCClient} (hx : x.Ok k) (y : Calls) :
    (x.connect y k).2.Ok k := by
  obtain ⟨data, connected, ⟨fds, maps⟩, openedAt, lost⟩ := x
  obtain ⟨⟨hfds, hmaps, hmapped⟩, hconnected, -⟩ := hx
  obtain rfl : fds = [] := hfds
  dsimp only at hmaps
  cases hname : k.name with
  | none =>
    refine ⟨⟨?_, ?_, ?_⟩, ?_, ?_⟩
    all_goals simp [IPCClient.connect, openSharedMemory, hname]
    omega
  | some g =>
    obtain ⟨shmOpen, -, mmap, -⟩ := y
    have hget := hk.named g hname
    cases shmOpen <;> cases mmap
    all_goals refine ⟨⟨?_, ?_, ?_⟩, ?_, ?_⟩
    all_goals simp [IPCClient.connect, openSharedMemory, hname, Holdings.opened, Holdings.mmap,
      Holdings.close, hget]
    all_goals omega

theorem IPCClient.Ok.disconnect {k : Kernel} {x : IPCClient} (hx : x.Ok k) : x.disconnect.Ok k := by
  have hheld := hx.held
  unfold IPCClient.disconnect
  cases hdata : x.sharedData with
  | none => exact hx
  | some g =>
    rw [hdata] at hheld
    have hconnected := hx.connected (by rw [hdata]; rfl)
    dsimp only
    rw [if_pos hconnected]
    exact ⟨hheld.munmap, nofun, nofun⟩

/-! ## Every run -/

/-- The invariant of the machine. -/
structure World.Ok (w : World κ ι) : Prop where
  kernel : w.kernel.Ok
  server : ∀ j o, w.server j = some o → o.Ok w.kernel
  client : ∀ c, (w.client c).Ok w.kernel

omit [DecidableEq κ] [DecidableEq ι] in
theorem Initial.ok {w : World κ ι} (h : Initial w) : w.Ok := by
  obtain ⟨hremovals, hepochs, hfirst⟩ := h.kernel
  refine ⟨?_, fun j o ho => ?_, fun c => ?_⟩
  · cases hname : w.kernel.name with
    | none =>
      rw [hname] at hepochs
      constructor
      all_goals rw [hepochs]
      · exact List.Pairwise.nil
      · exact fun e he => absurd he List.not_mem_nil
      · intro g hg
        rw [hname] at hg
        cases hg
      · exact fun _ e he => absurd he List.not_mem_nil
    | some g =>
      obtain rfl : g = 0 := hfirst g hname
      rw [hname] at hepochs
      constructor
      all_goals rw [hepochs]
      · exact List.pairwise_singleton _ _
      · intro e he
        rw [List.mem_singleton.mp he]
        exact Nat.zero_le _
      · intro g hg
        rw [hname] at hg
        cases hg
        rw [hremovals]
        rfl
      · intro hno
        rw [hname] at hno
        cases hno
  · rw [h.server j] at ho
    cases ho
  · rw [h.client c]
    exact IPCClient.new_ok _

omit [DecidableEq κ] [DecidableEq ι] in
/-- The kernel moves on, with no segment forgotten. -/
theorem World.Ok.grows {w : World κ ι} (h : w.Ok) {k : Kernel} (hk : k.Ok)
    (hgrows : w.kernel.epochs <+: k.epochs) : World.Ok { w with kernel := k } :=
  ⟨hk, fun j o ho => (h.server j o ho).grows hgrows, fun c => (h.client c).grows hgrows⟩

omit [DecidableEq ι] in
theorem World.Ok.setServer {w : World κ ι} (h : w.Ok) (j : κ) {s : Option IPCServer}
    (hs : ∀ o, s = some o → o.Ok w.kernel) :
    World.Ok { w with server := Function.update w.server j s } := by
  refine ⟨h.kernel, fun i o ho => ?_, h.client⟩
  have ho : Function.update w.server j s i = some o := ho
  by_cases hij : i = j
  · subst hij
    rw [Function.update_self] at ho
    exact hs o ho
  · rw [Function.update_of_ne hij] at ho
    exact h.server i o ho

omit [DecidableEq κ] in
theorem World.Ok.setClient {w : World κ ι} (h : w.Ok) (c : ι) {x : IPCClient} (hx : x.Ok w.kernel) :
    World.Ok { w with client := Function.update w.client c x } := by
  refine ⟨h.kernel, h.server, fun d => ?_⟩
  show IPCClient.Ok w.kernel (Function.update w.client c x d)
  by_cases hdc : d = c
  · subst hdc
    rw [Function.update_self]
    exact hx
  · rw [Function.update_of_ne hdc]
    exact h.client d

theorem World.Ok.step {w v : World κ ι} {e : Event κ ι} (h : w.Ok) (hstep : Happens w e v) : v.Ok := by
  cases e with
  | start j y =>
    simp only [Happens, happen] at hstep
    split at hstep
    · cases hstep
    · cases hstep
      obtain ⟨hok, hprefix, -, hserver, -⟩ := initializeServer_ok h.kernel (IPCServer.new_ok _) y
      exact (h.grows hok hprefix).setServer j fun o ho => Option.some.inj ho ▸ hserver
  | initializeAgain j y =>
    simp only [Happens, happen] at hstep
    split at hstep
    · rename_i o ho
      cases hstep
      obtain ⟨hok, hprefix, -, hserver, -⟩ := initializeServer_ok h.kernel (h.server j o ho) y
      exact (h.grows hok hprefix).setServer j fun o ho => Option.some.inj ho ▸ hserver
    · cases hstep
  | finish j =>
    simp only [Happens, happen] at hstep
    split at hstep
    · rename_i o ho
      cases hstep
      obtain ⟨-, hok, hepochs⟩ := IPCServer.destroy_spec h.kernel (h.server j o ho)
      exact (h.grows hok (hepochs ▸ List.prefix_rfl)).setServer j nofun
    · cases hstep
  | kill j =>
    cases hstep
    exact h.setServer j nofun
  | connect c y =>
    cases hstep
    exact h.setClient c ((h.client c).connect h.kernel y)
  | disconnect c =>
    cases hstep
    exact h.setClient c (h.client c).disconnect
  | leave c =>
    cases hstep
    exact h.setClient c (IPCClient.new_ok _)
  | remove =>
    cases hstep
    exact h.grows h.kernel.shmUnlink (w.kernel.shmUnlink_epochs ▸ List.prefix_rfl)

theorem ok_of_run {w₀ w : World κ ι} {es : List (Event κ ι)} (h₀ : Initial w₀)
    (h : Run Happens w₀ es w) : w.Ok :=
  Run.invariant (fun _ _ _ hw hst => hw.step hst) h₀.ok h

/-- **What the processes hold.** In every run, with any outcomes of the system calls, no process has a
descriptor open between its calls; a server has what `shared_data` points to mapped, and one mapping more
for each `initialize` that came while `shared_data` was set, and these are what its destructor leaves
mapped; and so has a client, for each `connect` that came while it had one. -/
theorem holdings_exact {w₀ w : World κ ι} {es : List (Event κ ι)} (h₀ : Initial w₀)
    (h : Run Happens w₀ es w) :
    (∀ j o, w.server j = some o → o.held.Exact o.sharedData o.lost ∧
      (o.destroy w.kernel).1.Exact none o.lost ∧
      (o.lost = 0 → o.held = ⟨[], o.sharedData.toList⟩ ∧ (o.destroy w.kernel).1 = .nothing)) ∧
      ∀ c, (w.client c).held.Exact (w.client c).sharedData (w.client c).lost ∧
        (w.client c).disconnect.held.Exact none (w.client c).lost ∧
        (w.client c).disconnect.sharedData = none := by
  have hw := ok_of_run h₀ h
  refine ⟨fun j o ho => ?_, fun c => ?_⟩
  · have hheld := (hw.server j o ho).held
    have hleft := (IPCServer.destroy_spec hw.kernel (hw.server j o ho)).1
    refine ⟨hheld, hleft, fun hlost => ?_⟩
    rw [hlost] at hheld hleft
    exact ⟨hheld.eq_of_lost, hleft.eq_of_lost⟩
  · have hc := hw.client c
    have hnone : (w.client c).disconnect.sharedData = none ∧
        (w.client c).disconnect.lost = (w.client c).lost := by
      unfold IPCClient.disconnect
      cases hdata : (w.client c).sharedData with
      | none => exact ⟨hdata, rfl⟩
      | some g =>
        have hconnected := hc.connected (by rw [hdata]; rfl)
        simp [hconnected]
    have hleft := hc.disconnect.held
    rw [hnone.1, hnone.2] at hleft
    exact ⟨hc.held, hleft, hnone.1⟩

/-- Every call succeeds. -/
def Calls.succeed : Calls := ⟨true, true, true, true⟩

/-- A server that is initialized, and again by `run`, has two mappings and leaves one; a client that
connects twice has two mappings. -/
theorem holdings_exact_twice :
    ∃ (w : World Unit Unit) (o : IPCServer), w.server () = some o ∧ o.held.maps.length = 2 ∧
      (o.destroy w.kernel).1.maps.length = 1 ∧ (w.client ()).held.maps.length = 2 ∧
      (w.client ()).disconnect.held.maps.length = 1 := by
  obtain ⟨w, hw⟩ : ∃ w, exec happen (World.unused : World Unit Unit)
      [.start () .succeed, .initializeAgain () .succeed, .connect () .succeed, .connect () .succeed] =
        some w := ⟨_, rfl⟩
  obtain ⟨o, ho, hdata, hlost⟩ : ∃ o, w.server () = some o ∧ o.sharedData = some 0 ∧ o.lost = 1 := by
    cases hw
    exact ⟨_, rfl, rfl, rfl⟩
  have hclient : (w.client ()).sharedData = some 0 ∧ (w.client ()).lost = 1 := by
    cases hw
    exact ⟨rfl, rfl⟩
  obtain ⟨hservers, hclients⟩ := holdings_exact World.unused_initial (run_of_exec hw)
  obtain ⟨hheld, hleft, -⟩ := hservers () o ho
  obtain ⟨hmaps, hclosed, -⟩ := hclients ()
  rw [hdata, hlost] at hheld
  rw [hlost] at hleft
  rw [hclient.1, hclient.2] at hmaps
  rw [hclient.2] at hclosed
  exact ⟨w, o, ho, hheld.maps, hleft.maps, hmaps.maps, hclosed.maps⟩

/-! ## Who shares a mailbox -/

/-- The process has the segment `g` as its `shared_data`, opened when the name had been removed `e` times. -/
def World.Holds (w : World κ ι) : κ ⊕ ι → Nat → Nat → Prop
  | .inl j, g, e => ∃ o, w.server j = some o ∧ o.sharedData = some g ∧ o.openedAt = e
  | .inr c, g, e => (w.client c).sharedData = some g ∧ (w.client c).openedAt = e

omit [DecidableEq κ] [DecidableEq ι] in
theorem World.Ok.opened {w : World κ ι} (h : w.Ok) {p : κ ⊕ ι} {g e : Nat} (hp : w.Holds p g e) :
    w.kernel.epochs[g]? = some e := by
  cases p with
  | inl j =>
    obtain ⟨o, ho, hg, rfl⟩ := hp
    exact (h.server j o ho).opened g hg
  | inr c =>
    obtain ⟨hg, rfl⟩ := hp
    exact (h.client c).opened g hg

/-- What is opened at the present epoch is what is named now. -/
theorem Kernel.Ok.named_iff {k : Kernel} (hk : k.Ok) {g e : Nat} (hg : k.epochs[g]? = some e) :
    k.name = some g ↔ e = k.removals := by
  constructor
  · intro hname
    exact Option.some.inj (hg.symm.trans (hk.named g hname))
  · rintro rfl
    cases hname : k.name with
    | none =>
      have hlt := hk.unnamed hname _ (List.mem_of_getElem? hg)
      exact absurd hlt (Nat.lt_irrefl _)
    | some g' => rw [(hk.segment_unique hg (hk.named g' hname)).mpr rfl]

/-- **Who shares a mailbox.** In every run of servers and clients that start, end, are killed, connect and
disconnect while the file may be removed: two processes share the segment exactly when the name was not
removed between their opens, and a client that connects now reaches a process's segment exactly when the
name was not removed since that process opened it. -/
theorem share_iff {w₀ w : World κ ι} {es : List (Event κ ι)} (h₀ : Initial w₀)
    (h : Run Happens w₀ es w) {p q : κ ⊕ ι} {g g' e e' : Nat} (hp : w.Holds p g e)
    (hq : w.Holds q g' e') :
    (g = g' ↔ e = e') ∧ (w.kernel.name = some g ↔ e = w.kernel.removals) := by
  have hw := ok_of_run h₀ h
  exact ⟨hw.kernel.segment_unique (hw.opened hp) (hw.opened hq), hw.kernel.named_iff (hw.opened hp)⟩

/-- A server is killed and started again: the client is on its segment still. -/
theorem share_iff_killed :
    ∃ w : World Unit Unit, w.Holds (.inl ()) 0 0 ∧ w.Holds (.inr ()) 0 0 ∧
      w.kernel.name = some 0 := by
  obtain ⟨w, hw⟩ : ∃ w, exec happen (World.unused : World Unit Unit)
      [.start () .succeed, .connect () .succeed, .kill (), .start () .succeed] = some w := ⟨_, rfl⟩
  have hserver : w.Holds (.inl ()) 0 0 := by
    cases hw
    exact ⟨_, rfl, rfl, rfl⟩
  have hclient : w.Holds (.inr ()) 0 0 := by
    cases hw
    exact ⟨rfl, rfl⟩
  have hremovals : w.kernel.removals = 0 := by
    cases hw
    rfl
  have hshare := share_iff World.unused_initial (run_of_exec hw) hserver hclient
  exact ⟨w, hserver, hclient, hshare.2.mpr hremovals.symm⟩

/-- The events that leave client `c` with the segment it has. -/
def Keeps (c : ι) : Event κ ι → Prop
  | .connect d _ | .disconnect d | .leave d => d ≠ c
  | _ => True

/-- What is left of segment `g` once its name is gone: the client `c`, and the servers of `w`. -/
structure CutOff (w : World κ ι) (c : ι) (g : Nat) (v : World κ ι) : Prop where
  ok : v.Ok
  client : v.client c = w.client c
  gone : ∃ e, v.kernel.epochs[g]? = some e ∧ e < v.kernel.removals
  server : ∀ j o, v.server j = some o → o.sharedData = some g → w.server j = some o

theorem Kernel.le_shmUnlink (k : Kernel) : k.removals ≤ k.shmUnlink.removals := by
  unfold Kernel.shmUnlink
  split
  · exact Nat.le_succ _
  · exact Nat.le_refl _

theorem CutOff.step {w v u : World κ ι} {c : ι} {g : Nat} {e : Event κ ι} (h : CutOff w c g v)
    (hkeeps : Keeps c e) (hstep : Happens v e u) : CutOff w c g u := by
  have hok := h.ok.step hstep
  obtain ⟨a, hget, hlt⟩ := h.gone
  have hupdate : ∀ {j : κ} {s : Option IPCServer},
      (∀ o, s = some o → o.sharedData = some g → w.server j = some o) → ∀ i o,
        Function.update v.server j s i = some o → o.sharedData = some g → w.server i = some o := by
    intro j s hs i o ho hg
    by_cases hij : i = j
    · subst hij
      rw [Function.update_self] at ho
      exact hs o ho hg
    · rw [Function.update_of_ne hij] at ho
      exact h.server i o ho hg
  -- a server's new segment is of this epoch, and `g` is not
  have hopens : ∀ {j : κ} {o : IPCServer} {y : Calls}, o.Ok v.kernel →
      World.Ok { v with kernel := (initializeServer y v.kernel o).2,
                        server := Function.update v.server j (some (initializeServer y v.kernel o).1) } →
      CutOff w c g { v with kernel := (initializeServer y v.kernel o).2,
                            server := Function.update v.server j
                              (some (initializeServer y v.kernel o).1) } := by
    intro j o y ho hok
    obtain ⟨hk, hprefix, hremovals, hserver, hopened⟩ := initializeServer_ok h.ok.kernel ho y
    have hget' := getElem?_of_prefix hprefix hget
    refine ⟨hok, h.client, ⟨a, hget', by rw [hremovals]; exact hlt⟩, hupdate fun o' ho' hg => ?_⟩
    obtain rfl := Option.some.inj ho'
    have hsame := Option.some.inj (hget'.symm.trans (hserver.opened g hg))
    rw [hopened] at hsame
    omega
  cases e with
  | start j y =>
    simp only [Happens, happen] at hstep
    split at hstep
    · cases hstep
    · cases hstep
      exact hopens (IPCServer.new_ok v.kernel) hok
  | initializeAgain j y =>
    simp only [Happens, happen] at hstep
    split at hstep
    · rename_i o ho
      cases hstep
      exact hopens (h.ok.server j o ho) hok
    · cases hstep
  | finish j =>
    simp only [Happens, happen] at hstep
    split at hstep
    · rename_i o ho
      cases hstep
      have hepochs := (IPCServer.destroy_spec h.ok.kernel (h.ok.server j o ho)).2.2
      have hle : v.kernel.removals ≤ (o.destroy v.kernel).2.removals := by
        unfold IPCServer.destroy
        split
        · exact v.kernel.le_shmUnlink
        · exact Nat.le_refl _
      exact ⟨hok, h.client, ⟨a, by rw [hepochs]; exact hget, Nat.lt_of_lt_of_le hlt hle⟩,
        hupdate nofun⟩
    · cases hstep
  | kill j =>
    cases hstep
    exact ⟨hok, h.client, ⟨a, hget, hlt⟩, hupdate nofun⟩
  | connect d y | disconnect d | leave d =>
    have hne : c ≠ d := fun hcd => hkeeps hcd.symm
    cases hstep
    refine ⟨hok, ?_, ⟨a, hget, hlt⟩, h.server⟩
    show Function.update v.client d _ c = _
    rw [Function.update_of_ne hne, h.client]
  | remove =>
    cases hstep
    refine ⟨hok, h.client, ⟨a, ?_, Nat.lt_of_lt_of_le hlt v.kernel.le_shmUnlink⟩, h.server⟩
    show v.kernel.shmUnlink.epochs[g]? = _
    rw [Kernel.shmUnlink_epochs, hget]

/-- **A client whose segment has lost its name is cut off.** Whatever happens then, as long as the client
does not connect again, no server that starts serves its segment: only servers that run already do. -/
theorem cut_off {w₀ w v : World κ ι} {es fs : List (Event κ ι)} (h₀ : Initial w₀)
    (h : Run Happens w₀ es w) {c : ι} {g : Nat} (hc : (w.client c).sharedData = some g)
    (hgone : w.kernel.name ≠ some g) (hrun : Run (Guarded (fun _ => Keeps c) Happens) w fs v) :
    (v.client c).sharedData = some g ∧
      ∀ j o, v.server j = some o → o.sharedData = some g → w.server j = some o := by
  have hw := ok_of_run h₀ h
  have hget := (hw.client c).opened g hc
  have hlt : (w.client c).openedAt < w.kernel.removals := by
    have hle := hw.kernel.bound _ (List.mem_of_getElem? hget)
    have hne := mt (hw.kernel.named_iff hget).mpr hgone
    omega
  have hcut : CutOff w c g v :=
    Run.invariant (fun _ _ _ hs hst => hs.step hst.1 hst.2)
      ⟨hw, rfl, ⟨_, hget, hlt⟩, fun _ _ ho _ => ho⟩ hrun
  exact ⟨by rw [hcut.client, hc], hcut.server⟩

instance (c : ι) : (e : Event κ ι) → Decidable (Keeps c e)
  | .connect _ _ | .disconnect _ | .leave _ => inferInstanceAs (Decidable (_ ≠ _))
  | .start _ _ | .initializeAgain _ _ | .finish _ | .kill _ | .remove => inferInstanceAs (Decidable True)

/-- A server ends and another starts: it does not serve the client that is still connected. -/
theorem cut_off_restarted :
    ∃ (v : World Unit Unit) (o : IPCServer), v.server () = some o ∧
      (v.client ()).sharedData = some 0 ∧ o.sharedData ≠ some 0 := by
  obtain ⟨w, hw⟩ : ∃ w, exec happen (World.unused : World Unit Unit)
      [.start () .succeed, .connect () .succeed, .finish ()] = some w := ⟨_, rfl⟩
  obtain ⟨v, hv⟩ : ∃ v, exec (guarded (fun _ => Keeps ()) happen) w [.start () .succeed] = some v := by
    cases hw
    exact ⟨_, rfl⟩
  have hw' : (w.client ()).sharedData = some 0 ∧ w.kernel.name ≠ some 0 ∧ w.server () = none := by
    cases hw
    exact ⟨rfl, nofun, rfl⟩
  obtain ⟨o, ho⟩ : ∃ o, v.server () = some o := by
    cases hw
    cases hv
    exact ⟨_, rfl⟩
  obtain ⟨hclient, hserver⟩ := cut_off World.unused_initial (run_of_exec hw) hw'.1 hw'.2.1
    (run_of_exec_guarded hv)
  refine ⟨v, o, ho, hclient, fun hsame => ?_⟩
  have hran := hserver () o ho hsame
  rw [hw'.2.2] at hran
  cases hran

end CCache.Ipc.Segments
