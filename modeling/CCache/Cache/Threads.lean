/-
# CCache.Cache.Threads — any number of threads that call the public operations of one `SharedCache`.

A call enters `EnsureInitialized` and leaves its lock again, looks at `initialized_` without the lock,
and does its own work under a second lock.  Under a lock the stores to the mapped bytes are made one by
one, with the other threads' statements in between; what is read there is read at its beginning.  The
looks at `initialized_` and the stores to it are taken to be atomic.

The history lists what takes effect when: the opening of the file, and each call with its answer.  It is
a sequential run of the mapped cache, and every thread gets the answers that are listed for it
(`linearizable`).
-/
import CCache.Cache.Locking
import CCache.Cache.Lookup
import CCache.Lib.Linearization

namespace CCache.Cache

open CCache.Lib.ByteMemory
open CCache.Lib.Linearization
open CCache.Lib.Mutex
open CCache.Lib.Runs

/-! ## What the operations answer and store -/

namespace PublicOp

/-- The answer when the cache cannot be used. -/
def failed : PublicOp → Returned
  | .put _ _ => .flag false
  | .get _ => .view none
  | .remove _ => .flag false
  | .clear => .nothing
  | .getEntryCount => .number 0
  | .getUsedSpace => .number 0
  | .getFreeSpace => .number 0
  | .isValid => .flag false

/-- `Put` looks at its arguments before it locks: `!data || length == 0`. -/
def refused : PublicOp → Bool
  | .put _ data => data.all fun b => b.length == 0
  | _ => false

/-- The work under the operation's own lock: the answer, and the mapping with its trace. -/
def work (m : Mem) : PublicOp → Returned × Mapping
  | .put key data => (.flag (Cache.put (.start m) key data).1, (Cache.put (.start m) key data).2)
  | .get key => (.view (Cache.get m key), .start m)
  | .remove key => (.flag (Cache.remove (.start m) key).1, (Cache.remove (.start m) key).2)
  | .clear => (.nothing, Cache.clear (.start m))
  | .getEntryCount => (.number (Cache.getEntryCount m), .start m)
  | .getUsedSpace => (.number (nextOffset m), .start m)
  | .getFreeSpace => (.number (sub32 cacheFileSize (nextOffset m)), .start m)
  | .isValid => (.flag (accepted m), .start m)

end PublicOp

/-! ## The threads -/

/-- Where a thread is in its call. -/
inductive Pc where
  | idle
  /-- Before the `lock_guard` of `EnsureInitialized`. -/
  | entered (op : PublicOp)
  /-- Under it, at `if (!initialized_)`. -/
  | ensuring (op : PublicOp)
  /-- In `InitMmap`, which has mapped `file`: the stores of `InitializeCache` that are left. -/
  | formatting (op : PublicOp) (file : Mem) (todo : List Event)
  /-- At the end of `EnsureInitialized`. -/
  | ensured (op : PublicOp)
  /-- Without the lock, at the operation's own look at `initialized_`. -/
  | testing (op : PublicOp)
  /-- Before the operation's own `lock_guard`. -/
  | locking (op : PublicOp)
  /-- Under it: the answer, and the stores that are left. -/
  | storing (op : PublicOp) (answer : Returned) (todo : List Event)
  /-- `GetFreeSpace` under its lock, before the lock of the `GetUsedSpace` it calls. -/
  | relocking
  | returning (op : PublicOp) (answer : Returned)

/-- The thread is between a `lock_guard` and the end of its scope. -/
def Pc.holds : Pc → Bool
  | .ensuring _ => true
  | .formatting _ _ _ => true
  | .ensured _ => true
  | .storing _ _ _ => true
  | .relocking => true
  | _ => false

/-- The stores that are left. -/
def Pc.todo : Pc → List Event
  | .formatting _ _ todo => todo
  | .storing _ _ todo => todo
  | _ => []

/-- The call has taken effect and not returned. -/
def Pc.pending : Pc → Option (PublicOp × Returned)
  | .storing op answer _ => some (op, answer)
  | .returning op answer => some (op, answer)
  | _ => none

/-- The thread has found the cache usable. -/
def Pc.usable : Pc → Bool
  | .locking _ => true
  | .storing _ _ _ => true
  | .relocking => true
  | _ => false

/-- What takes effect on the cache. -/
inductive Entry (ι : Type) where
  | opened (file : Mem)
  | answered (i : ι) (op : PublicOp) (answer : Returned)

/-- Whose call it is. -/
def Entry.call {ι : Type} : Entry ι → Option (ι × PublicOp × Returned)
  | .opened _ => none
  | .answered i op answer => some (i, op, answer)

/-- The object, its mutex, where each thread is, and what has taken effect and been returned so far. -/
structure Threads (ι : Type) where
  obj : SharedCache
  owner : Option ι
  pc : ι → Pc
  history : List (Entry ι)
  returned : ι → List (PublicOp × Returned)

variable {ι : Type}

/-- The object as constructed, and no thread in a call. -/
def Threads.start : Threads ι :=
  { obj := .constructed, owner := none, pc := fun _ => .idle, history := [], returned := fun _ => [] }

/-- A thread calls an operation, or takes its next statement. -/
inductive Turn (ι : Type) where
  | call (i : ι) (op : PublicOp)
  | go (i : ι)

variable [DecidableEq ι]

/-- The thread's next statement; none where it waits for the mutex or is in no call. -/
def Threads.go (env : Nat → System) (s : Threads ι) (i : ι) : Option (Threads ι) :=
  match s.pc i with
  | .idle => none
  | .entered op =>
    if s.owner = none then
      some { s with owner := some i, pc := Function.update s.pc i (.ensuring op) }
    else none
  | .ensuring op =>
    if s.obj.initialized then some { s with pc := Function.update s.pc i (.ensured op) }
    else
      let y := env s.obj.attempts
      let r := SharedCache.initMmap y s.obj
      match r.1, y.mmap with
      | true, some (_, file) => some { s with
          obj := { r.2 with mem := file }
          pc := Function.update s.pc i (.formatting op file (initMmap (.start file)).log) }
      | _, _ => some { s with obj := r.2, pc := Function.update s.pc i (.ensured op) }
  | .formatting op file (e :: todo) => some { s with
      obj := { s.obj with mem := e.apply s.obj.mem }
      pc := Function.update s.pc i (.formatting op file todo) }
  | .formatting op file [] => some { s with
      obj := { s.obj with initialized := true }
      pc := Function.update s.pc i (.ensured op)
      history := s.history ++ [.opened file] }
  | .ensured op => some { s with owner := none, pc := Function.update s.pc i (.testing op) }
  | .testing op =>
    if s.obj.initialized = true ∧ op.refused = false then
      some { s with pc := Function.update s.pc i (.locking op) }
    else some { s with
      pc := Function.update s.pc i (.returning op op.failed)
      history := s.history ++ [.answered i op op.failed] }
  | .locking .getFreeSpace =>
    if s.owner = none then some { s with owner := some i, pc := Function.update s.pc i .relocking }
    else none
  | .locking op =>
    if s.owner = none then some { s with
      owner := some i
      pc := Function.update s.pc i
        (.storing op (op.work s.obj.mem).1 (op.work s.obj.mem).2.log)
      history := s.history ++ [.answered i op (op.work s.obj.mem).1] }
    else none
  | .storing op answer (e :: todo) => some { s with
      obj := { s.obj with mem := e.apply s.obj.mem }
      pc := Function.update s.pc i (.storing op answer todo) }
  | .storing op answer [] => some { s with
      owner := none
      pc := Function.update s.pc i (.returning op answer) }
  -- the mutex is this thread's own
  | .relocking => none
  | .returning op answer => some { s with
      pc := Function.update s.pc i .idle
      returned := Function.update s.returned i (s.returned i ++ [(op, answer)]) }

/-- One step of the threads. -/
def Threads.next (env : Nat → System) (s : Threads ι) : Turn ι → Option (Threads ι)
  | .call i op =>
    match s.pc i with
    | .idle => some { s with pc := Function.update s.pc i (.entered op) }
    | _ => none
  | .go i => s.go env i

/-- The step as a relation. -/
def Threads.Step (env : Nat → System) (s : Threads ι) (a : Turn ι) (t : Threads ι) : Prop :=
  s.next env a = some t

/-- **Which statement a thread has taken**, and what it found: one constructor for each. -/
inductive Threads.Takes (env : Nat → System) (s : Threads ι) (i : ι) : Threads ι → Prop
  | lockFirst {op : PublicOp} (hpc : s.pc i = .entered op) (hfree : s.owner = none) :
      Takes env s i { s with owner := some i, pc := Function.update s.pc i (.ensuring op) }
  | alreadyMapped {op : PublicOp} (hpc : s.pc i = .ensuring op) (hinit : s.obj.initialized = true) :
      Takes env s i { s with pc := Function.update s.pc i (.ensured op) }
  | mapped {op : PublicOp} {base : Nat} {file : Mem} (hpc : s.pc i = .ensuring op)
      (hinit : s.obj.initialized = false)
      (hok : (SharedCache.initMmap (env s.obj.attempts) s.obj).1 = true)
      (hfile : (env s.obj.attempts).mmap = some (base, file)) :
      Takes env s i { s with
        obj := { (SharedCache.initMmap (env s.obj.attempts) s.obj).2 with mem := file }
        pc := Function.update s.pc i (.formatting op file (initMmap (.start file)).log) }
  | mapFailed {op : PublicOp} (hpc : s.pc i = .ensuring op) (hinit : s.obj.initialized = false)
      (hfailed : (SharedCache.initMmap (env s.obj.attempts) s.obj).1 = false) :
      Takes env s i { s with
        obj := (SharedCache.initMmap (env s.obj.attempts) s.obj).2
        pc := Function.update s.pc i (.ensured op) }
  | format {op : PublicOp} {file : Mem} {e : Event} {todo : List Event}
      (hpc : s.pc i = .formatting op file (e :: todo)) :
      Takes env s i { s with
        obj := { s.obj with mem := e.apply s.obj.mem }
        pc := Function.update s.pc i (.formatting op file todo) }
  | opened {op : PublicOp} {file : Mem} (hpc : s.pc i = .formatting op file []) :
      Takes env s i { s with
        obj := { s.obj with initialized := true }
        pc := Function.update s.pc i (.ensured op)
        history := s.history ++ [.opened file] }
  | unlockFirst {op : PublicOp} (hpc : s.pc i = .ensured op) :
      Takes env s i { s with owner := none, pc := Function.update s.pc i (.testing op) }
  | goOn {op : PublicOp} (hpc : s.pc i = .testing op) (hinit : s.obj.initialized = true)
      (htaken : op.refused = false) :
      Takes env s i { s with pc := Function.update s.pc i (.locking op) }
  | refuse {op : PublicOp} (hpc : s.pc i = .testing op)
      (hno : ¬ (s.obj.initialized = true ∧ op.refused = false)) :
      Takes env s i { s with
        pc := Function.update s.pc i (.returning op op.failed)
        history := s.history ++ [.answered i op op.failed] }
  | lockFreeSpace (hpc : s.pc i = .locking .getFreeSpace) (hfree : s.owner = none) :
      Takes env s i { s with owner := some i, pc := Function.update s.pc i .relocking }
  | lock {op : PublicOp} (hpc : s.pc i = .locking op) (hop : op ≠ .getFreeSpace)
      (hfree : s.owner = none) :
      Takes env s i { s with
        owner := some i
        pc := Function.update s.pc i (.storing op (op.work s.obj.mem).1 (op.work s.obj.mem).2.log)
        history := s.history ++ [.answered i op (op.work s.obj.mem).1] }
  | store {op : PublicOp} {answer : Returned} {e : Event} {todo : List Event}
      (hpc : s.pc i = .storing op answer (e :: todo)) :
      Takes env s i { s with
        obj := { s.obj with mem := e.apply s.obj.mem }
        pc := Function.update s.pc i (.storing op answer todo) }
  | unlock {op : PublicOp} {answer : Returned} (hpc : s.pc i = .storing op answer []) :
      Takes env s i { s with owner := none, pc := Function.update s.pc i (.returning op answer) }
  | answer {op : PublicOp} {answer : Returned} (hpc : s.pc i = .returning op answer) :
      Takes env s i { s with
        pc := Function.update s.pc i .idle
        returned := Function.update s.returned i (s.returned i ++ [(op, answer)]) }

theorem Threads.takes_of_go {env : Nat → System} {s t : Threads ι} {i : ι}
    (hgo : s.go env i = some t) : Threads.Takes env s i t := by
  unfold Threads.go at hgo
  cases hpc : s.pc i with
  | idle =>
    rw [hpc] at hgo
    cases hgo
  | entered op =>
    simp only [hpc] at hgo
    split at hgo
    · rename_i hfree
      cases hgo
      exact .lockFirst hpc hfree
    · cases hgo
  | ensuring op =>
    simp only [hpc] at hgo
    split at hgo
    · rename_i hinit
      cases hgo
      exact .alreadyMapped hpc hinit
    · rename_i hinit
      have hold : s.obj.initialized = false := by simpa using hinit
      split at hgo
      · rename_i hok hfile
        cases hgo
        exact .mapped hpc hold hok hfile
      · rename_i hno
        cases hgo
        refine .mapFailed hpc hold (Bool.eq_false_iff.mpr fun hok => ?_)
        obtain ⟨-, -, hmapped⟩ := (SharedCache.initMmap_ok _ _).mp hok
        obtain ⟨⟨base, file⟩, hfile⟩ := Option.isSome_iff_exists.mp hmapped
        exact hno base file hok hfile
  | formatting op file todo =>
    cases todo with
    | nil =>
      simp only [hpc] at hgo
      cases hgo
      exact .opened hpc
    | cons e todo =>
      simp only [hpc] at hgo
      cases hgo
      exact .format hpc
  | ensured op =>
    simp only [hpc] at hgo
    cases hgo
    exact .unlockFirst hpc
  | testing op =>
    simp only [hpc] at hgo
    split at hgo
    · rename_i hyes
      cases hgo
      exact .goOn hpc hyes.1 hyes.2
    · rename_i hno
      cases hgo
      exact .refuse hpc hno
  | locking op =>
    by_cases hop : op = .getFreeSpace
    · subst hop
      simp only [hpc] at hgo
      split at hgo
      · rename_i hfree
        cases hgo
        exact .lockFreeSpace hpc hfree
      · cases hgo
    · simp only [hpc] at hgo
      split at hgo
      · rename_i hfree
        cases hgo
        exact .lock hpc hop hfree
      · cases hgo
  | storing op answer todo =>
    cases todo with
    | nil =>
      simp only [hpc] at hgo
      cases hgo
      exact .unlock hpc
    | cons e todo =>
      simp only [hpc] at hgo
      cases hgo
      exact .store hpc
  | relocking =>
    rw [hpc] at hgo
    cases hgo
  | returning op answer =>
    simp only [hpc] at hgo
    cases hgo
    exact .answer hpc

/-! ## The sequential cache -/

/-- What may come next in a history: `none` while no file is opened, then the mapped bytes. -/
inductive SpecStep : Option Mem → Entry ι → Option Mem → Prop
  | opened (file : Mem) : SpecStep none (.opened file) (some (initMmap (.start file)).mem)
  | failed (i : ι) (op : PublicOp) : SpecStep none (.answered i op op.failed) none
  | done (i : ι) (op : PublicOp) (m : Mem) (h : op ≠ .getFreeSpace) :
      SpecStep (some m) (.answered i op (op.work m).1) (some (op.work m).2.mem)

/-- What a guarded operation returns, when it is called by one thread alone. -/
theorem SharedCache.locked_answer {α : Type} (env : Nat → System) (answer : α → Returned) (failed : α)
    (work : Mem → α × Mem) (o : SharedCache) :
    (answer <$> locked env failed work).run ⟨false, o⟩ =
      if (ensured env o).initialized then
        .ok (answer (work (ensured env o).mem).1,
          ⟨false, { ensured env o with mem := (work (ensured env o).mem).2 }⟩)
      else .ok (answer failed, ⟨false, ensured env o⟩) := by
  have hrun := locked_run env failed work o
  by_cases hinit : (ensured env o).initialized = true
  · rw [if_pos hinit] at hrun ⊢
    exact map_run _ hrun
  · rw [if_neg hinit] at hrun ⊢
    exact map_run _ hrun

/-- **The spec is the sequential object.** A call by one thread alone answers on the mapped bytes, and on
an unusable cache, what the spec answers. -/
theorem PublicOp.run_eq (env : Nat → System) {op : PublicOp} (h : op ≠ .getFreeSpace)
    (o : SharedCache) : (op.run env).run ⟨false, o⟩ =
      if (SharedCache.ensured env o).initialized then
        .ok ((op.work (SharedCache.ensured env o).mem).1, ⟨false, { SharedCache.ensured env o with
          mem := (op.work (SharedCache.ensured env o).mem).2.mem }⟩)
      else .ok (op.failed, ⟨false, SharedCache.ensured env o⟩) := by
  cases op with
  | put key data =>
    have hrun := SharedCache.put_run env key data o
    simp only [PublicOp.run, PublicOp.work, PublicOp.failed]
    by_cases hinit : (SharedCache.ensured env o).initialized = true
    · rw [if_pos hinit] at hrun ⊢
      exact map_run _ hrun
    · rw [if_neg hinit] at hrun ⊢
      exact map_run _ hrun
  | getFreeSpace => exact absurd rfl h
  | _ =>
    simp only [PublicOp.run, PublicOp.work, PublicOp.failed, SharedCache.get, SharedCache.remove,
      SharedCache.clear, SharedCache.getEntryCount, SharedCache.getUsedSpace, SharedCache.isValid,
      SharedCache.locked_answer, Mapping.start_mem]

/-- What a refused `Put` would do under the lock: nothing. -/
theorem PublicOp.work_of_refused {op : PublicOp} (h : op.refused = true) (m : Mem) :
    op.work m = (op.failed, .start m) := by
  cases op with
  | put key data =>
    have hzero : ∀ b, data = some b → b.length = 0 := by
      rintro b rfl
      simpa [PublicOp.refused] using h
    simp only [PublicOp.work, PublicOp.failed, put_rejects key hzero]
  | _ => cases h

/-! ## The stores of an operation -/

/-- The mapped bytes are those the trace leads to, and the trace has at most `n` events. -/
structure Traced (m : Mem) (n : Nat) (s : Mapping) : Prop where
  mem : s.log.foldl Event.apply m = s.mem
  length : s.log.length ≤ n

namespace Traced

variable {m : Mem} {n : Nat} {s : Mapping}

theorem start (m : Mem) : Traced m 0 (.start m) := ⟨rfl, le_rfl⟩

theorem mono {k : Nat} (h : Traced m n s) (hk : n ≤ k) : Traced m k s := ⟨h.mem, h.length.trans hk⟩

theorem emit (h : Traced m n s) (e : Event) : Traced m (n + 1) (s.emit e) := by
  constructor
  · show (s.log ++ [e]).foldl Event.apply m = e.apply s.mem
    rw [List.foldl_append, h.mem]
    rfl
  · show (s.log ++ [e]).length ≤ n + 1
    rw [List.length_append]
    exact Nat.add_le_add_right h.length 1

theorem initializeCache (h : Traced m n s) : Traced m (n + 5) (Cache.initializeCache s) :=
  ((((h.emit _).emit _).emit _).emit _).emit _

theorem initMmap (h : Traced m n s) : Traced m (n + 5) (Cache.initMmap s) := by
  unfold Cache.initMmap
  split
  · exact h.mono (Nat.le_add_right _ _)
  · exact h.initializeCache

theorem compactStep (h : Traced m n s) (w i : Nat) :
    Traced m (n + 4) (Cache.compactStep s w i).1 := by
  unfold Cache.compactStep moveEntry
  split
  · simp only
    split
    · exact (((h.emit _).emit _).emit _).emit _
    · exact ((h.emit _).emit _).mono (by omega)
  · exact h.mono (Nat.le_add_right _ _)

theorem compactLoop (h : Traced m n s) (k : Nat) : Traced m (n + 4 * k) (Cache.compactLoop s k).1 := by
  induction k with
  | zero => exact h
  | succ k ih => exact (ih.compactStep _ _).mono (by omega)

theorem compactCache (h : Traced m n s) :
    Traced m (n + 4 * cacheMaxEntries + 1) (Cache.compactCache s) :=
  (h.compactLoop cacheMaxEntries).emit _

theorem ensureSpace (h : Traced m n s) (length : Nat) :
    Traced m (n + 4 * cacheMaxEntries + 3) (Cache.ensureSpace s length).2 := by
  have hsub := h.emit (.sub32 cacheFileSize (nextOffset s.mem))
  have hc := hsub.compactCache
  unfold Cache.ensureSpace
  simp only
  split
  · split
    · exact (hc.emit _).mono (by omega)
    · exact (hc.emit _).mono (by omega)
  · exact hsub.mono (by omega)

theorem putEntry (h : Traced m n s) (key : List UInt8) (data : Blob) :
    Traced m (n + 11) (Cache.putEntry s key data).2 := by
  have hwrite : ∀ {t : Mapping} {k : Nat} (idx : Nat), Traced m k t →
      Traced m (k + 9) (writeEntry t idx key data) :=
    fun _ ht => ((((((((ht.emit _).emit _).emit _).emit _).emit _).emit _).emit _).emit _).emit _
  unfold Cache.putEntry chooseEntry
  cases findEntry s.mem key with
  | some idx => exact (hwrite idx h).mono (by omega)
  | none =>
    cases findFreeEntry s.mem with
    | none => exact h.mono (by omega)
    | some idx => exact hwrite idx ((h.emit _).emit _)

theorem put (h : Traced m n s) (key : List UInt8) (data : Option Blob) :
    Traced m (n + 4 * cacheMaxEntries + 14) (Cache.put s key data).2 := by
  unfold Cache.put
  cases data with
  | none => exact h.mono (by omega)
  | some data =>
    simp only
    split
    · exact h.mono (by omega)
    · have hspace := h.ensureSpace data.length
      generalize Cache.ensureSpace s data.length = r at hspace
      obtain ⟨ok, t⟩ := r
      cases ok with
      | false => exact hspace.mono (by omega)
      | true => exact hspace.putEntry key data

theorem remove (h : Traced m n s) (key : List UInt8) : Traced m (n + 7) (Cache.remove s key).2 := by
  unfold Cache.remove
  cases findEntry s.mem key with
  | none => exact h.mono (Nat.le_add_right _ _)
  | some idx => exact ((((((h.emit _).emit _).emit _).emit _).emit _).emit _).emit _

end Traced

/-- No operation stores more than a `Put` that moves every entry. -/
def maxStores : Nat := 4 * cacheMaxEntries + 14

theorem PublicOp.work_traced (op : PublicOp) (m : Mem) : Traced m maxStores (op.work m).2 := by
  have hstart := Traced.start m
  cases op with
  | put key data => exact (hstart.put key data).mono (by rw [maxStores]; omega)
  | remove key =>
    simp only [PublicOp.work]
    exact (hstart.remove key).mono (by rw [maxStores]; omega)
  | clear => exact hstart.initializeCache.mono (by rw [maxStores]; omega)
  | _ => exact hstart.mono (Nat.zero_le _)

/-! ## What every step keeps -/

/-- The stores that the owner of the mutex has still to make. -/
def rest (owner : Option ι) (pc : ι → Pc) : List Event :=
  match owner with
  | some i => (pc i).todo
  | none => []

/-- The mapped bytes once the owner has made them. -/
def Threads.settled (s : Threads ι) : Mem := (rest s.owner s.pc).foldl Event.apply s.obj.mem

/-- The state of the sequential cache. -/
def Threads.spec (s : Threads ι) : Option Mem :=
  if s.obj.initialized then some s.settled else none

/-- **What holds in every reachable state.** -/
structure Consistent (env : Nat → System) (s : Threads ι) : Prop where
  owned : Owned Pc.holds s.owner s.pc
  usable : ∀ i, (s.pc i).usable = true → s.obj.initialized = true
  /-- While `InitMmap` formats the file the cache is not usable, and its stores are the formatting. -/
  formatting : ∀ i op file todo, s.pc i = .formatting op file todo → s.obj.initialized = false ∧
    todo.foldl Event.apply s.obj.mem = (initMmap (.start file)).mem
  legal : Run SpecStep none s.history s.spec
  ledger : Ledger Entry.call Pc.pending s.history s.returned s.pc

theorem Consistent.start (env : Nat → System) : Consistent env (Threads.start : Threads ι) where
  owned := fun i => iff_of_false Bool.false_ne_true nofun
  usable := fun i hi => absurd hi Bool.false_ne_true
  formatting := fun i op file todo h => by cases h
  legal := .nil
  ledger := fun i => rfl

/-- A move that keeps the owner and what it has left. -/
theorem rest_update (owner : Option ι) (pc : ι → Pc) {i : ι} {p : Pc} (h : p.todo = (pc i).todo) :
    rest owner (Function.update pc i p) = rest owner pc := by
  cases owner with
  | none => rfl
  | some j =>
    show (Function.update pc i p j).todo = (pc j).todo
    by_cases hj : j = i
    · rw [hj, Function.update_self, h]
    · rw [Function.update_of_ne hj]

/-- The usable threads after a move. -/
theorem usable_update {pc : ι → Pc} {i : ι} {p : Pc} {ready ready' : Prop}
    (h : ∀ j, (pc j).usable = true → ready) (hready : ready → ready')
    (hp : p.usable = true → ready') (j : ι) (hj : (Function.update pc i p j).usable = true) :
    ready' := by
  by_cases hji : j = i
  · rw [hji, Function.update_self] at hj
    exact hp hj
  · rw [Function.update_of_ne hji] at hj
    exact hready (h j hj)

namespace Consistent

variable {env : Nat → System} {s : Threads ι} {i : ι} {p : Pc} (h : Consistent env s)
include h

/-- Nobody else formats while a thread holds the mutex. -/
theorem formatting_unique {j : ι} (hi : (s.pc i).holds = true) {op : PublicOp} {file : Mem}
    {todo : List Event} (hj : s.pc j = .formatting op file todo) : j = i :=
  h.owned.unique (by rw [hj]; rfl) hi

/-- The other threads' formatting survives a move that leaves the object alone. -/
theorem formatting_update (hp : ∀ op file todo, p ≠ .formatting op file todo) :
    ∀ j op file todo, Function.update s.pc i p j = .formatting op file todo →
      s.obj.initialized = false ∧
        todo.foldl Event.apply s.obj.mem = (initMmap (.start file)).mem := by
  intro j op file todo hj
  by_cases hji : j = i
  · rw [hji, Function.update_self] at hj
    exact absurd hj (hp op file todo)
  · rw [Function.update_of_ne hji] at hj
    exact h.formatting j op file todo hj

/-- A move that leaves object, mutex and history alone. -/
theorem quiet (hholds : p.holds = (s.pc i).holds) (htodo : p.todo = (s.pc i).todo)
    (hpending : p.pending = (s.pc i).pending) (husable : p.usable = true → s.obj.initialized = true)
    (hp : ∀ op file todo, p ≠ .formatting op file todo) :
    Consistent env { s with pc := Function.update s.pc i p } where
  owned := h.owned.move hholds
  usable := usable_update h.usable id husable
  formatting := h.formatting_update hp
  legal := by
    have hrest := rest_update s.owner s.pc htodo
    have hspec : Threads.spec { s with pc := Function.update s.pc i p } = s.spec := by
      simp only [Threads.spec, Threads.settled, hrest]
    rw [hspec]
    exact h.legal
  ledger := h.ledger.move hpending

/-- Taking the mutex, with nothing to store yet. -/
theorem lock (hfree : s.owner = none) (hholds : p.holds = true) (htodo : p.todo = [])
    (hpending : p.pending = (s.pc i).pending) (husable : p.usable = true → s.obj.initialized = true)
    (hp : ∀ op file todo, p ≠ .formatting op file todo) :
    Consistent env { s with owner := some i, pc := Function.update s.pc i p } where
  owned := by
    have howned := h.owned
    rw [hfree] at howned
    exact howned.lock hholds
  usable := usable_update h.usable id husable
  formatting := h.formatting_update hp
  legal := by
    have hspec : Threads.spec { s with owner := some i, pc := Function.update s.pc i p } = s.spec := by
      simp only [Threads.spec, Threads.settled, rest, hfree, Function.update_self, htodo]
    rw [hspec]
    exact h.legal
  ledger := h.ledger.move hpending

/-- Releasing it, with nothing left to store. -/
theorem unlock (hi : (s.pc i).holds = true) (hdone : (s.pc i).todo = []) (hholds : p.holds = false)
    (hpending : p.pending = (s.pc i).pending) (husable : p.usable = true → s.obj.initialized = true)
    (hp : ∀ op file todo, p ≠ .formatting op file todo) :
    Consistent env { s with owner := none, pc := Function.update s.pc i p } where
  owned := h.owned.unlock hi hholds
  usable := usable_update h.usable id husable
  formatting := h.formatting_update hp
  legal := by
    have howner : s.owner = some i := (h.owned i).mp hi
    have hspec : Threads.spec { s with owner := none, pc := Function.update s.pc i p } = s.spec := by
      simp only [Threads.spec, Threads.settled, rest, howner, hdone]
    rw [hspec]
    exact h.legal
  ledger := h.ledger.move hpending

/-- `InitMmap` has mapped a file, or failed: the cache is still not usable. -/
theorem mapped {obj : SharedCache} (hi : (s.pc i).holds = true) (hold : s.obj.initialized = false)
    (hobj : obj.initialized = false) (hholds : p.holds = true)
    (hpending : p.pending = (s.pc i).pending) (husable : p.usable = false)
    (hp : ∀ op file todo, p = .formatting op file todo →
      todo.foldl Event.apply obj.mem = (initMmap (.start file)).mem) :
    Consistent env { s with obj := obj, pc := Function.update s.pc i p } where
  owned := h.owned.move (by rw [hholds, hi])
  usable := by
    refine usable_update h.usable (fun hready => ?_) fun hpu => ?_
    · rw [hold] at hready
      exact absurd hready Bool.false_ne_true
    · rw [husable] at hpu
      exact absurd hpu Bool.false_ne_true
  formatting := by
    intro j op file todo hj
    by_cases hji : j = i
    · subst hji
      simp only [Function.update_self] at hj
      exact ⟨hobj, hp op file todo hj⟩
    · simp only [Function.update_of_ne hji] at hj
      exact absurd (h.formatting_unique hi hj) hji
  legal := by
    have hspec : Threads.spec { s with obj := obj, pc := Function.update s.pc i p } = s.spec := by
      simp only [Threads.spec, hobj, hold, Bool.false_eq_true, if_false]
    rw [hspec]
    exact h.legal
  ledger := h.ledger.move hpending

/-- The formatted file is opened. -/
theorem opened {op : PublicOp} {file : Mem} (hpc : s.pc i = .formatting op file []) :
    Consistent env { s with
      obj := { s.obj with initialized := true }
      pc := Function.update s.pc i (.ensured op)
      history := s.history ++ [.opened file] } where
  owned := h.owned.move (by rw [hpc]; rfl)
  usable := fun _ _ => rfl
  formatting := by
    intro j op' file' todo hj
    have hholds : (s.pc i).holds = true := by rw [hpc]; rfl
    by_cases hji : j = i
    · subst hji
      simp only [Function.update_self] at hj
      cases hj
    · simp only [Function.update_of_ne hji] at hj
      exact absurd (h.formatting_unique hholds hj) hji
  legal := by
    obtain ⟨hold, hmem⟩ := h.formatting i op file [] hpc
    have howner : s.owner = some i := (h.owned i).mp (by rw [hpc]; rfl)
    have hlegal := h.legal
    rw [show s.spec = none by rw [Threads.spec, hold]; rfl] at hlegal
    refine .snoc hlegal ?_
    have hspec : Threads.spec { s with
        obj := { s.obj with initialized := true }
        pc := Function.update s.pc i (.ensured op)
        history := s.history ++ [.opened file] } = some (initMmap (.start file)).mem := by
      simp only [Threads.spec, Threads.settled, rest, howner, Function.update_self, Pc.todo, if_true]
      exact congrArg some hmem
    rw [hspec]
    exact .opened file
  ledger := (h.ledger.note rfl).move (by rw [hpc]; rfl)

/-- One store under the mutex. -/
theorem stored {e : Event} {todo : List Event} (hi : (s.pc i).holds = true)
    (htodo : (s.pc i).todo = e :: todo) (hholds : p.holds = true) (hrest : p.todo = todo)
    (hpending : p.pending = (s.pc i).pending) (husable : p.usable = (s.pc i).usable)
    (hp : ∀ op file todo', p = .formatting op file todo' →
      ∃ op', s.pc i = .formatting op' file (e :: todo')) :
    Consistent env { s with
      obj := { s.obj with mem := e.apply s.obj.mem }
      pc := Function.update s.pc i p } where
  owned := h.owned.move (by rw [hholds, hi])
  usable := usable_update h.usable id fun hpu => h.usable i (by rw [← husable, hpu])
  formatting := by
    intro j op file todo' hj
    by_cases hji : j = i
    · subst hji
      simp only [Function.update_self] at hj
      obtain ⟨op', hpc⟩ := hp op file todo' hj
      exact h.formatting j op' file _ hpc
    · simp only [Function.update_of_ne hji] at hj
      exact absurd (h.formatting_unique hi hj) hji
  legal := by
    have howner : s.owner = some i := (h.owned i).mp hi
    have hspec : Threads.spec { s with
        obj := { s.obj with mem := e.apply s.obj.mem }
        pc := Function.update s.pc i p } = s.spec := by
      simp only [Threads.spec, Threads.settled, rest, howner, Function.update_self, hrest, htodo,
        List.foldl_cons]
    rw [hspec]
    exact h.legal
  ledger := h.ledger.move hpending

/-- **A call that is refused, or finds the cache unusable, takes effect at its look.** -/
theorem refused {op : PublicOp} (hpc : s.pc i = .testing op)
    (hno : ¬ (s.obj.initialized = true ∧ op.refused = false)) :
    Consistent env { s with
      pc := Function.update s.pc i (.returning op op.failed)
      history := s.history ++ [.answered i op op.failed] } where
  owned := h.owned.move (by rw [hpc]; rfl)
  usable := usable_update h.usable id fun hpu => absurd hpu Bool.false_ne_true
  formatting := h.formatting_update fun _ _ _ hf => by cases hf
  legal := by
    have hrest := rest_update s.owner s.pc (i := i)
      (p := .returning op op.failed) (by rw [hpc]; rfl)
    refine .snoc h.legal ?_
    by_cases hinit : s.obj.initialized = true
    · have hrefused : op.refused = true := by
        cases hr : op.refused with
        | false => exact absurd ⟨hinit, hr⟩ hno
        | true => rfl
      have hwork := PublicOp.work_of_refused hrefused s.settled
      have hdone := SpecStep.done i op s.settled (by rintro rfl; cases hrefused)
      rw [hwork] at hdone
      simp only [Threads.spec, Threads.settled, hrest, hinit, if_true] at hdone ⊢
      exact hdone
    · simp only [Threads.spec, hinit, if_false, Bool.false_eq_true]
      exact .failed i op
  ledger := h.ledger.commit rfl (by rw [hpc]; rfl) rfl

/-- **Any other call takes effect when it takes its own lock**: all its stores are then still to be
made, and nobody else makes any before. -/
theorem worked {op : PublicOp} (hpc : s.pc i = .locking op) (hop : op ≠ .getFreeSpace)
    (hfree : s.owner = none) :
    Consistent env { s with
      owner := some i
      pc := Function.update s.pc i (.storing op (op.work s.obj.mem).1 (op.work s.obj.mem).2.log)
      history := s.history ++ [.answered i op (op.work s.obj.mem).1] } where
  owned := by
    have howned := h.owned
    rw [hfree] at howned
    exact howned.lock rfl
  usable := usable_update h.usable id fun _ => h.usable i (by rw [hpc]; rfl)
  formatting := h.formatting_update fun _ _ _ hf => by cases hf
  legal := by
    have hinit := h.usable i (by rw [hpc]; rfl)
    have htraced : (op.work s.obj.mem).2.log.foldl Event.apply s.obj.mem = (op.work s.obj.mem).2.mem :=
      (op.work_traced s.obj.mem).mem
    have hbefore : s.spec = some s.obj.mem := by
      simp only [Threads.spec, Threads.settled, rest, hfree, hinit, if_true, List.foldl_nil]
    have hlegal := h.legal
    rw [hbefore] at hlegal
    refine .snoc hlegal ?_
    simp only [Threads.spec, Threads.settled, rest, hinit, if_true, Function.update_self, Pc.todo,
      htraced]
    exact .done i op s.obj.mem hop
  ledger := h.ledger.commit rfl (by rw [hpc]; rfl) rfl

/-- The answer goes back to the caller. -/
theorem answered {op : PublicOp} {answer : Returned} (hpc : s.pc i = .returning op answer) :
    Consistent env { s with
      pc := Function.update s.pc i .idle
      returned := Function.update s.returned i (s.returned i ++ [(op, answer)]) } where
  owned := h.owned.move (by rw [hpc]; rfl)
  usable := usable_update h.usable id fun hpu => absurd hpu Bool.false_ne_true
  formatting := h.formatting_update fun _ _ _ hf => by cases hf
  legal := by
    have hrest := rest_update s.owner s.pc (i := i) (p := .idle)
      (by rw [hpc]; rfl)
    have hspec : Threads.spec { s with
        pc := Function.update s.pc i .idle
        returned := Function.update s.returned i (s.returned i ++ [(op, answer)]) } = s.spec := by
      simp only [Threads.spec, Threads.settled, hrest]
    rw [hspec]
    exact h.legal
  ledger := h.ledger.answer (by rw [hpc]; rfl) rfl

end Consistent

/-! ## A call without competition -/

/-- The stores that a thread has left, made in turn. -/
theorem Threads.run_stores (env : Nat → System) {s : Threads ι} {i : ι} {op : PublicOp}
    {answer : Returned} {todo : List Event} (hpc : s.pc i = .storing op answer todo) :
    Run (Threads.Step env) s (List.replicate todo.length (.go i)) { s with
      obj := { s.obj with mem := todo.foldl Event.apply s.obj.mem }
      pc := Function.update s.pc i (.storing op answer []) } := by
  induction todo generalizing s with
  | nil =>
    have hsame : Function.update s.pc i (.storing op answer []) = s.pc := by
      rw [← hpc, Function.update_eq_self]
    rw [hsame]
    exact .nil
  | cons e todo ih =>
    have hstep : Threads.Step env s (.go i) { s with
        obj := { s.obj with mem := e.apply s.obj.mem }
        pc := Function.update s.pc i (.storing op answer todo) } := by
      simp only [Threads.Step, Threads.next, Threads.go, hpc]
    have hrest := ih (s := { s with
      obj := { s.obj with mem := e.apply s.obj.mem }
      pc := Function.update s.pc i (.storing op answer todo) }) (Function.update_self _ _ _)
    rw [Function.update_idem] at hrest
    exact Run.cons hstep hrest

/-- **A call that has the mutex to itself** takes effect and returns as on a sequential cache. -/
theorem Threads.run_alone (env : Nat → System) {s : Threads ι} {i : ι} {op : PublicOp}
    (hpc : s.pc i = .locking op) (hop : op ≠ .getFreeSpace) (hfree : s.owner = none) :
    ∃ as, Run (Threads.Step env) s as { s with
      obj := { s.obj with mem := (op.work s.obj.mem).2.mem }
      pc := Function.update s.pc i .idle
      history := s.history ++ [.answered i op (op.work s.obj.mem).1]
      returned := Function.update s.returned i (s.returned i ++ [(op, (op.work s.obj.mem).1)]) } := by
  generalize hwork : op.work s.obj.mem = out
  obtain ⟨answer, w⟩ := out
  have hmem : w.log.foldl Event.apply s.obj.mem = w.mem := by
    have htraced := (op.work_traced s.obj.mem).mem
    rw [hwork] at htraced
    exact htraced
  have hlock : Threads.Step env s (.go i) { s with
      owner := some i
      pc := Function.update s.pc i (.storing op answer w.log)
      history := s.history ++ [.answered i op answer] } := by
    cases op
    all_goals first
      | exact absurd rfl hop
      | simp only [Threads.Step, Threads.next, Threads.go, hpc, if_pos hfree, hwork]
  have hstores := Threads.run_stores env (s := { s with
      owner := some i
      pc := Function.update s.pc i (.storing op answer w.log)
      history := s.history ++ [.answered i op answer] }) (Function.update_self _ _ _)
  rw [Function.update_idem, hmem] at hstores
  refine ⟨_ ++ [.go i, .go i], (Run.cons hlock hstores).append (run_of_exec ?_)⟩
  simp only [exec, Threads.next, Threads.go, Function.update_self, Function.update_idem,
    Option.bind_some, ← hfree]

/-! ## Linearization -/

/-- **A statement keeps consistency.** -/
theorem Consistent.go {env : Nat → System} {s t : Threads ι} {i : ι} (h : Consistent env s)
    (hgo : s.go env i = some t) : Consistent env t := by
  have hobj := SharedCache.initMmap_initialized (env s.obj.attempts) s.obj
  cases Threads.takes_of_go hgo with
  | lockFirst hpc hfree =>
    exact h.lock hfree rfl rfl (by rw [hpc]; rfl) (fun hp => by cases hp) fun _ _ _ hp => by cases hp
  | alreadyMapped hpc hinit =>
    exact h.quiet (by rw [hpc]; rfl) (by rw [hpc]; rfl) (by rw [hpc]; rfl) (fun hp => by cases hp)
      fun _ _ _ hp => by cases hp
  | mapped hpc hinit _ _ =>
    refine h.mapped (by rw [hpc]; rfl) hinit (hobj.trans hinit) rfl (by rw [hpc]; rfl) rfl
      fun _ _ _ hp => ?_
    cases hp
    exact (Traced.start _).initMmap.mem
  | mapFailed hpc hinit _ =>
    exact h.mapped (by rw [hpc]; rfl) hinit (hobj.trans hinit) rfl (by rw [hpc]; rfl) rfl
      fun _ _ _ hp => by cases hp
  | format hpc =>
    refine h.stored (by rw [hpc]; rfl) (by rw [hpc]; rfl) rfl rfl (by rw [hpc]; rfl)
      (by rw [hpc]; rfl) fun _ _ _ hp => ?_
    cases hp
    exact ⟨_, hpc⟩
  | opened hpc => exact h.opened hpc
  | unlockFirst hpc =>
    exact h.unlock (by rw [hpc]; rfl) (by rw [hpc]; rfl) rfl (by rw [hpc]; rfl) (fun hp => by cases hp)
      fun _ _ _ hp => by cases hp
  | goOn hpc hinit _ =>
    exact h.quiet (by rw [hpc]; rfl) (by rw [hpc]; rfl) (by rw [hpc]; rfl) (fun _ => hinit)
      fun _ _ _ hp => by cases hp
  | refuse hpc hno => exact h.refused hpc hno
  | lockFreeSpace hpc hfree =>
    have hinit := h.usable i (by rw [hpc]; rfl)
    exact h.lock hfree rfl rfl (by rw [hpc]; rfl) (fun _ => hinit) fun _ _ _ hp => by cases hp
  | lock hpc hop hfree => exact h.worked hpc hop hfree
  | store hpc =>
    exact h.stored (by rw [hpc]; rfl) (by rw [hpc]; rfl) rfl rfl (by rw [hpc]; rfl)
      (by rw [hpc]; rfl) fun _ _ _ hp => by cases hp
  | unlock hpc =>
    exact h.unlock (by rw [hpc]; rfl) (by rw [hpc]; rfl) rfl (by rw [hpc]; rfl) (fun hp => by cases hp)
      fun _ _ _ hp => by cases hp
  | answer hpc => exact h.answered hpc

theorem Consistent.step {env : Nat → System} {s t : Threads ι} {a : Turn ι} (h : Consistent env s)
    (hst : Threads.Step env s a t) : Consistent env t := by
  cases a with
  | go i => exact h.go hst
  | call i op =>
    simp only [Threads.Step, Threads.next] at hst
    split at hst
    · rename_i hpc
      cases hst
      exact h.quiet (by rw [hpc]; rfl) (by rw [hpc]; rfl) (by rw [hpc]; rfl) (fun hp => by cases hp)
        fun _ _ _ hp => by cases hp
    · cases hst

theorem consistent_of_run {env : Nat → System} {s : Threads ι} {as : List (Turn ι)}
    (hrun : Run (Threads.Step env) .start as s) : Consistent env s :=
  hrun.invariant (fun _ _ _ h hst => h.step hst) (.start env)

/-- What has taken effect stays in its place. -/
theorem history_prefix {env : Nat → System} {s t : Threads ι} {as : List (Turn ι)}
    (hrun : Run (Threads.Step env) s as t) : s.history <+: t.history := by
  refine hrun.invariant (I := fun t => s.history <+: t.history) (fun t a u h hst => h.trans ?_)
    (List.prefix_refl _)
  cases a with
  | call i op =>
    simp only [Threads.Step, Threads.next] at hst
    split at hst
    · cases hst
      exact List.prefix_refl _
    · cases hst
  | go i =>
    cases Threads.takes_of_go hst with
    | opened => exact List.prefix_append _ _
    | refuse => exact List.prefix_append _ _
    | lock => exact List.prefix_append _ _
    | _ => exact List.prefix_refl _

/-- **Linearizability.** Whatever the threads call and however their statements interleave, the calls
take effect one after the other as on a sequential cache, each between its call and its return; a thread
has been returned, in its own order, the answers of that sequence, but for the one call that has taken
effect and not returned; later steps only add to the sequence; and whenever the mutex is free and the
cache usable the mapped bytes are those of the sequential cache. -/
theorem linearizable {env : Nat → System} {s : Threads ι} {as : List (Turn ι)}
    (hrun : Run (Threads.Step env) .start as s) :
    ∃ c : Option Mem, Run SpecStep none s.history c ∧
      (∀ i, entriesOf Entry.call i s.history = s.returned i ++ (s.pc i).pending.toList) ∧
      (∀ bs t, Run (Threads.Step env) s bs t → s.history <+: t.history) ∧
      s.obj.initialized = c.isSome ∧
      (s.owner = none → s.obj.initialized = true → c = some s.obj.mem) := by
  have h := consistent_of_run hrun
  refine ⟨s.spec, h.legal, h.ledger, fun _ _ => history_prefix, ?_, fun hfree hinit => ?_⟩
  · unfold Threads.spec
    cases s.obj.initialized <;> rfl
  · simp only [Threads.spec, Threads.settled, rest, hfree, hinit, if_true, List.foldl_nil]

/-- Two threads: one stores a byte and the other, which has been waiting for the mutex, gets it. -/
theorem linearizable_two : ∃ (as : List (Turn Bool)) (s : Threads Bool),
    Run (Threads.Step mapsZeros) .start as s ∧ s.history = [.opened fun _ => 0,
      .answered false (.put [97] (some ⟨[1], by decide⟩)) (.flag true),
      .answered true (.get [97]) (.view (some ⟨dataStart, 1⟩))] ∧
    ∃ c : Option Mem, Run SpecStep none s.history c ∧
      ∀ i, entriesOf Entry.call i s.history = s.returned i ++ (s.pc i).pending.toList := by
  obtain ⟨s, hs⟩ : ∃ s, exec (Threads.next mapsZeros) (.start : Threads Bool)
      ([.call false (.put [97] (some ⟨[1], by decide⟩)), .call true (.get [97])] ++
        List.replicate 10 (.go false) ++ List.replicate 4 (.go true)) = some s := ⟨_, rfl⟩
  obtain ⟨hput, hget, hfree, hhistory⟩ : s.pc false = .locking (.put [97] (some ⟨[1], by decide⟩)) ∧
      s.pc true = .locking (.get [97]) ∧ s.owner = none ∧ s.history = [.opened fun _ => 0] := by
    cases hs
    exact ⟨rfl, rfl, rfl, rfl⟩
  have hmem : s.obj.mem = (initMmap (.start fun _ => 0)).mem := by
    cases hs
    rfl
  have hfresh : directory s.obj.mem = .fresh := by
    rw [hmem]
    exact initMmap_fresh (runFrom_zeros []).1
  obtain ⟨hok, hstored⟩ : _ ∧ StoredAt s.obj.mem [97] ⟨[1], by decide⟩ 0 _ :=
    put_fresh hfresh (by decide) (by decide)
  -- what the second thread then finds
  have hwf := hstored.wellFormed (hfresh ▸ .fresh) (by decide)
  have hslot : (directory (put (.start s.obj.mem) [97] (some ⟨[1], by decide⟩)).2.mem).slot 0 =
      storedSlot [97] ⟨[1], by decide⟩ dataStart := by
    rw [hstored.slot_self, hfresh]
    rfl
  have hintact : ((directory (put (.start s.obj.mem) [97]
      (some ⟨[1], by decide⟩)).2.mem).slot 0).Intact (put (.start s.obj.mem) [97]
        (some ⟨[1], by decide⟩)).2.mem := by
    rw [Slot.Intact, hstored.bytes_self (hfresh ▸ .fresh), hslot]
    rfl
  have hfound : get (put (.start s.obj.mem) [97] (some ⟨[1], by decide⟩)).2.mem [97] =
      some ⟨dataStart, 1⟩ := by
    rw [(get_of_holds hwf.names hstored.holds_self).1 hintact, hslot]
    rfl
  have hother : true ≠ false := by decide
  obtain ⟨t, as, hfirst, hget', hfree', hmem', hhistory'⟩ :
      ∃ (t : Threads Bool) (as : _), Run (Threads.Step mapsZeros) s as t ∧
      t.pc true = .locking (.get [97]) ∧ t.owner = none ∧
      t.obj.mem = (put (.start s.obj.mem) [97] (some ⟨[1], by decide⟩)).2.mem ∧
      t.history = s.history ++ [Entry.answered false (.put [97] (some ⟨[1], by decide⟩)) (.flag true)] := by
    obtain ⟨as, hfirst⟩ := Threads.run_alone mapsZeros hput (fun hop => by cases hop) hfree
    refine ⟨_, as, hfirst, ?_, hfree, rfl, ?_⟩
    · show Function.update s.pc false Pc.idle true = _
      rw [Function.update_of_ne hother, hget]
    · simp only [PublicOp.work, hok]
  obtain ⟨bs, hsecond⟩ := Threads.run_alone mapsZeros hget' (fun hop => by cases hop) hfree'
  have hrun := (run_of_exec hs).append (hfirst.append hsecond)
  obtain ⟨c, hlegal, hledger, -⟩ := linearizable hrun
  refine ⟨_, _, hrun, ?_, c, hlegal, hledger⟩
  simp only [PublicOp.work, hhistory', hhistory, hmem', hfound, List.cons_append, List.nil_append]

end CCache.Cache
