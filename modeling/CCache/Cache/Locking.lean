/-
# CCache.Cache.Locking — the `SharedCache` object: first use, `mutex_`, and the public operations.

Every public operation first calls `EnsureInitialized`, which locks `mutex_`, maps the file on first use
and unlocks; most then lock again for their own work on the mapped bytes, which the earlier modules
describe.  Here the object has its members, the system calls of `InitMmap` have any outcome, and
`mutex_` is a lock that fails when the thread holds it already.  `GetFreeSpace` calls `GetUsedSpace`
under its own lock, and that is the one way to fail.
-/
import CCache.Cache.Operations
import CCache.Lib.Mutex

namespace CCache.Cache

open CCache.Lib.ByteMemory
open CCache.Lib.Mutex
open CCache.Lib.Runs

/-! ## The object -/

/-- The outcome of the system calls of one `InitMmap`: the descriptor of `open` (none is -1), whether
`ftruncate` succeeds, and the address of `mmap` (none is `MAP_FAILED`) with the bytes of the file. -/
structure System where
  openFd : Option Nat
  ftruncateOk : Bool
  mmap : Option (Nat × Mem)

/-- All three succeed. -/
def System.Succeeds (y : System) : Prop :=
  y.openFd.isSome = true ∧ y.ftruncateOk = true ∧ y.mmap.isSome = true

instance (y : System) : Decidable y.Succeeds := inferInstanceAs (Decidable (_ ∧ _ ∧ _))

/-- The members of `SharedCache` less `mutex_`, the bytes that are mapped at `mmap_base_`, and how many
times `InitMmap` has been called, which selects its next outcome. -/
structure SharedCache where
  mmapBase : Option Nat
  mmapSize : Nat
  initialized : Bool
  fd : Option Nat
  mem : Mem
  attempts : Nat

/-- The object as constructed. -/
def SharedCache.constructed : SharedCache := ⟨none, 0, false, none, fun _ => 0, 0⟩

namespace SharedCache

/-- `SharedCache::InitMmap`. -/
def initMmap (y : System) (o : SharedCache) : Bool × SharedCache :=
  let o := { o with attempts := o.attempts + 1, fd := y.openFd }
  if y.openFd = none then (false, o)
  else if y.ftruncateOk = false then (false, { o with fd := none })
  else
    match y.mmap with
    | none => (false, { o with fd := none, mmapBase := none })
    | some (base, file) =>
      (true, { o with
        mmapBase := some base
        mmapSize := cacheFileSize
        mem := (Cache.initMmap (.start file)).mem })

/-- `SharedCache::EnsureInitialized`. -/
def ensureInitialized (env : Nat → System) : Action SharedCache PUnit := lockGuard do
  let o ← look
  if o.initialized then pure ⟨⟩
  else do
    let ok ← act (initMmap (env o.attempts))
    if ok then act fun o => (⟨⟩, { o with initialized := true }) else pure ⟨⟩

variable (env : Nat → System)

/-- What most operations do: leave with `failed` when the cache cannot be used, else work on the
mapped bytes under the lock. -/
def locked {α : Type} (failed : α) (work : Mem → α × Mem) : Action SharedCache α := do
  ensureInitialized env
  let o ← look
  if o.initialized then lockGuard (act fun o => ((work o.mem).1, { o with mem := (work o.mem).2 }))
  else pure failed

/-- `SharedCache::Put`: a null pointer and a length of 0 are refused before the lock is taken. -/
def put (key : List UInt8) (data : Option Blob) : Action SharedCache Bool := do
  ensureInitialized env
  let o ← look
  if !o.initialized || data.all (fun b => b.length == 0) then pure false
  else lockGuard (act fun o =>
    ((Cache.put (.start o.mem) key data).1, { o with mem := (Cache.put (.start o.mem) key data).2.mem }))

/-- `SharedCache::Get`. -/
def get (key : List UInt8) : Action SharedCache (Option View) :=
  locked env none fun m => (Cache.get m key, m)

/-- `SharedCache::Remove`. -/
def remove (key : List UInt8) : Action SharedCache Bool :=
  locked env false fun m => ((Cache.remove (.start m) key).1, (Cache.remove (.start m) key).2.mem)

/-- `SharedCache::Clear`. -/
def clear : Action SharedCache PUnit := locked env ⟨⟩ fun m => (⟨⟩, (Cache.clear (.start m)).mem)

/-- `SharedCache::GetEntryCount`. -/
def getEntryCount : Action SharedCache Nat := locked env 0 fun m => (Cache.getEntryCount m, m)

/-- `SharedCache::GetUsedSpace`. -/
def getUsedSpace : Action SharedCache Nat := locked env 0 fun m => (nextOffset m, m)

/-- `SharedCache::GetFreeSpace`: it calls `GetUsedSpace` under the lock. -/
def getFreeSpace : Action SharedCache Nat := do
  ensureInitialized env
  let o ← look
  if o.initialized then lockGuard do
    let used ← getUsedSpace env
    pure (sub32 cacheFileSize used)
  else pure 0

/-- `SharedCache::IsValid`. -/
def isValid : Action SharedCache Bool := locked env false fun m => (accepted m, m)

end SharedCache

/-! ## Public operations -/

/-- A call of a public operation. -/
inductive PublicOp where
  | put (key : List UInt8) (data : Option Blob)
  | get (key : List UInt8)
  | remove (key : List UInt8)
  | clear
  | getEntryCount
  | getUsedSpace
  | getFreeSpace
  | isValid

/-- What a public operation returns. -/
inductive Returned where
  | flag (ok : Bool)
  | view (found : Option View)
  | number (n : Nat)
  | nothing

/-- The call. -/
def PublicOp.run (env : Nat → System) : PublicOp → Action SharedCache Returned
  | .put key data => .flag <$> SharedCache.put env key data
  | .get key => .view <$> SharedCache.get env key
  | .remove key => .flag <$> SharedCache.remove env key
  | .clear => (fun _ => .nothing) <$> SharedCache.clear env
  | .getEntryCount => .number <$> SharedCache.getEntryCount env
  | .getUsedSpace => .number <$> SharedCache.getUsedSpace env
  | .getFreeSpace => .number <$> SharedCache.getFreeSpace env
  | .isValid => .flag <$> SharedCache.isValid env

/-- A call that returns, as a transition. -/
def Returns (env : Nat → System) (s : Held SharedCache) (op : PublicOp) (t : Held SharedCache) : Prop :=
  ∃ answer, (op.run env).run s = .ok (answer, t)

/-! ## What each operation does -/

namespace SharedCache

variable (env : Nat → System)

/-- The object after `EnsureInitialized`. -/
def ensured (o : SharedCache) : SharedCache :=
  if o.initialized then o
  else if (initMmap (env o.attempts) o).1 then
    { (initMmap (env o.attempts) o).2 with initialized := true }
  else (initMmap (env o.attempts) o).2

theorem ensureInitialized_run (o : SharedCache) :
    (ensureInitialized env).run ⟨false, o⟩ = .ok (⟨⟩, ⟨false, ensured env o⟩) := by
  unfold ensureInitialized
  refine lockGuard_run (b := true) ((bind_run (look_run ⟨true, o⟩)).trans ?_)
  unfold ensured
  by_cases hinit : o.initialized = true
  · simp only [hinit, if_true, pure_run]
  · simp only [hinit, if_false, Bool.false_eq_true]
    rw [bind_run (act_run _ _)]
    by_cases hok : (initMmap (env o.attempts) o).1 = true
    · simp only [hok, if_true, act_run]
    · simp only [hok, if_false, Bool.false_eq_true, pure_run]

/-- `InitMmap` succeeds exactly when its system calls do. -/
theorem initMmap_ok (y : System) (o : SharedCache) : (initMmap y o).1 = true ↔ y.Succeeds := by
  obtain ⟨openFd, ftruncateOk, mmap⟩ := y
  cases openFd <;> cases ftruncateOk <;> cases mmap <;> simp [initMmap, System.Succeeds]

theorem initMmap_initialized (y : System) (o : SharedCache) :
    (initMmap y o).2.initialized = o.initialized := by
  obtain ⟨openFd, ftruncateOk, mmap⟩ := y
  cases openFd <;> cases ftruncateOk <;> cases mmap <;> simp [initMmap]

/-- After `EnsureInitialized` the cache can be used if it could before or its mapping succeeds now. -/
theorem ensured_initialized (o : SharedCache) : (ensured env o).initialized = true ↔
    o.initialized = true ∨ (env o.attempts).Succeeds := by
  unfold ensured
  by_cases hinit : o.initialized = true
  · simp [hinit]
  · rw [if_neg hinit, ← initMmap_ok _ o]
    by_cases hok : (initMmap (env o.attempts) o).1 = true
    · simp [hok]
    · rw [if_neg hok, initMmap_initialized]
      simp [hok, hinit]

theorem ensured_of_initialized {o : SharedCache} (h : o.initialized = true) : ensured env o = o :=
  if_pos h

/-- **One guarded operation.** -/
theorem locked_run {α : Type} (failed : α) (work : Mem → α × Mem) (o : SharedCache) :
    (locked env failed work).run ⟨false, o⟩ =
      if (ensured env o).initialized then
        .ok ((work (ensured env o).mem).1,
          ⟨false, { ensured env o with mem := (work (ensured env o).mem).2 }⟩)
      else .ok (failed, ⟨false, ensured env o⟩) := by
  unfold locked
  rw [bind_run (ensureInitialized_run env o), bind_run (look_run _)]
  by_cases hinit : (ensured env o).initialized = true
  · rw [if_pos hinit, if_pos hinit]
    exact lockGuard_run (act_run _ _)
  · rw [if_neg hinit, if_neg hinit, pure_run]

/-- **`Put`**, its early exits included: it leaves with false, or works as the mapped cache does. -/
theorem put_run (key : List UInt8) (data : Option Blob) (o : SharedCache) :
    (put env key data).run ⟨false, o⟩ =
      if (ensured env o).initialized then
        .ok ((Cache.put (.start (ensured env o).mem) key data).1,
          ⟨false, { ensured env o with
            mem := (Cache.put (.start (ensured env o).mem) key data).2.mem }⟩)
      else .ok (false, ⟨false, ensured env o⟩) := by
  unfold put
  rw [bind_run (ensureInitialized_run env o), bind_run (look_run _)]
  by_cases hinit : (ensured env o).initialized = true
  · by_cases hdata : data.all (fun b => b.length == 0) = true
    · -- refused before the lock; the mapped cache refuses the same calls and changes nothing
      have hrej : Cache.put (.start (ensured env o).mem) key data =
          (false, .start (ensured env o).mem) := by
        refine put_rejects key fun b hb => ?_
        rw [hb] at hdata
        simpa using hdata
      rw [if_pos hinit, if_pos (by rw [hdata, Bool.or_true]), hrej, pure_run]
      rfl
    · rw [if_pos hinit, if_neg (by rw [hinit]; exact hdata)]
      exact lockGuard_run (act_run _ _)
  · have hfree : (!(ensured env o).initialized) = true := by simpa using hinit
    rw [if_neg hinit, if_pos (by rw [hfree, Bool.true_or]), pure_run]

/-- **`GetFreeSpace`** on a cache that can be used locks `mutex_` twice. -/
theorem getFreeSpace_run (o : SharedCache) :
    (getFreeSpace env).run ⟨false, o⟩ =
      if (ensured env o).initialized then .error .relocked
      else .ok (0, ⟨false, ensured env o⟩) := by
  unfold getFreeSpace
  rw [bind_run (ensureInitialized_run env o), bind_run (look_run _)]
  by_cases hinit : (ensured env o).initialized = true
  · simp only [hinit, if_true]
    refine lockGuard_nested (bind_run_error _ ?_)
    -- the first thing `GetUsedSpace` does is to lock
    exact bind_run_error _ (lockGuard_relocked _ _)
  · simp only [hinit, if_false, Bool.false_eq_true, pure_run]

end SharedCache

/-! ## The mapped bytes are a reachable file -/

/-- Once the object can be used, its bytes are a reachable file. -/
def Held.Sound (s : Held SharedCache) : Prop := s.obj.initialized = true → Reachable s.obj.mem

section Sound

variable {env : Nat → System}

/-- The action, when it returns, leaves such an object. -/
def KeepsSound {α : Type} (x : Action SharedCache α) : Prop :=
  ∀ (o : SharedCache) a t, Held.Sound ⟨false, o⟩ → x.run ⟨false, o⟩ = .ok (a, t) → Held.Sound t

theorem KeepsSound.map {α β : Type} {x : Action SharedCache α} (h : KeepsSound x) (f : α → β) :
    KeepsSound (f <$> x) := by
  intro o b t ho hrun
  cases hx : x.run ⟨false, o⟩ with
  | error e =>
    rw [map_run_error f hx] at hrun
    cases hrun
  | ok r =>
    obtain ⟨a, u⟩ := r
    rw [map_run f hx] at hrun
    cases hrun
    exact h o a _ ho hx

/-- A guarded operation leaves such an object: it works on a usable one, or changes nothing. -/
theorem SharedCache.guarded_sound {α : Type} {o : SharedCache} {done failed a : α} {mem : Mem}
    {t : Held SharedCache} (ho : Held.Sound ⟨false, o⟩)
    (hmem : o.initialized = true → Reachable mem)
    (hrun : (if o.initialized then .ok (done, ⟨false, { o with mem := mem }⟩)
      else .ok (failed, ⟨false, o⟩) : Except Fault (α × Held SharedCache)) = .ok (a, t)) :
    Held.Sound t := by
  by_cases hinit : o.initialized = true
  · rw [if_pos hinit] at hrun
    cases hrun
    exact fun _ => hmem hinit
  · rw [if_neg hinit] at hrun
    cases hrun
    exact ho

variable (hfile : ∀ n base file, (env n).mmap = some (base, file) → accepted file = false)
include hfile

/-- `EnsureInitialized` finds the object usable, or maps a file that is initialised afresh. -/
theorem SharedCache.ensured_sound {o : SharedCache} (ho : Held.Sound ⟨false, o⟩) :
    Held.Sound ⟨false, ensured env o⟩ := by
  intro hinit
  by_cases hused : o.initialized = true
  · rw [ensured_of_initialized env hused]
    exact ho hused
  · have hmaps := ((ensured_initialized env o).mp hinit).resolve_left hused
    obtain ⟨⟨base, file⟩, hmmap⟩ := Option.isSome_iff_exists.mp hmaps.2.2
    have hmem : (ensured env o).mem = (Cache.initMmap (.start file)).mem := by
      unfold ensured initMmap
      rw [if_neg hused]
      simp only [hmaps.2.1, hmmap, Option.isSome_iff_ne_none.mp hmaps.1, if_false, if_true,
        Bool.true_eq_false]
    show Reachable (ensured env o).mem
    rw [hmem]
    exact .initMmap (hfile _ _ _ hmmap)

theorem SharedCache.locked_sound {α : Type} (failed : α) {work : Mem → α × Mem}
    (hwork : ∀ m, Reachable m → Reachable (work m).2) : KeepsSound (locked env failed work) := by
  intro o a t ho hrun
  have hens := ensured_sound hfile ho
  rw [locked_run] at hrun
  exact guarded_sound hens (fun hinit => hwork _ (hens hinit)) hrun

theorem SharedCache.put_sound (key : List UInt8) (data : Option Blob) :
    KeepsSound (put env key data) := by
  intro o a t ho hrun
  have hens := ensured_sound hfile ho
  rw [put_run] at hrun
  exact guarded_sound hens (fun hinit => (hens hinit).exec (.put key data)) hrun

theorem SharedCache.getFreeSpace_sound : KeepsSound (getFreeSpace env) := by
  intro o a t ho hrun
  rw [getFreeSpace_run] at hrun
  by_cases hinit : (ensured env o).initialized = true
  · rw [if_pos hinit] at hrun
    cases hrun
  · rw [if_neg hinit] at hrun
    cases hrun
    exact ensured_sound hfile ho

theorem PublicOp.keepsSound (op : PublicOp) : KeepsSound (op.run env) := by
  cases op with
  | put key data => exact (SharedCache.put_sound hfile key data).map _
  | get key => exact (SharedCache.locked_sound hfile _ fun _ h => h).map _
  | remove key =>
    refine KeepsSound.map ?_ _
    unfold SharedCache.remove
    refine SharedCache.locked_sound hfile _ fun m h => ?_
    simpa only [Op.exec] using h.exec (.remove key)
  | clear =>
    refine KeepsSound.map ?_ _
    unfold SharedCache.clear
    refine SharedCache.locked_sound hfile _ fun m h => ?_
    simpa only [Op.exec] using h.exec .clear
  | getEntryCount => exact (SharedCache.locked_sound hfile _ fun _ h => h).map _
  | getUsedSpace => exact (SharedCache.locked_sound hfile _ fun _ h => h).map _
  | getFreeSpace => exact (SharedCache.getFreeSpace_sound hfile).map _
  | isValid => exact (SharedCache.locked_sound hfile _ fun _ h => h).map _

end Sound

/-! ## The locking discipline -/

namespace SharedCache

variable (env : Nat → System)

/-- `EnsureInitialized` looks and maps under the lock, and calls nothing that locks. -/
theorem ensureInitialized_balanced : Balanced (ensureInitialized env) := by
  refine Neutral.lockGuard (neutral_look.bind fun o => ?_)
  split
  · exact neutral_pure _
  · refine (neutral_act _).bind fun ok => ?_
    split
    · exact neutral_act _
    · exact neutral_pure _

theorem locked_balanced {α : Type} (failed : α) (work : Mem → α × Mem) :
    Balanced (locked env failed work) := by
  refine (ensureInitialized_balanced env).bind fun _ => neutral_look.balanced.bind fun o => ?_
  split
  · exact (neutral_act _).lockGuard
  · exact (neutral_pure _).balanced

theorem put_balanced (key : List UInt8) (data : Option Blob) : Balanced (put env key data) := by
  refine (ensureInitialized_balanced env).bind fun _ => neutral_look.balanced.bind fun o => ?_
  split
  · exact (neutral_pure _).balanced
  · exact (neutral_act _).lockGuard

end SharedCache

/-- Every operation but `GetFreeSpace` returns with the mutex free, whatever the system calls do. -/
theorem PublicOp.balanced (env : Nat → System) {op : PublicOp} (h : op ≠ .getFreeSpace) :
    Balanced (op.run env) := by
  cases op with
  | put key data => exact (SharedCache.put_balanced env key data).map _
  | get key => exact (SharedCache.locked_balanced env _ _).map _
  | remove key => exact (SharedCache.locked_balanced env _ _).map _
  | clear => exact (SharedCache.locked_balanced env _ _).map _
  | getEntryCount => exact (SharedCache.locked_balanced env _ _).map _
  | getUsedSpace => exact (SharedCache.locked_balanced env _ _).map _
  | getFreeSpace => exact absurd rfl h
  | isValid => exact (SharedCache.locked_balanced env _ _).map _

/-- `GetFreeSpace` on an object that is usable after `EnsureInitialized` locks the mutex it holds. -/
theorem PublicOp.getFreeSpace_relocks (env : Nat → System) {o : SharedCache}
    (h : o.initialized = true ∨ (env o.attempts).Succeeds) :
    (PublicOp.getFreeSpace.run env).run ⟨false, o⟩ = .error .relocked := by
  refine map_run_error _ ?_
  rw [SharedCache.getFreeSpace_run, if_pos ((SharedCache.ensured_initialized env o).mpr h)]

theorem PublicOp.getFreeSpace_returns (env : Nat → System) {o : SharedCache}
    (h : ¬ (o.initialized = true ∨ (env o.attempts).Succeeds)) :
    (PublicOp.getFreeSpace.run env).run ⟨false, o⟩ =
      .ok (.number 0, ⟨false, SharedCache.ensured env o⟩) := by
  refine map_run _ ?_
  rw [SharedCache.getFreeSpace_run, if_neg fun hi => h ((SharedCache.ensured_initialized env o).mp hi)]

/-- A call that returned left the mutex free: `GetFreeSpace` returns only when the cache cannot be used. -/
theorem Returns.free {env : Nat → System} {o : SharedCache} {op : PublicOp} {t : Held SharedCache}
    (h : Returns env ⟨false, o⟩ op t) : t.locked = false := by
  obtain ⟨answer, hret⟩ := h
  have hok : ∃ answer' o', (op.run env).run ⟨false, o⟩ = .ok (answer', ⟨false, o'⟩) := by
    by_cases hop : op = .getFreeSpace
    · rw [hop] at hret ⊢
      by_cases hinit : o.initialized = true ∨ (env o.attempts).Succeeds
      · rw [PublicOp.getFreeSpace_relocks env hinit] at hret
        cases hret
      · exact ⟨_, _, PublicOp.getFreeSpace_returns env hinit⟩
    · exact PublicOp.balanced env hop o
  obtain ⟨answer', o', hrun⟩ := hok
  rw [hrun] at hret
  cases hret
  rfl

/-- What is asked of a call on an object whose mutex is free: it returns with the mutex free, and on an
initialised cache `GetFreeSpace` and `GetUsedSpace` sum to the size of the file. -/
structure KeepsDiscipline (env : Nat → System) (op : PublicOp) (o : SharedCache) : Prop where
  returns : ∃ answer o', (op.run env).run ⟨false, o⟩ = .ok (answer, ⟨false, o'⟩)
  space : op = .getFreeSpace → o.initialized = true → ∃ free used o1 o2,
    (SharedCache.getFreeSpace env).run ⟨false, o⟩ = .ok (free, ⟨false, o1⟩) ∧
      (SharedCache.getUsedSpace env).run ⟨false, o1⟩ = .ok (used, ⟨false, o2⟩) ∧
      free + used = cacheFileSize

/-- **Exactly when an operation keeps the locking discipline.** In every run of calls that returned, the
mutex is free; and on every object with the mutex free every call keeps the discipline but one:
`GetFreeSpace` when the cache is initialised or this call initialises it. -/
theorem locking_discipline_iff (env : Nat → System) :
    (∀ ops s, Run (Returns env) ⟨false, .constructed⟩ ops s → s.locked = false) ∧
      ∀ (o : SharedCache) (op : PublicOp), KeepsDiscipline env op o ↔
        ¬ (op = .getFreeSpace ∧ (o.initialized = true ∨ (env o.attempts).Succeeds)) := by
  refine ⟨fun ops s hrun => ?_, fun o op => ⟨?_, fun hnot => ?_⟩⟩
  · refine hrun.invariant (I := fun s => s.locked = false) ?_ rfl
    rintro ⟨locked, o⟩ op t rfl hret
    exact hret.free
  · rintro ⟨⟨answer, o', hrun⟩, -⟩ ⟨rfl, hinit⟩
    rw [PublicOp.getFreeSpace_relocks env hinit] at hrun
    cases hrun
  · by_cases hop : op = .getFreeSpace
    · have hinit : ¬ (o.initialized = true ∨ (env o.attempts).Succeeds) := fun h => hnot ⟨hop, h⟩
      rw [hop]
      exact ⟨⟨_, _, PublicOp.getFreeSpace_returns env hinit⟩, fun _ hi => absurd (Or.inl hi) hinit⟩
    · exact ⟨PublicOp.balanced env hop o, fun h => absurd h hop⟩

/-- **The object refines the file.** When the files that get mapped are initialised afresh, every run of
calls that returned leaves a usable object with a reachable file under it. -/
theorem reachable_of_returns {env : Nat → System}
    (hfile : ∀ n base file, (env n).mmap = some (base, file) → accepted file = false)
    {ops : List PublicOp} {s : Held SharedCache}
    (h : Run (Returns env) ⟨false, .constructed⟩ ops s) : Held.Sound s := by
  refine (h.invariant (I := fun s => s.locked = false ∧ Held.Sound s) ?_
    ⟨rfl, fun hinit => absurd hinit Bool.false_ne_true⟩).2
  rintro ⟨locked, o⟩ op t ⟨rfl, ho⟩ hret
  obtain ⟨answer, hrun⟩ := id hret
  exact ⟨hret.free, op.keepsSound hfile o answer t ho hrun⟩

/-- System calls that map a zeroed file. -/
def mapsZeros : Nat → System := fun _ => ⟨some 3, true, some (4096, fun _ => 0)⟩

/-- **`GetFreeSpace` never returns**: on the object as constructed, when the file can be mapped, and
after a call that has initialised the cache. -/
theorem getFreeSpace_deadlocks :
    (PublicOp.getFreeSpace.run mapsZeros).run ⟨false, .constructed⟩ = .error .relocked ∧
      ∃ o, Run (Returns mapsZeros) ⟨false, .constructed⟩ [.isValid] ⟨false, o⟩ ∧
        o.initialized = true ∧
        (PublicOp.getFreeSpace.run mapsZeros).run ⟨false, o⟩ = .error .relocked := by
  have hmaps : (mapsZeros SharedCache.constructed.attempts).Succeeds := ⟨rfl, rfl, rfl⟩
  have hinit := (SharedCache.ensured_initialized mapsZeros .constructed).mpr (Or.inr hmaps)
  have hvalid := SharedCache.locked_run mapsZeros false (fun m => (accepted m, m)) .constructed
  rw [if_pos hinit] at hvalid
  exact ⟨PublicOp.getFreeSpace_relocks mapsZeros (Or.inr hmaps), _,
    Run.single ⟨_, map_run _ hvalid⟩, hinit, PublicOp.getFreeSpace_relocks mapsZeros (Or.inl hinit)⟩

end CCache.Cache
