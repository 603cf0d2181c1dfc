/-
# CCache.Lib.Mutex — actions of one thread on an object that a non-recursive mutex protects.

An action runs on the object together with the lock flag, and fails when the thread locks a mutex it
already holds.  `lockGuard` is a scoped lock: it locks, runs its body and unlocks on every way out.  An
action is `Neutral` when it always returns and leaves the flag as it found it, held or not, and
`Balanced` when it always returns with the mutex free, started with the mutex free.  Neutral bodies may
be guarded; guarded actions are balanced but not neutral, and may follow but not contain one another.
-/
import Mathlib.Logic.Basic
import Mathlib.Tactic.Common

namespace CCache.Lib.Mutex

universe u

variable {σ α β : Type u}

/-- What can go wrong: the thread locks a mutex it holds. -/
inductive Fault where
  | relocked
deriving DecidableEq, Repr

/-- An object and whether its mutex is held. -/
structure Held (σ : Type u) where
  locked : Bool
  obj : σ

/-- What one thread does to the object. -/
abbrev Action (σ α : Type u) : Type u := StateT (Held σ) (Except Fault) α

/-- The object as it is. -/
def look : Action σ σ := fun s => .ok (s.obj, s)

/-- Change the object and answer. -/
def act (f : σ → α × σ) : Action σ α := fun s => .ok ((f s.obj).1, ⟨s.locked, (f s.obj).2⟩)

/-- `std::lock_guard` around a body. -/
def lockGuard (body : Action σ α) : Action σ α := fun s =>
  if s.locked then .error .relocked
  else
    match body ⟨true, s.obj⟩ with
    | .ok (a, t) => .ok (a, ⟨false, t.obj⟩)
    | .error e => .error e

/-! ## Running -/

@[simp] theorem look_run (s : Held σ) : (look : Action σ σ).run s = .ok (s.obj, s) := rfl

@[simp] theorem act_run (f : σ → α × σ) (s : Held σ) :
    (act f).run s = .ok ((f s.obj).1, ⟨s.locked, (f s.obj).2⟩) := rfl

@[simp] theorem pure_run (a : α) (s : Held σ) : (pure a : Action σ α).run s = .ok (a, s) := rfl

theorem bind_run {x : Action σ α} {f : α → Action σ β} {s t : Held σ} {a : α}
    (h : x.run s = .ok (a, t)) : (x >>= f).run s = (f a).run t := by
  rw [StateT.run_bind, h]
  rfl

theorem bind_run_error {x : Action σ α} (f : α → Action σ β) {s : Held σ} {e : Fault}
    (h : x.run s = .error e) : (x >>= f).run s = .error e := by
  rw [StateT.run_bind, h]
  rfl

theorem map_run {x : Action σ α} (f : α → β) {s t : Held σ} {a : α} (h : x.run s = .ok (a, t)) :
    (f <$> x).run s = .ok (f a, t) := by
  rw [StateT.run_map, h]
  rfl

theorem map_run_error {x : Action σ α} (f : α → β) {s : Held σ} {e : Fault}
    (h : x.run s = .error e) : (f <$> x).run s = .error e := by
  rw [StateT.run_map, h]
  rfl

theorem lockGuard_run {body : Action σ α} {v w : σ} {a : α} {b : Bool}
    (h : body.run ⟨true, v⟩ = .ok (a, ⟨b, w⟩)) :
    (lockGuard body).run ⟨false, v⟩ = .ok (a, ⟨false, w⟩) := by
  have h' : body ⟨true, v⟩ = .ok (a, ⟨b, w⟩) := h
  show lockGuard body ⟨false, v⟩ = _
  unfold lockGuard
  simp only [h']
  rfl

/-- The mutex is not recursive. -/
theorem lockGuard_relocked (body : Action σ α) (v : σ) :
    (lockGuard body).run ⟨true, v⟩ = .error .relocked := rfl

/-- A guarded body that locks again fails. -/
theorem lockGuard_nested {body : Action σ α} {v : σ} (h : body.run ⟨true, v⟩ = .error .relocked) :
    (lockGuard body).run ⟨false, v⟩ = .error .relocked := by
  have h' : body ⟨true, v⟩ = .error .relocked := h
  show lockGuard body ⟨false, v⟩ = _
  unfold lockGuard
  simp only [h']
  rfl

/-! ## Neutral and balanced actions -/

/-- The action returns and does not touch the mutex. -/
def Neutral (x : Action σ α) : Prop := ∀ b v, ∃ a w, x.run ⟨b, v⟩ = .ok (a, ⟨b, w⟩)

/-- Started with the mutex free, the action returns with the mutex free. -/
def Balanced (x : Action σ α) : Prop := ∀ v, ∃ a w, x.run ⟨false, v⟩ = .ok (a, ⟨false, w⟩)

theorem Neutral.balanced {x : Action σ α} (h : Neutral x) : Balanced x := h false

theorem neutral_pure (a : α) : Neutral (pure a : Action σ α) := fun _ v => ⟨a, v, rfl⟩

theorem neutral_look : Neutral (look : Action σ σ) := fun _ v => ⟨v, v, rfl⟩

theorem neutral_act (f : σ → α × σ) : Neutral (act f) := fun _ v => ⟨(f v).1, (f v).2, rfl⟩

theorem Neutral.bind {x : Action σ α} {f : α → Action σ β} (hx : Neutral x)
    (hf : ∀ a, Neutral (f a)) : Neutral (x >>= f) := by
  intro b v
  obtain ⟨a, w, hrun⟩ := hx b v
  obtain ⟨c, u, hrest⟩ := hf a b w
  exact ⟨c, u, (bind_run hrun).trans hrest⟩

theorem Balanced.bind {x : Action σ α} {f : α → Action σ β} (hx : Balanced x)
    (hf : ∀ a, Balanced (f a)) : Balanced (x >>= f) := by
  intro v
  obtain ⟨a, w, hrun⟩ := hx v
  obtain ⟨b, u, hrest⟩ := hf a w
  exact ⟨b, u, (bind_run hrun).trans hrest⟩

theorem Balanced.map {x : Action σ α} (hx : Balanced x) (f : α → β) : Balanced (f <$> x) := by
  intro v
  obtain ⟨a, w, hrun⟩ := hx v
  exact ⟨f a, w, map_run f hrun⟩

/-- **A guarded neutral body is balanced.** -/
theorem Neutral.lockGuard {body : Action σ α} (h : Neutral body) : Balanced (lockGuard body) := by
  intro v
  obtain ⟨a, w, hrun⟩ := h true v
  exact ⟨a, w, lockGuard_run hrun⟩

end CCache.Lib.Mutex
