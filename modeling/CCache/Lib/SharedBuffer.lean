/-
# CCache.Lib.SharedBuffer — a buffer that several writers store to, one place at a time.

A place is what one store or one load reaches, a byte or a word.  A writer stores at a place the value
that its image has there; which writer's store a place holds is recorded beside it.  In whatever order
the stores of several writers come, a place holds the value of the writer it is recorded for, and what
it held from the start while nobody has stored there (`Buffer.Sourced`).  A load is a snapshot of one
place, so a reader that loads one place after the other can mix writers, and nothing else.
-/
import Mathlib.Logic.Function.Basic

namespace CCache.Lib.SharedBuffer

universe u v w

variable {π : Type u} {α : Type v} {κ : Type w}

/-- The places with the values they hold, and the writers whose stores these are. -/
structure Buffer (π : Type u) (α : Type v) (κ : Type w) where
  cell : π → α
  writer : π → Option κ

/-- What one load finds. -/
structure Load (π : Type u) (α : Type v) (κ : Type w) where
  place : π
  value : α
  writer : Option κ

/-- What is loaded is what its writer stores at the place, or the value from the start. -/
def Load.Sourced (image : κ → π → Option α) (start : π → α) (l : Load π α κ) : Prop :=
  match l.writer with
  | some k => image k l.place = some l.value
  | none => l.value = start l.place

theorem Load.Sourced.mono {image image' : κ → π → Option α} {start : π → α} {l : Load π α κ}
    (hgrows : ∀ k p v, image k p = some v → image' k p = some v) (h : l.Sourced image start) :
    l.Sourced image' start := by
  obtain ⟨p, v, k⟩ := l
  cases k with
  | none => exact h
  | some k => exact hgrows k p v h

namespace Buffer

/-- A buffer that nobody has stored to. -/
def start (cell : π → α) : Buffer π α κ := ⟨cell, fun _ => none⟩

def load (b : Buffer π α κ) (p : π) : Load π α κ := ⟨p, b.cell p, b.writer p⟩

/-- Somebody has stored at the place. -/
def Written (b : Buffer π α κ) (p : π) : Prop := (b.writer p).isSome = true

/-- Every place can be loaded with a source. -/
def Sourced (image : κ → π → Option α) (start : π → α) (b : Buffer π α κ) : Prop :=
  ∀ p, (b.load p).Sourced image start

theorem sourced_start (image : κ → π → Option α) (cell : π → α) :
    (start cell : Buffer π α κ).Sourced image cell :=
  fun _ => rfl

theorem Sourced.mono {image image' : κ → π → Option α} {start : π → α} {b : Buffer π α κ}
    (hgrows : ∀ k p v, image k p = some v → image' k p = some v) (h : b.Sourced image start) :
    b.Sourced image' start :=
  fun p => (h p).mono hgrows

variable [DecidableEq π]

/-- Writer `k` stores `v` at `p`. -/
def store (b : Buffer π α κ) (k : κ) (p : π) (v : α) : Buffer π α κ :=
  ⟨Function.update b.cell p v, Function.update b.writer p (some k)⟩

variable {image : κ → π → Option α} {start : π → α} {b : Buffer π α κ} {k : κ} {p q : π} {v : α}

@[simp] theorem load_store_self : (b.store k p v).load p = ⟨p, v, some k⟩ := by
  simp [load, store]

theorem load_store_of_ne (h : q ≠ p) : (b.store k p v).load q = b.load q := by
  simp [load, store, h]

/-- **A store keeps the sources**, when the writer stores what its image has at the place. -/
theorem Sourced.store (h : b.Sourced image start) (hv : image k p = some v) :
    (b.store k p v).Sourced image start := by
  intro q
  by_cases hq : q = p
  · rw [hq, load_store_self]
    exact hv
  · rw [load_store_of_ne hq]
    exact h q

theorem written_store_self : (b.store k p v).Written p := by
  simp [Written, Buffer.store]

/-- What was written stays written. -/
theorem Written.store (h : b.Written q) : (b.store k p v).Written q := by
  by_cases hq : q = p
  · rw [hq]
    exact written_store_self
  · have hsame : (b.store k p v).writer q = b.writer q := Function.update_of_ne hq _ _
    rw [Written, hsame]
    exact h

end Buffer

end CCache.Lib.SharedBuffer
