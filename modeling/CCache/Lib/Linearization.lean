/-
# CCache.Lib.Linearization — calls of many parties on one object behind a lock.

Each party has a local state, `f : ι → α`, and one party moves at a time: `Function.update f i x`.
`Owned` says that the party whose state holds the lock is the lock's owner, so there is one at most.
A `Ledger` relates the order in which calls take effect to what the parties get back: the entries of a
party in the common history are the calls it has been answered, in its own order, and the one it is
about to be answered.
-/
import Mathlib.Data.List.Basic
import Mathlib.Logic.Function.Basic

namespace CCache.Lib.Linearization

universe u v w x

variable {ι : Type u} {α : Type v} [DecidableEq ι]

/-! ## The owner of a lock -/

/-- A party's state holds the lock exactly when the party is its owner. -/
def Owned (holds : α → Bool) (owner : Option ι) (f : ι → α) : Prop :=
  ∀ i, holds (f i) = true ↔ owner = some i

namespace Owned

variable {holds : α → Bool} {owner : Option ι} {f : ι → α} {i : ι} {a : α}

omit [DecidableEq ι] in
/-- **Exclusion.** -/
theorem unique {j : ι} (h : Owned holds owner f) (hi : holds (f i) = true) (hj : holds (f j) = true) :
    i = j :=
  Option.some.inj (((h i).mp hi).symm.trans ((h j).mp hj))

omit [DecidableEq ι] in
theorem of_free (h : Owned holds none f) (i : ι) : holds (f i) = false := by
  refine Bool.eq_false_iff.mpr fun hi => ?_
  cases (h i).mp hi

/-- A move that neither takes nor releases the lock. -/
theorem move (h : Owned holds owner f) (ha : holds a = holds (f i)) :
    Owned holds owner (Function.update f i a) := by
  intro j
  by_cases hj : j = i
  · subst hj
    rw [Function.update_self, ha]
    exact h j
  · rw [Function.update_of_ne hj]
    exact h j

/-- Taking a free lock. -/
theorem lock (h : Owned holds none f) (ha : holds a = true) :
    Owned holds (some i) (Function.update f i a) := by
  intro j
  by_cases hj : j = i
  · subst hj
    rw [Function.update_self]
    exact iff_of_true ha rfl
  · rw [Function.update_of_ne hj]
    refine iff_of_false (fun hjh => ?_) fun heq => hj (Option.some.inj heq).symm
    rw [h.of_free j] at hjh
    exact Bool.false_ne_true hjh

/-- Releasing it. -/
theorem unlock (h : Owned holds owner f) (hi : holds (f i) = true) (ha : holds a = false) :
    Owned holds none (Function.update f i a) := by
  intro j
  refine iff_of_false (fun hjh => ?_) fun heq => by cases heq
  by_cases hj : j = i
  · subst hj
    rw [Function.update_self, ha] at hjh
    exact Bool.false_ne_true hjh
  · rw [Function.update_of_ne hj] at hjh
    exact hj (h.unique hjh hi)

end Owned

/-! ## Who has been answered what -/

variable {ε : Type w} {β : Type x}

/-- The entries of one party, in order. -/
def entriesOf (who : ε → Option (ι × β)) (i : ι) (history : List ε) : List β :=
  history.filterMap fun e => (who e).bind fun p => if p.1 = i then some p.2 else none

/-- Every party's entries are what it has been answered and what it is about to be answered. -/
def Ledger (who : ε → Option (ι × β)) (pending : α → Option β) (history : List ε)
    (returned : ι → List β) (f : ι → α) : Prop :=
  ∀ i, entriesOf who i history = returned i ++ (pending (f i)).toList

section Entries

variable {who : ε → Option (ι × β)} {i : ι} {b : β} {e : ε}

theorem entriesOf_snoc (history : List ε) : entriesOf who i (history ++ [e]) =
    entriesOf who i history ++ ((who e).bind fun p => if p.1 = i then some p.2 else none).toList := by
  rw [entriesOf, List.filterMap_append, ← entriesOf]
  cases h : (who e).bind fun p => if p.1 = i then some p.2 else none <;> simp [h]

theorem entriesOf_snoc_self (history : List ε) (he : who e = some (i, b)) :
    entriesOf who i (history ++ [e]) = entriesOf who i history ++ [b] := by
  rw [entriesOf_snoc, he]
  simp

theorem entriesOf_snoc_ne {j : ι} (history : List ε) (he : who e = some (i, b)) (hj : j ≠ i) :
    entriesOf who j (history ++ [e]) = entriesOf who j history := by
  rw [entriesOf_snoc, he]
  simp [hj.symm]

theorem entriesOf_snoc_none (history : List ε) (he : who e = none) :
    entriesOf who i (history ++ [e]) = entriesOf who i history := by
  rw [entriesOf_snoc, he]
  simp

end Entries

namespace Ledger

variable {who : ε → Option (ι × β)} {pending : α → Option β} {history : List ε}
  {returned : ι → List β} {f : ι → α} {i : ι} {a : α} {b : β} {e : ε}

/-- A move that answers nobody. -/
theorem move (h : Ledger who pending history returned f) (ha : pending a = pending (f i)) :
    Ledger who pending history returned (Function.update f i a) := by
  intro j
  by_cases hj : j = i
  · subst hj
    rw [Function.update_self, ha]
    exact h j
  · rw [Function.update_of_ne hj]
    exact h j

/-- An entry of nobody. -/
theorem note (h : Ledger who pending history returned f) (he : who e = none) :
    Ledger who pending (history ++ [e]) returned f := by
  intro j
  rw [entriesOf_snoc_none _ he]
  exact h j

/-- **A call takes effect**: from now on its answer is pending. -/
theorem commit (h : Ledger who pending history returned f) (he : who e = some (i, b))
    (hold : pending (f i) = none) (ha : pending a = some b) :
    Ledger who pending (history ++ [e]) returned (Function.update f i a) := by
  intro j
  by_cases hj : j = i
  · subst hj
    rw [entriesOf_snoc_self _ he, h j, Function.update_self, hold, ha]
    simp
  · rw [entriesOf_snoc_ne _ he hj, Function.update_of_ne hj]
    exact h j

/-- **It returns.** -/
theorem answer (h : Ledger who pending history returned f) (hold : pending (f i) = some b)
    (ha : pending a = none) :
    Ledger who pending history (Function.update returned i (returned i ++ [b]))
      (Function.update f i a) := by
  intro j
  by_cases hj : j = i
  · subst hj
    rw [Function.update_self, Function.update_self, h j, hold, ha]
    simp
  · rw [Function.update_of_ne hj, Function.update_of_ne hj]
    exact h j

end Ledger

end CCache.Lib.Linearization
