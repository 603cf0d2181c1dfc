/-
# CCache.Lib.Parties — how many of the parties of a system are in a given class of states.

A system of parties keeps a local state for each of them, `f : ι → α`, and one party moves at a time:
`Function.update f c x`.  `count p f` is the number of parties whose state satisfies `p`, and `weigh w f`
the weight `w` of all their states; one move changes either by what the mover contributes before and
after.
-/
import Mathlib.Algebra.BigOperators.Group.Finset.Piecewise
import Mathlib.Data.Fintype.Basic
import Mathlib.Data.Finset.Card

namespace CCache.Lib.Parties

universe u v

variable {ι : Type u} {α : Type v} [Fintype ι]

/-- The number of parties whose state satisfies `p`. -/
def count (p : α → Bool) (f : ι → α) : Nat := (Finset.univ.filter fun i => p (f i) = true).card

theorem count_eq_zero {p : α → Bool} {f : ι → α} : count p f = 0 ↔ ∀ i, p (f i) = false := by
  simp [count, Finset.filter_eq_empty_iff]

/-- At most one party in the class: any two are the same. -/
theorem eq_of_count_le_one {p : α → Bool} {f : ι → α} (h : count p f ≤ 1) {i j : ι}
    (hi : p (f i) = true) (hj : p (f j) = true) : i = j :=
  Finset.card_le_one.mp h i (by simpa using hi) j (by simpa using hj)

/-- What the states of all parties weigh together. -/
def weigh (w : α → Nat) (f : ι → α) : Nat := ∑ i, w (f i)

theorem weigh_eq_zero {w : α → Nat} {f : ι → α} : weigh w f = 0 ↔ ∀ i, w (f i) = 0 := by
  simp [weigh]

theorem count_eq_weigh (p : α → Bool) (f : ι → α) : count p f = weigh (fun x => (p x).toNat) f := by
  rw [count, weigh, Finset.card_filter]
  refine Finset.sum_congr rfl fun i _ => ?_
  cases p (f i) <;> rfl

variable [DecidableEq ι]

/-- **One party moves.** What the mover weighed goes, what it weighs now comes. -/
theorem weigh_update (w : α → Nat) (f : ι → α) (c : ι) (x : α) :
    weigh w (Function.update f c x) + w (f c) = weigh w f + w x := by
  have hsplit : ∀ g : ι → α, weigh w g = w (g c) + ∑ i ∈ Finset.univ.erase c, w (g i) := fun g =>
    (Finset.add_sum_erase _ (fun i => w (g i)) (Finset.mem_univ c)).symm
  -- the other parties keep their states
  have hrest : ∑ i ∈ Finset.univ.erase c, w (Function.update f c x i) =
      ∑ i ∈ Finset.univ.erase c, w (f i) :=
    Finset.sum_congr rfl fun i hi => by rw [Function.update_of_ne (Finset.ne_of_mem_erase hi)]
  rw [hsplit, hsplit f, hrest, Function.update_self]
  omega

/-- What the mover contributed to a class goes, what it contributes now comes. -/
theorem count_update (p : α → Bool) (f : ι → α) (c : ι) (x : α) :
    count p (Function.update f c x) + (p (f c)).toNat = count p f + (p x).toNat := by
  rw [count_eq_weigh, count_eq_weigh]
  exact weigh_update (fun x => (p x).toNat) f c x

end CCache.Lib.Parties
