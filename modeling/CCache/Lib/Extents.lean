/-
# CCache.Lib.Extents — disjoint half-open intervals and their total length.

Finitely many pairwise disjoint intervals `[off i, off i + len i)` inside `[a, b)` have total length
at most `b - a`: the intervals are disjoint finite sets of addresses, and the union has as many
elements as the lengths sum to.
-/
import Mathlib.Algebra.Order.BigOperators.Group.Finset
import Mathlib.Order.Interval.Finset.Nat

namespace CCache.Lib.Extents

/-- Two half-open intervals with no common address. -/
def Disj (o1 l1 o2 l2 : Nat) : Prop := o1 + l1 ≤ o2 ∨ o2 + l2 ≤ o1

theorem Disj.symm {o1 l1 o2 l2 : Nat} (h : Disj o1 l1 o2 l2) : Disj o2 l2 o1 l1 :=
  Or.symm h

theorem disjoint_Ico_of_disj {o1 l1 o2 l2 : Nat} (h : Disj o1 l1 o2 l2) :
    Disjoint (Finset.Ico o1 (o1 + l1)) (Finset.Ico o2 (o2 + l2)) := by
  rw [Finset.disjoint_left]
  intro x hx hy
  rw [Finset.mem_Ico] at hx hy
  rcases h with h | h <;> omega

/-- **Disjoint intervals inside a range have a bounded total length.** -/
theorem sum_len_le {ι : Type*} (s : Finset ι) (off len : ι → Nat) (a b : Nat)
    (hlo : ∀ i ∈ s, a ≤ off i) (hhi : ∀ i ∈ s, off i + len i ≤ b)
    (hdisj : ∀ i ∈ s, ∀ j ∈ s, i ≠ j → Disj (off i) (len i) (off j) (len j)) :
    ∑ i ∈ s, len i ≤ b - a := by
  classical
  have hcard : (s.biUnion fun i => Finset.Ico (off i) (off i + len i)).card = ∑ i ∈ s, len i := by
    rw [Finset.card_biUnion]
    · simp
    · intro i hi j hj hij
      exact disjoint_Ico_of_disj (hdisj i hi j hj hij)
  have hsub : (s.biUnion fun i => Finset.Ico (off i) (off i + len i)) ⊆ Finset.Ico a b := by
    intro x hx
    obtain ⟨i, hi, hx⟩ := Finset.mem_biUnion.mp hx
    have h1 := hlo i hi
    have h2 := hhi i hi
    rw [Finset.mem_Ico] at hx ⊢
    omega
  rw [← hcard, ← Nat.card_Ico]
  exact Finset.card_le_card hsub

end CCache.Lib.Extents
