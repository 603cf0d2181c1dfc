/-
# CCache.Lib.PolyHash — hashes that multiply by a constant and add the next element.

`polyHash c` folds a list by `h ↦ h * c + x` over any commutative ring.  When `c` is a unit the hash
sees a change inside a window exactly when the window's own hash sees it: what follows the window
multiplies the difference by a power of `c`, and that loses nothing.
-/
import Mathlib.Algebra.Group.Units.Basic
import Mathlib.Tactic.Ring

namespace CCache.Lib.PolyHash

universe u

variable {R : Type u} [CommRing R]

/-- The hash of a list, first element first. -/
def polyHash (c : R) (xs : List R) : R := xs.foldl (fun h x => h * c + x) 0

/-- The fold from any start: what came before is shifted by the length. -/
theorem foldl_polyHash (c h : R) (xs : List R) :
    xs.foldl (fun h x => h * c + x) h = h * c ^ xs.length + polyHash c xs := by
  induction xs generalizing h with
  | nil => simp [polyHash]
  | cons x xs ih =>
    rw [polyHash, List.foldl_cons, List.foldl_cons, ih, ih (0 * c + x), List.length_cons, pow_succ]
    ring

theorem polyHash_append (c : R) (xs ys : List R) :
    polyHash c (xs ++ ys) = polyHash c xs * c ^ ys.length + polyHash c ys := by
  rw [polyHash, List.foldl_append, foldl_polyHash, ← polyHash]

/-- **A window is seen through its own hash.** -/
theorem polyHash_window {c : R} (hc : IsUnit c) (xs ys : List R) {us vs : List R}
    (hlen : us.length = vs.length) :
    polyHash c (xs ++ us ++ ys) = polyHash c (xs ++ vs ++ ys) ↔ polyHash c us = polyHash c vs := by
  rw [polyHash_append c (xs ++ us), polyHash_append c (xs ++ vs), polyHash_append c xs us,
    polyHash_append c xs vs, hlen, add_left_inj, (hc.pow ys.length).mul_left_inj, add_right_inj]

end CCache.Lib.PolyHash
