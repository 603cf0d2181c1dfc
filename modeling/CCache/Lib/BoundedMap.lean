/-
# CCache.Lib.BoundedMap — partial maps with room for so much weight and so many keys.

A `BoundedMap` is a partial map with finitely many keys, each value of positive weight, whose total
weight and number of keys stay within limits that its type names.  `put` accepts a value when its
weight fits on top of what is there, the key's old value included, and the key is present or one more
key is allowed; a refused `put` changes nothing.
-/
import Mathlib.Algebra.BigOperators.Finprod
import Mathlib.Data.Set.Card

namespace CCache.Lib.PartialMap

open Function (update)

universe u v

variable {κ : Type u} {ν : Type v}

/-! ## Total weight -/

/-- What one key contributes: nothing when it is absent. -/
def contribution (weight : ν → Nat) : Option ν → Nat
  | none => 0
  | some v => weight v

/-- The weight of all values of a map. -/
noncomputable def total (weight : ν → Nat) (f : κ → Option ν) : Nat :=
  finsum fun k => contribution weight (f k)

/-- The keys of a map. -/
def keySet (f : κ → Option ν) : Set κ := {k | f k ≠ none}

variable {weight : ν → Nat} {f : κ → Option ν}

theorem mem_keySet {k : κ} : k ∈ keySet f ↔ f k ≠ none := Iff.rfl

theorem support_subset_keySet : (Function.support fun k => contribution weight (f k)) ⊆ keySet f := by
  intro k hk hnone
  refine hk ?_
  show contribution weight (f k) = 0
  rw [hnone]
  rfl

theorem total_none : total weight (fun _ : κ => (none : Option ν)) = 0 := finsum_zero

/-- The total over a finite set of keys that misses none. -/
theorem total_eq_sum {s : Finset κ} (h : keySet f ⊆ ↑s) :
    total weight f = ∑ k ∈ s, contribution weight (f k) :=
  finsum_eq_sum_of_support_subset _ (support_subset_keySet.trans h)

variable [DecidableEq κ]

theorem keySet_update_some (f : κ → Option ν) (k : κ) (v : ν) :
    keySet (update f k (some v)) = insert k (keySet f) := by
  ext j
  by_cases hj : j = k
  · simp [mem_keySet, hj]
  · simp [mem_keySet, hj]

theorem keySet_update_none (f : κ → Option ν) (k : κ) :
    keySet (update f k none) = keySet f \ {k} := by
  ext j
  by_cases hj : j = k
  · simp [mem_keySet, hj]
  · simp [mem_keySet, hj]

/-- **One key changes**: its old contribution goes, its new one comes. -/
theorem total_update (h : (keySet f).Finite) (k : κ) (o : Option ν) :
    total weight (update f k o) + contribution weight (f k) =
      total weight f + contribution weight o := by
  have hsplit : ∀ g : κ → Option ν, keySet g ⊆ ↑(insert k h.toFinset) → total weight g =
      contribution weight (g k) + ∑ j ∈ (insert k h.toFinset).erase k, contribution weight (g j) := by
    intro g hg
    rw [total_eq_sum hg, Finset.add_sum_erase _ (fun j => contribution weight (g j))
      (Finset.mem_insert_self _ _)]
  have hold : keySet f ⊆ ↑(insert k h.toFinset) := by
    rw [Finset.coe_insert, h.coe_toFinset]
    exact Set.subset_insert _ _
  have hnew : keySet (update f k o) ⊆ ↑(insert k h.toFinset) := by
    intro j hj
    by_cases hjk : j = k
    · rw [hjk]
      exact Finset.mem_coe.mpr (Finset.mem_insert_self _ _)
    · rw [mem_keySet, Function.update_of_ne hjk] at hj
      exact hold hj
  -- the other keys contribute what they did
  have hrest : ∑ j ∈ (insert k h.toFinset).erase k, contribution weight (update f k o j) =
      ∑ j ∈ (insert k h.toFinset).erase k, contribution weight (f j) :=
    Finset.sum_congr rfl fun j hj => by rw [Function.update_of_ne (Finset.ne_of_mem_erase hj)]
  rw [hsplit f hold, hsplit _ hnew, hrest, Function.update_self]
  omega

end CCache.Lib.PartialMap

namespace CCache.Lib

open CCache.Lib.PartialMap
open Function (update)

universe u v

/-! ## Maps within limits -/

/-- How much weight and how many keys a map may hold. -/
structure Limits where
  space : Nat
  slots : Nat

/-- A map within limits. -/
structure BoundedMap (κ : Type u) (ν : Type v) (weight : ν → Nat) (limits : Limits) where
  get : κ → Option ν
  finite : (keySet get).Finite
  positive : ∀ k v, get k = some v → 0 < weight v
  space : total weight get ≤ limits.space
  slots : (keySet get).ncard ≤ limits.slots

namespace BoundedMap

variable {κ : Type u} {ν : Type v} {weight : ν → Nat} {limits : Limits}

/-- The map without keys. -/
def empty : BoundedMap κ ν weight limits where
  get := fun _ => none
  finite := by simp [keySet]
  positive := fun _ _ h => absurd h (by simp)
  space := by simp [total_none]
  slots := by simp [keySet]

variable [DecidableEq κ]

/-- There is room for the value on top of what is there, and a place for the key. -/
def Accepts (b : BoundedMap κ ν weight limits) (k : κ) (v : ν) : Prop :=
  0 < weight v ∧ total weight b.get + weight v ≤ limits.space ∧
    (b.get k ≠ none ∨ (keySet b.get).ncard < limits.slots)

/-- The map with the key set to a value it accepts. -/
def insert (b : BoundedMap κ ν weight limits) (k : κ) (v : ν) (h : b.Accepts k v) :
    BoundedMap κ ν weight limits where
  get := update b.get k (some v)
  finite := by
    rw [keySet_update_some]
    exact b.finite.insert k
  positive := by
    intro j w hj
    by_cases hjk : j = k
    · rw [hjk, Function.update_self] at hj
      exact Option.some.inj hj ▸ h.1
    · rw [Function.update_of_ne hjk] at hj
      exact b.positive j w hj
  space := by
    have htotal : total weight (update b.get k (some v)) + contribution weight (b.get k) =
        total weight b.get + weight v := total_update b.finite k (some v)
    have hfits := h.2.1
    omega
  slots := by
    rw [keySet_update_some]
    rcases h.2.2 with hk | hfree
    · rw [Set.insert_eq_self.mpr hk]
      exact b.slots
    · exact (Set.ncard_insert_le k _).trans hfree

/-- The map without the key. -/
def erase (b : BoundedMap κ ν weight limits) (k : κ) : BoundedMap κ ν weight limits where
  get := update b.get k none
  finite := by
    rw [keySet_update_none]
    exact b.finite.sdiff
  positive := by
    intro j w hj
    by_cases hjk : j = k
    · rw [hjk, Function.update_self] at hj
      cases hj
    · rw [Function.update_of_ne hjk] at hj
      exact b.positive j w hj
  space := by
    have htotal : total weight (update b.get k none) + contribution weight (b.get k) =
        total weight b.get + 0 := total_update b.finite k none
    have hspace := b.space
    omega
  slots := by
    rw [keySet_update_none]
    exact (Set.ncard_le_ncard Set.sdiff_subset b.finite).trans b.slots

open Classical in
/-- Set a key, when the map accepts the value. -/
noncomputable def put (b : BoundedMap κ ν weight limits) (k : κ) (v : ν) :
    Bool × BoundedMap κ ν weight limits :=
  if h : b.Accepts k v then (true, b.insert k v h) else (false, b)

/-- Delete a key; the answer tells whether it was there. -/
def remove (b : BoundedMap κ ν weight limits) (k : κ) : Bool × BoundedMap κ ν weight limits :=
  ((b.get k).isSome, b.erase k)

variable {b : BoundedMap κ ν weight limits} {k : κ} {v : ν}

/-- An accepted value is stored. -/
theorem put_of_accepts (h : b.Accepts k v) :
    (b.put k v).1 = true ∧ (b.put k v).2.get = update b.get k (some v) := by
  rw [put, dif_pos h]
  exact ⟨rfl, rfl⟩

/-- A refused value changes nothing. -/
theorem put_of_not_accepts (h : ¬ b.Accepts k v) : b.put k v = (false, b) := dif_neg h

/-- No value is heavier than the room. -/
theorem weight_le (h : b.get k = some v) : weight v ≤ limits.space := by
  have htotal : total weight (update b.get k none) + contribution weight (b.get k) =
      total weight b.get + 0 := total_update b.finite k none
  have hk : contribution weight (b.get k) = weight v := by
    rw [h]
    rfl
  have hspace := b.space
  omega

theorem remove_answer (b : BoundedMap κ ν weight limits) (k : κ) :
    (b.remove k).1 = (b.get k).isSome := rfl

/-- Deleting an absent key changes nothing. -/
theorem get_remove_of_absent (h : b.get k = none) : (b.remove k).2.get = b.get := by
  show update b.get k none = b.get
  rw [← h, Function.update_eq_self]

end BoundedMap

end CCache.Lib
