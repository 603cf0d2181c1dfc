/-
# CCache.Lib.KeyValue — histories of edits to a partial map.

An edit sets or deletes one key, empties the map, or does nothing; `replay` folds a history of edits
from the empty map.  `Latest es n v` says it without the fold: some edit of the history set `n` to
`v` and no later one touches `n`.  The two agree (`replay_eq_some_iff`).
-/
import Mathlib.Logic.Function.Basic
import Mathlib.Data.List.Induction

namespace CCache.Lib.KeyValue

universe u v

variable {κ : Type u} {ν : Type v}

/-- One change of a partial map. -/
inductive Edit (κ : Type u) (ν : Type v) where
  | set (key : κ) (value : ν)
  | delete (key : κ)
  | clear
  | skip

/-- The edit changes, or sets again, what the map says of `n`. -/
def Edit.Touches (n : κ) : Edit κ ν → Prop
  | .set key _ => key = n
  | .delete key => key = n
  | .clear => True
  | .skip => False

/-- Some edit set `n` to `v` and no later edit touches `n`. -/
def Latest (es : List (Edit κ ν)) (n : κ) (v : ν) : Prop :=
  ∃ before after, es = before ++ .set n v :: after ∧ ∀ e ∈ after, ¬ e.Touches n

theorem latest_snoc {es : List (Edit κ ν)} {e : Edit κ ν} {n : κ} {v : ν} :
    Latest (es ++ [e]) n v ↔ e = .set n v ∨ Latest es n v ∧ ¬ e.Touches n := by
  constructor
  · rintro ⟨before, after, heq, hafter⟩
    rcases List.eq_nil_or_concat after with rfl | ⟨init, last, rfl⟩
    · obtain ⟨-, hlast⟩ := List.append_inj' heq rfl
      exact Or.inl (List.cons.inj hlast).1
    · rw [List.concat_eq_append, ← List.cons_append, ← List.append_assoc] at heq
      obtain ⟨hinit, hlast⟩ := List.append_inj' heq rfl
      rw [List.concat_eq_append] at hafter
      rw [(List.cons.inj hlast).1]
      exact Or.inr ⟨⟨before, init, hinit, fun e he => hafter e (List.mem_append_left _ he)⟩,
        hafter last (List.mem_append_right _ List.mem_cons_self)⟩
  · rintro (rfl | ⟨⟨before, after, rfl, hafter⟩, hlast⟩)
    · exact ⟨es, [], rfl, fun e he => absurd he List.not_mem_nil⟩
    · refine ⟨before, after ++ [e], by simp, fun a ha => ?_⟩
      rcases List.mem_append.mp ha with ha | ha
      · exact hafter a ha
      · rw [List.mem_singleton.mp ha]
        exact hlast

variable [DecidableEq κ]

/-- The map after one edit. -/
def Edit.apply (f : κ → Option ν) : Edit κ ν → κ → Option ν
  | .set key value => Function.update f key (some value)
  | .delete key => Function.update f key none
  | .clear => fun _ => none
  | .skip => f

/-- The map a history builds, starting from the empty one. -/
def replay (es : List (Edit κ ν)) : κ → Option ν := es.foldl Edit.apply fun _ => none

@[simp] theorem replay_nil : replay ([] : List (Edit κ ν)) = fun _ => none := rfl

@[simp] theorem replay_snoc (es : List (Edit κ ν)) (e : Edit κ ν) :
    replay (es ++ [e]) = e.apply (replay es) := by
  simp [replay]

/-- An edit that does not touch a key leaves it alone. -/
theorem Edit.apply_of_not_touches {e : Edit κ ν} {n : κ} (h : ¬ e.Touches n) (f : κ → Option ν) :
    e.apply f n = f n := by
  cases e with
  | set key value => exact Function.update_of_ne (Ne.symm h) _ _
  | delete key => exact Function.update_of_ne (Ne.symm h) _ _
  | clear => exact absurd trivial h
  | skip => rfl

/-- An edit that touches a key sets it or leaves it undefined. -/
theorem Edit.apply_of_touches {e : Edit κ ν} {n : κ} (h : e.Touches n) (f : κ → Option ν) (v : ν) :
    e.apply f n = some v ↔ e = .set n v := by
  cases e with
  | set key value =>
    rw [show key = n from h]
    simp [Edit.apply]
  | delete key =>
    rw [show key = n from h]
    simp [Edit.apply]
  | clear => simp [Edit.apply]
  | skip => exact absurd h id

/-- **The replayed map holds the latest value set.** -/
theorem replay_eq_some_iff (es : List (Edit κ ν)) (n : κ) (v : ν) :
    replay es n = some v ↔ Latest es n v := by
  induction es using List.reverseRecOn with
  | nil =>
    refine iff_of_false (by simp) ?_
    rintro ⟨before, after, heq, -⟩
    simp at heq
  | append_singleton es e ih =>
    rw [replay_snoc, latest_snoc]
    by_cases ht : e.Touches n
    · rw [Edit.apply_of_touches ht]
      exact ⟨Or.inl, fun h => h.resolve_right fun hr => hr.2 ht⟩
    · rw [Edit.apply_of_not_touches ht, ih]
      refine ⟨fun h => Or.inr ⟨h, ht⟩, ?_⟩
      rintro (rfl | h)
      · exact absurd rfl ht
      · exact h.1

end CCache.Lib.KeyValue
