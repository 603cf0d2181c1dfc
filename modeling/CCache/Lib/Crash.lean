/-
# CCache.Lib.Crash — the states a killed writer leaves behind.

A writer performs a list of steps.  Killed at some point it has finished some of them, in order, and
may be in the middle of the next: `Killed apply mid s log k` says that `k` is what is left, where
`mid s e k` are the states inside step `e`.  Appending a step adds exactly the states inside it and
the state after it (`crash_snoc`), which is how a property of all crash states is proved step by step.
-/
import Mathlib.Data.List.Basic

namespace CCache.Lib.Crash

universe u v

variable {S : Type u} {E : Type v} (apply : S → E → S) (mid : S → E → S → Prop)

/-- `k` is left when the writer of `log` is killed, starting from `s`. -/
inductive Killed : S → List E → S → Prop
  | here (s : S) (log : List E) : Killed s log s
  | inside {s k : S} {e : E} {log : List E} : mid s e k → Killed s (e :: log) k
  | later {s k : S} {e : E} {log : List E} : Killed (apply s e) log k → Killed s (e :: log) k

variable {apply mid}

theorem crash_nil {s k : S} : Killed apply mid s [] k ↔ k = s := by
  constructor
  · rintro (_ | _ | _)
    rfl
  · rintro rfl
    exact .here _ _

/-- What one more step adds. -/
theorem crash_snoc {s k : S} {log : List E} {e : E} : Killed apply mid s (log ++ [e]) k ↔
    Killed apply mid s log k ∨ mid (log.foldl apply s) e k ∨ k = apply (log.foldl apply s) e := by
  induction log generalizing s with
  | nil =>
    rw [crash_nil]
    constructor
    · intro h
      cases h with
      | here => exact Or.inl rfl
      | inside h => exact Or.inr (Or.inl h)
      | later h => exact Or.inr (Or.inr (crash_nil.mp h))
    · rintro (rfl | h | rfl)
      · exact .here _ _
      · exact .inside h
      · exact .later (.here _ _)
  | cons a log ih =>
    constructor
    · intro h
      cases h with
      | here => exact Or.inl (.here _ _)
      | inside h => exact Or.inl (.inside h)
      | later h =>
        rcases ih.mp h with h | h
        · exact Or.inl (.later h)
        · exact Or.inr h
    · rintro (h | h)
      · cases h with
        | here => exact .here _ _
        | inside h => exact .inside h
        | later h => exact .later (ih.mpr (Or.inl h))
      · exact .later (ih.mpr (Or.inr h))

/-- A writer killed before its last steps is a writer that had fewer. -/
theorem Killed.of_prefix {s k : S} {short long : List E} (h : short <+: long)
    (hk : Killed apply mid s short k) : Killed apply mid s long k := by
  obtain ⟨rest, rfl⟩ := h
  induction hk with
  | here => exact .here _ _
  | inside h => exact .inside h
  | later _ ih => exact .later ih

/-- What a writer leaves that finishes a first part of its steps. -/
theorem crash_foldl (s : S) (log : List E) : Killed apply mid s log (log.foldl apply s) := by
  induction log generalizing s with
  | nil => exact .here _ _
  | cons e log ih => exact .later (ih _)

end CCache.Lib.Crash
