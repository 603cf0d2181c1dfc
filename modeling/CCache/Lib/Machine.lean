/-
# CCache.Lib.Machine — machines that answer each input, and the runs they explain.

A machine takes a state and an input to an answer and the next state.  `answers` and `after` run it
over a list of inputs.  A labelled relation whose every step a machine answers alike, under a relation
between the states, gives in every run the machine's answers (`explained`).
-/
import CCache.Lib.Runs

namespace CCache.Lib.Machine

open CCache.Lib.Runs

universe u v w x

variable {S : Type u} {T : Type u} {A : Type v} {B : Type w} {L : Type x}

/-- The state after the inputs, taken in order. -/
def after (machine : T → A → B × T) (t : T) (as : List A) : T :=
  as.foldl (fun t a => (machine t a).2) t

/-- The answers to the inputs, taken in order. -/
def answers (machine : T → A → B × T) (t : T) : List A → List B
  | [] => []
  | a :: as => (machine t a).1 :: answers machine (machine t a).2 as

variable (machine : T → A → B × T) (t : T)

@[simp] theorem after_nil : after machine t [] = t := rfl

@[simp] theorem answers_nil : answers machine t [] = [] := rfl

@[simp] theorem after_snoc (as : List A) (a : A) :
    after machine t (as ++ [a]) = (machine (after machine t as) a).2 := by
  simp [after]

@[simp] theorem answers_snoc (as : List A) (a : A) :
    answers machine t (as ++ [a]) = answers machine t as ++ [(machine (after machine t as) a).1] := by
  induction as generalizing t with
  | nil => rfl
  | cons b as ih =>
    show _ :: answers machine _ (as ++ [a]) = _
    rw [ih]
    rfl

theorem answers_take (as : List A) (n : Nat) :
    (answers machine t as).take n = answers machine t (as.take n) := by
  induction as generalizing t n with
  | nil => simp
  | cons a as ih =>
    cases n with
    | zero => rfl
    | succ n =>
      show _ :: (answers machine _ as).take n = _ :: _
      rw [ih]

variable {machine t}

/-- **The simulation rule.** Where every step that starts in related states is answered as the machine
answers it, and ends in related states, a run's answers are the machine's. -/
theorem explained {step : S → L → S → Prop} {input : L → A} {answer : L → B}
    {R : S → T → Prop}
    (hstep : ∀ s l s' t, R s t → step s l s' →
      answer l = (machine t (input l)).1 ∧ R s' (machine t (input l)).2)
    {s s' : S} {ls : List L} (hs : R s t) (h : Run step s ls s') :
    ls.map answer = answers machine t (ls.map input) ∧ R s' (after machine t (ls.map input)) := by
  induction h with
  | nil => exact ⟨rfl, hs⟩
  | snoc _ hlast ih =>
    obtain ⟨hanswers, hR⟩ := ih
    obtain ⟨hanswer, hnext⟩ := hstep _ _ _ _ hR hlast
    rw [List.map_append, List.map_append, List.map_singleton, List.map_singleton, answers_snoc,
      after_snoc, hanswers, hanswer]
    exact ⟨rfl, hnext⟩

end CCache.Lib.Machine
