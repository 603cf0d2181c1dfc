/-
# CCache.Lib.Runs — finite runs of a labelled transition relation.

`Run step s as t` says that the labels `as`, taken in order from `s`, lead to `t`.  A property kept
by every step is kept by every run (`Run.invariant`), and a run whose steps all meet a guard is a
run of the guarded relation (`Guarded`), so a conditional invariant is an invariant of that
relation.  `exec` runs a partial step function and agrees with the relation it induces, which is how
a concrete run is evaluated.
-/
import Mathlib.Algebra.GroupWithZero.Nat
import Mathlib.Data.List.Basic

namespace CCache.Lib.Runs

universe u v

variable {S : Type u} {A : Type v}

/-- The labels `as` lead from `s` to the last state, one step each. -/
inductive Run (step : S → A → S → Prop) (s : S) : List A → S → Prop
  | nil : Run step s [] s
  | snoc {as : List A} {t u : S} {a : A} :
      Run step s as t → step t a u → Run step s (as ++ [a]) u

/-- The steps of `step` taken where `guard` holds of the state before and the label. -/
def Guarded (guard : S → A → Prop) (step : S → A → S → Prop) (s : S) (a : A) (t : S) : Prop :=
  guard s a ∧ step s a t

variable {step : S → A → S → Prop}

/-- **The invariant rule.** What every step keeps, every run keeps. -/
theorem Run.invariant {I : S → Prop} (hstep : ∀ s a t, I s → step s a t → I t)
    {s t : S} {as : List A} (hs : I s) (h : Run step s as t) : I t := by
  induction h with
  | nil => exact hs
  | snoc _ hab ih => exact hstep _ _ _ ih hab

/-- The invariant rule for a property of the labels taken so far and the state reached. -/
theorem Run.traceInvariant {I : List A → S → Prop} {s t : S} {as : List A}
    (hnil : I [] s) (hstep : ∀ bs t a u, Run step s bs t → I bs t → step t a u → I (bs ++ [a]) u)
    (h : Run step s as t) : I as t := by
  induction h with
  | nil => exact hnil
  | snoc hrun hab ih => exact hstep _ _ _ _ hrun ih hab

theorem Run.mono {step' : S → A → S → Prop} (hsub : ∀ s a t, step s a t → step' s a t)
    {s t : S} {as : List A} (h : Run step s as t) : Run step' s as t := by
  induction h with
  | nil => exact .nil
  | snoc _ hab ih => exact .snoc ih (hsub _ _ _ hab)

theorem Run.append {s t u : S} {as bs : List A} (h : Run step s as t) (k : Run step t bs u) :
    Run step s (as ++ bs) u := by
  induction k with
  | nil => simpa using h
  | snoc _ hab ih => simpa [List.append_assoc] using Run.snoc ih hab

/-- **The credit rule.** Where a step of a kind costs one of a measure that a label may raise by its
credit, a run takes no more such steps than the measure and the credits of its labels allow. -/
theorem Run.credit {I : S → Prop} {kind : A → Bool} {credit : A → Nat} {μ : S → Nat}
    (hI : ∀ s a t, I s → step s a t → I t)
    (hμ : ∀ s a t, I s → step s a t → μ t + (kind a).toNat ≤ μ s + credit a)
    {s t : S} {as : List A} (hs : I s) (h : Run step s as t) :
    μ t + as.countP kind ≤ μ s + (as.map credit).sum := by
  have hboth : I t ∧ μ t + as.countP kind ≤ μ s + (as.map credit).sum := by
    induction h with
    | nil => exact ⟨hs, Nat.le_refl _⟩
    | @snoc as t u a _ hab ih =>
      obtain ⟨ht, hle⟩ := ih
      have hstep := hμ _ _ _ ht hab
      have hone : (if kind a = true then 1 else 0) = (kind a).toNat := by
        cases kind a <;> rfl
      refine ⟨hI _ _ _ ht hab, ?_⟩
      rw [List.countP_append, List.countP_singleton, hone, List.map_append, List.sum_append]
      simp only [List.map_cons, List.map_nil, List.sum_cons, List.sum_nil]
      omega
  exact hboth.2

/-- **The measure rule.** Where no label raises the measure, it bounds the steps of the kind. -/
theorem Run.measure {I : S → Prop} {kind : A → Bool} {μ : S → Nat}
    (hI : ∀ s a t, I s → step s a t → I t)
    (hμ : ∀ s a t, I s → step s a t → μ t + (kind a).toNat ≤ μ s)
    {s t : S} {as : List A} (hs : I s) (h : Run step s as t) : μ t + as.countP kind ≤ μ s := by
  have hcredit : μ t + as.countP kind ≤ μ s + (as.map fun _ => 0).sum := Run.credit hI hμ hs h
  have hnone : (as.map fun _ => 0).sum = 0 := by simp
  omega

theorem Run.single {s t : S} {a : A} (h : step s a t) : Run step s [a] t := by
  simpa using Run.snoc .nil h

theorem Run.cons {s t u : S} {a : A} {as : List A} (h : step s a t) (k : Run step t as u) :
    Run step s (a :: as) u :=
  Run.append (.single h) k

/-- **The progress rule.** Where short of the goal some label of the kind can be taken and costs some of
a measure, labels of the kind reach the goal, no more of them than the measure allows. -/
theorem Run.reaches {I goal : S → Prop} {kind : A → Prop} {μ : S → Nat}
    (hI : ∀ s a t, kind a → I s → step s a t → I t)
    (hgo : ∀ s, I s → goal s ∨ ∃ a t, kind a ∧ step s a t ∧ μ t < μ s) {s : S} (hs : I s) :
    ∃ as t, as.length ≤ μ s ∧ (∀ a ∈ as, kind a) ∧ Run step s as t ∧ goal t := by
  -- by the measure left
  induction hk : μ s using Nat.strongRecOn generalizing s with
  | ind k ih =>
    rcases hgo s hs with hgoal | ⟨a, t, ha, hst, hlt⟩
    · exact ⟨[], s, Nat.zero_le _, nofun, .nil, hgoal⟩
    · obtain ⟨as, u, hlength, has, hrun, hu⟩ := ih (μ t) (hk ▸ hlt) (hI s a t ha hs hst) rfl
      refine ⟨a :: as, u, ?_, ?_, Run.cons hst hrun, hu⟩
      · rw [List.length_cons]
        omega
      · rintro b (_ | ⟨_, hb⟩)
        · exact ha
        · exact has b hb

/-! ## Executing a partial step function -/

/-- Run a partial step function over a list of labels. -/
def exec (next : S → A → Option S) : S → List A → Option S
  | s, [] => some s
  | s, a :: as => (next s a).bind fun t => exec next t as

/-- What `exec` reaches is reached by a run. -/
theorem run_of_exec {next : S → A → Option S} {s t : S} {as : List A}
    (h : exec next s as = some t) : Run (fun s a t => next s a = some t) s as t := by
  induction as generalizing s with
  | nil =>
    cases h
    exact .nil
  | cons a as ih =>
    simp only [exec, Option.bind_eq_some_iff] at h
    obtain ⟨r, hr, hrest⟩ := h
    exact Run.cons hr (ih hrest)

/-- The step function that stops where the guard fails. -/
def guarded (guard : S → A → Prop) [∀ s a, Decidable (guard s a)] (next : S → A → Option S) (s : S)
    (a : A) : Option S :=
  if guard s a then next s a else none

/-- What is reached without meeting the guard is reached by a guarded run. -/
theorem run_of_exec_guarded {guard : S → A → Prop} [∀ s a, Decidable (guard s a)]
    {next : S → A → Option S} {s t : S} {as : List A} (h : exec (guarded guard next) s as = some t) :
    Run (Guarded guard fun s a t => next s a = some t) s as t := by
  refine (run_of_exec h).mono fun s a t hst => ?_
  unfold guarded at hst
  split at hst
  · exact ⟨‹_›, hst⟩
  · cases hst

end CCache.Lib.Runs
