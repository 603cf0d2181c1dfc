/-
# CCache.Cache.Freezing — which calls of the threads return.

The one way for the threads to stand still in the middle of calls is `GetFreeSpace`, which waits for the
mutex it holds (`stuck_iff`).  From then on nothing is stored, and a thread is answered at most the one
call for which it needs the mutex no more (`frozen`).  Until then every statement brings a call nearer to
its end, so statements alone bring all calls to their return (`calls_come_to_rest`).
-/
import CCache.Cache.Threads
import CCache.Lib.Parties

namespace CCache.Cache

open CCache.Lib.ByteMemory
open CCache.Lib.Linearization
open CCache.Lib.Mutex
open CCache.Lib.Parties
open CCache.Lib.Runs

variable {ι : Type} [DecidableEq ι]

/-! ## Standing still -/

/-- Where a thread waits once the mutex is never released again. -/
def Pc.waits : Pc → Bool
  | .idle => true
  | .entered _ => true
  | .locking _ => true
  | _ => false

/-- A thread that does not wait for the mutex, and has not locked it twice, can go on. -/
theorem go_isSome {env : Nat → System} {s : Threads ι} {i : ι} (hwaits : (s.pc i).waits = false)
    (hrelock : s.pc i ≠ .relocking) : (s.go env i).isSome = true := by
  unfold Threads.go
  cases hpc : s.pc i with
  | ensuring op =>
    simp only
    split
    · rfl
    · split <;> rfl
  | formatting op file todo => cases todo <;> rfl
  | ensured op => rfl
  | testing op =>
    simp only
    split <;> rfl
  | storing op answer todo => cases todo <;> rfl
  | returning op answer => rfl
  | relocking => exact absurd hpc hrelock
  | idle => rw [hpc] at hwaits; cases hwaits
  | entered op => rw [hpc] at hwaits; cases hwaits
  | locking op => rw [hpc] at hwaits; cases hwaits

/-- A waiting thread goes on exactly when it is in a call and the mutex is free. -/
theorem go_of_waits {env : Nat → System} {s : Threads ι} {i : ι} (hwaits : (s.pc i).waits = true) :
    (s.go env i).isSome = true ↔ s.pc i ≠ .idle ∧ s.owner = none := by
  unfold Threads.go
  cases hpc : s.pc i with
  | idle => simp
  | entered op => by_cases hfree : s.owner = none <;> simp [hfree]
  | locking op =>
    by_cases hop : op = .getFreeSpace
    · subst hop
      by_cases hfree : s.owner = none <;> simp [hfree]
    · simp only
      by_cases hfree : s.owner = none <;> simp [hfree]
  | _ => rw [hpc] at hwaits; cases hwaits

/-- One thread is in `GetFreeSpace` with its lock, and all others wait for it or are in no call. -/
def Threads.Frozen (s : Threads ι) : Prop :=
  ∃ i, s.pc i = .relocking ∧ ∀ j, j ≠ i → (s.pc j).waits = true

theorem Consistent.still_iff {env : Nat → System} {s : Threads ι} (h : Consistent env s) :
    ((∃ i, s.pc i ≠ .idle) ∧ ∀ i, s.go env i = none) ↔ s.Frozen := by
  have hnone : ∀ i, s.go env i = none ↔ ¬ (s.go env i).isSome = true := by simp
  constructor
  · rintro ⟨⟨i, hi⟩, hstill⟩
    have hwaits : ∀ j, s.pc j ≠ .relocking → (s.pc j).waits = true := by
      intro j hj
      by_contra hno
      exact (hnone j).mp (hstill j) (go_isSome (Bool.eq_false_iff.mpr hno) hj)
    -- somebody holds the mutex, or the thread in the call could take it
    cases howner : s.owner with
    | none =>
      have hi' : s.pc i ≠ .relocking := by
        intro hpc
        have hheld := (h.owned i).mp (by rw [hpc]; rfl)
        rw [howner] at hheld
        cases hheld
      exact absurd ((go_of_waits (hwaits i hi')).mpr ⟨hi, howner⟩) ((hnone i).mp (hstill i))
    | some o =>
      have hholds := (h.owned o).mpr howner
      have hrelock : s.pc o = .relocking := by
        by_contra hno
        have hw := hwaits o hno
        cases hpc : s.pc o <;> simp [hpc, Pc.waits, Pc.holds] at hw hholds
      refine ⟨o, hrelock, fun j hj => hwaits j fun hpc => hj ?_⟩
      exact h.owned.unique (by rw [hpc]; rfl) hholds
  · rintro ⟨i, hrelock, hothers⟩
    have howner := (h.owned i).mp (by rw [hrelock]; rfl)
    refine ⟨⟨i, by rw [hrelock]; nofun⟩, fun j => ?_⟩
    by_cases hj : j = i
    · subst hj
      unfold Threads.go
      rw [hrelock]
    · rw [hnone, go_of_waits (hothers j hj), howner]
      exact fun hboth => by cases hboth.2

/-- **The threads stand still in the middle of calls exactly when one is in `GetFreeSpace` with its lock
and all others wait for it** or are in no call. -/
theorem stuck_iff {env : Nat → System} {s : Threads ι} {as : List (Turn ι)}
    (hrun : Run (Threads.Step env) .start as s) :
    ((∃ i, s.pc i ≠ .idle) ∧ ∀ i, s.go env i = none) ↔
      ∃ i, s.pc i = .relocking ∧ ∀ j, j ≠ i → (s.pc j).waits = true :=
  (consistent_of_run hrun).still_iff

/-- A first call of `GetFreeSpace` gets there. -/
def freezing : List (Turn Bool) := .call false .getFreeSpace :: List.replicate 11 (.go false)

/-- All alone, it stands still. -/
theorem stuck_alone : ∃ s : Threads Bool, Run (Threads.Step mapsZeros) .start freezing s ∧
    (∃ i, s.pc i ≠ .idle) ∧ ∀ i, s.go mapsZeros i = none := by
  have hrun : Run (Threads.Step mapsZeros) .start freezing _ := run_of_exec rfl
  refine ⟨_, hrun, (stuck_iff hrun).mpr ⟨false, rfl, fun j hj => ?_⟩⟩
  cases j with
  | false => exact absurd rfl hj
  | true => rfl

/-- The calls that a thread can still be answered without the mutex. -/
def Pc.credit : Pc → Nat
  | .testing _ => 1
  | .returning _ _ => 1
  | _ => 0

/-- What holds from the moment on at which thread `i` is about to lock the mutex it holds. -/
structure Frozen (env : Nat → System) (i : ι) (s t : Threads ι) : Prop where
  consistent : Consistent env t
  relocking : t.pc i = .relocking
  obj : t.obj = s.obj
  credit : ∀ j, (t.returned j).length + (t.pc j).credit ≤ (s.returned j).length + (s.pc j).credit

namespace Frozen

variable {env : Nat → System} {i j : ι} {s t : Threads ι} {p : Pc}

/-- Another thread moves without the mutex and without being answered. -/
theorem move (h : Frozen env i s t) {history : List (Entry ι)} (hj : j ≠ i)
    (hcredit : p.credit ≤ (t.pc j).credit)
    (hnew : Consistent env { t with pc := Function.update t.pc j p, history := history }) :
    Frozen env i s { t with pc := Function.update t.pc j p, history := history } where
  consistent := hnew
  relocking := by
    simp only [Function.update_of_ne hj.symm]
    exact h.relocking
  obj := h.obj
  credit := by
    intro k
    have hk := h.credit k
    by_cases hkj : k = j
    · subst hkj
      simp only [Function.update_self]
      omega
    · simp only [Function.update_of_ne hkj]
      exact hk

theorem go (h : Frozen env i s t) {u : Threads ι} (hgo : t.go env j = some u) : Frozen env i s u := by
  have hnew := h.consistent.go hgo
  have hrelock := h.relocking
  have howner : t.owner = some i := (h.consistent.owned i).mp (by rw [hrelock]; rfl)
  have hj : j ≠ i := by
    rintro rfl
    unfold Threads.go at hgo
    rw [hrelock] at hgo
    cases hgo
  have hfree : (t.pc j).holds = false := by
    refine Bool.eq_false_iff.mpr fun hholds => hj ?_
    exact h.consistent.owned.unique hholds (by rw [hrelock]; rfl)
  have hlocked : ¬ t.owner = none := by
    rw [howner]
    nofun
  cases Threads.takes_of_go hgo with
  | goOn => exact h.move hj (Nat.zero_le _) hnew
  | refuse hpc => exact h.move hj (by rw [hpc]; exact le_rfl) hnew
  | answer hpc =>
    refine ⟨hnew, ?_, h.obj, fun k => ?_⟩
    · simp only [Function.update_of_ne hj.symm]
      exact hrelock
    · have hk := h.credit k
      by_cases hkj : k = j
      · subst hkj
        rw [hpc] at hk
        simp only [Function.update_self, List.length_append, List.length_cons, List.length_nil]
        exact hk
      · simp only [Function.update_of_ne hkj]
        exact hk
  | lockFirst _ hnone => exact absurd hnone hlocked
  | lockFreeSpace _ hnone => exact absurd hnone hlocked
  | lock _ _ hnone => exact absurd hnone hlocked
  | _ hpc =>
    rw [hpc] at hfree
    cases hfree

theorem step (h : Frozen env i s t) {a : Turn ι} {u : Threads ι} (hst : Threads.Step env t a u) :
    Frozen env i s u := by
  cases a with
  | go j => exact h.go hst
  | call j op =>
    have hnew := h.consistent.step hst
    simp only [Threads.Step, Threads.next] at hst
    split at hst
    · rename_i hpc
      cases hst
      refine h.move ?_ (Nat.zero_le _) hnew
      rintro rfl
      rw [h.relocking] at hpc
      cases hpc
    · cases hst

end Frozen

/-- **One `GetFreeSpace` on a usable cache freezes it for all threads.** Once a thread holds the mutex in
it, it stays there; the object and the mapped bytes never change again; and whatever is called, a thread
is answered at most the one call that had already found the cache unusable, been refused or released the
mutex, or was about to look. -/
theorem frozen {env : Nat → System} {s t : Threads ι} {as bs : List (Turn ι)} {i : ι}
    (hrun : Run (Threads.Step env) .start as s) (hi : s.pc i = .relocking)
    (hmore : Run (Threads.Step env) s bs t) :
    t.pc i = .relocking ∧ t.obj = s.obj ∧
      ∀ j, (t.returned j).length ≤ (s.returned j).length + (s.pc j).credit := by
  have h : Frozen env i s t := hmore.invariant (I := Frozen env i s) (fun _ _ _ h hst => h.step hst)
    ⟨consistent_of_run hrun, hi, rfl, fun _ => le_rfl⟩
  exact ⟨h.relocking, h.obj, fun j => (Nat.le_add_right _ _).trans (h.credit j)⟩

/-- A thread that asks whether the cache is valid after that. -/
theorem frozen_asking : ∃ s t : Threads Bool, Run (Threads.Step mapsZeros) .start freezing s ∧
    Run (Threads.Step mapsZeros) s [.call true .isValid] t ∧ t.obj = s.obj ∧ t.returned true = [] := by
  have hrun : Run (Threads.Step mapsZeros) .start freezing _ := run_of_exec rfl
  have hmore : Run (Threads.Step mapsZeros)
    ((exec (Threads.next mapsZeros) Threads.start freezing).get rfl) [.call true .isValid] _ :=
      run_of_exec rfl
  obtain ⟨-, hobj, hcount⟩ := frozen (i := false) hrun rfl hmore
  exact ⟨_, _, hrun, hmore, hobj, List.eq_nil_of_length_eq_zero (Nat.le_zero.mp (hcount true))⟩

/-! ## Every other call returns -/

/-- How many statements a call has left at most. -/
def Pc.weight : Pc → Nat
  | .idle => 0
  | .entered _ => maxStores + 13
  | .ensuring _ => maxStores + 12
  | .formatting _ _ todo => maxStores + todo.length + 6
  | .ensured _ => maxStores + 5
  | .testing _ => maxStores + 4
  | .locking _ => maxStores + 3
  | .storing _ _ todo => todo.length + 2
  | .relocking => 0
  | .returning _ _ => 1

/-- The statements that one call takes at most. -/
def perCall : Nat := maxStores + 13

/-- **A statement moves its thread, and brings its call nearer to the end.** -/
theorem go_weight {env : Nat → System} {s t : Threads ι} {i : ι} (hgo : s.go env i = some t) :
    ∃ p, t.pc = Function.update s.pc i p ∧ p.weight < (s.pc i).weight := by
  cases Threads.takes_of_go hgo with
  | @mapped _ _ file hpc =>
    have hlength := (Traced.start file).initMmap.length
    exact ⟨_, rfl, by rw [hpc]; simp only [Pc.weight]; omega⟩
  | @lock op hpc =>
    have hlength := (op.work_traced s.obj.mem).length
    exact ⟨_, rfl, by rw [hpc]; simp only [Pc.weight]; omega⟩
  | format hpc => exact ⟨_, rfl, by rw [hpc]; simp only [Pc.weight, List.length_cons]; omega⟩
  | opened hpc => exact ⟨_, rfl, by rw [hpc]; simp only [Pc.weight, List.length_nil]; omega⟩
  | store hpc => exact ⟨_, rfl, by rw [hpc]; simp only [Pc.weight, List.length_cons]; omega⟩
  | unlock hpc => exact ⟨_, rfl, by rw [hpc]; exact Nat.lt_succ_self _⟩
  | answer hpc => exact ⟨_, rfl, by rw [hpc]; exact Nat.lt_succ_self _⟩
  | _ hpc => exact ⟨_, rfl, by rw [hpc]; simp only [Pc.weight]; omega⟩

/-- A statement, as opposed to a call. -/
def Turn.isGo : Turn ι → Bool
  | .go _ => true
  | .call _ _ => false

/-- What a step adds to the statements that are left. -/
def Turn.cost : Turn ι → Nat
  | .go _ => 0
  | .call _ _ => perCall

omit [DecidableEq ι] in
theorem sum_cost (as : List (Turn ι)) :
    (as.map Turn.cost).sum = perCall * as.countP fun a => !a.isGo := by
  induction as with
  | nil => rfl
  | cons a as ih =>
    rw [List.map_cons, List.sum_cons, ih]
    cases a with
    | go i => simp [Turn.cost, Turn.isGo]
    | call i op =>
      simp [Turn.cost, Turn.isGo]
      ring

section Rest

variable [Fintype ι] {env : Nat → System} {s t : Threads ι}

theorem weigh_go {i : ι} (hgo : s.go env i = some t) :
    weigh Pc.weight t.pc + 1 ≤ weigh Pc.weight s.pc := by
  obtain ⟨p, hpc, hlt⟩ := go_weight hgo
  have hmove := weigh_update Pc.weight s.pc i p
  rw [hpc]
  omega

theorem weigh_step {a : Turn ι} (hst : Threads.Step env s a t) :
    weigh Pc.weight t.pc + a.isGo.toNat ≤ weigh Pc.weight s.pc + a.cost := by
  cases a with
  | go i =>
    have hgo := weigh_go hst
    show _ + 1 ≤ _ + 0
    omega
  | call i op =>
    simp only [Threads.Step, Threads.next] at hst
    split at hst
    · rename_i hpc
      cases hst
      have hmove := weigh_update Pc.weight s.pc i (.entered op)
      rw [hpc] at hmove
      show weigh Pc.weight (Function.update s.pc i (.entered op)) + 0 ≤ _ + perCall
      simp only [Pc.weight] at hmove ⊢
      unfold perCall
      omega
    · cases hst

/-- No thread is in a call, or the cache is frozen. -/
def Threads.AtRest (s : Threads ι) : Prop := (∀ i, s.pc i = .idle) ∨ s.Frozen

/-- Short of rest some thread can go on. -/
theorem Consistent.rest_or_go (h : Consistent env s) : s.AtRest ∨
    ∃ a t, Turn.isGo a = true ∧ Threads.Step env s a t ∧
      weigh Pc.weight t.pc < weigh Pc.weight s.pc := by
  by_cases hidle : ∀ i, s.pc i = .idle
  · exact Or.inl (Or.inl hidle)
  · by_cases hmove : ∃ i, (s.go env i).isSome = true
    · obtain ⟨i, hi⟩ := hmove
      obtain ⟨t, ht⟩ := Option.isSome_iff_exists.mp hi
      exact Or.inr ⟨.go i, t, rfl, ht, weigh_go ht⟩
    · refine Or.inl (Or.inr (h.still_iff.mp ⟨not_forall.mp hidle, fun i => ?_⟩))
      exact Option.not_isSome_iff_eq_none.mp fun hi => hmove ⟨i, hi⟩

/-- **Every call returns**, unless `GetFreeSpace` freezes the cache: from every reachable state the
statements of the threads alone lead to one or the other, and all told there are no more than `perCall`
of them for each call made. -/
theorem calls_come_to_rest {as : List (Turn ι)} (hrun : Run (Threads.Step env) .start as s) :
    ∃ bs t, (∀ a ∈ bs, Turn.isGo a = true) ∧ Run (Threads.Step env) s bs t ∧ t.AtRest ∧
      as.countP Turn.isGo + bs.length ≤ perCall * as.countP fun a => !a.isGo := by
  have hpaid : weigh Pc.weight s.pc + as.countP Turn.isGo ≤
      weigh Pc.weight (Threads.start : Threads ι).pc + (as.map Turn.cost).sum :=
    Run.credit (I := fun _ => True) (fun _ _ _ _ _ => trivial) (fun _ _ _ _ hst => weigh_step hst)
      trivial hrun
  have hzero : weigh Pc.weight (Threads.start : Threads ι).pc = 0 := weigh_eq_zero.mpr fun _ => rfl
  have hreach : ∃ bs t, bs.length ≤ weigh Pc.weight s.pc ∧ (∀ a ∈ bs, Turn.isGo a = true) ∧
      Run (Threads.Step env) s bs t ∧ t.AtRest :=
    Run.reaches (I := Consistent env) (fun _ _ _ _ h hst => h.step hst) (fun _ h => h.rest_or_go)
      (consistent_of_run hrun)
  obtain ⟨bs, t, hlength, hall, hrest, hgoal⟩ := hreach
  refine ⟨bs, t, hall, hrest, hgoal, ?_⟩
  rw [sum_cost, hzero] at hpaid
  omega

end Rest

/-- Two calls, and the statements that bring them to their end. -/
theorem calls_come_to_rest_two : ∃ (s t : Threads Bool) (bs : List (Turn Bool)),
    Run (Threads.Step mapsZeros) .start [.call false .getEntryCount, .call true .isValid] s ∧
      Run (Threads.Step mapsZeros) s bs t ∧ t.AtRest ∧ bs.length ≤ perCall * 2 := by
  have hrun : Run (Threads.Step mapsZeros) .start
    [.call false .getEntryCount, .call true .isValid] _ := run_of_exec rfl
  obtain ⟨bs, t, -, hmore, hrest, hcount⟩ := calls_come_to_rest hrun
  exact ⟨_, t, bs, hrun, hmore, hrest, (Nat.le_add_left _ _).trans hcount⟩

end CCache.Cache
