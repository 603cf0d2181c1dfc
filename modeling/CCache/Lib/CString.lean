/-
# CCache.Lib.CString — NUL-terminated byte strings and the bounded `<cstring>` calls.

A C string is read from a list of bytes up to its first NUL; the end of the list counts as a NUL, so
a `std::string` stands for what `c_str()` gives.  `strncpy n` is the `n` bytes the call stores and
`strncmp n` the sign of its result.  `trunc n` (the bytes before the first NUL, cut to `n`) is what
both calls see of a string: `strncmp` answers 0 exactly on equal truncations, and a field filled by
`strncpy` has the truncation of its source.
-/
import Mathlib.Tactic.Ring
import Mathlib.Data.List.TakeWhile

namespace CCache.Lib.CString

/-- The bytes before the first NUL. -/
def cstr (bs : List UInt8) : List UInt8 := bs.takeWhile (· ≠ 0)

/-- The bytes before the first NUL, cut to `n`. -/
def trunc (n : Nat) (bs : List UInt8) : List UInt8 := (cstr bs).take n

/-- The `n` bytes `strncpy(dst, src, n)` stores: the string, then NULs. -/
def strncpy (n : Nat) (src : List UInt8) : List UInt8 :=
  trunc n src ++ List.replicate (n - (trunc n src).length) 0

/-- `strncmp(xs, ys, n)`: the difference of the first two bytes that differ. -/
def strncmp : Nat → List UInt8 → List UInt8 → Int
  | 0, _, _ => 0
  | n + 1, xs, ys =>
    let x := xs.headD 0
    let y := ys.headD 0
    if x ≠ y then (x.toNat : Int) - y.toNat
    else if x = 0 then 0
    else strncmp n xs.tail ys.tail

/-! ## Truncation -/

@[simp] theorem trunc_zero (bs : List UInt8) : trunc 0 bs = [] := by simp [trunc]

@[simp] theorem trunc_nil (n : Nat) : trunc n [] = [] := by simp [trunc, cstr]

theorem trunc_cons_zero (n : Nat) (bs : List UInt8) : trunc n (0 :: bs) = [] := by
  simp [trunc, cstr]

theorem trunc_succ_cons {b : UInt8} (n : Nat) (bs : List UInt8) (hb : b ≠ 0) :
    trunc (n + 1) (b :: bs) = b :: trunc n bs := by
  simp [trunc, cstr, hb]

theorem trunc_length_le (n : Nat) (bs : List UInt8) : (trunc n bs).length ≤ n := by
  simp [trunc]

theorem trunc_ne_zero {n : Nat} {bs : List UInt8} {b : UInt8} (h : b ∈ trunc n bs) : b ≠ 0 := by
  simpa using List.mem_takeWhile_imp (List.mem_of_mem_take h)

/-- The head and tail view of a string, with the end read as a NUL. -/
theorem trunc_succ (n : Nat) (bs : List UInt8) :
    trunc (n + 1) bs = if bs.headD 0 = 0 then [] else bs.headD 0 :: trunc n bs.tail := by
  cases bs with
  | nil => simp
  | cons b bs =>
    by_cases hb : b = 0
    · subst hb
      simp [trunc_cons_zero]
    · simp [trunc_succ_cons n bs hb, hb]

/-- A string without NULs followed by anything keeps its first bytes. -/
theorem trunc_append_of_ne_zero {n : Nat} {xs ys : List UInt8} (h : ∀ b ∈ xs, b ≠ 0)
    (hn : n ≤ xs.length) : trunc n (xs ++ ys) = xs.take n := by
  rw [trunc, cstr, List.takeWhile_append_of_pos (by simpa using h), List.take_append_of_le_length hn]

/-- A string without NULs closed by one NUL is read back whole. -/
theorem cstr_append_zero {xs ys : List UInt8} (h : ∀ b ∈ xs, b ≠ 0) : cstr (xs ++ 0 :: ys) = xs := by
  rw [cstr, List.takeWhile_append_of_pos (by simpa using h)]
  simp

/-- A string without NULs closed by one NUL is read back whole, up to the cut. -/
theorem trunc_append_zero {n : Nat} {xs ys : List UInt8} (h : ∀ b ∈ xs, b ≠ 0) :
    trunc n (xs ++ 0 :: ys) = xs.take n := by
  rw [trunc, cstr_append_zero h]

/-- What stands behind a NUL is not part of the string. -/
theorem cstr_append_of_mem {xs : List UInt8} (h : 0 ∈ xs) (ys : List UInt8) :
    cstr (xs ++ ys) = cstr xs := by
  induction xs with
  | nil => cases h
  | cons x xs ih =>
    by_cases hx : x = 0
    · simp [cstr, hx]
    · have hmem : 0 ∈ xs := (List.mem_cons.mp h).resolve_left (Ne.symm hx)
      simpa [cstr, hx] using ih hmem

/-- The truncation depends on the first `n` bytes only. -/
theorem trunc_take (n : Nat) (bs : List UInt8) : trunc n (bs.take n) = trunc n bs := by
  induction n generalizing bs with
  | zero => simp
  | succ n ih =>
    cases bs with
    | nil => simp
    | cons b bs =>
      rw [trunc_succ, trunc_succ]
      simp [ih]

theorem trunc_eq_of_take_eq {n : Nat} {xs ys : List UInt8} (h : xs.take n = ys.take n) :
    trunc n xs = trunc n ys := by
  rw [← trunc_take n xs, h, trunc_take]

/-- A string that was read has no NUL left to stop at. -/
theorem trunc_cstr (n : Nat) (bs : List UInt8) : trunc n (cstr bs) = trunc n bs := by
  have hself : cstr (cstr bs) = cstr bs := by
    refine List.takeWhile_eq_self_iff.mpr fun b hb => ?_
    simpa using List.mem_takeWhile_imp hb
  rw [trunc, hself, ← trunc]

theorem cstr_ne_zero {bs : List UInt8} {b : UInt8} (h : b ∈ cstr bs) : b ≠ 0 := by
  simpa using List.mem_takeWhile_imp h

theorem trunc_of_ne_zero {n : Nat} {bs : List UInt8} (h : ∀ b ∈ bs, b ≠ 0) :
    trunc n bs = bs.take n := by
  rw [trunc, cstr, List.takeWhile_eq_self_iff.mpr (by simpa using h)]

/-- A string that ends before the cut is told from every other one. -/
theorem eq_of_trunc_eq {n : Nat} {xs ys : List UInt8} (hx : ∀ b ∈ xs, b ≠ 0) (hy : ∀ b ∈ ys, b ≠ 0)
    (hlen : ys.length < n) (h : trunc n xs = trunc n ys) : xs = ys := by
  rw [trunc_of_ne_zero hx, trunc_of_ne_zero hy, List.take_of_length_le hlen.le] at h
  have hcut : min n xs.length = ys.length := by
    rw [← List.length_take, h]
  rw [← h, List.take_of_length_le (by omega)]

/-- The same prefix before strings with equal truncations. -/
theorem trunc_append_congr {n : Nat} {p xs ys : List UInt8} (hp : ∀ b ∈ p, b ≠ 0)
    (h : trunc n xs = trunc n ys) : trunc n (p ++ xs) = trunc n (p ++ ys) := by
  have hcut : ∀ zs, trunc n (p ++ zs) = p.take n ++ (trunc n zs).take (n - p.length) := fun zs => by
    rw [trunc, cstr, List.takeWhile_append_of_pos (by simpa using hp), List.take_append, trunc, cstr,
      List.take_take, Nat.min_eq_left (Nat.sub_le _ _)]
  rw [hcut, hcut, h]

/-! ## The library calls -/

@[simp] theorem strncpy_length (n : Nat) (src : List UInt8) : (strncpy n src).length = n := by
  have h := trunc_length_le n src
  simp only [strncpy, List.length_append, List.length_replicate]
  omega

/-- A field filled by `strncpy` and closed by a NUL holds the truncation of its source. -/
theorem trunc_strncpy_append (n : Nat) (src rest : List UInt8) :
    trunc n (strncpy n src ++ rest) = trunc n src := by
  have hne : ∀ b ∈ trunc n src, b ≠ 0 := fun b hb => trunc_ne_zero hb
  have hlen := trunc_length_le n src
  rcases Nat.lt_or_ge (trunc n src).length n with hlt | hge
  · obtain ⟨k, hk⟩ : ∃ k, n - (trunc n src).length = k + 1 := ⟨n - (trunc n src).length - 1, by omega⟩
    rw [strncpy, hk, List.replicate_succ, List.append_assoc, List.cons_append,
      trunc_append_zero hne, List.take_of_length_le hlen]
  · have hz : n - (trunc n src).length = 0 := by omega
    rw [strncpy, hz, List.replicate_zero, List.append_nil, trunc_append_of_ne_zero hne hge,
      List.take_of_length_le hlen]

/-- A NUL after a field filled by `strncpy` ends the string at the latest there. -/
theorem cstr_strncpy_zero (n : Nat) (src rest : List UInt8) :
    cstr (strncpy n src ++ 0 :: rest) = trunc n src := by
  have hne : ∀ b ∈ trunc n src, b ≠ 0 := fun b hb => trunc_ne_zero hb
  rw [strncpy]
  cases n - (trunc n src).length with
  | zero => rw [List.replicate_zero, List.append_nil, cstr_append_zero hne]
  | succ k => rw [List.replicate_succ, List.append_assoc, List.cons_append, cstr_append_zero hne]

/-- Copying a field over itself stores the bytes it already holds. -/
theorem strncpy_congr {n : Nat} {xs ys : List UInt8} (h : trunc n xs = trunc n ys) :
    strncpy n xs = strncpy n ys := by
  rw [strncpy, strncpy, h]

/-- **`strncmp` decides equality of truncations.** -/
theorem strncmp_eq_zero_iff (n : Nat) (xs ys : List UInt8) :
    strncmp n xs ys = 0 ↔ trunc n xs = trunc n ys := by
  induction n generalizing xs ys with
  | zero => simp [strncmp]
  | succ n ih =>
    rw [strncmp, trunc_succ, trunc_succ]
    generalize xs.headD 0 = x
    generalize ys.headD 0 = y
    by_cases hxy : x = y
    · subst hxy
      by_cases hx : x = 0
      · simp [hx]
      · simp [hx, ih]
    · have hnat : x.toNat ≠ y.toNat := fun h => hxy (UInt8.toNat_inj.mp h)
      have hsub : (x.toNat : Int) - y.toNat ≠ 0 := by omega
      simp only [ne_eq, hxy, not_false_eq_true, if_true, hsub, false_iff]
      by_cases hx : x = 0
      · subst hx
        simp [Ne.symm hxy]
      · by_cases hy : y = 0
        · subst hy
          simp [hx]
        · simp [hx, hy, hxy]

end CCache.Lib.CString
