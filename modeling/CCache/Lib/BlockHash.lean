/-
# CCache.Lib.BlockHash — iterated compression of a byte stream, block by block.

`absorb` folds a compression function over the whole blocks of a list and keeps what is left over.
Splitting the input anywhere changes nothing (`absorb_append`), which is what lets a hasher be fed
piece by piece.  Two block lists that end in one chaining value contain two compression inputs with
one output, and `collision_of_length` and `collision_of_last` say where they are: the value of the
iteration is as hard to collide as one compression.
-/
import Mathlib.Data.List.Basic

namespace CCache.Lib.BlockHash

universe u v w

variable {S : Type u} {T : Type v} {α : Type w}

/-! ## Absorbing whole blocks -/

/-- Compress `k` blocks of `n` elements from the front. -/
def absorbBlocks (n : Nat) (f : S → List α → S) : Nat → S → List α → S × List α
  | 0, s, xs => (s, xs)
  | k + 1, s, xs => absorbBlocks n f k (f s (xs.take n)) (xs.drop n)

/-- Compress every whole block: the chaining value and the elements left over. -/
def absorb (n : Nat) (f : S → List α → S) (s : S) (xs : List α) : S × List α :=
  absorbBlocks n f (xs.length / n) s xs

variable {n : Nat} {f : S → List α → S}

theorem absorb_of_lt {s : S} {xs : List α} (h : xs.length < n) : absorb n f s xs = (s, xs) := by
  rw [absorb, Nat.div_eq_of_lt h]
  rfl

theorem absorb_of_le (hn : 0 < n) {s : S} {xs : List α} (h : n ≤ xs.length) :
    absorb n f s xs = absorb n f (f s (xs.take n)) (xs.drop n) := by
  have hcount : xs.length / n = (xs.drop n).length / n + 1 := by
    rw [List.length_drop, Nat.div_eq_sub_div hn h]
  rw [absorb, hcount]
  rfl

/-- Induction on a stream: a short rest, or one whole block and a shorter stream. -/
theorem stream_induction (hn : 0 < n) {P : S → List α → Prop} (f : S → List α → S)
    (hshort : ∀ s xs, xs.length < n → P s xs)
    (hblock : ∀ s xs, n ≤ xs.length → P (f s (xs.take n)) (xs.drop n) → P s xs) (s : S)
    (xs : List α) : P s xs := by
  induction hk : xs.length using Nat.strongRecOn generalizing s xs with
  | _ k ih =>
    by_cases h : xs.length < n
    · exact hshort s xs h
    · refine hblock s xs (by omega) (ih (xs.drop n).length ?_ _ _ rfl)
      rw [List.length_drop]
      omega

/-- Fewer than `n` elements are left over, as many as the length says. -/
theorem absorb_rest_length (hn : 0 < n) (s : S) (xs : List α) :
    (absorb n f s xs).2.length = xs.length % n := by
  induction s, xs using stream_induction hn f with
  | hshort s xs h => rw [absorb_of_lt h, Nat.mod_eq_of_lt h]
  | hblock s xs h ih => rw [absorb_of_le hn h, ih, List.length_drop, ← Nat.mod_eq_sub_mod h]

/-- **Splitting the input changes nothing.** What was left over goes in front of what comes next. -/
theorem absorb_append (hn : 0 < n) (s : S) (xs ys : List α) :
    absorb n f s (xs ++ ys) = absorb n f (absorb n f s xs).1 ((absorb n f s xs).2 ++ ys) := by
  induction s, xs using stream_induction hn f with
  | hshort s xs h => rw [absorb_of_lt h]
  | hblock s xs h ih =>
    have hle : n ≤ (xs ++ ys).length := by
      rw [List.length_append]
      omega
    rw [absorb_of_le hn hle, absorb_of_le hn h, List.take_append_of_le_length h,
      List.drop_append_of_le_length h, ih]

/-- Two compression functions that agree through `φ` absorb alike. -/
theorem absorb_map (hn : 0 < n) {g : T → List α → T} {φ : S → T} {I : S → Prop}
    (hstep : ∀ s b, I s → b.length = n → I (f s b) ∧ g (φ s) b = φ (f s b)) {s : S} (hs : I s)
    (xs : List α) :
    I (absorb n f s xs).1 ∧ (absorb n g (φ s) xs).1 = φ (absorb n f s xs).1 := by
  induction s, xs using stream_induction hn f with
  | hshort s xs h =>
    rw [absorb_of_lt h, absorb_of_lt h]
    exact ⟨hs, rfl⟩
  | hblock s xs h ih =>
    obtain ⟨hinv, heq⟩ := hstep s (xs.take n) hs (List.length_take_of_le h)
    rw [absorb_of_le hn h, absorb_of_le hn h, heq]
    exact ih hinv

/-! ## The blocks of a stream -/

/-- The whole blocks of `n` elements. -/
def blocks (n : Nat) : Nat → List α → List (List α)
  | 0, _ => []
  | k + 1, xs => xs.take n :: blocks n k (xs.drop n)

theorem blocks_length (k : Nat) (xs : List α) : (blocks n k xs).length = k := by
  induction k generalizing xs with
  | zero => rfl
  | succ k ih => rw [blocks, List.length_cons, ih]

/-- Absorbing is folding over the blocks. -/
theorem absorbBlocks_eq_foldl (k : Nat) (s : S) (xs : List α) :
    absorbBlocks n f k s xs = ((blocks n k xs).foldl f s, xs.drop (n * k)) := by
  induction k generalizing s xs with
  | zero => rfl
  | succ k ih =>
    rw [absorbBlocks, ih, blocks, List.foldl_cons, List.drop_drop]
    rw [Nat.mul_succ, Nat.add_comm]

/-- The blocks of a stream of whole blocks hold all of it. -/
theorem blocks_flatten {k : Nat} {xs : List α} (hlen : xs.length = n * k) :
    (blocks n k xs).flatten = xs := by
  induction k generalizing xs with
  | zero => rw [List.eq_nil_of_length_eq_zero hlen, blocks, List.flatten_nil]
  | succ k ih =>
    have hsplit : n * (k + 1) = n * k + n := Nat.mul_succ n k
    rw [blocks, List.flatten_cons, ih (by rw [List.length_drop]; omega), List.take_append_drop]

/-- A last whole block is the last of the blocks. -/
theorem blocks_concat {k : Nat} {xs b : List α} (hlen : xs.length = n * k) (hb : b.length = n) :
    blocks n (k + 1) (xs ++ b) = blocks n k xs ++ [b] := by
  induction k generalizing xs with
  | zero =>
    rw [List.eq_nil_of_length_eq_zero hlen, List.nil_append, blocks, blocks, blocks,
      List.take_of_length_le (by omega), List.nil_append]
  | succ k ih =>
    have hsplit : n * (k + 1) = n * k + n := Nat.mul_succ n k
    rw [blocks, List.take_append_of_le_length (by omega), List.drop_append_of_le_length (by omega),
      ih (by rw [List.length_drop]; omega), blocks, List.cons_append]

/-! ## Collisions -/

variable {B : Type w} {g : S → B → S}

/-- The compression inputs of a run over the blocks: each chaining value with its block. -/
def inputs (g : S → B → S) : S → List B → List (S × B)
  | _, [] => []
  | s, b :: bs => (s, b) :: inputs g (g s b) bs

theorem inputs_append (s : S) (bs cs : List B) :
    inputs g s (bs ++ cs) = inputs g s bs ++ inputs g (bs.foldl g s) cs := by
  induction bs generalizing s with
  | nil => rfl
  | cons b bs ih => rw [List.cons_append, inputs, ih, inputs, List.foldl_cons, List.cons_append]

/-- Two different compression inputs, one from each run, with one output. -/
def Collide (g : S → B → S) (s : S) (bs : List B) (t : S) (cs : List B) : Prop :=
  ∃ p ∈ inputs g s bs, ∃ q ∈ inputs g t cs, p ≠ q ∧ g p.1 p.2 = g q.1 q.2

/-- **Equally many blocks.** Runs that differ somewhere and end alike collide. -/
theorem collision_of_length {s t : S} {bs cs : List B} (hlen : bs.length = cs.length)
    (hne : s ≠ t ∨ bs ≠ cs) (hend : bs.foldl g s = cs.foldl g t) : Collide g s bs t cs := by
  induction bs generalizing s t cs with
  | nil =>
    obtain rfl := List.eq_nil_of_length_eq_zero hlen.symm
    rcases hne with h | h
    · exact absurd hend h
    · exact absurd rfl h
  | cons b bs ih =>
    obtain - | ⟨c, cs⟩ := cs
    · cases hlen
    by_cases hinput : (s, b) = (t, c) ∨ g s b ≠ g t c
    · -- the first inputs do not collide, so what follows still differs
      have hrest : g s b ≠ g t c ∨ bs ≠ cs := by
        rcases hinput with heq | hout
        · obtain ⟨rfl, rfl⟩ := Prod.mk.inj heq
          refine Or.inr fun h => ?_
          rcases hne with hst | hbs
          · exact hst rfl
          · exact hbs (by rw [h])
        · exact Or.inl hout
      obtain ⟨p, hp, q, hq, hpq⟩ := ih (Nat.succ_inj.mp hlen) hrest hend
      exact ⟨p, List.mem_cons_of_mem _ hp, q, List.mem_cons_of_mem _ hq, hpq⟩
    · rw [not_or, not_not] at hinput
      exact ⟨(s, b), List.mem_cons_self, (t, c), List.mem_cons_self, hinput.1, hinput.2⟩

/-- **Different last blocks.** Runs that end alike through different last blocks collide there. -/
theorem collision_of_last {s t : S} {bs cs : List B} {b c : B} (hne : b ≠ c)
    (hend : (bs ++ [b]).foldl g s = (cs ++ [c]).foldl g t) :
    Collide g s (bs ++ [b]) t (cs ++ [c]) := by
  rw [List.foldl_append, List.foldl_append] at hend
  refine ⟨(bs.foldl g s, b), ?_, (cs.foldl g t, c), ?_, ?_, hend⟩
  · rw [inputs_append]
    exact List.mem_append_right _ List.mem_cons_self
  · rw [inputs_append]
    exact List.mem_append_right _ List.mem_cons_self
  · exact fun h => hne (Prod.mk.inj h).2

end CCache.Lib.BlockHash
