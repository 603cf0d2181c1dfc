/-
# CCache.Lib.ByteMemory — flat byte memories with range writes and little-endian words.

A memory is a total function from addresses to bytes.  The one write primitive is `blit`, which
replaces a contiguous range by the bytes of a function; `memset`, `memcpy`, `memmove` and the store
of a machine word are all blits.  The frame laws say what a blit leaves alone: `read` of a disjoint
range, a word at a disjoint address, and every address outside the range.  Nothing in this module
depends on the program that uses it.
-/
import Mathlib.Tactic.Ring
import Mathlib.Tactic.NormNum

namespace CCache.Lib.ByteMemory

/-- A byte-addressed memory. -/
abbrev Mem := Nat → UInt8

/-- The `n` bytes from address `a` on. -/
def read (m : Mem) (a n : Nat) : List UInt8 := (List.range n).map fun i => m (a + i)

/-- Replace the `n` bytes from `a` on by `f 0, …, f (n-1)`. -/
def blit (m : Mem) (a n : Nat) (f : Nat → UInt8) : Mem :=
  fun x => if a ≤ x ∧ x < a + n then f (x - a) else m x

/-- The bytes of a list as blit content. -/
def content (bs : List UInt8) : Nat → UInt8 := fun i => bs.getD i 0

/-! ## Reading back and framing -/

theorem blit_in {m : Mem} {a n : Nat} {f : Nat → UInt8} {x : Nat} (h1 : a ≤ x) (h2 : x < a + n) :
    blit m a n f x = f (x - a) := if_pos ⟨h1, h2⟩

theorem blit_out {m : Mem} {a n : Nat} {f : Nat → UInt8} {x : Nat} (h : x < a ∨ a + n ≤ x) :
    blit m a n f x = m x := if_neg (by omega)

/-- The same bytes written over two memories: they agree at an address that was written, and where they
agreed before. -/
theorem blit_eq_blit_iff {m k : Mem} {a n : Nat} {f : Nat → UInt8} {x : Nat} :
    blit m a n f x = blit k a n f x ↔ (x < a ∨ a + n ≤ x → m x = k x) := by
  by_cases h : a ≤ x ∧ x < a + n
  · rw [blit_in h.1 h.2, blit_in h.1 h.2]
    exact iff_of_true rfl fun hout => absurd hout (by omega)
  · have hout : x < a ∨ a + n ≤ x := by omega
    rw [blit_out hout, blit_out hout]
    exact ⟨fun heq _ => heq, fun heq => heq hout⟩

/-- Copying a range onto itself changes nothing. -/
theorem blit_self (m : Mem) (a n : Nat) : blit m a n (fun i => m (a + i)) = m := by
  funext x
  by_cases h : a ≤ x ∧ x < a + n
  · rw [blit_in h.1 h.2, Nat.add_sub_cancel' h.1]
  · exact if_neg h

@[simp] theorem read_length (m : Mem) (a n : Nat) : (read m a n).length = n := by
  simp [read]

theorem read_getD (m : Mem) (a : Nat) {n i : Nat} (h : i < n) :
    (read m a n).getD i 0 = m (a + i) := by
  simp [read, h]

theorem read_congr {m k : Mem} {a b n : Nat} (h : ∀ i, i < n → m (a + i) = k (b + i)) :
    read m a n = read k b n := by
  refine List.map_congr_left ?_
  intro i hi
  exact h i (List.mem_range.mp hi)

theorem read_eq_iff {m k : Mem} {a b n : Nat} :
    read m a n = read k b n ↔ ∀ i, i < n → m (a + i) = k (b + i) := by
  refine ⟨fun h i hi => ?_, read_congr⟩
  have hget : (read m a n)[i]? = (read k b n)[i]? := by rw [h]
  simpa [read, hi] using hget

/-- A blit is invisible to a disjoint range. -/
theorem read_blit_disjoint {m : Mem} {a n b k : Nat} {f : Nat → UInt8}
    (h : b + k ≤ a ∨ a + n ≤ b) : read (blit m a n f) b k = read m b k :=
  read_congr fun i hi => blit_out (by omega)

theorem read_blit_same (m : Mem) (a n : Nat) (f : Nat → UInt8) :
    read (blit m a n f) a n = (List.range n).map f := by
  refine List.map_congr_left ?_
  intro i hi
  have hi' := List.mem_range.mp hi
  rw [blit_in (by omega) (by omega), Nat.add_sub_cancel_left]

theorem read_blit_const (m : Mem) (a n : Nat) (b : UInt8) :
    read (blit m a n fun _ => b) a n = List.replicate n b := by
  rw [read_blit_same, List.map_const', List.length_range]

theorem range_map_content (bs : List UInt8) : (List.range bs.length).map (content bs) = bs := by
  refine List.ext_getElem (by simp) ?_
  intro i h1 h2
  simp [content, h2]

/-- Writing a list of bytes and reading the range back gives the list. -/
theorem read_blit_content (m : Mem) (a : Nat) (bs : List UInt8) :
    read (blit m a bs.length (content bs)) a bs.length = bs := by
  rw [read_blit_same, range_map_content]

theorem read_append (m : Mem) (a n k : Nat) : read m a (n + k) = read m a n ++ read m (a + n) k := by
  simp [read, List.range_add, Nat.add_assoc]

theorem read_take (m : Mem) (a n k : Nat) (h : k ≤ n) : (read m a n).take k = read m a k := by
  obtain ⟨j, rfl⟩ := Nat.exists_eq_add_of_le h
  rw [read_append, List.take_append_of_le_length (by simp), List.take_of_length_le (by simp)]

theorem read_drop (m : Mem) (a n k : Nat) (h : k ≤ n) :
    (read m a n).drop k = read m (a + k) (n - k) := by
  obtain ⟨j, rfl⟩ := Nat.exists_eq_add_of_le h
  rw [read_append, Nat.add_sub_cancel_left]
  exact List.drop_left' (read_length m a k)

/-- Part of a list of bytes, from its content. -/
theorem range_map_content_drop (bs : List UInt8) {off n : Nat} (h : off + n ≤ bs.length) :
    ((List.range n).map fun i => content bs (off + i)) = (bs.drop off).take n := by
  have hlen : ((bs.drop off).take n).length = n := by
    rw [List.length_take, List.length_drop]
    omega
  refine List.ext_getElem (by simp [hlen]) ?_
  intro i h1 h2
  have hi : off + i < bs.length := by omega
  simp [content, hi]

/-! ## Little-endian words -/

/-- The `w` little-endian bytes of `n`. -/
def toLE : Nat → Nat → List UInt8
  | 0, _ => []
  | w + 1, n => UInt8.ofNat n :: toLE w (n / 256)

/-- The number with the given little-endian bytes. -/
def ofLE : List UInt8 → Nat
  | [] => 0
  | b :: bs => b.toNat + 256 * ofLE bs

@[simp] theorem toLE_length (w n : Nat) : (toLE w n).length = w := by
  induction w generalizing n with
  | zero => rfl
  | succ w ih => simp [toLE, ih]

theorem ofLE_lt (bs : List UInt8) : ofLE bs < 256 ^ bs.length := by
  induction bs with
  | nil => simp [ofLE]
  | cons b bs ih =>
    have hb : b.toNat < 256 := b.toNat_lt
    simp only [ofLE, List.length_cons, pow_succ]
    omega

theorem ofLE_toLE (w n : Nat) : ofLE (toLE w n) = n % 256 ^ w := by
  induction w generalizing n with
  | zero => simp [toLE, ofLE, Nat.mod_one]
  | succ w ih =>
    have hb : (UInt8.ofNat n).toNat = n % 256 := by simp
    rw [toLE, ofLE, ih, hb, pow_succ', Nat.mod_mul]

/-- The little-endian bytes of a number are those it was read from. -/
theorem toLE_ofLE (bs : List UInt8) : toLE bs.length (ofLE bs) = bs := by
  induction bs with
  | nil => rfl
  | cons b bs ih =>
    have hb : b.toNat < 256 := b.toNat_lt
    have hlow : UInt8.ofNat (b.toNat + 256 * ofLE bs) = b := by
      refine UInt8.toNat_inj.mp ?_
      rw [UInt8.toNat_ofNat']
      omega
    have hhigh : (b.toNat + 256 * ofLE bs) / 256 = ofLE bs := by omega
    rw [List.length_cons, ofLE, toLE, hlow, hhigh, ih]

/-- The 32-bit little-endian word at `a`. -/
def readWord (m : Mem) (a : Nat) : Nat := ofLE (read m a 4)

theorem readWord_lt (m : Mem) (a : Nat) : readWord m a < 2 ^ 32 := by
  have h := ofLE_lt (read m a 4)
  rw [read_length] at h
  exact lt_of_lt_of_eq h (by norm_num)

theorem readWord_congr {m k : Mem} {a b : Nat} (h : ∀ i, i < 4 → m (a + i) = k (b + i)) :
    readWord m a = readWord k b := by
  unfold readWord
  rw [read_congr h]

theorem ofLE_map_le {f g : Nat → UInt8} (h : ∀ i, (f i).toNat ≤ (g i).toNat) (is : List Nat) :
    ofLE (is.map f) ≤ ofLE (is.map g) := by
  induction is with
  | nil => exact le_rfl
  | cons i is ih => exact Nat.add_le_add (h i) (Nat.mul_le_mul_left 256 ih)

/-- A word with smaller bytes is no larger. -/
theorem readWord_le {m k : Mem} (h : ∀ x, (k x).toNat ≤ (m x).toNat) (a : Nat) :
    readWord k a ≤ readWord m a := ofLE_map_le (fun i => h (a + i)) _

theorem readWord_blit_disjoint {m : Mem} {a n b : Nat} {f : Nat → UInt8}
    (h : b + 4 ≤ a ∨ a + n ≤ b) : readWord (blit m a n f) b = readWord m b := by
  unfold readWord
  rw [read_blit_disjoint h]

/-- A word reads back as stored, reduced to 32 bits. -/
theorem readWord_blit_toLE (m : Mem) (a v : Nat) :
    readWord (blit m a 4 (content (toLE 4 v))) a = v % 2 ^ 32 := by
  have h := read_blit_content m a (toLE 4 v)
  rw [toLE_length] at h
  rw [readWord, h, ofLE_toLE]
  norm_num

/-- Storing a word where it already stands changes nothing. -/
theorem blit_toLE_readWord (m : Mem) (a : Nat) :
    blit m a 4 (content (toLE 4 (readWord m a))) = m := by
  have hbytes : toLE 4 (readWord m a) = read m a 4 := by
    have h := toLE_ofLE (read m a 4)
    rwa [read_length] at h
  funext x
  by_cases h : a ≤ x ∧ x < a + 4
  · rw [blit_in h.1 h.2, hbytes, content, read_getD m a (by omega), Nat.add_sub_cancel' h.1]
  · exact blit_out (by omega)

end CCache.Lib.ByteMemory
