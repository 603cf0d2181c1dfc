/-
# CCache.Lib.Sha2 — SHA-256 on 32-bit words, with the padding of a byte message.

The function as the standard defines it: the round constants and the initial value are the first 32
bits of the fractional parts of cube and square roots of the first primes, the schedule is a
recurrence, one block is 64 steps and an addition, and a message is padded by one bit, zeros and its
bit length.  The padding loses nothing: messages of one length have different paddings, and messages
of different lengths have different last blocks.
-/
import CCache.Lib.BlockHash
import Mathlib.Data.Nat.NthRoot.Defs
import Mathlib.Algebra.Order.Ring.Nat
import Mathlib.Data.List.GetD

namespace CCache.Lib.Sha2

open CCache.Lib.BlockHash

/-! ## Big-endian bytes -/

/-- The low `k` bytes of a number, the most significant first. -/
def beBytes : Nat → Nat → List UInt8
  | 0, _ => []
  | k + 1, x => beBytes k (x / 256) ++ [x.toUInt8]

/-- The number a list of bytes spells, the most significant first. -/
def beValue (bytes : List UInt8) : Nat := bytes.foldl (fun v b => 256 * v + b.toNat) 0

theorem beBytes_length (k x : Nat) : (beBytes k x).length = k := by
  induction k generalizing x with
  | zero => rfl
  | succ k ih => rw [beBytes, List.length_append, ih, List.length_singleton]

theorem toNat_toUInt8 (x : Nat) : x.toUInt8.toNat = x % 256 := UInt8.toNat_ofNat'

/-- Reading back what was written gives the low bytes. -/
theorem beValue_beBytes (k x : Nat) : beValue (beBytes k x) = x % 256 ^ k := by
  induction k generalizing x with
  | zero => rw [pow_zero, Nat.mod_one, beBytes, beValue, List.foldl_nil]
  | succ k ih =>
    rw [beValue, beBytes, List.foldl_append, List.foldl_cons, List.foldl_nil, ← beValue, ih,
      toNat_toUInt8, pow_succ', Nat.mod_mul]
    omega

/-- Numbers below `256 ^ k` are told apart by their bytes. -/
theorem beBytes_inj {k x y : Nat} (hx : x < 256 ^ k) (hy : y < 256 ^ k)
    (h : beBytes k x = beBytes k y) : x = y := by
  have hval := congrArg beValue h
  rwa [beValue_beBytes, beValue_beBytes, Nat.mod_eq_of_lt hx, Nat.mod_eq_of_lt hy] at hval

/-! ## The functions on words -/

abbrev Word := BitVec 32

def ch (x y z : Word) : Word := (x &&& y) ^^^ (~~~x &&& z)

def maj (x y z : Word) : Word := (x &&& y) ^^^ (x &&& z) ^^^ (y &&& z)

def bigSigma0 (x : Word) : Word := x.rotateRight 2 ^^^ x.rotateRight 13 ^^^ x.rotateRight 22

def bigSigma1 (x : Word) : Word := x.rotateRight 6 ^^^ x.rotateRight 11 ^^^ x.rotateRight 25

def smallSigma0 (x : Word) : Word := x.rotateRight 7 ^^^ x.rotateRight 18 ^^^ (x >>> 3)

def smallSigma1 (x : Word) : Word := x.rotateRight 17 ^^^ x.rotateRight 19 ^^^ (x >>> 10)

/-- The first 32 bits of the fractional part of the `k`-th root of `p`. -/
def fracRoot (k p : Nat) : Word := BitVec.ofNat 32 (Nat.nthRoot k (p * 2 ^ (32 * k)))

/-- The first 64 primes: below `18 ^ 2` trial division by less than 18 finds them. -/
def primes : List Nat :=
  (List.range 312).filter fun p => 2 ≤ p && (List.range 18).all fun d => d < 2 || p ≤ d || p % d != 0

/-- The constant of each round, from the cube roots of the first 64 primes. -/
def roundConstants : List Word := primes.map (fracRoot 3)

/-! ## One block -/

/-- The chaining value and the working variables: eight words. -/
@[ext]
structure Vars where
  a : Word
  b : Word
  c : Word
  d : Word
  e : Word
  f : Word
  g : Word
  h : Word

/-- The initial value, from the square roots of the first eight primes. -/
def initial : Vars :=
  ⟨fracRoot 2 2, fracRoot 2 3, fracRoot 2 5, fracRoot 2 7, fracRoot 2 11, fracRoot 2 13,
    fracRoot 2 17, fracRoot 2 19⟩

/-- Word `t` of a block. -/
def blockWord (block : List UInt8) (t : Nat) : Word :=
  BitVec.ofNat 32 (beValue ((block.drop (4 * t)).take 4))

/-- The message schedule of a block with words `m`. -/
def schedule (m : Nat → Word) (t : Nat) : Word :=
  if t < 16 then m t
  else smallSigma1 (schedule m (t - 2)) + schedule m (t - 7) + smallSigma0 (schedule m (t - 15)) +
    schedule m (t - 16)
termination_by t
decreasing_by all_goals omega

theorem schedule_of_lt (m : Nat → Word) {t : Nat} (h : t < 16) : schedule m t = m t := by
  rw [schedule, if_pos h]

theorem schedule_of_le (m : Nat → Word) {t : Nat} (h : 16 ≤ t) :
    schedule m t = smallSigma1 (schedule m (t - 2)) + schedule m (t - 7) +
      smallSigma0 (schedule m (t - 15)) + schedule m (t - 16) := by
  rw [schedule, if_neg (by omega)]

/-- One round with its constant and its word. -/
def step (v : Vars) (k w : Word) : Vars :=
  let t1 := v.h + bigSigma1 v.e + ch v.e v.f v.g + k + w
  let t2 := bigSigma0 v.a + maj v.a v.b v.c
  ⟨t1 + t2, v.a, v.b, v.c, v.d + t1, v.e, v.f, v.g⟩

/-- The 64 rounds of a block. -/
def rounds (s : Vars) (block : List UInt8) : Vars :=
  (List.range 64).foldl
    (fun v t => step v (roundConstants.getD t 0) (schedule (blockWord block) t)) s

/-- Word by word addition. -/
def Vars.add (s v : Vars) : Vars :=
  ⟨s.a + v.a, s.b + v.b, s.c + v.c, s.d + v.d, s.e + v.e, s.f + v.f, s.g + v.g, s.h + v.h⟩

/-- The compression function. -/
def compress (s : Vars) (block : List UInt8) : Vars := s.add (rounds s block)

/-! ## A message -/

/-- The fewest zeros that make a whole number of blocks with the one bit and the length. -/
def zeroCount (len : Nat) : Nat := (119 - len % 64) % 64

/-- What is put behind a message of `len` bytes. -/
def padding (len : Nat) : List UInt8 :=
  0x80 :: (List.replicate (zeroCount len) 0 ++ beBytes 8 (8 * len))

def pad (message : List UInt8) : List UInt8 := message ++ padding message.length

/-- The padded message in blocks. -/
def paddedBlocks (message : List UInt8) : List (List UInt8) :=
  blocks 64 ((pad message).length / 64) (pad message)

/-- The bytes of a chaining value. -/
def digest (v : Vars) : List UInt8 :=
  beBytes 4 v.a.toNat ++ beBytes 4 v.b.toNat ++ beBytes 4 v.c.toNat ++ beBytes 4 v.d.toNat ++
    beBytes 4 v.e.toNat ++ beBytes 4 v.f.toNat ++ beBytes 4 v.g.toNat ++ beBytes 4 v.h.toNat

/-- SHA-256. -/
def hash (message : List UInt8) : List UInt8 := digest ((paddedBlocks message).foldl compress initial)

/-! ## What the padding keeps -/

theorem padding_length (len : Nat) : (padding len).length = zeroCount len + 9 := by
  rw [padding, List.length_cons, List.length_append, List.length_replicate, beBytes_length]

theorem pad_length (message : List UInt8) :
    (pad message).length = message.length + zeroCount message.length + 9 := by
  rw [pad, List.length_append, padding_length, Nat.add_assoc]

/-- A padded message is a whole number of blocks. -/
theorem pad_length_eq (message : List UInt8) :
    (pad message).length = 64 * ((pad message).length / 64) := by
  rw [pad_length, zeroCount]
  omega

theorem paddedBlocks_flatten (message : List UInt8) :
    (paddedBlocks message).flatten = pad message :=
  blocks_flatten (pad_length_eq message)

/-- The last eight bytes of a padded message are its bit length. -/
theorem pad_eq_append (message : List UInt8) :
    ∃ front, pad message = front ++ beBytes 8 (8 * message.length) :=
  ⟨message ++ 0x80 :: List.replicate (zeroCount message.length) 0, by
    rw [pad, padding, List.append_assoc, List.cons_append]⟩

/-- A padded message ends in a block whose last eight bytes are the bit length. -/
theorem paddedBlocks_eq_concat (message : List UInt8) :
    ∃ front last, paddedBlocks message = front ++ [last] ∧
      last.drop 56 = beBytes 8 (8 * message.length) := by
  have hlen := pad_length_eq message
  have hpos : 64 ≤ (pad message).length := by
    have := pad_length message
    omega
  obtain ⟨k, hk⟩ : ∃ k, (pad message).length / 64 = k + 1 := ⟨(pad message).length / 64 - 1, by omega⟩
  obtain ⟨front, hfront⟩ := pad_eq_append message
  have hfl : front.length + 8 = (pad message).length := by
    rw [hfront, List.length_append, beBytes_length]
  have hsplit : pad message = (pad message).take (64 * k) ++ (pad message).drop (64 * k) :=
    (List.take_append_drop _ _).symm
  refine ⟨blocks 64 k ((pad message).take (64 * k)), (pad message).drop (64 * k), ?_, ?_⟩
  · rw [paddedBlocks, hk]
    conv_lhs => rw [hsplit]
    refine blocks_concat ?_ ?_
    · rw [List.length_take]
      omega
    · rw [List.length_drop]
      omega
  · rw [List.drop_drop, show 64 * k + 56 = front.length by omega, hfront, List.drop_left]

/-- Messages of one length have different padded blocks. -/
theorem paddedBlocks_inj {m m' : List UInt8} (hlen : m.length = m'.length)
    (h : paddedBlocks m = paddedBlocks m') : m = m' := by
  have hpad : pad m = pad m' := by
    rw [← paddedBlocks_flatten, h, paddedBlocks_flatten]
  exact (List.append_inj hpad hlen).1

/-- **The iteration collides only where the compression does.** For any compression function with
chaining values `S`: two different messages short enough for the length field, with one final
chaining value, contain two different compression inputs with one output. -/
theorem chain_collision {S : Type} {g : S → List UInt8 → S} {s : S} {m m' : List UInt8}
    (hm : 8 * m.length < 2 ^ 64) (hm' : 8 * m'.length < 2 ^ 64) (hne : m ≠ m')
    (hend : (paddedBlocks m).foldl g s = (paddedBlocks m').foldl g s) :
    Collide g s (paddedBlocks m) s (paddedBlocks m') := by
  by_cases hlen : m.length = m'.length
  · refine collision_of_length ?_ (Or.inr fun h => hne (paddedBlocks_inj hlen h)) hend
    rw [paddedBlocks, paddedBlocks, blocks_length, blocks_length, pad_length, pad_length, hlen]
  · -- the length fields differ, and they are in the last blocks
    obtain ⟨front, last, hblocks, hlast⟩ := paddedBlocks_eq_concat m
    obtain ⟨front', last', hblocks', hlast'⟩ := paddedBlocks_eq_concat m'
    have hdiff : last ≠ last' := by
      rintro rfl
      have hbits := beBytes_inj (by omega) (by omega) (hlast.symm.trans hlast')
      omega
    rw [hblocks, hblocks'] at hend ⊢
    exact collision_of_last hdiff hend

/-! ## The digest loses nothing -/

theorem word_of_beBytes {x y : Word} (h : beBytes 4 x.toNat = beBytes 4 y.toNat) : x = y :=
  BitVec.eq_of_toNat_eq (beBytes_inj x.isLt y.isLt h)

theorem digest_inj {v w : Vars} (h : digest v = digest w) : v = w := by
  have split {x y : Nat} {l l' : List UInt8} (heq : l ++ beBytes 4 x = l' ++ beBytes 4 y) :
      l = l' ∧ beBytes 4 x = beBytes 4 y :=
    List.append_inj' heq (by rw [beBytes_length, beBytes_length])
  obtain ⟨h, hh⟩ := split h
  obtain ⟨h, hg⟩ := split h
  obtain ⟨h, hf⟩ := split h
  obtain ⟨h, he⟩ := split h
  obtain ⟨h, hd⟩ := split h
  obtain ⟨h, hc⟩ := split h
  obtain ⟨ha, hb⟩ := split h
  exact Vars.ext (word_of_beBytes ha) (word_of_beBytes hb) (word_of_beBytes hc) (word_of_beBytes hd)
    (word_of_beBytes he) (word_of_beBytes hf) (word_of_beBytes hg) (word_of_beBytes hh)

end CCache.Lib.Sha2
