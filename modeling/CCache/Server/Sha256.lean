/-
# CCache.Server.Sha256 — the route hash: `picosha2::hash256_hex_string`.

The hasher as the header computes it, on a whole string at once: words are `unsigned long` values kept
below `2^32` by `mask_32bit`, the byte count is four 16-bit digits, and the digest is written as 64
lower-case hexadecimal characters.  What the rest of the server relies on is the shape of the result:
64 characters, none of them a NUL.
-/
import Mathlib.Data.List.Basic
import Mathlib.Tactic.Ring

namespace CCache.Server

namespace Sha256

/-! ## Words -/

def mask32 (x : Nat) : Nat := x % 2 ^ 32

/-- `add_constant`. -/
def addConstant : List Nat :=
  [0x428a2f98, 0x71374491, 0xb5c0fbcf, 0xe9b5dba5, 0x3956c25b, 0x59f111f1,
   0x923f82a4, 0xab1c5ed5, 0xd807aa98, 0x12835b01, 0x243185be, 0x550c7dc3,
   0x72be5d74, 0x80deb1fe, 0x9bdc06a7, 0xc19bf174, 0xe49b69c1, 0xefbe4786,
   0x0fc19dc6, 0x240ca1cc, 0x2de92c6f, 0x4a7484aa, 0x5cb0a9dc, 0x76f988da,
   0x983e5152, 0xa831c66d, 0xb00327c8, 0xbf597fc7, 0xc6e00bf3, 0xd5a79147,
   0x06ca6351, 0x14292967, 0x27b70a85, 0x2e1b2138, 0x4d2c6dfc, 0x53380d13,
   0x650a7354, 0x766a0abb, 0x81c2c92e, 0x92722c85, 0xa2bfe8a1, 0xa81a664b,
   0xc24b8b70, 0xc76c51a3, 0xd192e819, 0xd6990624, 0xf40e3585, 0x106aa070,
   0x19a4c116, 0x1e376c08, 0x2748774c, 0x34b0bcb5, 0x391c0cb3, 0x4ed8aa4a,
   0x5b9cca4f, 0x682e6ff3, 0x748f82ee, 0x78a5636f, 0x84c87814, 0x8cc70208,
   0x90befffa, 0xa4506ceb, 0xbef9a3f7, 0xc67178f2]

/-- The eight words of a message digest. -/
structure Words where
  a : Nat
  b : Nat
  c : Nat
  d : Nat
  e : Nat
  f : Nat
  g : Nat
  h : Nat
deriving DecidableEq, Repr

/-- `initial_message_digest`. -/
def initialMessageDigest : Words :=
  ⟨0x6a09e667, 0xbb67ae85, 0x3c6ef372, 0xa54ff53a, 0x510e527f, 0x9b05688c, 0x1f83d9ab, 0x5be0cd19⟩

/-- `(x & y) ^ ((~x) & z)`, with the complement of a 64-bit word. -/
def ch (x y z : Nat) : Nat := (x &&& y) ^^^ (((2 ^ 64 - 1) ^^^ x) &&& z)

def maj (x y z : Nat) : Nat := (x &&& y) ^^^ (x &&& z) ^^^ (y &&& z)

def rotr (x n : Nat) : Nat := mask32 ((x >>> n) ||| (x <<< (32 - n)))

def bsig0 (x : Nat) : Nat := rotr x 2 ^^^ rotr x 13 ^^^ rotr x 22

def bsig1 (x : Nat) : Nat := rotr x 6 ^^^ rotr x 11 ^^^ rotr x 25

def ssig0 (x : Nat) : Nat := rotr x 7 ^^^ rotr x 18 ^^^ (x >>> 3)

def ssig1 (x : Nat) : Nat := rotr x 17 ^^^ rotr x 19 ^^^ (x >>> 10)

/-! ## One block -/

/-- The first 16 words of `w`, from the bytes of the block, the last word first. -/
def blockWords : List UInt8 → List Nat → List Nat
  | p :: q :: r :: s :: rest, w =>
    blockWords rest
      ((p.toNat <<< 24 ||| q.toNat <<< 16 ||| r.toNat <<< 8 ||| s.toNat) :: w)
  | _, w => w

/-- `n` further words of `w`, each from those 2, 7, 15 and 16 places before it. -/
def extendWords : Nat → List Nat → List Nat
  | 0, w => w
  | n + 1, w =>
    extendWords n
      (mask32 (ssig1 (w.getD 1 0) + w.getD 6 0 + ssig0 (w.getD 14 0) + w.getD 15 0) :: w)

/-- One round with its constant and its word. -/
def round (s : Words) (k w : Nat) : Words :=
  let temp1 := s.h + bsig1 s.e + ch s.e s.f s.g + k + w
  let temp2 := bsig0 s.a + maj s.a s.b s.c
  ⟨mask32 (temp1 + temp2), s.a, s.b, s.c, mask32 (s.d + temp1), s.e, s.f, s.g⟩

/-- `hash256_block`. -/
def hash256Block (s : Words) (block : List UInt8) : Words :=
  let w := (extendWords 48 (blockWords block [])).reverse
  let t := (addConstant.zip w).foldl (fun t kw => round t kw.1 kw.2) s
  ⟨mask32 (s.a + t.a), mask32 (s.b + t.b), mask32 (s.c + t.c), mask32 (s.d + t.d),
   mask32 (s.e + t.e), mask32 (s.f + t.f), mask32 (s.g + t.g), mask32 (s.h + t.h)⟩

/-! ## The hasher -/

/-- The loop of `add_to_data_length`. -/
def addToDataLength : Nat → List Nat → List Nat
  | _, [] => []
  | carry, digit :: digits =>
    if digit + carry ≥ 65536 then
      (digit + carry) % 65536 :: addToDataLength ((digit + carry) / 65536) digits
    else (digit + carry) :: digits

/-- The digits times 8, as `write_data_bit_length` shifts them. -/
def bitLengthDigits : Nat → List Nat → List Nat
  | _, [] => []
  | carry, digit :: digits =>
    (digit <<< 3 ||| carry) % 65536 :: bitLengthDigits ((digit >>> 13) % 65536) digits

/-- `write_data_bit_length`: the highest digit first, each its high byte first. -/
def writeDataBitLength (digits : List Nat) : List UInt8 :=
  (bitLengthDigits 0 digits).reverse.flatMap fun d => [(d >>> 8).toUInt8, d.toUInt8]

/-- The whole blocks of the input, and the bytes that remain in the buffer. -/
def processBlocks : Nat → Words → List UInt8 → Words × List UInt8
  | 0, s, bytes => (s, bytes)
  | n + 1, s, bytes => processBlocks n (hash256Block s (bytes.take 64)) (bytes.drop 64)

/-- `finish`: the 0x80 byte, zeros and the length close the last block, or open one more. -/
def finish (s : Words) (buffer : List UInt8) (digits : List Nat) : Words :=
  let remains := buffer.length
  let temp := buffer ++ 0x80 :: List.replicate (63 - remains) 0
  if remains > 55 then
    hash256Block (hash256Block s temp) (List.replicate 56 0 ++ writeDataBitLength digits)
  else hash256Block s (temp.take 56 ++ writeDataBitLength digits)

/-- The four bytes of a word in `get_hash_bytes`. -/
def wordBytes (x : Nat) : List UInt8 :=
  [(x >>> 24).toUInt8, (x >>> 16).toUInt8, (x >>> 8).toUInt8, x.toUInt8]

/-- `hash256` of a whole string. -/
def hash256 (src : List UInt8) : List UInt8 :=
  let digits := addToDataLength src.length [0, 0, 0, 0]
  let (s, buffer) := processBlocks (src.length / 64) initialMessageDigest src
  let r := finish s buffer digits
  wordBytes r.a ++ wordBytes r.b ++ wordBytes r.c ++ wordBytes r.d ++
    wordBytes r.e ++ wordBytes r.f ++ wordBytes r.g ++ wordBytes r.h

/-- A hexadecimal digit as a character. -/
def hexDigit (n : Nat) : UInt8 := (if n < 10 then 48 + n else 87 + n).toUInt8

/-- `output_hex`: two characters for each byte. -/
def outputHex (bytes : List UInt8) : List UInt8 :=
  bytes.flatMap fun b => [hexDigit (b.toNat / 16), hexDigit (b.toNat % 16)]

end Sha256

open Sha256

/-- `hash256_hex_string`. -/
def hash256HexString (src : List UInt8) : List UInt8 := outputHex (hash256 src)

/-! ## The shape of a hash string -/

theorem hexDigit_ne_zero {n : Nat} (h : n < 16) : hexDigit n ≠ 0 := by
  unfold hexDigit
  intro heq
  have hval := congrArg UInt8.toNat heq
  split at hval
  all_goals
    simp only [Nat.toUInt8, UInt8.toNat_ofNat'] at hval
    have hzero : (0 : UInt8).toNat = 0 := rfl
    omega

theorem outputHex_ne_zero {bytes : List UInt8} {c : UInt8} (h : c ∈ outputHex bytes) : c ≠ 0 := by
  obtain ⟨b, -, hc⟩ := List.mem_flatMap.mp h
  have hb := b.toNat_lt
  rcases List.mem_cons.mp hc with rfl | hc
  · exact hexDigit_ne_zero (by omega)
  · rw [List.mem_singleton.mp hc]
    exact hexDigit_ne_zero (by omega)

theorem outputHex_length (bytes : List UInt8) : (outputHex bytes).length = 2 * bytes.length := by
  induction bytes with
  | nil => rfl
  | cons b bytes ih =>
    show (_ :: _ :: outputHex bytes).length = _
    rw [List.length_cons, List.length_cons, ih, List.length_cons]
    omega

/-- A hash string has 64 characters. -/
theorem hash256HexString_length (src : List UInt8) : (hash256HexString src).length = 64 := by
  rw [hash256HexString, outputHex_length]
  rfl

theorem hash256HexString_ne_zero {src : List UInt8} {c : UInt8} (h : c ∈ hash256HexString src) :
    c ≠ 0 :=
  outputHex_ne_zero h

end CCache.Server
