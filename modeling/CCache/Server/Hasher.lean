/-
# CCache.Server.Hasher — `hash256_one_by_one`, and the two ways `hash256` drives it.

The hasher object takes a message in pieces: a buffer of less than a block, the byte count, the digest
so far.  `Fed` says what an object that was given some bytes looks like, every `process` keeps it, and
so the digest depends on the bytes and not on how they were cut.  The path for input iterators cuts
them into buffers of `buffer_size` bytes and re-uses one vector; it is the plain path whenever it
returns, and it returns for every positive `buffer_size`.
-/
import CCache.Server.Sha256Refinement

namespace CCache.Server

namespace Sha256

open CCache.Lib
open CCache.Lib.BlockHash (absorb)

/-! ## The object -/

/-- `hash256_one_by_one`. -/
structure Hasher where
  buffer : List UInt8
  dataLengthDigits : List Nat
  h : Words
deriving DecidableEq, Repr

/-- `init`. -/
def Hasher.init : Hasher := ⟨[], [0, 0, 0, 0], initialMessageDigest⟩

/-- `process`: whole blocks are hashed and erased, the rest stays in the buffer. -/
def Hasher.process (o : Hasher) (bytes : List UInt8) : Hasher :=
  let buffer := o.buffer ++ bytes
  let (h, rest) := processBlocks (buffer.length / 64) o.h buffer
  ⟨rest, addToDataLength bytes.length o.dataLengthDigits, h⟩

/-- `finish` changes the digest only: the buffer and the count stay. -/
def Hasher.finish (o : Hasher) : Hasher :=
  { o with h := Sha256.finish o.h o.buffer o.dataLengthDigits }

/-- `get_hash_bytes` into a range of `n` bytes. -/
def Hasher.getHashBytes (o : Hasher) (n : Nat) : List UInt8 := (digestBytes o.h).take n

/-- `get_hash_hex_string`. -/
def Hasher.getHashHexString (o : Hasher) : List UInt8 := outputHex (o.getHashBytes 32)

/-- `hash256_impl` for random access iterators, into `n` bytes. -/
def hash256Impl (src : List UInt8) (n : Nat) : List UInt8 :=
  ((Hasher.init.process src).finish).getHashBytes n

/-! ## The path for input iterators -/

/-- The inner loop, with `room` positions left from `i`: the bytes read, the vector, the input left. -/
def fillBuffer : Nat → Nat → List UInt8 → List UInt8 → Nat × List UInt8 × List UInt8
  | 0, i, buffer, input => (i, buffer, input)
  | _ + 1, i, buffer, [] => (i, buffer, [])
  | room + 1, i, buffer, x :: input => fillBuffer room (i + 1) (buffer.set i x) input

/-- The outer loop, while the input is not at its end; `none` when `fuel` runs out first. -/
def feedLoop (bufferSize : Nat) : Nat → List UInt8 → Hasher → List UInt8 → Option Hasher
  | _, _, o, [] => some o
  | 0, _, _, _ :: _ => none
  | fuel + 1, buffer, o, x :: input =>
    let (size, buffer', rest) := fillBuffer bufferSize 0 buffer (x :: input)
    feedLoop bufferSize fuel buffer' (o.process (buffer'.take size)) rest

/-- `hash256_impl` for input iterators, into `n` bytes. -/
def hash256ImplInput (fuel bufferSize : Nat) (src : List UInt8) (n : Nat) : Option (List UInt8) :=
  (feedLoop bufferSize fuel (List.replicate bufferSize 0) Hasher.init src).map fun o =>
    o.finish.getHashBytes n

/-! ## What an object holds -/

/-- The object has been given `src`, in whatever pieces. -/
structure Fed (o : Hasher) (src : List UInt8) : Prop where
  state : (o.h, o.buffer) = absorb 64 hash256Block initialMessageDigest src
  digits : Digits o.dataLengthDigits
  four : o.dataLengthDigits.length = 4
  count : Nat.ofDigits 65536 o.dataLengthDigits ≡ src.length [MOD 65536 ^ 4]

theorem fed_init : Fed Hasher.init [] where
  state := (BlockHash.absorb_of_lt (by decide)).symm
  digits := by simp [Digits, Hasher.init]
  four := rfl
  count := rfl

/-- **One `process` takes its bytes in.** -/
theorem Fed.process {o : Hasher} {src : List UInt8} (h : Fed o src) (bytes : List UInt8) :
    Fed (o.process bytes) (src ++ bytes) := by
  obtain ⟨hdigits, hlen, hval⟩ := addToDataLength_spec h.digits bytes.length
  have hh : o.h = (absorb 64 hash256Block initialMessageDigest src).1 := congrArg Prod.fst h.state
  have hbuffer : o.buffer = (absorb 64 hash256Block initialMessageDigest src).2 :=
    congrArg Prod.snd h.state
  constructor
  case state =>
    rw [BlockHash.absorb_append (by decide), ← hh, ← hbuffer, absorb, ← processBlocks_eq]
    rfl
  case digits => exact hdigits
  case four => exact hlen.trans h.four
  case count =>
    rw [List.length_append]
    rw [h.four] at hval
    exact hval.trans (h.count.add_right _)

/-- Any pieces, one after the other. -/
theorem Fed.processAll {o : Hasher} {src : List UInt8} (h : Fed o src) (pieces : List (List UInt8)) :
    Fed (pieces.foldl Hasher.process o) (src ++ pieces.flatten) := by
  induction pieces generalizing o src with
  | nil => rwa [List.flatten_nil, List.append_nil]
  | cons bytes pieces ih =>
    rw [List.foldl_cons, List.flatten_cons, ← List.append_assoc]
    exact ih (h.process bytes)

theorem digestBytes_length (r : Words) : (digestBytes r).length = 32 := by
  simp [digestBytes, wordBytes]

/-- **What was fed decides the digest.** -/
theorem Fed.hash {o : Hasher} {src : List UInt8} (h : Fed o src) (n : Nat) :
    o.finish.getHashBytes n = (Sha2.hash src).take n := by
  have hh : o.h = (absorb 64 hash256Block initialMessageDigest src).1 := congrArg Prod.fst h.state
  have hbuffer : o.buffer = (absorb 64 hash256Block initialMessageDigest src).2 :=
    congrArg Prod.snd h.state
  have hlen : o.buffer.length = src.length % 64 := by
    rw [hbuffer, BlockHash.absorb_rest_length (by decide)]
  have hdigest : o.finish.h
      = (absorb 64 hash256Block initialMessageDigest (Sha2.pad src)).1 := by
    show Sha256.finish o.h o.buffer o.dataLengthDigits = _
    rw [finish_eq o.h h.digits h.four h.count hlen, hh, hbuffer,
      ← BlockHash.absorb_append (by decide), ← Sha2.pad]
  rw [Hasher.getHashBytes, hdigest, chain_eq, digestBytes_ofVars, Sha2.hash]

/-- **Cutting does not matter.** However a message is cut into pieces, empty ones included, the
object's hexadecimal digest is the one-shot hash string of the whole. -/
theorem hex_of_pieces (pieces : List (List UInt8)) :
    (pieces.foldl Hasher.process Hasher.init).finish.getHashHexString
      = hash256HexString pieces.flatten := by
  have h := (fed_init.processAll pieces).hash 32
  rw [List.nil_append, ← hash256_eq] at h
  rw [Hasher.getHashHexString, h, hash256HexString, List.take_of_length_le]
  exact (digestBytes_length _).le

/-! ## The two paths agree -/

/-- The inner loop reads as many bytes as fit, into the front of the vector from `i` on. -/
theorem fillBuffer_spec {room i : Nat} {buffer input : List UInt8} (hi : i + room ≤ buffer.length) :
    fillBuffer room i buffer input
      = (i + min room input.length,
          buffer.take i ++ input.take room ++ buffer.drop (i + min room input.length),
          input.drop room) := by
  induction room generalizing i buffer input with
  | zero =>
    rw [fillBuffer, Nat.zero_min, Nat.add_zero, List.take_zero, List.append_nil,
      List.take_append_drop, List.drop_zero]
  | succ room ih =>
    obtain - | ⟨x, input⟩ := input
    · rw [fillBuffer, List.length_nil, Nat.min_zero, Nat.add_zero, List.take_nil, List.append_nil,
        List.take_append_drop, List.drop_nil]
    · have hset : i + 1 + room ≤ (buffer.set i x).length := by
        rw [List.length_set]
        omega
      have hmin : i + 1 + min room input.length = i + min (room + 1) (input.length + 1) := by omega
      have hfront : (buffer.set i x).take (i + 1) = buffer.take i ++ [x] := by
        rw [List.take_set, List.take_succ_eq_append_getElem (by omega),
          List.set_append_right _ _ (by rw [List.length_take]; omega), List.length_take,
          Nat.min_eq_left (by omega), Nat.sub_self]
        rfl
      rw [fillBuffer, ih hset, hmin, hfront, List.length_cons, List.take_succ_cons,
        List.drop_succ_cons, List.drop_set_of_lt (by omega), List.append_assoc (buffer.take i)]
      rfl

/-- One turn of the outer loop hands over the next `bufferSize` bytes, whatever the vector held. -/
theorem fillBuffer_take {bufferSize : Nat} {buffer input : List UInt8}
    (hlen : buffer.length = bufferSize) :
    let r := fillBuffer bufferSize 0 buffer input
    r.2.1.take r.1 = input.take bufferSize ∧ r.2.1.length = bufferSize ∧
      r.2.2 = input.drop bufferSize := by
  rw [fillBuffer_spec (by omega), List.take_zero, List.nil_append, Nat.zero_add]
  have htake : (input.take bufferSize).length = min bufferSize input.length := List.length_take
  refine ⟨List.take_left' htake, ?_, rfl⟩
  rw [List.length_append, htake, List.length_drop, hlen]
  omega

/-- A positive `bufferSize` makes every turn shorten the input, so the loop ends with all of it fed. -/
theorem feedLoop_fed {bufferSize : Nat} (hpos : 0 < bufferSize) {fuel : Nat}
    {buffer src input : List UInt8} {o : Hasher} (hlen : buffer.length = bufferSize) (h : Fed o src)
    (hfuel : input.length ≤ fuel) :
    ∃ o', feedLoop bufferSize fuel buffer o input = some o' ∧ Fed o' (src ++ input) := by
  induction fuel generalizing buffer src input o with
  | zero =>
    obtain rfl := List.eq_nil_of_length_eq_zero (Nat.le_zero.mp hfuel)
    exact ⟨o, by rw [feedLoop], by rwa [List.append_nil]⟩
  | succ fuel ih =>
    obtain - | ⟨x, input⟩ := input
    · exact ⟨o, by rw [feedLoop], by rwa [List.append_nil]⟩
    · obtain ⟨htake, hlen', hrest⟩ := @fillBuffer_take _ _ (x :: input) hlen
      have hshort : (fillBuffer bufferSize 0 buffer (x :: input)).2.2.length ≤ fuel := by
        rw [hrest, List.length_drop]
        rw [List.length_cons] at hfuel ⊢
        omega
      obtain ⟨o', heq, hfed⟩ := ih hlen'
        (h.process ((fillBuffer bufferSize 0 buffer (x :: input)).2.1.take
          (fillBuffer bufferSize 0 buffer (x :: input)).1)) hshort
      refine ⟨o', heq, ?_⟩
      rwa [htake, hrest, List.append_assoc, List.take_append_drop] at hfed

/-- With no room in the vector nothing is ever read. -/
theorem feedLoop_stuck (fuel : Nat) (o : Hasher) (x : UInt8) (input : List UInt8) :
    feedLoop 0 fuel [] o (x :: input) = none := by
  induction fuel generalizing o with
  | zero => rfl
  | succ fuel ih => exact ih _

/-- **The input-iterator path.** With a positive `buffer_size` it returns, and returns what the plain
path returns; with `buffer_size` 0 it returns for the empty input only. -/
theorem hash256ImplInput_eq (bufferSize n : Nat) (src : List UInt8) :
    (0 < bufferSize → ∀ fuel, src.length ≤ fuel →
      hash256ImplInput fuel bufferSize src n = some (hash256Impl src n)) ∧
    (bufferSize = 0 → ∀ fuel, (hash256ImplInput fuel bufferSize src n).isSome ↔ src = []) := by
  refine ⟨fun hpos fuel hfuel => ?_, ?_⟩
  · obtain ⟨o, heq, hfed⟩ := feedLoop_fed hpos List.length_replicate fed_init hfuel
    rw [hash256ImplInput, heq, Option.map_some, hfed.hash, hash256Impl, (fed_init.process src).hash]
  · rintro rfl fuel
    obtain - | ⟨x, input⟩ := src
    · rw [hash256ImplInput, feedLoop]
      exact ⟨fun _ => rfl, fun _ => rfl⟩
    · rw [hash256ImplInput, List.replicate_zero, feedLoop_stuck]
      constructor
      · intro h
        cases h
      · intro h
        cases h

end Sha256

end CCache.Server
