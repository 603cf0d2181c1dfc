/-
# CCache.Server.Sha256Refinement — `picosha2` computes SHA-256.

The header keeps 32-bit words in 64-bit integers, masks where it thinks it must, counts bytes in four
16-bit digits and pads inside `finish`.  Each stage is carried to the standard's: words through
`Words.ofVars`, the schedule and the 64 rounds to the recurrence and its fold, the digits to the
number they spell, `finish` to the padded message.  The result is `hash256_eq`, for every string.
-/
import CCache.Lib.Sha2
import CCache.Server.Sha256
import Mathlib.Data.Nat.Digits.Defs
import Mathlib.Data.Nat.ModEq

namespace CCache.Server

namespace Sha256

open CCache.Lib
open CCache.Lib.BlockHash (absorb absorbBlocks)

/-! ## Words -/

theorem ch_toNat (x y z : Sha2.Word) :
    Sha256.ch x.toNat y.toNat z.toNat = (Sha2.ch x y z).toNat := by
  rw [Sha256.ch, Sha2.ch, BitVec.toNat_xor, BitVec.toNat_and, BitVec.toNat_and]
  congr 1
  apply Nat.eq_of_testBit_eq
  intro i
  rw [Nat.testBit_and, Nat.testBit_and, Nat.testBit_xor, Nat.testBit_two_pow_sub_one,
    BitVec.testBit_toNat, BitVec.testBit_toNat, BitVec.testBit_toNat, BitVec.getLsbD_not]
  -- above bit 31 both sides are masked by `z`
  by_cases hi : i < 32
  · have h64 : i < 64 := by omega
    simp [hi, h64]
  · rw [BitVec.getLsbD_of_ge z i (by omega), Bool.and_false, Bool.and_false]

theorem maj_toNat (x y z : Sha2.Word) :
    Sha256.maj x.toNat y.toNat z.toNat = (Sha2.maj x y z).toNat := by
  simp only [Sha256.maj, Sha2.maj, BitVec.toNat_xor, BitVec.toNat_and]

theorem rotr_toNat (x : Sha2.Word) {n : Nat} (hn : n < 32) :
    rotr x.toNat n = (x.rotateRight n).toNat := by
  have hlow : x.toNat >>> n < 2 ^ 32 := lt_of_le_of_lt (Nat.shiftRight_le _ _) x.isLt
  rw [BitVec.toNat_rotateRight, Nat.mod_eq_of_lt hn, rotr, mask32, Nat.or_mod_two_pow,
    Nat.mod_eq_of_lt hlow]

theorem bsig0_toNat (x : Sha2.Word) : bsig0 x.toNat = (Sha2.bigSigma0 x).toNat := by
  rw [bsig0, Sha2.bigSigma0, BitVec.toNat_xor, BitVec.toNat_xor, rotr_toNat x (by decide),
    rotr_toNat x (by decide), rotr_toNat x (by decide)]

theorem bsig1_toNat (x : Sha2.Word) : bsig1 x.toNat = (Sha2.bigSigma1 x).toNat := by
  rw [bsig1, Sha2.bigSigma1, BitVec.toNat_xor, BitVec.toNat_xor, rotr_toNat x (by decide),
    rotr_toNat x (by decide), rotr_toNat x (by decide)]

theorem ssig0_toNat (x : Sha2.Word) : ssig0 x.toNat = (Sha2.smallSigma0 x).toNat := by
  rw [ssig0, Sha2.smallSigma0, BitVec.toNat_xor, BitVec.toNat_xor, BitVec.toNat_ushiftRight,
    rotr_toNat x (by decide), rotr_toNat x (by decide)]

theorem ssig1_toNat (x : Sha2.Word) : ssig1 x.toNat = (Sha2.smallSigma1 x).toNat := by
  rw [ssig1, Sha2.smallSigma1, BitVec.toNat_xor, BitVec.toNat_xor, BitVec.toNat_ushiftRight,
    rotr_toNat x (by decide), rotr_toNat x (by decide)]

/-! ## One block -/

/-- The eight words of the header's digest that hold the standard's. -/
def Words.ofVars (v : Sha2.Vars) : Words :=
  ⟨v.a.toNat, v.b.toNat, v.c.toNat, v.d.toNat, v.e.toNat, v.f.toNat, v.g.toNat, v.h.toNat⟩

/-- The table of constants is the standard's. -/
theorem addConstant_eq_map : addConstant = Sha2.roundConstants.map BitVec.toNat := by
  decide +kernel

theorem addConstant_eq :
    addConstant = (List.range 64).map fun t => (Sha2.roundConstants.getD t 0).toNat := by
  have hlen : Sha2.roundConstants.length = 64 := by
    have := congrArg List.length addConstant_eq_map
    rw [List.length_map] at this
    exact this.symm
  rw [addConstant_eq_map]
  refine List.ext_getElem (by rw [List.length_map, List.length_map, List.length_range, hlen]) ?_
  intro t ht _
  rw [List.length_map] at ht
  rw [List.getElem_map, List.getElem_map, List.getElem_range, List.getD_eq_getElem _ _ ht]

theorem initialMessageDigest_eq : initialMessageDigest = Words.ofVars Sha2.initial := by
  decide +kernel

/-- One round is the standard's step. -/
theorem round_ofVars (v : Sha2.Vars) (k w : Sha2.Word) :
    round (Words.ofVars v) k.toNat w.toNat = Words.ofVars (Sha2.step v k w) := by
  simp only [round, Sha2.step, Words.ofVars, bsig0_toNat, bsig1_toNat, ch_toNat, maj_toNat,
    Words.mk.injEq, BitVec.toNat_add, mask32, true_and, and_true]
  constructor
  · omega
  · omega

/-- Four bytes as the header puts them together. -/
theorem beValue_four (p q r s : UInt8) :
    p.toNat <<< 24 ||| q.toNat <<< 16 ||| r.toNat <<< 8 ||| s.toNat = Sha2.beValue [p, q, r, s] := by
  have hp := p.toNat_lt
  have hq := q.toNat_lt
  have hr := r.toNat_lt
  have hs := s.toNat_lt
  have h1 : p.toNat <<< 8 ||| q.toNat = 256 * p.toNat + q.toNat := by
    rw [← Nat.shiftLeft_add_eq_or_of_lt (by omega), Nat.shiftLeft_eq]
    omega
  have h2 : p.toNat <<< 24 ||| q.toNat <<< 16 = (256 * p.toNat + q.toNat) <<< 16 := by
    rw [← h1, Nat.shiftLeft_or_distrib, ← Nat.shiftLeft_add]
  have h3 : (256 * p.toNat + q.toNat) <<< 8 ||| r.toNat
      = 256 * (256 * p.toNat + q.toNat) + r.toNat := by
    rw [← Nat.shiftLeft_add_eq_or_of_lt (by omega), Nat.shiftLeft_eq]
    omega
  have h4 : (256 * p.toNat + q.toNat) <<< 16 ||| r.toNat <<< 8
      = (256 * (256 * p.toNat + q.toNat) + r.toNat) <<< 8 := by
    rw [← h3, Nat.shiftLeft_or_distrib, ← Nat.shiftLeft_add]
  rw [h2, h4, ← Nat.shiftLeft_add_eq_or_of_lt (by omega), Nat.shiftLeft_eq]
  simp only [Sha2.beValue, List.foldl_cons, List.foldl_nil]
  omega

theorem beValue_four_lt (p q r s : UInt8) : Sha2.beValue [p, q, r, s] < 2 ^ 32 := by
  have hp := p.toNat_lt
  have hq := q.toNat_lt
  have hr := r.toNat_lt
  have hs := s.toNat_lt
  simp only [Sha2.beValue, List.foldl_cons, List.foldl_nil]
  omega

/-- The first words of the schedule, the last one first. -/
theorem blockWords_eq {k : Nat} {block : List UInt8} (hlen : block.length = 4 * k) (w : List Nat) :
    blockWords block w
      = ((List.range k).map fun t => (Sha2.blockWord block t).toNat).reverse ++ w := by
  induction k generalizing block w with
  | zero =>
    obtain rfl := List.eq_nil_of_length_eq_zero hlen
    rfl
  | succ k ih =>
    obtain ⟨p, q, r, s, rest, rfl⟩ : ∃ p q r s rest, block = p :: q :: r :: s :: rest := by
      rcases block with - | ⟨p, - | ⟨q, - | ⟨r, - | ⟨s, rest⟩⟩⟩⟩
      all_goals first
        | exact ⟨p, q, r, s, rest, rfl⟩
        | (simp only [List.length_cons, List.length_nil] at hlen; omega)
    have hrest : rest.length = 4 * k := by
      simp only [List.length_cons] at hlen
      omega
    have hhead : (Sha2.blockWord (p :: q :: r :: s :: rest) 0).toNat = Sha2.beValue [p, q, r, s] := by
      show (BitVec.ofNat 32 (Sha2.beValue [p, q, r, s])).toNat = _
      rw [BitVec.toNat_ofNat, Nat.mod_eq_of_lt (beValue_four_lt p q r s)]
    rw [blockWords, ih hrest, beValue_four, List.range_succ_eq_map, List.map_cons, List.map_map,
      List.reverse_cons, List.append_assoc, List.singleton_append, hhead]
    congr 4

theorem getD_reverse_range {m i : Nat} (f : Nat → Nat) (h : i < m) :
    ((List.range m).map f).reverse.getD i 0 = f (m - 1 - i) := by
  rw [List.getD_eq_getElem _ _ (by simpa using h), List.getElem_reverse, List.getElem_map,
    List.getElem_range, List.length_map, List.length_range]

/-- **The schedule.** Each further word is the recurrence's. -/
theorem extendWords_eq (m : Nat → Sha2.Word) (n : Nat) {k : Nat} (hk : 16 ≤ k) :
    extendWords n ((List.range k).map fun t => (Sha2.schedule m t).toNat).reverse
      = ((List.range (k + n)).map fun t => (Sha2.schedule m t).toNat).reverse := by
  induction n generalizing k with
  | zero => rfl
  | succ n ih =>
    have hword : mask32 (ssig1 (Sha2.schedule m (k - 1 - 1)).toNat
        + (Sha2.schedule m (k - 1 - 6)).toNat + ssig0 (Sha2.schedule m (k - 1 - 14)).toNat
        + (Sha2.schedule m (k - 1 - 15)).toNat) = (Sha2.schedule m k).toNat := by
      rw [Sha2.schedule_of_le m hk, ssig1_toNat, ssig0_toNat, show k - 1 - 1 = k - 2 by omega,
        show k - 1 - 6 = k - 7 by omega, show k - 1 - 14 = k - 15 by omega,
        show k - 1 - 15 = k - 16 by omega]
      simp only [BitVec.toNat_add, mask32]
      omega
    rw [extendWords, getD_reverse_range _ (by omega), getD_reverse_range _ (by omega),
      getD_reverse_range _ (by omega), getD_reverse_range _ (by omega), hword,
      show k + (n + 1) = k + 1 + n by omega, ← ih (by omega), List.range_succ, List.map_append,
      List.reverse_append]
    rfl

/-- All 64 words, in order. -/
theorem schedule_eq {block : List UInt8} (hlen : block.length = 64) :
    (extendWords 48 (blockWords block [])).reverse
      = (List.range 64).map fun t => (Sha2.schedule (Sha2.blockWord block) t).toNat := by
  have hfirst : ((List.range 16).map fun t => (Sha2.blockWord block t).toNat)
      = (List.range 16).map fun t => (Sha2.schedule (Sha2.blockWord block) t).toNat := by
    refine List.map_congr_left fun t ht => ?_
    rw [Sha2.schedule_of_lt _ (List.mem_range.mp ht)]
  rw [blockWords_eq (k := 16) hlen, List.append_nil, hfirst,
    extendWords_eq (Sha2.blockWord block) 48 le_rfl, List.reverse_reverse]

/-- Rounds over any round numbers. -/
theorem foldl_round_ofVars (w : Nat → Sha2.Word) (ts : List Nat) (v : Sha2.Vars) :
    ts.foldl (fun s t => round s (Sha2.roundConstants.getD t 0).toNat (w t).toNat) (Words.ofVars v)
      = Words.ofVars (ts.foldl (fun v t => Sha2.step v (Sha2.roundConstants.getD t 0) (w t)) v) := by
  induction ts generalizing v with
  | nil => rfl
  | cons t ts ih => rw [List.foldl_cons, List.foldl_cons, round_ofVars, ih]

/-- The 64 rounds of a block. -/
theorem rounds_ofVars (v : Sha2.Vars) {block : List UInt8} (hlen : block.length = 64) :
    (addConstant.zip (extendWords 48 (blockWords block [])).reverse).foldl
        (fun t kw => round t kw.1 kw.2) (Words.ofVars v)
      = Words.ofVars (Sha2.rounds v block) := by
  rw [schedule_eq hlen, addConstant_eq, List.zip_map', List.foldl_map, Sha2.rounds,
    foldl_round_ofVars (Sha2.schedule (Sha2.blockWord block))]

/-- The final additions, each masked. -/
theorem add_ofVars (v t : Sha2.Vars) :
    (⟨mask32 ((Words.ofVars v).a + (Words.ofVars t).a), mask32 ((Words.ofVars v).b + (Words.ofVars t).b),
      mask32 ((Words.ofVars v).c + (Words.ofVars t).c), mask32 ((Words.ofVars v).d + (Words.ofVars t).d),
      mask32 ((Words.ofVars v).e + (Words.ofVars t).e), mask32 ((Words.ofVars v).f + (Words.ofVars t).f),
      mask32 ((Words.ofVars v).g + (Words.ofVars t).g), mask32 ((Words.ofVars v).h + (Words.ofVars t).h)⟩
        : Words) = Words.ofVars (v.add t) := by
  simp only [Words.ofVars, Sha2.Vars.add, BitVec.toNat_add, mask32]

/-- **One block is one compression.** -/
theorem hash256Block_ofVars (v : Sha2.Vars) {block : List UInt8} (hlen : block.length = 64) :
    hash256Block (Words.ofVars v) block = Words.ofVars (Sha2.compress v block) := by
  unfold hash256Block
  dsimp only
  -- with the rounds out of sight: the kernel would run them to compare two sums
  rw [rounds_ofVars v hlen, Sha2.compress]
  generalize Sha2.rounds v block = t
  exact add_ofVars v t

/-! ## The length -/

/-- Every digit is a 16-bit one. -/
def Digits (ds : List Nat) : Prop := ∀ d ∈ ds, d < 65536

/-- Adding to the digits adds to the number, up to the digits there are. -/
theorem addToDataLength_spec {ds : List Nat} (hds : Digits ds) (c : Nat) :
    Digits (addToDataLength c ds) ∧ (addToDataLength c ds).length = ds.length ∧
      Nat.ofDigits 65536 (addToDataLength c ds) ≡ Nat.ofDigits 65536 ds + c
        [MOD 65536 ^ ds.length] := by
  induction ds generalizing c with
  | nil => exact ⟨hds, rfl, Nat.modEq_one⟩
  | cons d ds ih =>
    have hd : d < 65536 := hds d List.mem_cons_self
    have htail : Digits ds := fun x hx => hds x (List.mem_cons_of_mem _ hx)
    obtain ⟨ih1, ih2, ih3⟩ := ih htail ((d + c) / 65536)
    unfold addToDataLength
    split
    · refine ⟨?_, by rw [List.length_cons, ih2, List.length_cons], ?_⟩
      · intro x hx
        rcases List.mem_cons.mp hx with rfl | hx
        · exact Nat.mod_lt _ (by decide)
        · exact ih1 x hx
      · -- the carry goes to the next digit
        rw [Nat.ofDigits_cons, Nat.ofDigits_cons, List.length_cons, pow_succ']
        have hmul := (ih3.mul_left' 65536).add_left ((d + c) % 65536)
        have hsum : (d + c) % 65536 + 65536 * (Nat.ofDigits 65536 ds + (d + c) / 65536)
            = d + 65536 * Nat.ofDigits 65536 ds + c := by
          have := Nat.mod_add_div (d + c) 65536
          omega
        rw [hsum] at hmul
        exact_mod_cast hmul
    · refine ⟨?_, rfl, ?_⟩
      · intro x hx
        rcases List.mem_cons.mp hx with rfl | hx
        · omega
        · exact htail x hx
      · rw [Nat.ofDigits_cons, Nat.ofDigits_cons]
        exact congrArg (· % _) (by omega)

/-- Shifting the digits multiplies the number by 8. -/
theorem bitLengthDigits_spec {ds : List Nat} (hds : Digits ds) {c : Nat} (hc : c < 8) :
    Digits (bitLengthDigits c ds) ∧
      Nat.ofDigits 65536 (bitLengthDigits c ds) = (8 * Nat.ofDigits 65536 ds + c) % 65536 ^ ds.length
      := by
  induction ds generalizing c with
  | nil => exact ⟨hds, (Nat.mod_one _).symm⟩
  | cons d ds ih =>
    have hd : d < 65536 := hds d List.mem_cons_self
    have hcarry : (d >>> 13) % 65536 = (8 * d + c) / 65536 := by
      rw [Nat.shiftRight_eq_div_pow]
      omega
    have hshift : d <<< 3 ||| c = 8 * d + c := by
      rw [← Nat.shiftLeft_add_eq_or_of_lt hc, Nat.shiftLeft_eq]
      omega
    obtain ⟨ih1, ih2⟩ := ih (c := (8 * d + c) / 65536) (fun x hx => hds x (List.mem_cons_of_mem _ hx))
      (by omega)
    rw [bitLengthDigits, hcarry, hshift]
    refine ⟨?_, ?_⟩
    · intro x hx
      rcases List.mem_cons.mp hx with rfl | hx
      · exact Nat.mod_lt _ (by decide)
      · exact ih1 x hx
    · rw [Nat.ofDigits_cons, Nat.ofDigits_cons, ih2, List.length_cons, pow_succ', Nat.mod_mul]
      have hlow : (8 * (d + 65536 * Nat.ofDigits 65536 ds) + c) % 65536 = (8 * d + c) % 65536 := by
        omega
      have hhigh : (8 * (d + 65536 * Nat.ofDigits 65536 ds) + c) / 65536
          = 8 * Nat.ofDigits 65536 ds + (8 * d + c) / 65536 := by
        omega
      rw [hlow, hhigh]

/-- Digits written highest first, two bytes each, are the bytes of the number. -/
theorem digitBytes_eq {ds : List Nat} (hds : Digits ds) :
    (ds.reverse.flatMap fun d => [(d >>> 8).toUInt8, d.toUInt8])
      = Sha2.beBytes (2 * ds.length) (Nat.ofDigits 65536 ds) := by
  induction ds with
  | nil => rfl
  | cons d ds ih =>
    have hd : d < 65536 := hds d List.mem_cons_self
    have hbyte : ∀ x y : Nat, x % 256 = y % 256 → x.toUInt8 = y.toUInt8 := fun x y h => by
      rw [← UInt8.toNat_inj, Sha2.toNat_toUInt8, Sha2.toNat_toUInt8, h]
    rw [List.reverse_cons, List.flatMap_append, ih fun x hx => hds x (List.mem_cons_of_mem _ hx),
      List.length_cons, Nat.mul_succ, Nat.ofDigits_cons]
    have hhigh : (d + 65536 * Nat.ofDigits 65536 ds) / 256 / 256 = Nat.ofDigits 65536 ds := by
      omega
    show _ = Sha2.beBytes (2 * ds.length) _ ++ [_] ++ [_]
    rw [hhigh, List.append_assoc, hbyte ((d + 65536 * Nat.ofDigits 65536 ds) / 256) (d >>> 8)
        (by rw [Nat.shiftRight_eq_div_pow]; omega), hbyte (d + 65536 * Nat.ofDigits 65536 ds) d
        (by omega)]
    rfl

theorem beBytes_mod (k x : Nat) : Sha2.beBytes k (x % 256 ^ k) = Sha2.beBytes k x := by
  induction k generalizing x with
  | zero => rfl
  | succ k ih =>
    have hdiv : x % 256 ^ (k + 1) / 256 = x / 256 % 256 ^ k := by
      rw [pow_succ', Nat.mod_mul_right_div_self]
    have hlow : x % 256 ^ (k + 1) % 256 = x % 256 :=
      Nat.mod_mod_of_dvd _ (Dvd.intro_left _ rfl)
    rw [Sha2.beBytes, Sha2.beBytes, hdiv, ih]
    congr 2
    rw [← UInt8.toNat_inj, Sha2.toNat_toUInt8, Sha2.toNat_toUInt8, hlow]

/-- **The length field.** Four digits that spell a byte count modulo `2^64` are written as its bit
count, in eight bytes. -/
theorem writeDataBitLength_eq {ds : List Nat} (hds : Digits ds) (hfour : ds.length = 4) {len : Nat}
    (hlen : Nat.ofDigits 65536 ds ≡ len [MOD 65536 ^ 4]) :
    writeDataBitLength ds = Sha2.beBytes 8 (8 * len) := by
  obtain ⟨hdigits, hval⟩ := bitLengthDigits_spec hds (c := 0) (by decide)
  have hlength : (bitLengthDigits 0 ds).length = 4 := by
    obtain ⟨d0, d1, d2, d3, rfl⟩ : ∃ d0 d1 d2 d3, ds = [d0, d1, d2, d3] := by
      rcases ds with - | ⟨d0, - | ⟨d1, - | ⟨d2, - | ⟨d3, - | ⟨d4, ds⟩⟩⟩⟩⟩
      all_goals first
        | exact ⟨d0, d1, d2, d3, rfl⟩
        | (simp only [List.length_cons, List.length_nil] at hfour; omega)
    rfl
  have hmod : (8 * Nat.ofDigits 65536 ds + 0) % 65536 ^ 4 = 8 * len % 65536 ^ 4 := hlen.mul_left 8
  rw [writeDataBitLength, digitBytes_eq hdigits, hval, hlength, hfour, hmod,
    show (65536 : Nat) ^ 4 = 256 ^ 8 by norm_num, beBytes_mod]

/-! ## The whole message -/

theorem processBlocks_eq (k : Nat) (s : Words) (bytes : List UInt8) :
    processBlocks k s bytes = absorbBlocks 64 hash256Block k s bytes := by
  induction k generalizing s bytes with
  | zero => rfl
  | succ k ih => exact ih _ _

/-- **`finish` closes the message as the padding does.** What is in the buffer and the padding of the
whole message are one or two more blocks. -/
theorem finish_eq (s : Words) {buffer : List UInt8} {ds : List Nat} {len : Nat} (hds : Digits ds)
    (hfour : ds.length = 4) (hlen : Nat.ofDigits 65536 ds ≡ len [MOD 65536 ^ 4])
    (hbuffer : buffer.length = len % 64) :
    finish s buffer ds = (absorb 64 hash256Block s (buffer ++ Sha2.padding len)).1 := by
  have hlt : buffer.length < 64 := by omega
  have hzeros : Sha2.zeroCount len = (119 - buffer.length) % 64 := by rw [Sha2.zeroCount, hbuffer]
  have hfield : (Sha2.beBytes 8 (8 * len)).length = 8 := Sha2.beBytes_length 8 _
  have hone : ∀ (t : Words) {b : List UInt8}, b.length = 64 →
      (absorb 64 hash256Block t b).1 = hash256Block t b := by
    intro t b hb
    rw [BlockHash.absorb_of_le (by decide) (by omega), List.take_of_length_le (by omega),
      List.drop_of_length_le (by omega), BlockHash.absorb_of_lt (by decide)]
  unfold finish
  rw [writeDataBitLength_eq hds hfour hlen, Sha2.padding]
  simp only
  split
  case isTrue hlong =>
    -- the buffer, the one bit and zeros fill a block; the length is in the next
    have hsplit : buffer ++ 0x80 :: (List.replicate (Sha2.zeroCount len) 0 ++ Sha2.beBytes 8 (8 * len))
        = (buffer ++ 0x80 :: List.replicate (63 - buffer.length) 0)
          ++ (List.replicate 56 0 ++ Sha2.beBytes 8 (8 * len)) := by
      rw [show Sha2.zeroCount len = (63 - buffer.length) + 56 by omega, List.replicate_add]
      simp only [List.append_assoc, List.cons_append]
    have hfirst : (buffer ++ 0x80 :: List.replicate (63 - buffer.length) 0).length = 64 := by
      rw [List.length_append, List.length_cons, List.length_replicate]
      omega
    rw [hsplit, BlockHash.absorb_of_le (by decide) (by rw [List.length_append]; omega),
      List.take_left' hfirst, List.drop_left' hfirst,
      hone _ (by rw [List.length_append, List.length_replicate, hfield])]
  case isFalse hshort =>
    have hfront : (buffer ++ 0x80 :: List.replicate (Sha2.zeroCount len) 0).length = 56 := by
      rw [List.length_append, List.length_cons, List.length_replicate]
      omega
    have htake : (buffer ++ 0x80 :: List.replicate (63 - buffer.length) 0).take 56
        = buffer ++ 0x80 :: List.replicate (Sha2.zeroCount len) (0 : UInt8) := by
      rw [show 63 - buffer.length = Sha2.zeroCount len + 8 by omega, List.replicate_add,
        ← List.cons_append, ← List.append_assoc, List.take_left' hfront]
    have hsplit : buffer ++ 0x80 :: (List.replicate (Sha2.zeroCount len) 0 ++ Sha2.beBytes 8 (8 * len))
        = (buffer ++ 0x80 :: List.replicate (Sha2.zeroCount len) 0) ++ Sha2.beBytes 8 (8 * len) := by
      simp only [List.append_assoc, List.cons_append]
    rw [htake, hsplit, hone]
    rw [List.length_append, hfield, hfront]

theorem wordBytes_eq (x : Nat) : wordBytes x = Sha2.beBytes 4 x := by
  show _ = [(x / 256 / 256 / 256).toUInt8, (x / 256 / 256).toUInt8, (x / 256).toUInt8, x.toUInt8]
  simp only [wordBytes, Nat.shiftRight_eq_div_pow, Nat.div_div_eq_div_mul, Nat.reduceMul,
    Nat.reducePow]

/-- `get_hash_bytes`, for all 32 bytes. -/
def digestBytes (r : Words) : List UInt8 :=
  wordBytes r.a ++ wordBytes r.b ++ wordBytes r.c ++ wordBytes r.d ++
    wordBytes r.e ++ wordBytes r.f ++ wordBytes r.g ++ wordBytes r.h

theorem digestBytes_ofVars (v : Sha2.Vars) : digestBytes (Words.ofVars v) = Sha2.digest v := by
  simp only [digestBytes, wordBytes_eq]
  rfl

/-- Absorbing the padded message from the header's initial value is the standard's fold. -/
theorem chain_eq (message : List UInt8) :
    (absorb 64 hash256Block initialMessageDigest (Sha2.pad message)).1
      = Words.ofVars ((Sha2.paddedBlocks message).foldl Sha2.compress Sha2.initial) := by
  have hmap := BlockHash.absorb_map (n := 64) (by decide) (f := Sha2.compress) (g := hash256Block)
    (φ := Words.ofVars) (I := fun _ => True)
    (fun v b _ hb => ⟨trivial, hash256Block_ofVars v hb⟩) (s := Sha2.initial) trivial
    (Sha2.pad message)
  rw [initialMessageDigest_eq, hmap.2, absorb, BlockHash.absorbBlocks_eq_foldl, Sha2.paddedBlocks]

/-- **`picosha2::hash256` is SHA-256**, for every string. -/
theorem hash256_eq (src : List UInt8) : hash256 src = Sha2.hash src := by
  have hzeros : Digits [0, 0, 0, 0] := by simp [Digits]
  obtain ⟨hdigits, hfour, hval⟩ := addToDataLength_spec hzeros src.length
  have hlen : Nat.ofDigits 65536 (addToDataLength src.length [0, 0, 0, 0]) ≡ src.length
      [MOD 65536 ^ 4] := by
    have hzero : Nat.ofDigits 65536 [0, 0, 0, 0] = 0 := rfl
    rwa [hzero, Nat.zero_add] at hval
  show digestBytes (finish (processBlocks (src.length / 64) initialMessageDigest src).1
    (processBlocks (src.length / 64) initialMessageDigest src).2 _) = _
  rw [processBlocks_eq, ← absorb, finish_eq _ hdigits hfour hlen
      (BlockHash.absorb_rest_length (by decide) _ _),
    ← BlockHash.absorb_append (by decide), ← Sha2.pad, chain_eq, digestBytes_ofVars, Sha2.hash]

end Sha256

end CCache.Server
