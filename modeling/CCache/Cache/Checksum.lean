/-
# CCache.Cache.Checksum — which changes of the stored bytes the checksum catches.

`CalculateChecksum` is the hash `h ↦ 33 h + b` modulo `2^32`.  Since 33 is odd it is a unit there, so a
change inside a window of an extent is caught exactly when the checksum of the window alone changes, for
an extent of any length and a window anywhere in it.  The checksums of one byte and of two bytes do not
wrap; hence one altered byte, and two unequal neighbours exchanged, are always caught.
-/
import CCache.Cache.Lookup
import CCache.Lib.PolyHash
import Mathlib.Data.ZMod.Units

namespace CCache.Cache

open CCache.Lib.ByteMemory
open CCache.Lib.PolyHash
open CCache.Lib.Runs

/-! ## The checksum modulo `2^32` -/

/-- The bytes as residues. -/
def residues (data : List UInt8) : List (ZMod (2 ^ 32)) := data.map fun b => (b.toNat : ZMod (2 ^ 32))

theorem isUnit_33 : IsUnit (33 : ZMod (2 ^ 32)) :=
  (ZMod.isUnit_iff_coprime 33 (2 ^ 32)).mpr (Nat.Coprime.pow_right 32 (by decide))

/-- One round of the loop, as a residue. -/
theorem cast_round (checksum : Nat) (b : UInt8) :
    (add32 (add32 ((checksum <<< 5) % 2 ^ 32) checksum) b.toNat : ZMod (2 ^ 32)) =
      (checksum : ZMod (2 ^ 32)) * 33 + (b.toNat : ZMod (2 ^ 32)) := by
  unfold add32
  rw [ZMod.natCast_mod, Nat.cast_add, ZMod.natCast_mod, Nat.cast_add, ZMod.natCast_mod,
    Nat.shiftLeft_eq, Nat.cast_mul]
  push_cast
  ring

/-- **The checksum is the polynomial hash with multiplier 33 modulo `2^32`.** -/
theorem calculateChecksum_cast (data : List UInt8) :
    (calculateChecksum data : ZMod (2 ^ 32)) = polyHash 33 (residues data) := by
  unfold calculateChecksum polyHash residues
  suffices h : ∀ c : Nat, ((data.foldl (fun checksum b =>
      add32 (add32 ((checksum <<< 5) % 2 ^ 32) checksum) b.toNat) c : Nat) : ZMod (2 ^ 32)) =
      (data.map fun b => (b.toNat : ZMod (2 ^ 32))).foldl (fun h x => h * 33 + x)
        (c : ZMod (2 ^ 32)) by
    simpa using h 0
  induction data with
  | nil => exact fun c => rfl
  | cons b data ih =>
    intro c
    rw [List.foldl_cons, ih, List.map_cons, List.foldl_cons, cast_round]

theorem calculateChecksum_eq_iff (xs ys : List UInt8) : calculateChecksum xs = calculateChecksum ys ↔
    polyHash 33 (residues xs) = polyHash 33 (residues ys) := by
  rw [← calculateChecksum_cast, ← calculateChecksum_cast, ZMod.natCast_eq_natCast_iff',
    Nat.mod_eq_of_lt (calculateChecksum_lt _), Nat.mod_eq_of_lt (calculateChecksum_lt _)]

/-- A window is seen through its own checksum, whatever stands before and behind it. -/
theorem calculateChecksum_window (xs ys : List UInt8) {us vs : List UInt8}
    (hlen : us.length = vs.length) :
    calculateChecksum (xs ++ us ++ ys) = calculateChecksum (xs ++ vs ++ ys) ↔
      calculateChecksum us = calculateChecksum vs := by
  rw [calculateChecksum_eq_iff, calculateChecksum_eq_iff]
  unfold residues
  simp only [List.map_append]
  exact polyHash_window isUnit_33 _ _ (by simp [hlen])

theorem calculateChecksum_one (a : UInt8) : calculateChecksum [a] = a.toNat := by
  have ha := a.toNat_lt
  simp only [calculateChecksum, List.foldl_cons, List.foldl_nil, add32, Nat.zero_shiftLeft]
  omega

theorem calculateChecksum_two (a b : UInt8) :
    calculateChecksum [a, b] = 33 * a.toNat + b.toNat := by
  have ha := a.toNat_lt
  have hb := b.toNat_lt
  simp only [calculateChecksum, List.foldl_cons, List.foldl_nil, add32, Nat.shiftLeft_eq]
  omega

/-! ## A patched extent -/

/-- The bytes of a range around a window. -/
theorem read_window (m : Mem) (a : Nat) {n i w : Nat} (h : i + w ≤ n) :
    read m a n = read m a i ++ read m (a + i) w ++ read m (a + i + w) (n - (i + w)) := by
  obtain ⟨j, rfl⟩ := Nat.exists_eq_add_of_le h
  rw [Nat.add_sub_cancel_left, read_append, read_append, Nat.add_assoc a]

/-- Patching a window of a range patches the bytes read from it. -/
theorem read_patched (m : Mem) (a : Nat) {n i w : Nat} (h : i + w ≤ n) (f : Nat → UInt8) :
    read (blit m (a + i) w f) a n =
      read m a i ++ (List.range w).map f ++ read m (a + i + w) (n - (i + w)) := by
  rw [read_window _ a h, read_blit_disjoint (by omega), read_blit_same, read_blit_disjoint (by omega)]

/-- **What `Get` says of an entry whose extent was patched.** It answers false exactly when the patch
changes the checksum of its window. -/
theorem get_patched {m : Mem} (h : WellFormed (directory m)) {key : List UInt8} {v : View}
    (hg : get m key = some v) {i w : Nat} (hin : i + w ≤ v.length) (f : Nat → UInt8) :
    get (blit m (v.offset + i) w f) key = none ↔
      calculateChecksum ((List.range w).map f) ≠ calculateChecksum (read m (v.offset + i) w) := by
  obtain ⟨j, hh, hintact, rfl⟩ := holds_of_get h.names hg
  have hlo := h.extent_lo j hh.1
  generalize hk : blit m (((directory m).slot j).offset + i) w f = k
  -- the patch lies in the data area, so the slots are as they were
  have hdir : directory k = directory m := by
    rw [← hk, directory_blit_data (by omega)]
  have hholds : (directory k).Holds key j := hdir ▸ hh
  have hbytes : ((directory k).slot j).Intact k ↔
      calculateChecksum ((List.range w).map f) =
        calculateChecksum (read m (((directory m).slot j).offset + i) w) := by
    have hsum : calculateChecksum (((directory m).slot j).bytes m) =
      ((directory m).slot j).checksum := hintact
    rw [Slot.Intact, hdir, ← hsum, Slot.bytes, Slot.bytes, ← hk, read_patched m _ hin,
      read_window m _ hin]
    exact calculateChecksum_window _ _ (by simp)
  obtain ⟨hfound, hlost⟩ := get_of_holds (hdir ▸ h.names) hholds
  rw [Ne, ← hbytes]
  constructor
  · intro hnone hi
    rw [hfound hi] at hnone
    cases hnone
  · exact hlost

/-! ## Local corruption -/

/-- The file with one byte replaced. -/
def replaced (m : Mem) (x : Nat) (b : UInt8) : Mem := blit m x 1 fun _ => b

/-- The file with the bytes at `x` and `x + 1` exchanged. -/
def exchanged (m : Mem) (x : Nat) : Mem := blit m x 2 (content [m (x + 1), m x])

/-- **The checksum catches local corruption**, at any place of an extent of any length, in every
reachable state. -/
theorem local_corruption_caught {m : Mem} (h : Reachable m) {key : List UInt8} {v : View}
    (hg : get m key = some v) :
    (∀ i, i < v.length → ∀ b, b ≠ m (v.offset + i) → get (replaced m (v.offset + i) b) key = none) ∧
      ∀ i, i + 1 < v.length → m (v.offset + i) ≠ m (v.offset + i + 1) →
        get (exchanged m (v.offset + i)) key = none := by
  have hwf := h.wellFormed
  constructor
  · intro i hi b hb
    refine (get_patched hwf hg (i := i) (w := 1) hi fun _ => b).mpr ?_
    show calculateChecksum [b] ≠ calculateChecksum [m (v.offset + i)]
    rw [calculateChecksum_one, calculateChecksum_one]
    exact fun heq => hb (UInt8.toNat_inj.mp heq)
  · intro i hi hne
    refine (get_patched hwf hg (i := i) (w := 2) hi
      (content [m (v.offset + i + 1), m (v.offset + i)])).mpr ?_
    show calculateChecksum [m (v.offset + i + 1), m (v.offset + i)] ≠
      calculateChecksum [m (v.offset + i), m (v.offset + i + 1)]
    rw [calculateChecksum_two, calculateChecksum_two]
    intro heq
    refine hne (UInt8.toNat_inj.mp ?_)
    omega

/-- A stored value of two bytes: exchanging them, or altering the second, makes `Get` fail. -/
theorem local_corruption_caught_two :
    ∃ m, RunFrom (fun _ => 0) [.put [97] (some ⟨[1, 2], by decide⟩)] m ∧
      get m [97] = some ⟨dataStart, 2⟩ ∧ get (exchanged m dataStart) [97] = none ∧
      get (replaced m (dataStart + 1) 7) [97] = none := by
  obtain ⟨b, m, hfresh, hrun, hs⟩ :=
    reach_stored [97] ⟨[1, 2], by decide⟩ (by decide) (by decide)
  have hwf : WellFormed (directory b) := hfresh ▸ .fresh
  have hslot : (directory m).slot 0 = storedSlot [97] ⟨[1, 2], by decide⟩ dataStart := by
    rw [hs.slot_self, hfresh]
    rfl
  have hbytes := hs.bytes_self hwf
  have hintact : ((directory m).slot 0).Intact m := by
    rw [Slot.Intact, hbytes, hslot]
    rfl
  have hg : get m [97] = some ⟨dataStart, 2⟩ := by
    rw [(get_of_holds (hs.wellFormed hwf (by decide)).names hs.holds_self).1 hintact, hslot]
    rfl
  have hread : [m dataStart, m (dataStart + 1)] = [1, 2] := by
    rw [hslot] at hbytes
    exact hbytes
  obtain ⟨hfirst, hsecond⟩ : m dataStart = 1 ∧ m (dataStart + 1) = 2 := by simpa using hread
  obtain ⟨hone, htwo⟩ := local_corruption_caught ⟨_, _, hrun⟩ hg
  refine ⟨m, hrun, hg, htwo 0 (by decide) ?_, hone 1 (by decide) 7 ?_⟩
  · show m dataStart ≠ m (dataStart + 1)
    rw [hfirst, hsecond]
    decide
  · show 7 ≠ m (dataStart + 1)
    rw [hsecond]
    decide

end CCache.Cache
