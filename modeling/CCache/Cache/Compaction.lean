/-
# CCache.Cache.Compaction — what `CompactCache` does to a well-formed cache.

The loop packs the used extents from `dataStart` on in slot order: the extent of slot `i` ends up at
`packedStart d i`, the sum of the lengths before it.  Since the used extents are disjoint and lie
below `next_offset`, the sums stay below it and no `uint32_t` operation of the loop wraps.  The
directory after the loop is `compacted`; the data bytes are those of `moved`, the sequence of moves
in slot order, each reading what the earlier ones have left.
-/
import CCache.Cache.Trace
import CCache.Cache.WellFormed
import Mathlib.Algebra.BigOperators.Intervals

namespace CCache.Cache

open CCache.Lib.ByteMemory
open CCache.Lib.Extents

namespace Directory

/-- The length slot `j` contributes to the packed area. -/
def liveLength (d : Directory) (j : Nat) : Nat := if (d.slot j).used then (d.slot j).length else 0

/-- Where the packed extent of slot `i` begins. -/
def packedStart (d : Directory) (i : Nat) : Nat := dataStart + ∑ j ∈ Finset.range i, d.liveLength j

/-- The slots below `n` packed, the others as they were. -/
def packedTo (d : Directory) (n : Nat) : Directory :=
  { d with slot := fun j =>
      if j < n ∧ (d.slot j).used = true then { d.slot j with offset := d.packedStart j } else d.slot j }

/-- The directory after compaction. -/
def compacted (d : Directory) : Directory :=
  { d with
    next := d.packedStart cacheMaxEntries
    slot := (d.packedTo cacheMaxEntries).slot }

/-- The data bytes after the moves of the slots below `n`. -/
def moved (d : Directory) (m : Mem) : Nat → Mem
  | 0 => m
  | n + 1 =>
    if (d.slot n).used then
      blit (d.moved m n) (d.packedStart n) (d.slot n).length
        fun i => d.moved m n ((d.slot n).offset + i)
    else d.moved m n

@[simp] theorem packedStart_zero (d : Directory) : d.packedStart 0 = dataStart := by
  simp [packedStart]

theorem packedStart_succ (d : Directory) (i : Nat) :
    d.packedStart (i + 1) = d.packedStart i + d.liveLength i := by
  rw [packedStart, packedStart, Finset.sum_range_succ, Nat.add_assoc]

theorem packedStart_mono (d : Directory) {i j : Nat} (h : i ≤ j) :
    d.packedStart i ≤ d.packedStart j := by
  induction h with
  | refl => exact le_refl _
  | step _ ih =>
    rw [packedStart_succ]
    exact ih.trans (Nat.le_add_right _ _)

theorem dataStart_le_packedStart (d : Directory) (i : Nat) : dataStart ≤ d.packedStart i :=
  Nat.le_add_right _ _

theorem liveLength_of_used {d : Directory} {i : Nat} (h : (d.slot i).used = true) :
    d.liveLength i = (d.slot i).length := if_pos h

/-- The packed extent of a used slot ends before those of the later slots begin. -/
theorem packedStart_add_length {d : Directory} {i j : Nat} (h : (d.slot i).used = true)
    (hij : i < j) : d.packedStart i + (d.slot i).length ≤ d.packedStart j := by
  rw [← liveLength_of_used h, ← packedStart_succ]
  exact d.packedStart_mono hij

theorem packedTo_slot_used (d : Directory) (n i : Nat) :
    ((d.packedTo n).slot i).used = (d.slot i).used := by
  simp only [packedTo]
  split <;> rfl

theorem packedTo_slot_length (d : Directory) (n i : Nat) :
    ((d.packedTo n).slot i).length = (d.slot i).length := by
  simp only [packedTo]
  split <;> rfl

theorem packedTo_slot_ge (d : Directory) {n i : Nat} (h : n ≤ i) :
    (d.packedTo n).slot i = d.slot i := if_neg (by omega)

@[simp] theorem packedTo_zero (d : Directory) : d.packedTo 0 = d := by
  simp [packedTo]

/-- Packing one more used slot sets its offset. -/
theorem packedTo_succ_used {d : Directory} {n : Nat} (h : (d.slot n).used = true) :
    d.packedTo (n + 1) = (d.packedTo n).modify n fun e => { e with offset := d.packedStart n } := by
  refine Directory.ext rfl rfl rfl rfl ?_
  funext j
  by_cases hj : j = n
  · subst hj
    rw [modify_slot_self, packedTo_slot_ge d (le_refl _)]
    exact if_pos ⟨Nat.lt_succ_self _, h⟩
  · rw [modify, setSlot_slot_ne _ _ hj]
    simp only [packedTo]
    congr 1
    rw [Nat.lt_succ_iff, Nat.le_iff_lt_or_eq]
    simp [hj]

theorem packedTo_succ_free {d : Directory} {n : Nat} (h : (d.slot n).used = false) :
    d.packedTo (n + 1) = d.packedTo n := by
  refine Directory.ext rfl rfl rfl rfl ?_
  funext j
  by_cases hj : j = n
  · subst hj
    rw [packedTo_slot_ge d (le_refl _)]
    exact if_neg (by simp [h])
  · simp only [packedTo]
    congr 1
    rw [Nat.lt_succ_iff, Nat.le_iff_lt_or_eq]
    simp [hj]

theorem compacted_slot (d : Directory) {i : Nat} (hi : i < cacheMaxEntries) :
    d.compacted.slot i =
      if (d.slot i).used then { d.slot i with offset := d.packedStart i } else d.slot i := by
  show (if i < cacheMaxEntries ∧ (d.slot i).used = true then _ else _) = _
  by_cases hu : (d.slot i).used = true <;> simp [hi, hu]

end Directory

namespace WellFormed

variable {d : Directory}

/-- **The counting bound.** The used lengths fit between `dataStart` and `next_offset`. -/
theorem packedStart_le_next (h : WellFormed d) (i : Nat) (hi : i ≤ cacheMaxEntries) :
    d.packedStart i ≤ d.next := by
  have hsum : ∑ j ∈ d.usedSet, (d.slot j).length ≤ d.next - dataStart := by
    refine sum_len_le d.usedSet (fun j => (d.slot j).offset) (fun j => (d.slot j).length) _ _ ?_ ?_ ?_
    · exact fun j hj => h.extent_lo j (h.mem_usedSet.mp hj)
    · exact fun j hj => h.extent_hi j (h.mem_usedSet.mp hj)
    · exact fun j hj k hk hjk => h.disjoint j k (h.mem_usedSet.mp hj) (h.mem_usedSet.mp hk) hjk
  have heq : ∑ j ∈ Finset.range cacheMaxEntries, d.liveLength j =
      ∑ j ∈ d.usedSet, (d.slot j).length := by
    rw [Directory.usedSet, Finset.sum_filter]
    rfl
  have hlo := h.next_lo
  calc d.packedStart i ≤ d.packedStart cacheMaxEntries := d.packedStart_mono hi
    _ = dataStart + ∑ j ∈ d.usedSet, (d.slot j).length := by rw [Directory.packedStart, heq]
    _ ≤ d.next := by omega

end WellFormed

/-! ## The loop -/

/-- An entry that is not used is skipped. -/
theorem compactStep_free {s : Mapping} {i : Nat} (w : Nat) (hi : i < cacheMaxEntries)
    (hu : ((directory s.mem).slot i).used = false) : compactStep s w i = (s, w) := by
  unfold compactStep
  rw [entryIsUsed_eq hi, hu]
  exact if_neg (by simp)

/-- Setting a slot to what it is changes nothing. -/
theorem Directory.modify_eq_self {d : Directory} {i : Nat} {f : Slot → Slot}
    (h : f (d.slot i) = d.slot i) : d.modify i f = d := by
  refine Directory.ext rfl rfl rfl rfl ?_
  funext j
  by_cases hj : j = i
  · rw [hj, modify_slot_self, h]
  · rw [modify, setSlot_slot_ne _ _ hj]

section Step

variable {s : Mapping} {w i : Nat} (hi : i < cacheMaxEntries) {e : Slot}
  (he : (directory s.mem).slot i = e) (hlo : dataStart ≤ e.offset) (hw : dataStart ≤ w)
  (hfit : w + e.length ≤ cacheFileSize)
include hi he hlo hw hfit

/-- **The move of one entry.** Its offset becomes `write_offset` and its bytes are copied there, also
when it is there already. -/
theorem moveEntry_spec :
    directory (moveEntry s w i).mem =
        (directory s.mem).modify i (fun e => { e with offset := w }) ∧
      (∀ x, dataStart ≤ x → (moveEntry s w i).mem x =
        blit s.mem w e.length (fun k => s.mem (e.offset + k)) x) ∧
      (s.Safe → e.offset + e.length ≤ cacheFileSize → (moveEntry s w i).Safe) := by
  have hsize := cacheFileSize_lt
  have hb := entryAddr_bounds hi
  have hlen : entryLength s.mem i = e.length := by rw [entryLength_eq hi, he]
  have hoffEq : entryOffset s.mem i = e.offset := by rw [entryOffset_eq hi, he]
  have hoff : e.offset < 2 ^ 32 := hoffEq ▸ readWord_lt _ _
  have hsub : dataStart + sub32 e.offset dataStart = e.offset := by
    rw [sub32_eq hoff hlo]
    omega
  have hptr : dataPtr w = w := dataPtr_eq (by omega)
  have hsafe : s.Safe → (s.emit (.sub32 e.offset dataStart)).Safe := fun h =>
    (Mapping.safe_emit _ _).mpr ⟨h, hlo, hoff⟩
  unfold moveEntry
  simp only [hoffEq, hsub, hptr, Mapping.emit_sub32_mem, hlen]
  by_cases hne : w = e.offset
  · -- the code skips the move; a copy of the range onto itself is no change either
    rw [if_neg (not_not_intro hne), Mapping.emit_sub32_mem]
    refine ⟨?_, fun x _ => ?_, fun h _ => hsafe h⟩
    · rw [Directory.modify_eq_self]
      rw [he, hne]
    · rw [hne, blit_self]
  · rw [if_pos hne]
    refine ⟨?_, fun x hx => ?_, fun h hin => ?_⟩
    · rw [Mapping.setOffset_directory hi, Mapping.memmove_mem, Mapping.emit_sub32_mem,
        directory_blit_data hw, Nat.mod_eq_of_lt (by omega)]
    · rw [Mapping.setOffset_data hi hx, Mapping.memmove_mem, Mapping.emit_sub32_mem]
    · have hmove := (Mapping.safe_emit _ (.move w e.offset e.length fun k =>
        (s.emit (.sub32 e.offset dataStart)).mem (e.offset + k))).mpr
          ⟨hsafe h, ⟨hw, hfit⟩, hlo, hin⟩
      exact Mapping.safe_setWord hmove _ _ (by have := dataStart_le_fileSize; omega)

/-- **One used entry of the loop.** The entry moves to `write_offset`, which then moves past it. -/
theorem compactStep_used (hu : e.used = true) (hpos : 0 < e.length) :
    directory (compactStep s w i).1.mem =
        (directory s.mem).modify i (fun e => { e with offset := w }) ∧
      (∀ x, dataStart ≤ x → (compactStep s w i).1.mem x =
        blit s.mem w e.length (fun k => s.mem (e.offset + k)) x) ∧
      (compactStep s w i).2 = w + e.length ∧
      (s.Safe → e.offset + e.length ≤ cacheFileSize → (compactStep s w i).1.Safe) := by
  have hsize := cacheFileSize_lt
  obtain ⟨hdir, hdata, hsafe⟩ := moveEntry_spec hi he hlo hw hfit
  have hcond : entryIsUsed s.mem i = true ∧ 0 < entryLength s.mem i := by
    rw [entryIsUsed_eq hi, entryLength_eq hi, he]
    exact ⟨hu, hpos⟩
  have hlen : entryLength (moveEntry s w i).mem i = e.length := by
    rw [entryLength_eq hi, hdir, Directory.modify_slot_self, he]
  have hstep : compactStep s w i =
      ((moveEntry s w i).emit (.add32 w e.length), w + e.length) := by
    unfold compactStep
    rw [if_pos hcond]
    simp only [hlen]
    rw [add32_eq (by omega)]
  rw [hstep]
  refine ⟨hdir, hdata, rfl, fun h hin => ?_⟩
  refine (Mapping.safe_emit _ _).mpr ⟨hsafe h hin, ?_⟩
  show w + e.length < 2 ^ 32
  omega

end Step

/-- **The loop of `CompactCache`.** After `n` entries `write_offset` is `packedStart n`, the slots
below `n` are packed and the data bytes are those of `moved`. -/
theorem compactLoop_spec {s : Mapping} (h : WellFormed (directory s.mem)) (n : Nat)
    (hn : n ≤ cacheMaxEntries) :
    (compactLoop s n).2 = (directory s.mem).packedStart n ∧
      directory (compactLoop s n).1.mem = (directory s.mem).packedTo n ∧
      (∀ x, dataStart ≤ x → (compactLoop s n).1.mem x = (directory s.mem).moved s.mem n x) ∧
      (s.Safe → (compactLoop s n).1.Safe) := by
  induction n with
  | zero => exact ⟨by simp [compactLoop], by simp [compactLoop], fun x _ => rfl, id⟩
  | succ n ih =>
    obtain ⟨hw, hdir, hdata, hsafe⟩ := ih (by omega)
    have hi : n < cacheMaxEntries := by omega
    have hslot : (directory (compactLoop s n).1.mem).slot n = (directory s.mem).slot n := by
      rw [hdir, Directory.packedTo_slot_ge _ (le_refl n)]
    rw [compactLoop]
    by_cases hu : ((directory s.mem).slot n).used = true
    · have hle := h.packedStart_le_next (n + 1) hn
      rw [Directory.packedStart_succ, Directory.liveLength_of_used hu] at hle
      obtain ⟨hdir', hdata', hw', hsafe'⟩ := compactStep_used (w := (compactLoop s n).2) hi hslot
        (h.extent_lo n hu) (by rw [hw]; exact Directory.dataStart_le_packedStart _ _)
        (by rw [hw]; exact hle.trans h.next_hi) hu (h.length_pos n hu)
      refine ⟨?_, ?_, ?_, fun hs => hsafe' (hsafe hs) (h.extent_file hu)⟩
      · rw [hw', hw, Directory.packedStart_succ, Directory.liveLength_of_used hu]
      · rw [hdir', hdir, Directory.packedTo_succ_used hu, hw]
      · intro x hx
        rw [hdata' x hx, Directory.moved, if_pos hu, hw]
        -- the source of the move is read behind the moves before it, on both sides
        by_cases hin : (directory s.mem).packedStart n ≤ x ∧
            x < (directory s.mem).packedStart n + ((directory s.mem).slot n).length
        · have hlo := h.extent_lo n hu
          rw [blit_in hin.1 hin.2, blit_in hin.1 hin.2, hdata _ (by omega)]
        · rw [blit_out (by omega), blit_out (by omega), hdata x hx]
    · have hfree : ((directory s.mem).slot n).used = false := by simpa using hu
      rw [compactStep_free _ hi (by rw [hslot]; exact hfree)]
      refine ⟨?_, ?_, ?_, hsafe⟩
      · rw [hw, Directory.packedStart_succ, Directory.liveLength, if_neg hu, Nat.add_zero]
      · rw [hdir, Directory.packedTo_succ_free hfree]
      · intro x hx
        rw [hdata x hx, Directory.moved, if_neg hu]

/-- **`CompactCache`.** The directory is packed, `next_offset` is the end of the packed area, and the
data bytes are those of the moves in slot order. -/
theorem compactCache_spec {s : Mapping} (h : WellFormed (directory s.mem)) :
    directory (compactCache s).mem = (directory s.mem).compacted ∧
      (∀ x, dataStart ≤ x →
        (compactCache s).mem x = (directory s.mem).moved s.mem cacheMaxEntries x) ∧
      (s.Safe → (compactCache s).Safe) := by
  have hsize := cacheFileSize_lt
  have hhead := header_le_dataStart
  have hfile := dataStart_le_fileSize
  obtain ⟨hw, hdir, hdata, hsafe⟩ := compactLoop_spec h cacheMaxEntries (le_refl _)
  have hle := (h.packedStart_le_next cacheMaxEntries (le_refl _)).trans h.next_hi
  unfold compactCache
  refine ⟨?_, fun x hx => ?_, fun hs => Mapping.safe_setWord (hsafe hs) _ _ (by omega)⟩
  · rw [Mapping.setNextOffset_directory, hdir, hw, Nat.mod_eq_of_lt (by omega)]
    rfl
  · rw [Mapping.setNextOffset_data _ _ hx, hdata x hx]

end CCache.Cache
