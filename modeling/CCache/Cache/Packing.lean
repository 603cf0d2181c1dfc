/-
# CCache.Cache.Packing — the exact result of `CompactCache`, and exactly when `Put` succeeds.

Compaction leaves the used extents end to end from `dataStart` on, in slot order, and nothing else of
the header or the slots changes; a packed file is a fixed point, byte for byte.  The space `Put` can
offer, with or without compaction, is therefore what the live values leave of the file: whether a value
is stored depends on their total length and on the slot table, not on where the extents lie.
-/
import CCache.Cache.CompactionBytes

namespace CCache.Cache

open CCache.Lib.ByteMemory
open CCache.Lib.Runs

/-! ## Live values, in the words of the file -/

/-- The indices of the used slots of a file. -/
def usedEntries (m : Mem) : Finset Nat :=
  (Finset.range cacheMaxEntries).filter fun i => entryIsUsed m i = true

/-- The sum of the lengths of the used slots below `i`. -/
def liveBytesBelow (m : Mem) (i : Nat) : Nat :=
  ∑ j ∈ (usedEntries m).filter fun j => j < i, entryLength m j

/-- The sum of the lengths of all used slots. -/
def liveBytes (m : Mem) : Nat := ∑ j ∈ usedEntries m, entryLength m j

/-- Some slot holds `t(key)`. -/
def KeyStored (m : Mem) (key : List UInt8) : Prop :=
  ∃ i, i < cacheMaxEntries ∧ entryIsUsed m i = true ∧ keyName (entryKey m i) = keyName key

theorem usedEntries_eq (m : Mem) : usedEntries m = (directory m).usedSet := by
  refine Finset.filter_congr fun i hi => ?_
  rw [entryIsUsed_eq (Finset.mem_range.mp hi)]

theorem entryLength_of_mem {m : Mem} {j : Nat} (h : j ∈ usedEntries m) :
    entryLength m j = (directory m).liveLength j := by
  obtain ⟨hrange, hu⟩ := Finset.mem_filter.mp h
  have hj := Finset.mem_range.mp hrange
  rw [entryIsUsed_eq hj] at hu
  rw [entryLength_eq hj, Directory.liveLength_of_used hu]

/-- The sum over the used slots below `i` is the sum over all slots below `i` of what they contribute. -/
theorem packedStart_eq (m : Mem) {i : Nat} (hi : i ≤ cacheMaxEntries) :
    (directory m).packedStart i = dataStart + liveBytesBelow m i := by
  have hsub : (usedEntries m).filter (fun j => j < i) ⊆ Finset.range i := by
    intro j hj
    exact Finset.mem_range.mpr (Finset.mem_filter.mp hj).2
  have hsum : ∑ j ∈ (usedEntries m).filter (fun j => j < i), entryLength m j =
      ∑ j ∈ (usedEntries m).filter (fun j => j < i), (directory m).liveLength j :=
    Finset.sum_congr rfl fun j hj => entryLength_of_mem (Finset.mem_filter.mp hj).1
  rw [Directory.packedStart, liveBytesBelow, hsum]
  refine congrArg _ (Finset.sum_subset hsub fun j hj hout => ?_).symm
  -- a slot below `i` that is not among the used ones contributes nothing
  have hji := Finset.mem_range.mp hj
  have hfree : ¬ ((directory m).slot j).used = true := by
    intro hu
    refine hout (Finset.mem_filter.mpr ⟨?_, hji⟩)
    rw [usedEntries_eq]
    exact Finset.mem_filter.mpr ⟨Finset.mem_range.mpr (by omega), hu⟩
  exact if_neg hfree

theorem liveBytesBelow_all (m : Mem) : liveBytesBelow m cacheMaxEntries = liveBytes m := by
  have hall : (usedEntries m).filter (fun j => j < cacheMaxEntries) = usedEntries m := by
    refine Finset.filter_true_of_mem fun j hj => ?_
    exact Finset.mem_range.mp (Finset.mem_filter.mp hj).1
  rw [liveBytesBelow, hall, liveBytes]

theorem packedStart_all (m : Mem) :
    (directory m).packedStart cacheMaxEntries = dataStart + liveBytes m := by
  rw [packedStart_eq m (le_refl _), liveBytesBelow_all]

theorem keyStored_iff (m : Mem) (key : List UInt8) :
    KeyStored m key ↔ ∃ i, (directory m).Holds key i := by
  refine exists_congr fun i => ?_
  constructor
  · rintro ⟨hi, hu, hname⟩
    rw [entryIsUsed_eq hi] at hu
    rw [entryKey_eq hi] at hname
    exact ⟨hu, hname⟩
  · rintro ⟨hu, hname⟩
    have hi : i < cacheMaxEntries := lt_of_used hu
    refine ⟨hi, by rw [entryIsUsed_eq hi, hu], ?_⟩
    rw [entryKey_eq hi]
    exact hname

/-- Every slot is used exactly when no index is missing from the used ones. -/
theorem card_usedEntries_lt (m : Mem) : (usedEntries m).card < cacheMaxEntries ↔
    ∃ i, i < cacheMaxEntries ∧ ((directory m).slot i).used = false := by
  constructor
  · intro hcard
    by_contra hall
    have hfull : usedEntries m = Finset.range cacheMaxEntries := by
      refine Finset.filter_true_of_mem fun i hi => ?_
      have hlt := Finset.mem_range.mp hi
      rw [entryIsUsed_eq hlt]
      by_contra hu
      exact hall ⟨i, hlt, by simpa using hu⟩
    rw [hfull, Finset.card_range] at hcard
    exact lt_irrefl _ hcard
  · rintro ⟨i, hi, hfree⟩
    have hlt : (usedEntries m).card < (Finset.range cacheMaxEntries).card := by
      refine Finset.card_lt_card (Finset.filter_ssubset.mpr ⟨i, Finset.mem_range.mpr hi, ?_⟩)
      rw [entryIsUsed_eq hi, hfree]
      exact Bool.false_ne_true
    rwa [Finset.card_range] at hlt

/-! ## A packed file is a fixed point -/

namespace Directory

/-- Every used extent is where compaction puts it, and `next_offset` is where the last one ends. -/
structure Packed (d : Directory) : Prop where
  offset : ∀ i, (d.slot i).used = true → (d.slot i).offset = d.packedStart i
  next : d.next = d.packedStart cacheMaxEntries

theorem compacted_packedStart (d : Directory) (i : Nat) :
    d.compacted.packedStart i = d.packedStart i := by
  simp only [packedStart, liveLength, compacted_used, compacted_length]

end Directory

/-- Compaction leaves a packed directory. -/
theorem WellFormed.compacted_packed {d : Directory} (h : WellFormed d) : d.compacted.Packed where
  offset := by
    intro i hi
    rw [Directory.compacted_used] at hi
    rw [h.compacted_offset hi, Directory.compacted_packedStart]
  next := by
    rw [Directory.compacted_packedStart]
    rfl

/-- An entry that is at `write_offset` already is not moved. -/
theorem moveEntry_mem_self {s : Mapping} {w i : Nat} (hw : w = entryOffset s.mem i) :
    (moveEntry s w i).mem = s.mem := by
  unfold moveEntry
  simp only
  rw [if_neg (not_not_intro hw), Mapping.emit_sub32_mem]

theorem compactStep_mem_self {s : Mapping} {w i : Nat}
    (hw : entryIsUsed s.mem i = true → w = entryOffset s.mem i) :
    (compactStep s w i).1.mem = s.mem := by
  unfold compactStep
  by_cases hc : entryIsUsed s.mem i = true ∧ 0 < entryLength s.mem i
  · rw [if_pos hc]
    simp only
    rw [Mapping.emit_add32_mem, moveEntry_mem_self (hw hc.1)]
  · rw [if_neg hc]

/-- **The loop on a packed file.** `write_offset` meets every entry where it is. -/
theorem compactLoop_packed {m : Mem} (h : WellFormed (directory m)) (hp : (directory m).Packed)
    (n : Nat) (hn : n ≤ cacheMaxEntries) : (compactLoop (.start m) n).1.mem = m := by
  induction n with
  | zero => rfl
  | succ n ih =>
    have hmem := ih (by omega)
    have hw : (compactLoop (.start m) n).2 = (directory m).packedStart n :=
      (compactLoop_spec (s := .start m) h n (by omega)).1
    rw [compactLoop, compactStep_mem_self, hmem]
    rw [hmem, hw, entryIsUsed_eq (by omega), entryOffset_eq (by omega)]
    exact fun hu => (hp.offset n hu).symm

/-- **Compacting a packed file changes no byte**: `next_offset` is stored again as it is. -/
theorem compactCache_packed {m : Mem} (h : WellFormed (directory m)) (hp : (directory m).Packed) :
    (compactCache (.start m)).mem = m := by
  have hw : (compactLoop (.start m) cacheMaxEntries).2 = nextOffset m :=
    (compactLoop_spec (s := .start m) h cacheMaxEntries (le_refl _)).1.trans hp.next.symm
  rw [compactCache, hw, Mapping.setNextOffset, Mapping.setWord_mem,
    compactLoop_packed h hp cacheMaxEntries (le_refl _)]
  exact blit_toLE_readWord m 12

section Spaced

variable {m : Mem} (h : SpacedAt m)
include h

theorem SpacedAt.usedEntries_eq : usedEntries m = {0, 2} := by
  ext i
  rw [Cache.usedEntries_eq, h.wellFormed.mem_usedSet, h.used_iff, Finset.mem_insert,
    Finset.mem_singleton]

theorem SpacedAt.liveBytes_eq : liveBytes m = 3 := by
  rw [liveBytes, h.usedEntries_eq, Finset.sum_pair (by decide), entryLength_eq (by decide),
    entryLength_eq (by decide), h.slot_zero, h.slot_two]
  rfl

theorem SpacedAt.liveBytesBelow_two : liveBytesBelow m 2 = 1 := by
  have hstart := packedStart_eq m (i := 2) (by decide)
  rw [h.packedStart_two] at hstart
  omega

end Spaced

/-- What compaction makes of the header and the slots. -/
structure PacksExactly (m c : Mem) : Prop where
  offset : ∀ i, i < cacheMaxEntries → entryIsUsed m i = true →
    entryOffset c i = dataStart + liveBytesBelow m i
  next : nextOffset c = dataStart + liveBytes m
  next_le : nextOffset c ≤ nextOffset m
  key : ∀ i, i < cacheMaxEntries → entryKey c i = entryKey m i
  length : ∀ i, i < cacheMaxEntries → entryLength c i = entryLength m i
  checksum : ∀ i, i < cacheMaxEntries → entryChecksum c i = entryChecksum m i
  used : ∀ i, i < cacheMaxEntries → entryIsUsed c i = entryIsUsed m i
  count : entryCount c = entryCount m
  magic : magicNumber c = magicNumber m
  version : version c = version m

theorem CompactedFrom.packsExactly {m c : Mem} (h : WellFormed (directory m))
    (hc : CompactedFrom m c) : PacksExactly m c where
  offset := by
    intro i hi hu
    rw [entryIsUsed_eq hi] at hu
    rw [entryOffset_eq hi, hc.dir, h.compacted_offset hu, packedStart_eq m hi.le]
  next := by
    rw [← packedStart_all]
    exact congrArg Directory.next hc.dir
  next_le := by
    have hle := h.packedStart_le_next cacheMaxEntries (le_refl _)
    exact (congrArg Directory.next hc.dir).trans_le hle
  key := fun i hi => by rw [entryKey_eq hi, entryKey_eq hi, hc.dir, Directory.compacted_key]
  length := fun i hi => by
    rw [entryLength_eq hi, entryLength_eq hi, hc.dir, Directory.compacted_length]
  checksum := fun i hi => by
    rw [entryChecksum_eq hi, entryChecksum_eq hi, hc.dir, Directory.compacted_checksum]
  used := fun i hi => by
    rw [entryIsUsed_eq hi, entryIsUsed_eq hi, hc.dir, Directory.compacted_used]
  count := congrArg Directory.count hc.dir
  magic := congrArg Directory.magic hc.dir
  version := congrArg Directory.version hc.dir

/-- **`CompactCache` packs exactly and is idempotent**, in every reachable state: the prefix sums of the
live lengths are the new offsets, every `memmove` stays in the data area on both sides, and a second
compaction changes no byte of the file. -/
theorem compaction_packs_exactly {m : Mem} (h : Reachable m) :
    PacksExactly m (compactCache (.start m)).mem ∧
      (∀ dst src n f, Event.move dst src n f ∈ (compactCache (.start m)).log →
        (dataStart ≤ dst ∧ dst + n ≤ cacheFileSize) ∧ dataStart ≤ src ∧ src + n ≤ cacheFileSize) ∧
      (compactCache (.start (compactCache (.start m)).mem)).mem = (compactCache (.start m)).mem := by
  have hwf := h.wellFormed
  obtain ⟨hdir, hdata, hsafe⟩ := compactCache_spec (s := .start m) hwf
  have hc : CompactedFrom m (compactCache (.start m)).mem := ⟨hdir, hdata⟩
  refine ⟨hc.packsExactly hwf, fun dst src n f he => ?_, compactCache_packed ?_ ?_⟩
  · exact hsafe (Mapping.safe_start m) _ he
  · rw [hc.dir]
    exact hwf.compacted
  · rw [hc.dir]
    exact hwf.compacted_packed

/-- After `spaced` slot 2 goes to the end of slot 0. -/
theorem compaction_packs_spaced : ∃ m, RunFrom (fun _ => 0) spaced m ∧
    entryOffset m 2 = dataStart + 2 ∧ entryOffset (compactCache (.start m)).mem 2 = dataStart + 1 ∧
    PacksExactly m (compactCache (.start m)).mem := by
  have h := spaced_spec (initMmap_fresh (runFrom_zeros []).1)
  obtain ⟨hpacks, -, -⟩ := compaction_packs_exactly ⟨_, _, runFrom_zeros spaced⟩
  refine ⟨_, runFrom_zeros _, ?_, ?_, hpacks⟩
  · rw [entryOffset_eq (by decide), h.slot_two]
    rfl
  · rw [hpacks.offset 2 (by decide), h.liveBytesBelow_two]
    rw [entryIsUsed_eq (by decide), h.used_iff.mpr (.inr rfl)]

/-! ## When `Put` succeeds -/

section Put

variable {m b : Mem} {key : List UInt8} {data : Blob}

/-- A compaction changes neither the keys nor the flags. -/
theorem Room.holds_iff {length : Nat} (hr : Room m length b) (i : Nat) :
    (directory b).Holds key i ↔ (directory m).Holds key i := by
  rcases hr with ⟨-, rfl⟩ | ⟨-, hc⟩
  · exact Iff.rfl
  · rw [hc.dir, Directory.compacted_holds]

theorem Room.used_eq {length : Nat} (hr : Room m length b) (i : Nat) :
    ((directory b).slot i).used = ((directory m).slot i).used := by
  rcases hr with ⟨-, rfl⟩ | ⟨-, hc⟩
  · rfl
  · rw [hc.dir, Directory.compacted_used]

/-- Where `Put` looks for room, the value fits behind `next_offset` exactly when it fits behind the
live values: there was room at once, or `next_offset` is now the end of the packed area. -/
theorem Room.fits_iff (h : WellFormed (directory m)) (hr : Room m data.length b) :
    (directory b).next + data.length ≤ cacheFileSize ↔
      dataStart + liveBytes m + data.length ≤ cacheFileSize := by
  rw [← packedStart_all]
  rcases hr with ⟨hfit, rfl⟩ | ⟨-, hc⟩
  · have hlive := h.packedStart_le_next cacheMaxEntries (le_refl _)
    have hhi := h.next_hi
    have hfit' : data.length ≤ cacheFileSize - (directory b).next := hfit
    exact iff_of_true (by omega) (by omega)
  · rw [hc.dir]
    exact Iff.rfl

/-- **`Put` refuses exactly for want of room or of a slot.** -/
theorem Room.refused_iff (h : WellFormed (directory m)) (hr : Room m data.length b)
    (key : List UInt8) :
    Refused b key data ↔ ¬ (dataStart + liveBytes m + data.length ≤ cacheFileSize ∧
      (KeyStored m key ∨ (usedEntries m).card < cacheMaxEntries)) := by
  have hslots : ((∀ j, ¬ (directory b).Holds key j) ∧
      ∀ i, i < cacheMaxEntries → ((directory b).slot i).used = true) ↔
      ¬ (KeyStored m key ∨ (usedEntries m).card < cacheMaxEntries) := by
    rw [keyStored_iff, card_usedEntries_lt, not_or]
    push Not
    refine and_congr (forall_congr' fun j => not_congr (hr.holds_iff j)) ?_
    refine forall_congr' fun i => forall_congr' fun _ => ?_
    rw [hr.used_eq, Ne, Bool.not_eq_false]
  rw [Refused, hslots, ← not_le, hr.fits_iff h, ← not_and_or]

/-- A store fits and has a slot, so it was not refused. -/
theorem StoredAt.not_refused {idx : Nat} {k : Mem} (hs : StoredAt b key data idx k) :
    ¬ Refused b key data := by
  rintro (hbig | ⟨hnone, hfull⟩)
  · exact absurd hs.fits (Nat.not_le.mpr hbig)
  · rcases hs.target with ht | ⟨⟨hfree, -⟩, -⟩
    · exact hnone idx ht
    · rw [hfull idx hs.lt] at hfree
      exact Bool.false_ne_true hfree.symm

end Put

/-- **Exactly when `Put` succeeds**, in every reachable state: the value is not empty, it fits behind
the live values, and the key has a slot or there is one left.  So two reachable states with the same
live bytes, the same number of used slots and the same view of the key answer alike. -/
theorem put_succeeds_iff {m : Mem} (h : Reachable m) (key : List UInt8) (data : Blob) :
    ((put (.start m) key (some data)).1 = true ↔
      0 < data.length ∧ dataStart + liveBytes m + data.length ≤ cacheFileSize ∧
        (KeyStored m key ∨ (usedEntries m).card < cacheMaxEntries)) ∧
      ∀ m', Reachable m' → liveBytes m' = liveBytes m → (usedEntries m').card = (usedEntries m).card →
        (KeyStored m' key ↔ KeyStored m key) →
        (put (.start m') key (some data)).1 = (put (.start m) key (some data)).1 := by
  have hiff : ∀ k, Reachable k → ((put (.start k) key (some data)).1 = true ↔
      0 < data.length ∧ dataStart + liveBytes k + data.length ≤ cacheFileSize ∧
        (KeyStored k key ∨ (usedEntries k).card < cacheMaxEntries)) := by
    intro k hk
    have hwf := hk.wellFormed
    rcases Nat.eq_zero_or_pos data.length with hlen | hlen
    · rw [put_rejects key fun b hb => by rw [← Option.some.inj hb, hlen]]
      exact iff_of_false Bool.false_ne_true fun hpos => absurd hlen (Nat.ne_of_gt hpos.1)
    · obtain ⟨-, b, hroom, -, hcase⟩ := put_cases (s := .start k) hwf (Mapping.safe_start k) key hlen
      have href := hroom.refused_iff hwf key
      rcases hcase with ⟨hok, -, hrefused⟩ | ⟨hok, idx, hstored⟩
      · rw [hok]
        exact iff_of_false Bool.false_ne_true fun hall => href.mp hrefused hall.2
      · refine iff_of_true hok ⟨hlen, ?_⟩
        by_contra hnot
        exact hstored.not_refused (href.mpr hnot)
  refine ⟨hiff m h, fun m' hm' hbytes hcard hkey => ?_⟩
  rw [Bool.eq_iff_iff, hiff m' hm', hiff m h, hbytes, hcard, hkey]

/-- A value as long as the free bytes that `spaced` leaves, the gap included. -/
def filling : Blob := ⟨List.replicate (cacheFileSize - dataStart - 3) 0, by
  rw [List.length_replicate]
  exact (Nat.sub_le _ _).trans_lt ((Nat.sub_le _ _).trans_lt cacheFileSize_lt)⟩

/-- It goes behind the live values, and not behind `next_offset`: the compaction has to run. -/
theorem put_succeeds_spaced : ∃ m, RunFrom (fun _ => 0) spaced m ∧ Compacts m filling.length ∧
    (put (.start m) [100] (some filling)).1 = true := by
  have h := spaced_spec (initMmap_fresh (runFrom_zeros []).1)
  have hlen : filling.length = cacheFileSize - dataStart - 3 := by
    simp only [filling, Blob.length, List.length_replicate]
  have hnext : nextOffset (execAll (initMmap (.start fun _ => 0)).mem spaced) = dataStart + 4 := by
    show (directory (execAll (initMmap (.start fun _ => 0)).mem spaced)).next = _
    rw [h.dir]
    rfl
  have hroom : dataStart + 4 < cacheFileSize := by
    rw [dataStart_eq, cacheFileSize_eq]
    decide
  refine ⟨_, runFrom_zeros _, ⟨by omega, ?_⟩,
    (put_succeeds_iff ⟨_, _, runFrom_zeros spaced⟩ _ _).1.mpr ⟨by omega, ?_, .inr ?_⟩⟩
  · rw [availableSpace_eq h.wellFormed, hnext]
    omega
  · rw [h.liveBytes_eq]
    omega
  · rw [h.usedEntries_eq]
    decide

end CCache.Cache
