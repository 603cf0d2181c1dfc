/-
# CCache.Cache.CrashInconsistency — cuts at which the reopened file is not consistent.

The stores of `Put` come in an order that leaves gaps: `entry_count` first, the flag before the
checksum and the data, `next_offset` last, and in a compaction the bytes of an entry before its
offset.  The prefixes of the recorded events at these points are files that a killed process leaves,
and each breaks one part of what a consistent cache would keep.
-/
import CCache.Cache.CrashCompaction

namespace CCache.Cache

open CCache.Lib.ByteMemory
open CCache.Lib.CString
open CCache.Lib.Extents
open CCache.Lib.Crash
open CCache.Lib.Runs

/-! ## The first Put on a fresh cache -/

/-- `Put` without compaction, from the slot it chooses on. -/
theorem put_eq_writeEntry {m : Mem} (hm : WellFormed (directory m)) {key : List UInt8} {data : Blob}
    (hlen : 0 < data.length) (hroom : data.length ≤ cacheFileSize - nextOffset m) {idx : Nat}
    {t : Mapping} (hchoose : chooseEntry ((Mapping.start m).emit
      (.sub32 cacheFileSize (nextOffset m))) key = some (idx, t)) :
    put (.start m) key (some data) = (true, writeEntry t idx key data) := by
  have hspace : ensureSpace (.start m) data.length =
      (true, (Mapping.start m).emit (.sub32 cacheFileSize (nextOffset m))) := by
    unfold ensureSpace
    simp only [Mapping.emit_sub32_mem, Mapping.start_mem, availableSpace_eq hm]
    rw [if_neg (by omega)]
  unfold put
  simp only [if_neg (Nat.ne_of_gt hlen), hspace]
  unfold putEntry
  rw [hchoose]

/-- The choice of a slot for a key that is not there: the count goes up at once. -/
theorem chooseEntry_new {s : Mapping} {key : List UInt8} {idx : Nat} (hidx : idx < cacheMaxEntries)
    (hfree : ((directory s.mem).slot idx).used = false)
    (hfirst : ∀ j, j < idx → ((directory s.mem).slot j).used = true)
    (hnone : ∀ j, ¬ (directory s.mem).Holds key j) :
    chooseEntry s key = some (idx, countEntry s) := by
  unfold chooseEntry
  rw [findEntry_eq_none.mpr hnone, findFreeEntry_eq_some.mpr ⟨hidx, hfree, hfirst⟩]

/-- `writeSlot` up to the flag: the checksum is not stored yet. -/
def unsummed (s : Mapping) (idx : Nat) (key : List UInt8) (data : Blob) : Mapping :=
  let s := s.copyKey idx key
  let s := s.closeKey idx
  let s := s.setLength idx data.length
  let s := s.setOffset idx (nextOffset s.mem)
  s.setIsUsed idx true

/-- The slot is used, with the new extent, the old checksum and none of the data. -/
theorem unsummed_spec {s : Mapping} {idx : Nat} (hidx : idx < cacheMaxEntries) (key : List UInt8)
    (data : Blob) :
    directory (unsummed s idx key data).mem = (directory s.mem).modify idx (fun e =>
        ⟨keyField key, data.length, nextOffset s.mem, true, e.checksum⟩) ∧
      ∀ x, dataStart ≤ x → (unsummed s idx key data).mem x = s.mem x := by
  have hnext := nextOffset_setLength (s := s) hidx key data.length
  have hlen : data.length % 2 ^ 32 = data.length := Nat.mod_eq_of_lt data.fits
  have hoff : nextOffset s.mem % 2 ^ 32 = nextOffset s.mem := Nat.mod_eq_of_lt (readWord_lt _ _)
  unfold unsummed
  simp only
  refine ⟨?_, fun x hx => ?_⟩
  · rw [Mapping.setIsUsed_directory hidx, Mapping.setOffset_directory hidx,
      Mapping.setLength_directory hidx, Mapping.copyKey_directory hidx, hnext, hlen, hoff]
    simp only [Directory.modify_modify]
  · rw [Mapping.setIsUsed_data hidx hx, Mapping.setOffset_data hidx hx,
      Mapping.setLength_data hidx hx, Mapping.copyKey_data hidx hx]

/-- The flag is stored before the checksum, the data and `next_offset`. -/
theorem unsummed_extends {s : Mapping} {idx : Nat} (hidx : idx < cacheMaxEntries) (key : List UInt8)
    (data : Blob) (hlo : dataStart ≤ nextOffset s.mem)
    (hhi : nextOffset s.mem + data.length < 2 ^ 32) :
    (unsummed s idx key data).log <+: (writeEntry s idx key data).log := by
  rw [writeEntry_eq hidx key data hlo hhi]
  have hslot : (unsummed s idx key data).log <+: (writeSlot s idx key data).log :=
    Mapping.extends_emit (List.prefix_refl _) _
  exact Mapping.extends_emit (Mapping.extends_emit (Mapping.extends_emit hslot _) _) _

theorem exec_put (m : Mem) (key : List UInt8) (data : Option Blob) :
    (Op.put key data).exec m = (put (.start m) key data).2 := rfl

/-- A value to store on a fresh cache. -/
def threeBytes : Blob := ⟨[1, 2, 3], by decide⟩

section FirstPut

variable {m : Mem} (h : directory m = .fresh)
include h

/-- The mapping after the count store of the first `Put` on a fresh cache. -/
theorem firstPut_counted : ∃ t, Cuts m (fun _ => True) t ∧
    directory t.mem = { Directory.fresh with count := 1 } ∧ (∀ x, dataStart ≤ x → t.mem x = m x) ∧
    (put (.start m) [107] (some threeBytes)).2 = writeEntry t 0 [107] threeBytes := by
  have hm : WellFormed (directory m) := h ▸ .fresh
  have hcount : entryCount m = 0 := congrArg Directory.count h
  have hnext : nextOffset m = dataStart := congrArg Directory.next h
  generalize hs : (Mapping.start m).emit (.sub32 cacheFileSize (nextOffset m)) = s
  have hmem : s.mem = m := by
    rw [← hs]
    rfl
  have hfree : ∀ j, ((directory s.mem).slot j).used = false := fun j => by
    rw [hmem, h]
    rfl
  have hchoose : chooseEntry s [107] = some (0, countEntry s) := by
    refine chooseEntry_new (by decide) (hfree 0) (fun j hj => absurd hj (Nat.not_lt_zero j)) fun j hj => ?_
    rw [Directory.Holds, hfree j] at hj
    exact Bool.false_ne_true hj.1
  have hcuts : Cuts m (fun _ => True) s := by
    rw [← hs]
    exact Cuts.sub32 (.start trivial) _ _
  obtain ⟨hdir, hdata⟩ := countEntry_spec (s := s) (by rw [hmem, hcount]; decide)
  refine ⟨countEntry s, (hcuts.add32 _ _).setWord 8 _ trivial, ?_, fun x hx => ?_, ?_⟩
  · rw [hdir, hmem, h]
    rfl
  · rw [hdata x hx, hmem]
  · have hroom : threeBytes.length ≤ cacheFileSize - nextOffset m := by
      rw [hnext]
      decide
    rw [put_eq_writeEntry hm (by decide) hroom (by rw [hs]; exact hchoose)]

/-- **A cut of `Put` at which the count is wrong**: right after `entry_count++`. -/
theorem firstPut_count : ∃ k, CrashOf m (put (.start m) [107] (some threeBytes)).2.log k ∧
    entryCount k = 1 ∧ usedSlots k = 0 := by
  obtain ⟨t, hcuts, hdir, -, hput⟩ := firstPut_counted h
  have hlo : nextOffset t.mem = dataStart := congrArg Directory.next hdir
  rw [hput]
  refine ⟨t.mem, hcuts.crash ?_, congrArg Directory.count hdir, ?_⟩
  · refine (List.IsPrefix.trans ?_ (unsummed_extends (by decide) [107] threeBytes ?_ ?_))
    · exact Mapping.extends_emit (Mapping.extends_emit (Mapping.extends_emit (Mapping.extends_emit
        (Mapping.extends_emit (List.prefix_refl _) _) _) _) _) _
    · rw [hlo]
    · rw [hlo]
      decide
  · rw [usedSlots, hdir]
    exact Finset.card_eq_zero.mpr (Finset.filter_eq_empty_iff.mpr fun _ _ => Bool.false_ne_true)

/-- **A cut of `Put` at which `Get` answers bytes that were never stored**: right after the flag.
The extent of the slot then lies beyond `next_offset`. -/
theorem firstPut_foreign (hzero : ∀ i, m (dataStart + i) = 0) :
    ∃ k, CrashOf m (put (.start m) [107] (some threeBytes)).2.log k ∧
      getBytes k [107] = some [0, 0, 0] ∧ ((directory k).slot 0).used = true ∧
      (directory k).next < ((directory k).slot 0).offset + ((directory k).slot 0).length := by
  obtain ⟨t, hcuts, hdir, hdata, hput⟩ := firstPut_counted h
  have hlo : nextOffset t.mem = dataStart := congrArg Directory.next hdir
  rw [hput]
  obtain ⟨hudir, hudata⟩ := unsummed_spec (s := t) (show 0 < cacheMaxEntries by decide) [107]
    threeBytes
  have hucuts : Cuts m (fun _ => True) (unsummed t 0 [107] threeBytes) :=
    ((((hcuts.memcpy _ _ fun _ => trivial).setByte _ _ trivial).setWord _ _ trivial).setWord _ _
      trivial).setByte _ _ trivial
  have hslot : (directory (unsummed t 0 [107] threeBytes).mem).slot 0 =
      ⟨keyField [107], 3, dataStart, true, 0⟩ := by
    rw [hudir, Directory.modify_slot_self, hdir, hlo]
    rfl
  have hother : ∀ j, j ≠ 0 →
      ((directory (unsummed t 0 [107] threeBytes).mem).slot j).used = false := by
    intro j hj
    rw [hudir, Directory.modify, Directory.setSlot_slot_ne _ _ hj, hdir]
    rfl
  have hholds : (directory (unsummed t 0 [107] threeBytes).mem).Holds [107] 0 := by
    rw [Directory.Holds, hslot]
    exact ⟨rfl, keyName_keyField _⟩
  have hdistinct : (directory (unsummed t 0 [107] threeBytes).mem).Distinct := by
    intro i j hi hj _
    by_contra hij
    rcases Nat.eq_zero_or_pos i with rfl | hpos
    · rw [hother j (Ne.symm hij)] at hj
      exact Bool.false_ne_true hj
    · rw [hother i (Nat.ne_of_gt hpos)] at hi
      exact Bool.false_ne_true hi
  have hbytes : ((directory (unsummed t 0 [107] threeBytes).mem).slot 0).bytes
      (unsummed t 0 [107] threeBytes).mem = [0, 0, 0] := by
    have hbyte : ∀ i, (unsummed t 0 [107] threeBytes).mem (dataStart + i) = 0 := fun i => by
      rw [hudata _ (Nat.le_add_right _ _), hdata _ (Nat.le_add_right _ _), hzero]
    rw [hslot, Slot.bytes]
    simp only [Lib.ByteMemory.read, hbyte]
    rfl
  refine ⟨_, hucuts.crash (unsummed_extends (by decide) [107] threeBytes ?_ ?_), ?_, ?_, ?_⟩
  · rw [hlo]
  · rw [hlo]
    decide
  · rw [(getBytes_of_holds hdistinct hholds).1 ?_, hbytes]
    rw [Slot.Intact, hbytes, hslot]
    decide
  · rw [hslot]
  · rw [hslot, hudir]
    show nextOffset t.mem < dataStart + 3
    rw [hlo]
    omega

end FirstPut

/-! ## A longer value for a key that is there -/

/-- Two used slots claim a common byte. -/
def Overlapping (k : Mem) : Prop :=
  ∃ i j, i ≠ j ∧ ((directory k).slot i).used = true ∧ ((directory k).slot j).used = true ∧
    ¬ Disj ((directory k).slot i).offset ((directory k).slot i).length
      ((directory k).slot j).offset ((directory k).slot j).length

/-- `writeSlot` up to the length: the offset is still the old one. -/
def lengthened (s : Mapping) (idx : Nat) (key : List UInt8) (data : Blob) : Mapping :=
  ((s.copyKey idx key).closeKey idx).setLength idx data.length

theorem lengthened_extends (s : Mapping) (idx : Nat) (key : List UInt8) (data : Blob) :
    (lengthened s idx key data).log <+: (unsummed s idx key data).log :=
  Mapping.extends_emit (Mapping.extends_emit (List.prefix_refl _) _) _

/-- **A cut of `Put` at which extents overlap**: the longer value of a key that is there reaches into
the value behind it, until its offset is stored. -/
theorem put_overlaps {m : Mem} (hm : WellFormed (directory m)) {key : List UInt8} {data : Blob}
    {i j : Nat} (hheld : (directory m).Holds key i) (hj : ((directory m).slot j).used = true)
    (hij : i ≠ j) (hroom : data.length ≤ cacheFileSize - nextOffset m)
    (hle : ((directory m).slot i).offset ≤ ((directory m).slot j).offset)
    (hlt : ((directory m).slot j).offset < ((directory m).slot i).offset + data.length) :
    ∃ k, CrashOf m (put (.start m) key (some data)).2.log k ∧ Overlapping k := by
  have hidx := hm.table i hheld.1
  have hsize := cacheFileSize_lt
  have hhi : nextOffset m ≤ cacheFileSize := hm.next_hi
  have hlo : dataStart ≤ nextOffset m := hm.next_lo
  have hpos := hm.length_pos j hj
  have hlen : data.length % 2 ^ 32 = data.length := Nat.mod_eq_of_lt data.fits
  generalize hs : (Mapping.start m).emit (.sub32 cacheFileSize (nextOffset m)) = s
  have hmem : s.mem = m := by
    rw [← hs]
    rfl
  have hfind : chooseEntry s key = some (i, s) := by
    unfold chooseEntry
    rw [hmem, findEntry_of_holds hm.names hheld]
  have hcuts : Cuts m (fun _ => True) (lengthened s i key data) := by
    rw [← hs]
    exact (((Cuts.sub32 (.start trivial) _ _).memcpy _ _ fun _ => trivial).setByte _ _
      trivial).setWord _ _ trivial
  have hdir : directory (lengthened s i key data).mem = (directory m).modify i fun e =>
      { e with key := keyField key, length := data.length } := by
    rw [lengthened, Mapping.setLength_directory hidx, Mapping.copyKey_directory hidx, hmem, hlen]
    simp only [Directory.modify_modify]
  have hslot : (directory (lengthened s i key data).mem).slot j = (directory m).slot j := by
    rw [hdir, Directory.modify, Directory.setSlot_slot_ne _ _ hij.symm]
  rw [put_eq_writeEntry hm (by omega) hroom (by rw [hs]; exact hfind)]
  refine ⟨_, hcuts.crash ((lengthened_extends s i key data).trans
    (unsummed_extends hidx key data ?_ ?_)), i, j, hij, ?_, ?_, ?_⟩
  · rw [hmem]
    exact hlo
  · rw [hmem]
    omega
  · rw [hdir, Directory.modify_slot_self]
    exact hheld.1
  · rw [hslot]
    exact hj
  · rw [hslot, hdir, Directory.modify_slot_self, Disj]
    dsimp only
    omega

/-! ## Inside Clear -/

/-- The first two stores of `InitializeCache`: from here on the file passes the check of `InitMmap`. -/
def stamped (s : Mapping) : Mapping := (s.setMagicNumber cacheMagic).setVersion cacheVersion

/-- The header stores of `InitializeCache`; the slots are still there. -/
def headed (s : Mapping) : Mapping := ((stamped s).setEntryCount 0).setNextOffset dataStart

section Formatting

variable (s : Mapping)

theorem stamped_directory : directory (stamped s).mem =
    { directory s.mem with magic := cacheMagic, version := cacheVersion } := by
  have hmagic : cacheMagic % 2 ^ 32 = cacheMagic := by decide
  have hversion : cacheVersion % 2 ^ 32 = cacheVersion := by decide
  rw [stamped, Mapping.setVersion_directory, Mapping.setMagicNumber_directory, hmagic, hversion]

theorem headed_directory : directory (headed s).mem =
    { directory s.mem with
      magic := cacheMagic, version := cacheVersion, count := 0, next := dataStart } := by
  have hdata : dataStart % 2 ^ 32 = dataStart := by decide
  rw [headed, Mapping.setNextOffset_directory, Mapping.setEntryCount_directory, stamped_directory,
    hdata]
  rfl

theorem headed_extends : (headed s).log <+: (initializeCache s).log :=
  Mapping.extends_emit (List.prefix_refl _) _

theorem uncounted_extends : ((stamped s).setEntryCount 0).log <+: (initializeCache s).log :=
  (Mapping.extends_emit (List.prefix_refl _) _).trans (headed_extends s)

theorem stamped_extends : (stamped s).log <+: (initializeCache s).log :=
  (Mapping.extends_emit (List.prefix_refl _) _).trans (uncounted_extends s)

variable {m : Mem}

theorem stamped_cuts : Cuts m (fun _ => True) (stamped (.start m)) :=
  ((Cuts.start trivial).setWord 0 cacheMagic trivial).setWord 4 cacheVersion trivial

theorem headed_cuts : Cuts m (fun _ => True) (headed (.start m)) :=
  (stamped_cuts.setWord 8 0 trivial).setWord 12 dataStart trivial

/-- A file left between the stores of the version and of `next_offset`. -/
theorem stamped_crash : CrashOf m (initializeCache (.start m)).log (stamped (.start m)).mem :=
  stamped_cuts.crash (stamped_extends _)

/-- A file left between the store of `next_offset` and the freeing of the slots. -/
theorem headed_crash : CrashOf m (initializeCache (.start m)).log (headed (.start m)).mem :=
  headed_cuts.crash (headed_extends _)

/-- **A cut of `Clear` at which the count is wrong**: right after `entry_count = 0`. -/
theorem clear_uncounted : ∃ k, CrashOf m (clear (.start m)).log k ∧ entryCount k = 0 ∧
    usedSlots k = usedSlots m := by
  have hdir := Mapping.setEntryCount_directory (stamped (.start m)) 0
  refine ⟨((stamped (.start m)).setEntryCount 0).mem,
    (stamped_cuts.setWord 8 0 trivial).crash (uncounted_extends _), congrArg Directory.count hdir, ?_⟩
  rw [usedSlots, hdir, stamped_directory]
  rfl

/-- The bytes of the table that belong to the offsets of the slots. -/
def offsetBytes (x : Nat) : Bool :=
  decide (516 ≤ x % sizeofCacheEntryHeader ∧ x % sizeofCacheEntryHeader < 520)

/-- `Clear` cut inside its `memset`: the offsets are zeroed, the rest of the table is still there. -/
def offsetsZeroed (s : Mapping) : Mem :=
  blit (headed s).mem sizeofCacheHeader (sizeofCacheEntryHeader * cacheMaxEntries)
    (torn (headed s).mem sizeofCacheHeader (fun _ => 0) offsetBytes)

theorem offsetsZeroed_crash : CrashOf m (clear (.start m)).log (offsetsZeroed (.start m)) := by
  refine crash_snoc.mpr (Or.inr (Or.inl ⟨offsetBytes, ?_⟩))
  show _ = blit ((headed (.start m)).log.foldl Event.apply m) _ _ (torn _ _ _ _)
  rw [headed_cuts.traced]
  rfl

/-- A byte of slot `i`: zero where the offset is, and as it was elsewhere. -/
theorem offsetsZeroed_entry {i j : Nat} (hi : i < cacheMaxEntries) (hj : j < sizeofCacheEntryHeader) :
    offsetsZeroed (.start m) (entryAddr i + j) =
      if 516 ≤ j ∧ j < 520 then 0 else (headed (.start m)).mem (entryAddr i + j) := by
  have hbound := entryAddr_bounds hi
  have hin : entryAddr i + j < sizeofCacheHeader + sizeofCacheEntryHeader * cacheMaxEntries := by
    show _ < dataStart
    unfold sizeofCacheEntryHeader at hj
    omega
  have hidx : entryAddr i + j - sizeofCacheHeader = j + sizeofCacheEntryHeader * i := by
    unfold entryAddr
    omega
  have hback : sizeofCacheHeader + (j + sizeofCacheEntryHeader * i) = entryAddr i + j := by
    unfold entryAddr
    omega
  rw [offsetsZeroed, blit_in (by unfold sizeofCacheHeader; omega) hin, hidx, torn, offsetBytes,
    Nat.add_mul_mod_self_left, Nat.mod_eq_of_lt hj, hback]
  simp only [decide_eq_true_eq]

/-- The slots are used, with their lengths, and all of them point to the start of the file. -/
theorem offsetsZeroed_slot {i : Nat} (hu : ((directory m).slot i).used = true) :
    ((directory (offsetsZeroed (.start m))).slot i).used = true ∧
      ((directory (offsetsZeroed (.start m))).slot i).offset = 0 ∧
      ((directory (offsetsZeroed (.start m))).slot i).length = ((directory m).slot i).length := by
  have hi : i < cacheMaxEntries := lt_of_used hu
  have hslot : (directory (headed (.start m)).mem).slot i = (directory m).slot i := by
    rw [headed_directory]
    rfl
  rw [← hslot] at hu ⊢
  have hbyte := fun j hj => offsetsZeroed_entry (m := m) (j := j) hi hj
  show (slotAt _ i).used = true ∧ (slotAt _ i).offset = 0 ∧ (slotAt _ i).length = (slotAt _ i).length
  change (slotAt _ i).used = true at hu
  rw [slotAt_lt hi] at hu ⊢
  rw [slotAt_lt hi]
  refine ⟨?_, ?_, readWord_congr fun j hj => ?_⟩
  · simp only [entryIsUsed] at hu ⊢
    rw [hbyte 520 (by decide), if_neg (by omega)]
    exact hu
  · show readWord _ (entryAddr i + 516) = 0
    have hzero : readWord (offsetsZeroed (.start m)) (entryAddr i + 516) = readWord (fun _ => 0) 0 :=
      readWord_congr fun j hj => by
        rw [Nat.add_assoc, hbyte (516 + j) (by unfold sizeofCacheEntryHeader; omega),
          if_pos (by omega)]
    rw [hzero]
    decide
  · rw [Nat.add_assoc, hbyte (512 + j) (by unfold sizeofCacheEntryHeader; omega), if_neg (by omega)]

end Formatting

/-- **A cut of `Clear` at which extents overlap**: inside the `memset`. -/
theorem clear_overlaps {m : Mem} (hm : WellFormed (directory m)) {i j : Nat} (hij : i ≠ j)
    (hi : ((directory m).slot i).used = true) (hj : ((directory m).slot j).used = true) :
    ∃ k, CrashOf m (clear (.start m)).log k ∧ Overlapping k := by
  obtain ⟨hui, hoi, hli⟩ := offsetsZeroed_slot hi
  obtain ⟨huj, hoj, hlj⟩ := offsetsZeroed_slot hj
  have hposi := hm.length_pos i hi
  have hposj := hm.length_pos j hj
  refine ⟨_, offsetsZeroed_crash, i, j, hij, hui, huj, ?_⟩
  rw [hoi, hoj, hli, hlj, Disj]
  omega

/-- **A cut of `Clear` at which an extent lies beyond `next_offset`**: right after its reset. -/
theorem clear_beyond {m : Mem} (hm : WellFormed (directory m)) {i : Nat}
    (hi : ((directory m).slot i).used = true) : ∃ k, CrashOf m (clear (.start m)).log k ∧
      ((directory k).slot i).used = true ∧
        (directory k).next < ((directory k).slot i).offset + ((directory k).slot i).length := by
  have hdir := headed_directory (.start m)
  refine ⟨_, headed_crash, ?_, ?_⟩
  · rw [hdir]
    exact hi
  · rw [hdir]
    have hlo := hm.extent_lo i hi
    have hpos := hm.length_pos i hi
    show dataStart < ((directory m).slot i).offset + ((directory m).slot i).length
    omega

/-! ## Inside a move -/

theorem putEntry_extends (s : Mapping) (key : List UInt8) (data : Blob) :
    s.log <+: (putEntry s key data).2.log := by
  have hcount : s.log <+: (countEntry s).log :=
    Mapping.extends_emit (Mapping.extends_emit (List.prefix_refl _) _) _
  have hwrite : ∀ (t : Mapping) (idx : Nat), t.log <+: (writeEntry t idx key data).log := by
    intro t idx
    refine Mapping.extends_emit (Mapping.extends_emit (Mapping.extends_emit ?_ _) _) _
    exact Mapping.extends_emit (Mapping.extends_emit (Mapping.extends_emit (Mapping.extends_emit
      (Mapping.extends_emit (Mapping.extends_emit (List.prefix_refl _) _) _) _) _) _) _
  unfold putEntry chooseEntry
  cases findEntry s.mem key with
  | some idx => exact hwrite s idx
  | none =>
    cases findFreeEntry s.mem with
    | none => exact List.prefix_refl _
    | some idx => exact hcount.trans (hwrite _ idx)

theorem compactStep_extends (s : Mapping) (w i : Nat) : s.log <+: (compactStep s w i).1.log := by
  unfold compactStep moveEntry
  split
  · simp only
    split
    · exact Mapping.extends_emit (Mapping.extends_emit (Mapping.extends_emit (Mapping.extends_emit
        (List.prefix_refl _) _) _) _) _
    · exact Mapping.extends_emit (Mapping.extends_emit (List.prefix_refl _) _) _
  · exact List.prefix_refl _

theorem compactLoop_extends (s : Mapping) {n k : Nat} (h : n ≤ k) :
    (compactLoop s n).1.log <+: (compactLoop s k).1.log := by
  induction k, h using Nat.le_induction with
  | base => exact List.prefix_refl _
  | succ k _ ih => exact ih.trans (compactStep_extends _ _ _)

/-- The copy of slot 1 to the front of the data area, its offset not stored yet. -/
def movedFirst (s : Mapping) (offset length : Nat) : Mapping :=
  (s.emit (.sub32 offset dataStart)).memmove dataStart offset length

/-- When slot 0 is free, `CompactCache` copies slot 1 first of all. -/
theorem movedFirst_extends {s : Mapping} (h : WellFormed (directory s.mem))
    (hfree : ((directory s.mem).slot 0).used = false) {e : Slot}
    (he : (directory s.mem).slot 1 = e) (hu : e.used = true) (hne : dataStart ≠ e.offset) :
    (movedFirst s e.offset e.length).log <+: (compactCache s).log := by
  have hoff : entryOffset s.mem 1 = e.offset := by rw [entryOffset_eq (by decide), he]
  have hlen : entryLength s.mem 1 = e.length := by rw [entryLength_eq (by decide), he]
  have hlo : dataStart ≤ e.offset := he ▸ h.extent_lo 1 (by rw [he, hu])
  have hpos : 0 < e.length := he ▸ h.length_pos 1 (by rw [he, hu])
  have hlt : e.offset < 2 ^ 32 := hoff ▸ readWord_lt _ _
  have hone : compactLoop s 1 = (s, dataStart) := compactStep_free dataStart (by decide) hfree
  have hptr : dataPtr dataStart = dataStart := by decide
  have hsub : dataStart + sub32 e.offset dataStart = e.offset := by
    rw [sub32_eq hlt hlo]
    omega
  have hstep : (movedFirst s e.offset e.length).log <+: (compactLoop s 2).1.log := by
    rw [compactLoop, hone, compactStep, if_pos ⟨by rw [entryIsUsed_eq (by decide), he, hu], by
      rw [hlen]
      exact hpos⟩, moveEntry]
    simp only [hoff, hlen, hptr, hsub, Mapping.emit_sub32_mem]
    rw [if_pos hne]
    exact Mapping.extends_emit (Mapping.extends_emit (List.prefix_refl _) _) _
  exact Mapping.extends_emit (hstep.trans (compactLoop_extends s (by decide))) _

theorem put_extends {s : Mapping} (key : List UInt8) {data : Blob} (hlen : 0 < data.length) :
    (ensureSpace s data.length).2.log <+: (put s key (some data)).2.log := by
  unfold put
  simp only [if_neg (Nat.ne_of_gt hlen)]
  rcases hr : ensureSpace s data.length with ⟨ok, t⟩
  cases ok with
  | false => exact List.prefix_refl _
  | true =>
    dsimp only
    exact putEntry_extends t key data

/-- A `Put` that compacts runs `CompactCache` before anything else. -/
theorem compactCache_extends {m : Mem} (key : List UInt8) {data : Blob}
    (hcomp : Compacts m data.length) :
    (compactCache ((Mapping.start m).emit (.sub32 cacheFileSize (nextOffset m)))).log <+:
      (put (.start m) key (some data)).2.log := by
  obtain ⟨hlen, hfull⟩ := hcomp
  have hspace : (compactCache ((Mapping.start m).emit (.sub32 cacheFileSize (nextOffset m)))).log <+:
      (ensureSpace (.start m) data.length).2.log := by
    unfold ensureSpace
    simp only [Mapping.emit_sub32_mem, Mapping.start_mem, gt_iff_lt]
    rw [if_pos hfull]
    generalize compactCache ((Mapping.start m).emit (.sub32 cacheFileSize (nextOffset m))) = c
    split
    · exact Mapping.extends_emit (List.prefix_refl _) _
    · exact Mapping.extends_emit (List.prefix_refl _) _
  exact hspace.trans (put_extends key hlen)

/-- **A cut of a compacting `Put` at which extents overlap**: slot `i` is packed over the old extent of
a later slot. -/
theorem compaction_overlaps {m : Mem} (hm : WellFormed (directory m)) (key : List UInt8) {data : Blob}
    (hcomp : Compacts m data.length) {i j : Nat} (hij : i < j)
    (hi : ((directory m).slot i).used = true) (hj : ((directory m).slot j).used = true)
    (hover : ¬ Disj ((directory m).packedStart i) ((directory m).slot i).length
      ((directory m).slot j).offset ((directory m).slot j).length) :
    ∃ k, CrashOf m (put (.start m) key (some data)).2.log k ∧ Overlapping k := by
  have hlt := hm.table i hi
  generalize hs : (Mapping.start m).emit (.sub32 cacheFileSize (nextOffset m)) = s
  have hmem : s.mem = m := by
    rw [← hs]
    rfl
  have hcuts : Cuts m (fun _ => True) (compactLoop s (i + 1)).1 := by
    refine compactLoop_cuts (by rw [hmem]; exact hm) ?_ (fun _ _ _ => trivial) (i + 1) (by omega)
    rw [← hs]
    exact Cuts.sub32 (.start trivial) _ _
  obtain ⟨-, hdir, -⟩ := compactLoop_spec (s := s) (by rw [hmem]; exact hm) (i + 1) (by omega)
  have hlog : (compactLoop s (i + 1)).1.log <+: (compactCache s).log :=
    Mapping.extends_emit (compactLoop_extends s (by omega)) _
  have hall := compactCache_extends key hcomp
  rw [hs] at hall
  rw [hmem] at hdir
  refine ⟨_, hcuts.crash (hlog.trans hall), i, j, Nat.ne_of_lt hij, ?_, ?_, ?_⟩
  · rw [hdir, Directory.packedTo_slot_used, hi]
  · rw [hdir, Directory.packedTo_slot_used, hj]
  · rw [hdir, Directory.packedTo_slot_ge _ (Nat.succ_le_of_lt hij), Directory.packedTo_slot_length,
      Directory.packedTo]
    simp only
    rw [if_pos ⟨Nat.lt_succ_self i, hi⟩]
    exact hover

theorem oneByte_fits : ([1] : List UInt8).length < 2 ^ 32 := by decide

theorem twoBytes_fit : ([2, 3] : List UInt8).length < 2 ^ 32 := by decide

/-- A value of the size of the file never fits behind `next_offset`. -/
theorem oversized_compacts {m : Mem} (hm : WellFormed (directory m)) :
    Compacts m oversized.length := by
  have hnext := hm.next_lo
  have hfile := dataStart_le_fileSize
  have hpos : 0 < dataStart := by decide
  have hlen := oversized_length
  refine ⟨by omega, ?_⟩
  rw [availableSpace_eq hm, hlen]
  show cacheFileSize - (directory m).next < cacheFileSize
  omega

/-- Store `a`, store two bytes under `b` behind it, and remove `a`: slot 1 then lies one byte behind
where compaction puts it. -/
def gapped : List Op :=
  [.put [97] (some ⟨[1], oneByte_fits⟩), .put [98] (some ⟨[2, 3], twoBytes_fit⟩), .remove [97]]

/-- What `gapped` leaves. -/
structure GappedAt (m : Mem) : Prop where
  wellFormed : WellFormed (directory m)
  dir : directory m = (oneStored.store 1 [98] ⟨[2, 3], by decide⟩).erase 0
  first : m (dataStart + 1) = 2
  second : m (dataStart + 2) = 3

theorem GappedAt.of_stored {m m1 m2 m3 : Mem} (h : directory m = .fresh)
    (ha : StoredAt m [97] ⟨[1], by decide⟩ 0 m1) (hb : StoredAt m1 [98] ⟨[2, 3], by decide⟩ 1 m2)
    (he : ErasedAt m2 [97] 0 m3) : GappedAt m3 := by
  have hwfA := ha.wellFormed (h ▸ .fresh) (by decide)
  have hwfB := hb.wellFormed hwfA (by decide)
  have hdirA := oneStored_dir h ha
  have hnextA : (directory m1).next = dataStart + 1 := by
    rw [hdirA]
    rfl
  refine ⟨he.wellFormed hwfB, by rw [he.dir, hb.dir, hdirA], ?_, ?_⟩
  · rw [he.data _ (Nat.le_add_right _ _), hb.data _ (Nat.le_add_right _ _), hnextA,
      blit_in (le_refl _) (Nat.lt_add_of_pos_right (by decide)), Nat.sub_self]
    rfl
  · rw [he.data _ (Nat.le_add_right _ _), hb.data _ (Nat.le_add_right _ _), hnextA,
      blit_in (by omega) (Nat.lt_succ_self _), show dataStart + 2 - (dataStart + 1) = 1 by omega]
    rfl

theorem gapped_spec {m : Mem} (h : directory m = .fresh) : GappedAt (execAll m gapped) := by
  have ha := (put_first h).2
  have hwfA := ha.wellFormed (h ▸ .fresh) (by decide)
  have hdirA := oneStored_dir h ha
  have hb : StoredAt _ [98] ⟨[2, 3], by decide⟩ 1 _ :=
    (put_second hwfA hdirA (by decide) (by decide)).2
  have hwfB := hb.wellFormed hwfA (by decide)
  have hheld : (directory (put (.start (put (.start m) [97] (some ⟨[1], by decide⟩)).2.mem) [98]
      (some ⟨[2, 3], by decide⟩)).2.mem).Holds [97] 0 := by
    rw [Directory.Holds, hb.slot_ne (by decide), hdirA]
    exact ⟨rfl, by decide⟩
  have hexec : execAll m gapped = (remove (.start (put (.start (put (.start m) [97]
      (some ⟨[1], by decide⟩)).2.mem) [98] (some ⟨[2, 3], by decide⟩)).2.mem) [97]).2.mem := by
    simp only [gapped, execAll, List.foldl_cons, List.foldl_nil, Op.exec]
  rw [hexec]
  exact .of_stored h ha hb (remove_held hwfB hheld).2

section Gapped

variable {m : Mem} (h : GappedAt m)
include h

theorem GappedAt.slot_one : (directory m).slot 1 =
    ⟨keyField [98], 2, dataStart + 1, true, calculateChecksum [2, 3]⟩ := by
  rw [h.dir]
  rfl

theorem GappedAt.slot_zero_free : ((directory m).slot 0).used = false := by
  rw [h.dir]
  rfl

theorem GappedAt.holds : (directory m).Holds [98] 1 := by
  rw [Directory.Holds, h.slot_one]
  exact ⟨rfl, keyName_keyField _⟩

/-- The bytes slot 1 points to, in any file. -/
theorem GappedAt.bytes_in (k : Mem) :
    ((directory m).slot 1).bytes k = [k (dataStart + 1), k (dataStart + 2)] := by
  rw [h.slot_one, Slot.bytes, Lib.ByteMemory.read]
  rfl

theorem GappedAt.bytes : ((directory m).slot 1).bytes m = [2, 3] := by
  rw [h.bytes_in, h.first, h.second]

theorem GappedAt.intact : ((directory m).slot 1).Intact m := by
  rw [Slot.Intact, h.bytes, h.slot_one]

/-- **A cut of a compacting `Put` at which another key is lost**: its bytes have moved, its offset
has not been stored. -/
theorem GappedAt.lost :
    getBytes m [98] = some [2, 3] ∧ ∃ k, CrashOf m (put (.start m) [99] (some oversized)).2.log k ∧
      getBytes k [98] = none := by
  have hslot := h.slot_one
  have hholds := h.holds
  refine ⟨?_, ?_⟩
  · rw [(getBytes_of_holds h.wellFormed.names hholds).1 h.intact, h.bytes]
  · have hfull := oversized_compacts h.wellFormed
    have hcuts : Cuts m (fun _ => True) (movedFirst ((Mapping.start m).emit
        (.sub32 cacheFileSize (nextOffset m))) (dataStart + 1) 2) :=
      ((Cuts.sub32 (.start trivial) _ _).sub32 _ _).memmove _ _ _ fun _ => trivial
    have hmoved := movedFirst_extends (s := (Mapping.start m).emit
      (.sub32 cacheFileSize (nextOffset m))) h.wellFormed h.slot_zero_free hslot rfl
      (Nat.ne_of_lt (Nat.lt_succ_self _))
    have hmem : (movedFirst ((Mapping.start m).emit (.sub32 cacheFileSize (nextOffset m)))
        (dataStart + 1) 2).mem = blit m dataStart 2 fun i => m (dataStart + 1 + i) := rfl
    refine ⟨_, hcuts.crash (hmoved.trans (compactCache_extends [99] hfull)), ?_⟩
    rw [hmem]
    have hdir : directory (blit m dataStart 2 fun i => m (dataStart + 1 + i)) = directory m :=
      directory_blit_data (le_refl _)
    have hdistinct : (directory (blit m dataStart 2 fun i => m (dataStart + 1 + i))).Distinct := by
      rw [hdir]
      exact h.wellFormed.names
    refine (getBytes_of_holds hdistinct (i := 1) (by rw [hdir]; exact hholds)).2 fun hintact => ?_
    have hthree : blit m dataStart 2 (fun i => m (dataStart + 1 + i)) (dataStart + 1) = 3 := by
      rw [blit_in (by omega) (by omega), Nat.add_sub_cancel_left]
      exact h.second
    have hkept : blit m dataStart 2 (fun i => m (dataStart + 1 + i)) (dataStart + 2) = 3 := by
      rw [blit_out (by omega), h.second]
    rw [hdir, Slot.Intact, h.bytes_in, hthree, hkept, hslot] at hintact
    exact absurd hintact (by decide)

end Gapped

/-- The cuts of `Remove`, `Clear` and an overwrite on the store of `a` and `b`. -/
theorem twoStored_cuts {m : Mem} (hm : WellFormed (directory m)) (h : directory m = twoStored) :
    (∃ k, CrashOf m ((Op.remove [97]).exec m).log k ∧ entryCount k = 2 ∧ usedSlots k = 1) ∧
      (∃ k, CrashOf m (Op.clear.exec m).log k ∧ entryCount k = 0 ∧ usedSlots k = 2) ∧
      (∃ k, CrashOf m (Op.clear.exec m).log k ∧ ((directory k).slot 0).used = true ∧
        (directory k).next < ((directory k).slot 0).offset + ((directory k).slot 0).length) ∧
      (∃ k, CrashOf m (Op.clear.exec m).log k ∧ Overlapping k) ∧
      ∃ k, CrashOf m ((Op.put [97] (some threeBytes)).exec m).log k ∧ Overlapping k := by
  have hused : usedSlots m = 2 := by
    rw [usedSlots, ← hm.count, h]
    rfl
  have hzero : (directory m).slot 0 = ⟨keyField [97], 1, dataStart, true, calculateChecksum [1]⟩ := by
    rw [h]
    rfl
  have hone : (directory m).slot 1 =
      ⟨keyField [98], 1, dataStart + 1, true, calculateChecksum [2]⟩ := by
    rw [h]
    rfl
  have hnext : nextOffset m = dataStart + 2 := congrArg Directory.next h
  have hheld : (directory m).Holds [97] 0 := by
    rw [Directory.Holds, hzero]
    exact ⟨rfl, keyName_keyField _⟩
  have hb : ((directory m).slot 1).used = true := by rw [hone]
  obtain ⟨k, hk, hcount, hfree⟩ := remove_uncounted hm hheld
  obtain ⟨c, hc, hczero, hcused⟩ := clear_uncounted (m := m)
  refine ⟨⟨k, hk, by omega, by omega⟩, ⟨c, hc, hczero, by omega⟩, clear_beyond hm hheld.1,
    clear_overlaps hm zero_ne_one hheld.1 hb, ?_⟩
  refine put_overlaps hm hheld hb zero_ne_one ?_ ?_ ?_
  · rw [hnext]
    decide
  · rw [hzero, hone]
    exact Nat.le_succ _
  · rw [hzero, hone]
    exact Nat.add_lt_add_left (by decide) _

/-- The compaction of two values out of order is cut after the first move. -/
theorem OverwrittenAt.packed_overlaps {m : Mem} (h : OverwrittenAt m) :
    ∃ k, CrashOf m ((Op.put [99] (some oversized)).exec m).log k ∧ Overlapping k := by
  rw [exec_put]
  refine compaction_overlaps h.wellFormed [99] (oversized_compacts h.wellFormed) Nat.zero_lt_one
    ?_ ?_ ?_
  · rw [h.dir]
    rfl
  · rw [h.dir]
    rfl
  · have hzero : (directory m).slot 0 =
        ⟨keyField [97], 2, dataStart + 2, true, calculateChecksum [3, 4]⟩ := by
      rw [h.dir]
      rfl
    have hone : (directory m).slot 1 =
        ⟨keyField [98], 1, dataStart + 1, true, calculateChecksum [2]⟩ := by
      rw [h.dir]
      rfl
    rw [hzero, hone, Directory.packedStart_zero, Disj]
    dsimp only
    omega

/-- **A killed process leaves inconsistent files.** On a new cache a `Put` cut after `entry_count++`
counts a slot that is not used; cut after the flag, `Get` answers bytes that were never stored, from an
extent beyond `next_offset`.  On two stored keys a `Remove` cut after the flag counts a free slot; a
`Clear` counts no used slot, leaves extents beyond `next_offset`, or extents that overlap; and so does
the `Put` of a longer value.  A compaction cut inside a move loses another key, and cut after a move
leaves extents that overlap. -/
theorem crash_inconsistent :
    (∃ m, RunFrom (fun _ => 0) [] m ∧ getBytes m [107] = none ∧
      (∃ k, CrashOf m ((Op.put [107] (some threeBytes)).exec m).log k ∧
        entryCount k = 1 ∧ usedSlots k = 0) ∧
      ∃ k, CrashOf m ((Op.put [107] (some threeBytes)).exec m).log k ∧
        getBytes k [107] = some [0, 0, 0] ∧ ((directory k).slot 0).used = true ∧
        (directory k).next < ((directory k).slot 0).offset + ((directory k).slot 0).length) ∧
      (∃ m, RunFrom (fun _ => 0) (overwritten.take 2) m ∧
        (∃ k, CrashOf m ((Op.remove [97]).exec m).log k ∧ entryCount k = 2 ∧ usedSlots k = 1) ∧
        (∃ k, CrashOf m (Op.clear.exec m).log k ∧ entryCount k = 0 ∧ usedSlots k = 2) ∧
        (∃ k, CrashOf m (Op.clear.exec m).log k ∧ ((directory k).slot 0).used = true ∧
          (directory k).next < ((directory k).slot 0).offset + ((directory k).slot 0).length) ∧
        (∃ k, CrashOf m (Op.clear.exec m).log k ∧ Overlapping k) ∧
        ∃ k, CrashOf m ((Op.put [97] (some threeBytes)).exec m).log k ∧ Overlapping k) ∧
      (∃ m, RunFrom (fun _ => 0) gapped m ∧ getBytes m [98] = some [2, 3] ∧
        ∃ k, CrashOf m ((Op.put [99] (some oversized)).exec m).log k ∧ getBytes k [98] = none) ∧
      ∃ m, RunFrom (fun _ => 0) overwritten m ∧
        ∃ k, CrashOf m ((Op.put [99] (some oversized)).exec m).log k ∧ Overlapping k := by
  have hrun := runFrom_zeros []
  have htwo := runFrom_zeros (overwritten.take 2)
  have hgapped := runFrom_zeros gapped
  have hover := runFrom_zeros overwritten
  have hfresh := initMmap_fresh hrun.1
  have hzero : ∀ i, (initMmap (.start fun _ => 0)).mem (dataStart + i) = 0 := by
    intro i
    have hinit : initMmap (.start fun _ => 0) = initializeCache (.start fun _ => 0) :=
      if_neg (by decide)
    rw [hinit]
    exact (initializeCache_spec (.start fun _ => 0)).2 _ (Nat.le_add_right _ _)
  generalize (initMmap (.start fun _ => 0)).mem = m at hrun htwo hgapped hover hfresh hzero
  obtain ⟨hfound, hlost⟩ := (gapped_spec hfresh).lost
  obtain ⟨hwf, hdir⟩ := twoStored_spec hfresh
  have hlate := overwritten_spec hfresh
  have habsent : getBytes m [107] = none := by
    refine getBytes_of_absent fun j hj => ?_
    rw [Directory.Holds, hfresh] at hj
    exact Bool.false_ne_true hj.1
  have hcount := firstPut_count hfresh
  have hforeign := firstPut_foreign hfresh hzero
  rw [← exec_put] at hcount hforeign hlost
  exact ⟨⟨m, hrun, habsent, hcount, hforeign⟩, ⟨_, htwo, twoStored_cuts hwf hdir⟩,
    ⟨execAll m gapped, hgapped, hfound, hlost⟩, execAll m overwritten, hover, hlate.packed_overlaps⟩

end CCache.Cache
