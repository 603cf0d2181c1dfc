/-
# CCache.Cache.CompactionBytes — when `CompactCache` keeps the stored bytes.

`CompactCache` moves the used extents in slot order, each to the front of the data area, while an
overwrite or a reused slot can put a late offset in an early slot.  A move then lands on the extent of
a slot that has not been moved yet, and that slot's bytes are lost.  `NoClobber` is the condition that
this does not happen: where the packed extent of an earlier slot overlaps the old extent of a later
one, the byte written is the one that was there.  Under it, and only under it, compaction keeps the
bytes of every used slot.
-/
import CCache.Cache.Lookup

namespace CCache.Cache

open CCache.Lib.ByteMemory
open CCache.Lib.CString
open CCache.Lib.Extents
open CCache.Lib.Runs

/-! ## The moves, byte by byte -/

/-- Where the packed extent of a slot meets the extent of a later slot, the two agree. -/
def Directory.NoClobber (d : Directory) (m : Mem) : Prop :=
  ∀ i j, i < j → (d.slot i).used = true → (d.slot j).used = true →
    ∀ q, d.packedStart i ≤ q → q < d.packedStart i + (d.slot i).length →
      (d.slot j).offset ≤ q → q < (d.slot j).offset + (d.slot j).length →
        m ((d.slot i).offset + (q - d.packedStart i)) = m q

namespace Directory

variable (d : Directory) (m : Mem)

/-- The moves from slot `n` on write at `packedStart n` and above. -/
theorem moved_below {n k : Nat} (hnk : n ≤ k) {x : Nat} (hx : x < d.packedStart n) :
    d.moved m k x = d.moved m n x := by
  induction k, hnk using Nat.le_induction with
  | base => rfl
  | succ k hk ih =>
    have hmono := d.packedStart_mono hk
    rw [moved]
    split
    · rw [blit_out (by omega), ih]
    · exact ih

/-- The bytes of a used slot after all the moves are those its own move reads. -/
theorem moved_packed {j n : Nat} (hu : (d.slot j).used = true) (hj : j < n) {k : Nat}
    (hk : k < (d.slot j).length) :
    d.moved m n (d.packedStart j + k) = d.moved m j ((d.slot j).offset + k) := by
  have hend : d.packedStart j + k < d.packedStart (j + 1) := by
    rw [packedStart_succ, liveLength_of_used hu]
    omega
  rw [moved_below d m (Nat.succ_le_of_lt hj) hend, moved, if_pos hu, blit_in (by omega) (by omega),
    Nat.add_sub_cancel_left]

/-- The first move brings the bytes of slot 0 to the front. -/
theorem moved_one (hu : (d.slot 0).used = true) {x : Nat} (hlo : dataStart ≤ x)
    (hhi : x < dataStart + (d.slot 0).length) :
    d.moved m 1 x = m ((d.slot 0).offset + (x - dataStart)) := by
  rw [moved, if_pos hu, packedStart_zero, blit_in hlo hhi]
  rfl

/-- The slots that are still to be moved have their bytes. -/
def IntactFrom (n : Nat) : Prop :=
  ∀ j, n ≤ j → (d.slot j).used = true → ∀ k, k < (d.slot j).length →
    d.moved m n ((d.slot j).offset + k) = m ((d.slot j).offset + k)

variable {d m}

/-- One move under `NoClobber`. -/
theorem intactFrom_succ (h : d.NoClobber m) {n : Nat} (hn : d.IntactFrom m n) :
    d.IntactFrom m (n + 1) := by
  intro j hj hu k hk
  rw [moved]
  split
  · rename_i hun
    by_cases hin : d.packedStart n ≤ (d.slot j).offset + k ∧
        (d.slot j).offset + k < d.packedStart n + (d.slot n).length
    · rw [blit_in hin.1 hin.2, hn n (le_refl n) hun _ (by omega)]
      exact h n j hj hun hu _ hin.1 hin.2 (Nat.le_add_right _ _) (by omega)
    · rw [blit_out (by omega)]
      exact hn j (by omega) hu k hk
  · exact hn j (by omega) hu k hk

theorem intactFrom_of_noClobber (h : d.NoClobber m) (n : Nat) : d.IntactFrom m n := by
  induction n with
  | zero => exact fun j _ _ k _ => rfl
  | succ n ih => exact intactFrom_succ h ih

/-- All the moves leave each used slot its bytes. -/
def BytesKept (d : Directory) (m : Mem) : Prop :=
  ∀ j, j < cacheMaxEntries → (d.slot j).used = true → ∀ k, k < (d.slot j).length →
    d.moved m cacheMaxEntries (d.packedStart j + k) = m ((d.slot j).offset + k)

theorem bytesKept_of_noClobber (h : d.NoClobber m) : d.BytesKept m := by
  intro j hj hu k hk
  rw [moved_packed d m hu hj hk]
  exact intactFrom_of_noClobber h j j (le_refl j) hu k hk

/-- When the bytes are kept in the end, no move on the way has changed a slot that was still to be
moved: the byte it changed would have been copied along. -/
theorem intactFrom_of_bytesKept (ht : ∀ i, (d.slot i).used = true → i < cacheMaxEntries)
    (h : d.BytesKept m) (n : Nat) : d.IntactFrom m n := by
  induction n with
  | zero => exact fun j _ _ k _ => rfl
  | succ n ih =>
    intro j hj hu k hk
    by_cases hx : (d.slot j).offset + k < d.packedStart (n + 1)
    · -- the byte is where a move has been: no later move before `j`'s own touches it again
      have hfinal := h j (ht j hu) hu k hk
      rw [moved_packed d m hu (ht j hu) hk, moved_below d m hj hx] at hfinal
      exact hfinal
    · rw [packedStart_succ] at hx
      have hstep : d.moved m (n + 1) ((d.slot j).offset + k) =
          d.moved m n ((d.slot j).offset + k) := by
        rw [moved]
        split
        · rename_i hun
          rw [liveLength_of_used hun] at hx
          exact blit_out (by omega)
        · rfl
      rw [hstep]
      exact ih j (by omega) hu k hk

theorem noClobber_of_bytesKept (ht : ∀ i, (d.slot i).used = true → i < cacheMaxEntries)
    (h : d.BytesKept m) : d.NoClobber m := by
  intro i j hij hui huj q hlo hhi hqlo hqhi
  have hafter := intactFrom_of_bytesKept ht h (i + 1) j hij huj (q - (d.slot j).offset) (by omega)
  have hbefore := intactFrom_of_bytesKept ht h i i (le_refl i) hui (q - d.packedStart i) (by omega)
  rw [Nat.add_sub_cancel' hqlo, moved, if_pos hui, blit_in hlo hhi, hbefore] at hafter
  exact hafter

/-- **Compaction keeps the bytes exactly under `NoClobber`.** -/
theorem bytesKept_iff (ht : ∀ i, (d.slot i).used = true → i < cacheMaxEntries) :
    d.BytesKept m ↔ d.NoClobber m :=
  ⟨noClobber_of_bytesKept ht, bytesKept_of_noClobber⟩

end Directory

/-! ## The operations -/

/-- `CompactCache` is run on `m` by a `Put` of so many bytes. -/
def Compacts (m : Mem) (length : Nat) : Prop := 0 < length ∧ availableSpace m < length

/-- A value that fits behind `next_offset` needs no compaction. -/
theorem not_compacts {m : Mem} (h : WellFormed (directory m)) {length : Nat}
    (hfit : (directory m).next + length ≤ cacheFileSize) : ¬ Compacts m length := by
  rintro ⟨-, hfull⟩
  rw [availableSpace_eq h] at hfull
  have hfull' : cacheFileSize - (directory m).next < length := hfull
  omega

/-- What a compaction of `m` should leave alone: the bytes of every used slot, the answer of every
`Get` that succeeds, and, when a `Put` runs it, the answer of every `Get` of another key. -/
structure CompactionKeeps (m : Mem) : Prop where
  bytes : ∀ i, i < cacheMaxEntries → entryIsUsed m i = true →
    read (compactCache (.start m)).mem (entryOffset (compactCache (.start m)).mem i)
        (entryLength (compactCache (.start m)).mem i) =
      read m (entryOffset m i) (entryLength m i)
  gets : ∀ key bytes, getBytes m key = some bytes →
    getBytes (compactCache (.start m)).mem key = some bytes
  puts : ∀ key (data : Blob), Compacts m data.length → ∀ other, keyName other ≠ keyName key →
    getBytes (put (.start m) key (some data)).2.mem other = getBytes m other

/-- The bytes a used slot points to after compaction, one by one. -/
theorem CompactedFrom.byte {m b : Mem} (h : WellFormed (directory m)) (hc : CompactedFrom m b)
    {i : Nat} (hu : ((directory m).slot i).used = true) (k : Nat) :
    b (((directory b).slot i).offset + k) =
      (directory m).moved m cacheMaxEntries ((directory m).packedStart i + k) := by
  have hlo := (directory m).dataStart_le_packedStart i
  rw [hc.dir, h.compacted_offset hu, hc.data _ (by omega)]

/-- What the moves of the slots before `j` leave at the extent of slot `j`. -/
def Directory.leftFor (d : Directory) (m : Mem) (j : Nat) : List UInt8 := (d.slot j).bytes (d.moved m j)

/-- The bytes a used slot points to after compaction are those its own move found. -/
theorem CompactedFrom.bytes {m b : Mem} (h : WellFormed (directory m)) (hc : CompactedFrom m b)
    {j : Nat} (hu : ((directory m).slot j).used = true) :
    ((directory b).slot j).bytes b = (directory m).leftFor m j := by
  have hlen : ((directory b).slot j).length = ((directory m).slot j).length := by
    rw [hc.dir, Directory.compacted_length]
  rw [Slot.bytes, Directory.leftFor, Slot.bytes, hlen]
  refine read_congr fun k hk => ?_
  rw [hc.byte h hu, Directory.moved_packed _ _ hu (h.table j hu) hk]

/-- When slot 0 reaches beyond the extent of slot 1 on its way to the front, slot 1 is left with its
bytes. -/
theorem Directory.leftFor_one {d : Directory} {m : Mem} (hused : (d.slot 0).used = true)
    (hbegins : (d.slot 1).offset = dataStart + 1) (hends : (d.slot 1).length + 1 ≤ (d.slot 0).length) :
    d.leftFor m 1 = read m ((d.slot 0).offset + 1) (d.slot 1).length := by
  rw [Directory.leftFor, Slot.bytes, hbegins]
  refine read_congr fun k hk => ?_
  rw [Directory.moved_one _ _ hused (by omega) (by omega)]
  refine congrArg m ?_
  omega

theorem compactCache_from {m : Mem} (h : WellFormed (directory m)) :
    CompactedFrom m (compactCache (.start m)).mem := by
  obtain ⟨hdir, hdata, -⟩ := compactCache_spec (s := .start m) h
  exact ⟨hdir, hdata⟩

theorem CompactedFrom.wellFormed {m b : Mem} (h : WellFormed (directory m))
    (hc : CompactedFrom m b) : WellFormed (directory b) := by
  rw [hc.dir]
  exact h.compacted

/-- **`Get` after a compaction** is decided by the checksum of what the moves left for the slot. -/
theorem CompactedFrom.getBytes_cases {m b : Mem} (h : WellFormed (directory m))
    (hc : CompactedFrom m b) {key : List UInt8} {i : Nat} (hh : (directory m).Holds key i) :
    (calculateChecksum ((directory m).leftFor m i) = ((directory m).slot i).checksum →
        getBytes b key = some ((directory m).leftFor m i)) ∧
      (calculateChecksum ((directory m).leftFor m i) ≠ ((directory m).slot i).checksum →
        getBytes b key = none) := by
  have hholds : (directory b).Holds key i := by
    rw [hc.dir, Directory.compacted_holds]
    exact hh
  have hsum : ((directory b).slot i).checksum = ((directory m).slot i).checksum := by
    rw [hc.dir, Directory.compacted_checksum]
  have hget := getBytes_of_holds (hc.wellFormed h).names hholds
  rw [Slot.Intact, hc.bytes h hh.1, hsum] at hget
  exact hget

/-- Compaction leaves a slot's bytes as they were. -/
theorem CompactedFrom.bytes_eq_iff {m b : Mem} (h : WellFormed (directory m))
    (hc : CompactedFrom m b) {i : Nat} (hu : ((directory m).slot i).used = true) :
    ((directory b).slot i).bytes b = ((directory m).slot i).bytes m ↔
      ∀ k, k < ((directory m).slot i).length →
        (directory m).moved m cacheMaxEntries ((directory m).packedStart i + k) =
          m (((directory m).slot i).offset + k) := by
  have hlen : ((directory b).slot i).length = ((directory m).slot i).length := by
    rw [hc.dir, Directory.compacted_length]
  rw [Slot.bytes, Slot.bytes, hlen, read_eq_iff]
  refine forall_congr' fun k => forall_congr' fun _ => ?_
  rw [hc.byte h hu k]

/-- Under `NoClobber` a compacted mapping answers every `Get` as before. -/
theorem CompactedFrom.getBytes_eq {m b : Mem} (h : WellFormed (directory m))
    (hc : CompactedFrom m b) (hn : (directory m).NoClobber m) (key : List UInt8) :
    getBytes b key = getBytes m key := by
  refine getBytes_frame h.names (hc.wellFormed h).names (fun j => ?_) fun j hh => ⟨?_, ?_⟩
  · rw [hc.dir, Directory.compacted_holds]
  · rw [hc.dir, Directory.compacted_checksum]
  · rw [hc.bytes_eq_iff h hh.1]
    exact fun k hk => Directory.bytesKept_of_noClobber hn j (h.table j hh.1) hh.1 k hk

/-- A `Put` that compacts under `NoClobber` leaves every other key's answer alone, whether it stores
the value or refuses it. -/
theorem put_compacts_other {m : Mem} (h : WellFormed (directory m)) (hn : (directory m).NoClobber m)
    {key : List UInt8} {data : Blob} (hput : Compacts m data.length) {other : List UInt8}
    (hne : keyName other ≠ keyName key) :
    getBytes (put (.start m) key (some data)).2.mem other = getBytes m other := by
  obtain ⟨hlen, hfull⟩ := hput
  rw [availableSpace_eq h] at hfull
  obtain ⟨-, b, hroom, hwf, hcase⟩ := put_cases (s := .start m) h (Mapping.safe_start m) key hlen
  have hb : getBytes b other = getBytes m other := by
    rcases hroom with ⟨hfit, -⟩ | ⟨-, hc⟩
    · exact absurd hfull (Nat.not_lt.mpr hfit)
    · exact hc.getBytes_eq h hn other
  rcases hcase with ⟨-, hmem, -⟩ | ⟨-, idx, hstored⟩
  · rw [hmem, hb]
  · rw [hstored.get_ne hwf hlen hne, hb]

/-- A `Put` that does not compact leaves every other key's answer alone, whether it stores the value or
refuses it. -/
theorem put_quiet_other {m : Mem} (h : WellFormed (directory m)) {key : List UInt8} {data : Blob}
    (hput : ¬ Compacts m data.length) {other : List UInt8} (hne : keyName other ≠ keyName key) :
    getBytes (put (.start m) key (some data)).2.mem other = getBytes m other := by
  rcases Nat.eq_zero_or_pos data.length with hzero | hlen
  · have hempty : ∀ b, some data = some b → b.length = 0 := fun b hb => Option.some.inj hb ▸ hzero
    rw [put_rejects key hempty]
    rfl
  · rw [Compacts, availableSpace_eq h] at hput
    obtain ⟨-, b, hroom, hwf, hcase⟩ := put_cases (s := .start m) h (Mapping.safe_start m) key hlen
    have hb : b = m := by
      rcases hroom with ⟨-, hsame⟩ | ⟨hfull, -⟩
      · exact hsame
      · exact absurd ⟨hlen, hfull⟩ hput
    subst hb
    rcases hcase with ⟨-, hmem, -⟩ | ⟨-, idx, hstored⟩
    · rw [hmem]
    · exact hstored.get_ne hwf hlen hne

/-! ## An overwrite that a compaction does not survive -/

/-- Store `a`, store `b` behind it, and overwrite `a` with a longer value: slot 0 then lies behind
slot 1. -/
def overwritten : List Op :=
  [.put [97] (some ⟨[1], by decide⟩), .put [98] (some ⟨[2], by decide⟩),
    .put [97] (some ⟨[3, 4], by decide⟩)]

/-- The directory after the first store of `overwritten`. -/
def oneStored : Directory := Directory.fresh.store 0 [97] ⟨[1], by decide⟩

/-- The directory after the two stores. -/
def twoStored : Directory := oneStored.store 1 [98] ⟨[2], by decide⟩

theorem oneStored_slot_ne {j : Nat} (h : j ≠ 0) : oneStored.slot j = .empty :=
  Directory.store_slot_ne _ _ _ h

/-- The first store, from a fresh directory. -/
theorem put_first {m : Mem} (h : directory m = .fresh) :
    (put (.start m) [97] (some ⟨[1], by decide⟩)).1 = true ∧
      StoredAt m [97] ⟨[1], by decide⟩ 0 (put (.start m) [97] (some ⟨[1], by decide⟩)).2.mem :=
  put_fresh h (by decide) (by decide)

/-- A second key goes to the next slot. -/
theorem put_second {m : Mem} (hwf : WellFormed (directory m)) (h : directory m = oneStored)
    {data : Blob} (hlen : 0 < data.length) (hfit : dataStart + 1 + data.length ≤ cacheFileSize) :
    (put (.start m) [98] (some data)).1 = true ∧
      StoredAt m [98] data 1 (put (.start m) [98] (some data)).2.mem := by
  refine put_stored hwf hlen ?_ (by decide) ?_
  · rw [h]
    exact hfit
  · rw [h]
    refine Or.inr ⟨⟨by rw [oneStored_slot_ne one_ne_zero]; rfl, fun j hj => ?_⟩, fun j hh => ?_⟩
    · rw [Nat.lt_one_iff.mp hj]
      rfl
    · by_cases hj : j = 0
      · subst hj
        exact absurd hh.2 (by decide)
      · rw [Directory.Holds, oneStored_slot_ne hj] at hh
        exact Bool.false_ne_true hh.1

/-- The overwrite goes back to slot 0, at the end of the data. -/
theorem stored_third {m : Mem} (hwf : WellFormed (directory m)) (h : directory m = twoStored) :
    StoredAt m [97] ⟨[3, 4], by decide⟩ 0
      (put (.start m) [97] (some ⟨[3, 4], by decide⟩)).2.mem := by
  refine (put_stored hwf (by decide) ?_ (by decide) ?_).2
  · rw [h]
    decide
  · rw [h]
    exact Or.inl ⟨rfl, by decide⟩

/-- What `overwritten` leaves, from a fresh directory: two used slots, the first of them behind the
second, and the bytes at their extents. -/
structure OverwrittenAt (m : Mem) : Prop where
  wellFormed : WellFormed (directory m)
  dir : directory m = twoStored.store 0 [97] ⟨[3, 4], by decide⟩
  second : m (dataStart + 1) = 2
  fourth : m (dataStart + 3) = 4

section Stores

variable {m m1 m2 m3 : Mem}

theorem oneStored_dir (h : directory m = .fresh) (ha : StoredAt m [97] ⟨[1], by decide⟩ 0 m1) :
    directory m1 = oneStored := by
  rw [ha.dir, h]
  rfl

theorem twoStored_dir (h : directory m1 = oneStored) (hb : StoredAt m1 [98] ⟨[2], by decide⟩ 1 m2) :
    directory m2 = twoStored := by
  rw [hb.dir, h]
  rfl

theorem OverwrittenAt.of_stored (hwf : WellFormed (directory m2)) (hdirA : directory m1 = oneStored)
    (hb : StoredAt m1 [98] ⟨[2], by decide⟩ 1 m2)
    (hc : StoredAt m2 [97] ⟨[3, 4], by decide⟩ 0 m3) : OverwrittenAt m3 := by
  have hdirB := twoStored_dir hdirA hb
  have hnextA : (directory m1).next = dataStart + 1 := by
    rw [hdirA]
    rfl
  have hnextB : (directory m2).next = dataStart + 2 := by
    rw [hdirB]
    rfl
  refine ⟨hc.wellFormed hwf (by decide), by rw [hc.dir, hdirB], ?_, ?_⟩
  · rw [hc.data _ (Nat.le_add_right _ _), hnextB, blit_out (by omega),
      hb.data _ (Nat.le_add_right _ _), hnextA, blit_in (le_refl _) (Nat.lt_succ_self _), Nat.sub_self]
    rfl
  · rw [hc.data _ (Nat.le_add_right _ _), hnextB, blit_in (by omega) (Nat.lt_succ_self _),
      show dataStart + 3 - (dataStart + 2) = 1 by omega]
    rfl

theorem execAll_overwritten (m : Mem) : execAll m overwritten =
    (put (.start (execAll m (overwritten.take 2))) [97] (some ⟨[3, 4], by decide⟩)).2.mem := by
  simp only [overwritten, execAll, List.take_succ_cons, List.take_zero, List.foldl_cons,
    List.foldl_nil, Op.exec]

theorem execAll_two (m : Mem) : execAll m (overwritten.take 2) =
    (put (.start (put (.start m) [97] (some ⟨[1], by decide⟩)).2.mem) [98]
      (some ⟨[2], by decide⟩)).2.mem := by
  simp only [overwritten, execAll, List.take_succ_cons, List.take_zero, List.foldl_cons,
    List.foldl_nil, Op.exec]

/-- The two stores leave a well-formed cache with directory `twoStored`. -/
theorem twoStored_spec (h : directory m = .fresh) :
    WellFormed (directory (execAll m (overwritten.take 2))) ∧
      directory (execAll m (overwritten.take 2)) = twoStored := by
  have ha := (put_first h).2
  have hwfA := ha.wellFormed (h ▸ .fresh) (by decide)
  have hb : StoredAt _ [98] ⟨[2], by decide⟩ 1 _ :=
    (put_second hwfA (oneStored_dir h ha) (by decide) (by decide)).2
  rw [execAll_two]
  exact ⟨hb.wellFormed hwfA (by decide), twoStored_dir (oneStored_dir h ha) hb⟩

theorem overwritten_spec (h : directory m = .fresh) : OverwrittenAt (execAll m overwritten) := by
  have ha := (put_first h).2
  have hwfA := ha.wellFormed (h ▸ .fresh) (by decide)
  have hb : StoredAt _ [98] ⟨[2], by decide⟩ 1 _ :=
    (put_second hwfA (oneStored_dir h ha) (by decide) (by decide)).2
  obtain ⟨hwfB, hdirB⟩ := twoStored_spec h
  rw [← execAll_two] at hb
  rw [execAll_overwritten]
  exact OverwrittenAt.of_stored hwfB (oneStored_dir h ha) hb (stored_third hwfB hdirB)

end Stores

/-- The byte that compaction leaves for `b` in slot 1 is the last byte of the new value of `a`. -/
theorem OverwrittenAt.leftFor {m : Mem} (h : OverwrittenAt m) : (directory m).leftFor m 1 = [4] := by
  rw [Directory.leftFor_one, h.dir]
  · show [m (dataStart + 3)] = [4]
    rw [h.fourth]
  · rw [h.dir]
    rfl
  · rw [h.dir]
    rfl
  · rw [h.dir]
    decide

theorem OverwrittenAt.holds {m : Mem} (h : OverwrittenAt m) : (directory m).Holds [98] 1 := by
  rw [h.dir]
  exact ⟨rfl, by decide⟩

/-- So `b` is gone after the compaction. -/
theorem OverwrittenAt.lost {m b : Mem} (h : OverwrittenAt m) (hc : CompactedFrom m b) :
    getBytes b [98] = none := by
  refine (hc.getBytes_cases h.wellFormed h.holds).2 ?_
  rw [h.leftFor, h.dir]
  decide

theorem OverwrittenAt.found {m : Mem} (h : OverwrittenAt m) : getBytes m [98] = some [2] := by
  have hslot : (directory m).slot 1 = storedSlot [98] ⟨[2], by decide⟩ (dataStart + 1) := by
    rw [h.dir]
    rfl
  have hbytes : ((directory m).slot 1).bytes m = [2] := by
    rw [hslot, Slot.bytes]
    simp only [storedSlot, Lib.ByteMemory.read, Blob.length, List.length_singleton, List.range_one,
      List.map_cons, List.map_nil, Nat.add_zero, h.second]
  have hintact : ((directory m).slot 1).Intact m := by
    rw [Slot.Intact, hbytes, hslot]
    decide
  rw [(getBytes_of_holds h.wellFormed.names h.holds).1 hintact, hbytes]

/-- A value no cache file has room for. -/
def oversized : Blob := ⟨List.replicate cacheFileSize 0, by
  rw [List.length_replicate]
  exact cacheFileSize_lt⟩

theorem oversized_length : oversized.length = cacheFileSize := by
  simp only [oversized, Blob.length, List.length_replicate]

/-- A `Put` of it is refused, after it has run the compaction. -/
theorem put_oversized {m : Mem} (h : WellFormed (directory m)) (key : List UInt8) :
    (put (.start m) key (some oversized)).1 = false ∧
      CompactedFrom m (put (.start m) key (some oversized)).2.mem := by
  have hlen := oversized_length
  have hsize := dataStart_le_fileSize
  have hpos : 0 < dataStart := by decide
  have hnext := h.next_lo
  have hsome : 0 < oversized.length := by omega
  obtain ⟨-, b, hroom, hwf, hcase⟩ := put_cases (s := .start m) h (Mapping.safe_start m) key hsome
  have hlo := hwf.next_lo
  have hc : CompactedFrom m b := by
    rcases hroom with ⟨hfit, -⟩ | ⟨-, hc⟩
    · have hfit' : oversized.length ≤ cacheFileSize - (directory m).next := hfit
      omega
    · exact hc
  rcases hcase with ⟨hok, hmem, -⟩ | ⟨-, idx, hstored⟩
  · rw [hok, hmem]
    exact ⟨rfl, hc⟩
  · have hfit := hstored.fits
    omega

/-- So a refused `Put` of another key is enough to lose `b`. -/
theorem OverwrittenAt.lost_by_put {m : Mem} (h : OverwrittenAt m) :
    (put (.start m) [99] (some oversized)).1 = false ∧
      getBytes (put (.start m) [99] (some oversized)).2.mem [98] = none := by
  obtain ⟨hok, hc⟩ := put_oversized h.wellFormed [99]
  exact ⟨hok, h.lost hc⟩

/-! ## A gap that a compaction closes -/

/-- Store `a`, `b` and `c` one behind the other, and remove `b`: slot 2 then lies one byte behind where
compaction puts it. -/
def spaced : List Op :=
  overwritten.take 2 ++ [.put [99] (some ⟨[3, 4], by decide⟩), .remove [98]]

/-- What `spaced` leaves, from a fresh directory. -/
structure SpacedAt (m : Mem) : Prop where
  wellFormed : WellFormed (directory m)
  dir : directory m = (twoStored.store 2 [99] ⟨[3, 4], by decide⟩).erase 1
  first : m dataStart = 1
  third : m (dataStart + 2) = 3
  fourth : m (dataStart + 3) = 4

theorem twoStored_slot_ne {j : Nat} (h₀ : j ≠ 0) (h₁ : j ≠ 1) : twoStored.slot j = .empty := by
  rw [twoStored, Directory.store_slot_ne _ _ _ h₁, oneStored_slot_ne h₀]

section Stores

variable {m m1 m2 m3 m4 : Mem}

/-- A third key goes to the slot behind the two. -/
theorem put_next (hwf : WellFormed (directory m)) (h : directory m = twoStored) :
    (put (.start m) [99] (some ⟨[3, 4], by decide⟩)).1 = true ∧
      StoredAt m [99] ⟨[3, 4], by decide⟩ 2
        (put (.start m) [99] (some ⟨[3, 4], by decide⟩)).2.mem := by
  refine put_stored hwf (by decide) ?_ (by decide) ?_
  · rw [h]
    decide
  · rw [h]
    refine Or.inr ⟨⟨by rw [twoStored_slot_ne (by decide) (by decide)]; rfl, fun j hj => ?_⟩,
      fun j hh => ?_⟩
    · rcases Nat.lt_succ_iff_lt_or_eq.mp hj with hj | rfl
      · rw [Nat.lt_one_iff.mp hj]
        rfl
      · rfl
    · by_cases hj : j = 0 ∨ j = 1
      · rcases hj with rfl | rfl
        · exact absurd hh.2 (by decide)
        · exact absurd hh.2 (by decide)
      · rw [Directory.Holds, twoStored_slot_ne (by omega) (by omega)] at hh
        exact Bool.false_ne_true hh.1

theorem SpacedAt.of_stored (h : directory m = .fresh) (ha : StoredAt m [97] ⟨[1], by decide⟩ 0 m1)
    (hb : StoredAt m1 [98] ⟨[2], by decide⟩ 1 m2) (hc : StoredAt m2 [99] ⟨[3, 4], by decide⟩ 2 m3)
    (he : ErasedAt m3 [98] 1 m4) : SpacedAt m4 := by
  have hdirA := oneStored_dir h ha
  have hdirB := twoStored_dir hdirA hb
  have hnext : (directory m).next = dataStart := by
    rw [h]
    rfl
  have hnextA : (directory m1).next = dataStart + 1 := by
    rw [hdirA]
    rfl
  have hnextB : (directory m2).next = dataStart + 2 := by
    rw [hdirB]
    rfl
  have hwfC := hc.wellFormed (hb.wellFormed (ha.wellFormed (h ▸ .fresh) (by decide)) (by decide))
    (by decide)
  refine ⟨he.wellFormed hwfC, by rw [he.dir, hc.dir, hdirB], ?_, ?_, ?_⟩
  · rw [he.data _ le_rfl, hc.data _ le_rfl, hnextB, blit_out (by omega), hb.data _ le_rfl, hnextA,
      blit_out (by omega), ha.data _ le_rfl, hnext, blit_in le_rfl (Nat.lt_succ_self _), Nat.sub_self]
    rfl
  · rw [he.data _ (Nat.le_add_right _ _), hc.data _ (Nat.le_add_right _ _), hnextB,
      blit_in le_rfl (Nat.lt_add_of_pos_right (by decide)), Nat.sub_self]
    rfl
  · rw [he.data _ (Nat.le_add_right _ _), hc.data _ (Nat.le_add_right _ _), hnextB,
      blit_in (by omega) (Nat.lt_succ_self _), show dataStart + 3 - (dataStart + 2) = 1 by omega]
    rfl

theorem spaced_spec (h : directory m = .fresh) : SpacedAt (execAll m spaced) := by
  have ha := (put_first h).2
  have hwfA := ha.wellFormed (h ▸ .fresh) (by decide)
  have hb : StoredAt _ [98] ⟨[2], by decide⟩ 1 _ :=
    (put_second hwfA (oneStored_dir h ha) (by decide) (by decide)).2
  obtain ⟨hwfB, hdirB⟩ := twoStored_spec h
  rw [← execAll_two] at hb
  have hc := (put_next hwfB hdirB).2
  have hheld : (directory (put (.start (execAll m (overwritten.take 2))) [99]
      (some ⟨[3, 4], by decide⟩)).2.mem).Holds [98] 1 := by
    rw [Directory.Holds, hc.slot_ne (by decide), hdirB]
    exact ⟨rfl, by decide⟩
  have he := (remove_held (hc.wellFormed hwfB (by decide)) hheld).2
  have hexec : execAll m spaced = (remove (.start (put (.start (execAll m (overwritten.take 2))) [99]
      (some ⟨[3, 4], by decide⟩)).2.mem) [98]).2.mem := by
    simp only [spaced, execAll, List.foldl_append, List.foldl_cons, List.foldl_nil, Op.exec]
  rw [hexec]
  exact .of_stored h ha hb hc he

end Stores

section Spaced

variable {m : Mem} (h : SpacedAt m)
include h

theorem SpacedAt.slot_zero : (directory m).slot 0 = storedSlot [97] ⟨[1], by decide⟩ dataStart := by
  rw [h.dir]
  rfl

theorem SpacedAt.slot_two :
    (directory m).slot 2 = storedSlot [99] ⟨[3, 4], by decide⟩ (dataStart + 2) := by
  rw [h.dir]
  rfl

theorem SpacedAt.used_iff {i : Nat} : ((directory m).slot i).used = true ↔ i = 0 ∨ i = 2 := by
  rw [h.dir]
  by_cases hi : i = 0 ∨ i = 1 ∨ i = 2
  · rcases hi with rfl | rfl | rfl
    · exact iff_of_true rfl (.inl rfl)
    · exact iff_of_false Bool.false_ne_true (by omega)
    · exact iff_of_true rfl (.inr rfl)
  · rw [Directory.erase_slot_ne _ (by omega), Directory.store_slot_ne _ _ _ (by omega),
      twoStored_slot_ne (by omega) (by omega)]
    exact iff_of_false Bool.false_ne_true (by omega)

theorem SpacedAt.packedStart_two : (directory m).packedStart 2 = dataStart + 1 := by
  rw [h.dir]
  rfl

/-- The extents of `a` and, packed, of `c` do not meet that of `c` before it moves. -/
theorem SpacedAt.noClobber : (directory m).NoClobber m := by
  intro i j hij hi hj q _ hhi hlo _
  rcases h.used_iff.mp hi with rfl | rfl <;> rcases h.used_iff.mp hj with rfl | rfl
  · omega
  · rw [Directory.packedStart_zero, h.slot_zero] at hhi
    rw [h.slot_two] at hlo
    simp only [storedSlot, Blob.length, List.length_singleton] at hhi hlo
    omega
  · omega
  · omega

theorem SpacedAt.holds_two : (directory m).Holds [99] 2 := by
  rw [Directory.Holds, h.slot_two]
  exact ⟨rfl, by decide⟩

theorem SpacedAt.found : getBytes m [99] = some [3, 4] := by
  have hbytes : ((directory m).slot 2).bytes m = [3, 4] := by
    have hread : ((directory m).slot 2).bytes m = [m (dataStart + 2), m (dataStart + 3)] := by
      rw [h.slot_two, Slot.bytes, Lib.ByteMemory.read]
      rfl
    rw [hread, h.third, h.fourth]
  have hintact : ((directory m).slot 2).Intact m := by
    rw [Slot.Intact, hbytes, h.slot_two]
    decide
  rw [(getBytes_of_holds h.wellFormed.names h.holds_two).1 hintact, hbytes]

end Spaced

/-! ## When compaction keeps the bytes -/

/-- **Compaction keeps every value exactly when no move clobbers a later extent**, in every state of
every run. -/
theorem compaction_keeps_iff {file m : Mem} {ops : List Op} (hrun : RunFrom file ops m) :
    CompactionKeeps m ↔ (directory m).NoClobber m := by
  have h := hrun.wellFormed
  have hc := compactCache_from h
  have hslotBytes : ∀ (k : Mem) {i : Nat}, i < cacheMaxEntries →
      read k (entryOffset k i) (entryLength k i) = ((directory k).slot i).bytes k := by
    intro k i hi
    rw [entryOffset_eq hi, entryLength_eq hi, Slot.bytes]
  constructor
  · intro hkeeps
    refine Directory.noClobber_of_bytesKept h.table fun j hj hu k hk => ?_
    have hbytes := hkeeps.bytes j hj (by rw [entryIsUsed_eq hj, hu])
    rw [hslotBytes _ hj, hslotBytes _ hj, hc.bytes_eq_iff h hu] at hbytes
    exact hbytes k hk
  · intro hn
    refine ⟨fun i hi hu => ?_, fun key bytes hg => ?_, fun key data hput other hne => ?_⟩
    · rw [entryIsUsed_eq hi] at hu
      rw [hslotBytes _ hi, hslotBytes _ hi, hc.bytes_eq_iff h hu]
      exact fun k hk => Directory.bytesKept_of_noClobber hn i hi hu k hk
    · rw [hc.getBytes_eq h hn, hg]
    · exact put_compacts_other h hn hput hne

/-- The condition at work: `c` moves to the front by one byte, and is still found. -/
theorem compaction_keeps_spaced : ∃ m, RunFrom (fun _ => 0) spaced m ∧
    (entryOffset m 2 = dataStart + 2 ∧ entryOffset (compactCache (.start m)).mem 2 = dataStart + 1) ∧
    CompactionKeeps m ∧ getBytes (compactCache (.start m)).mem [99] = some [3, 4] := by
  have h := spaced_spec (initMmap_fresh (runFrom_zeros []).1)
  have hkeeps : CompactionKeeps (execAll (initMmap (.start fun _ => 0)).mem spaced) :=
    (compaction_keeps_iff (runFrom_zeros _)).mpr h.noClobber
  refine ⟨_, runFrom_zeros _, ⟨?_, ?_⟩, hkeeps, hkeeps.gets _ _ h.found⟩
  · rw [entryOffset_eq (by decide), h.slot_two]
    rfl
  · rw [entryOffset_eq (by decide), (compactCache_from h.wellFormed).dir,
      h.wellFormed.compacted_offset (h.used_iff.mpr (.inr rfl)), h.packedStart_two]

/-- **Compaction loses a value.** After `overwritten` the key `b` is found; `CompactCache` alone, and
a `Put` of another key that is then refused as too large, make `Get` of `b` fail. -/
theorem compaction_loses_value : ∃ m, RunFrom (fun _ => 0) overwritten m ∧
    getBytes m [98] = some [2] ∧ getBytes (compactCache (.start m)).mem [98] = none ∧
    (put (.start m) [99] (some oversized)).1 = false ∧
    getBytes (put (.start m) [99] (some oversized)).2.mem [98] = none := by
  have h := overwritten_spec (initMmap_fresh (runFrom_zeros []).1)
  exact ⟨_, runFrom_zeros _, h.found, h.lost (compactCache_from h.wellFormed), h.lost_by_put⟩

end CCache.Cache
