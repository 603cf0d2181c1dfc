/-
# CCache.Cache.Honesty — when `Get` never hands out wrong bytes.

A compaction may write foreign bytes into the extent of a slot that is still to be moved.  `Get` then
relies on the checksum: it answers false unless the foreign bytes have the checksum of the lost value.
`NoCollision` is the condition that no slot is left with bytes that are not its own and still have its
checksum.  In every run whose compactions all start under it, a slot is either intact, and then holds
the bytes of the latest `Put` of its key, or `Get` misses.  The checksum does not give the condition: two
bytes `b, c` and two bytes `b + 1, c - 33` have the same one.
-/
import CCache.Cache.Values

namespace CCache.Cache

open CCache.Lib.ByteMemory
open CCache.Lib.KeyValue
open CCache.Lib.Runs

/-! ## Slots that are right or seen to be broken -/

/-- No slot is left with bytes that are not its own and have its checksum. -/
def Directory.NoCollision (d : Directory) (m : Mem) : Prop :=
  ∀ j, (d.slot j).used = true →
    d.leftFor m j = (d.slot j).bytes m ∨ calculateChecksum (d.leftFor m j) ≠ (d.slot j).checksum

/-- When no move clobbers a later extent, every slot is left with its own bytes. -/
theorem Directory.noCollision_of_noClobber {d : Directory} {m : Mem} (h : d.NoClobber m) :
    d.NoCollision m := by
  intro j hu
  refine Or.inl (read_congr fun k hk => ?_)
  exact intactFrom_of_noClobber h j j (le_refl j) hu k hk

/-- The slot has the length of the value, and the value's bytes unless its checksum fails. -/
structure IntactOnly (m : Mem) (e : Slot) (bytes : List UInt8) : Prop where
  length : e.length = bytes.length
  bytes : e.Intact m → e.bytes m = bytes

theorem framed_intactOnly : Framed Blob.bytes IntactOnly where
  self := by
    intro b k key data idx hb hs
    refine ⟨?_, fun _ => hs.bytes_self hb⟩
    rw [hs.slot_self]
    rfl
  frame := by
    intro m k e v hbytes h
    refine ⟨h.length, fun hintact => ?_⟩
    rw [hbytes]
    rw [Slot.Intact, hbytes] at hintact
    exact h.bytes hintact

/-- **A compaction under `NoCollision`.** A slot that is intact afterwards was left its own bytes, so
it was intact before. -/
theorem Tracks.compacted_intactOnly {m b : Mem} {f : List UInt8 → Option (List UInt8)}
    (hn : (directory m).NoCollision m) (h : Tracks IntactOnly m f) (hc : CompactedFrom m b) :
    Tracks IntactOnly b f := by
  refine h.compacted hc fun i v hu hv => ?_
  have hsum : ((directory b).slot i).checksum = ((directory m).slot i).checksum := by
    rw [hc.dir, Directory.compacted_checksum]
  refine ⟨?_, fun hintact => ?_⟩
  · rw [hc.dir, Directory.compacted_length]
    exact hv.length
  · rw [Slot.Intact, hc.bytes h.wellFormed hu, hsum] at hintact
    rcases hn i hu with hown | hother
    · rw [hown] at hintact
      rw [hc.bytes h.wellFormed hu, hown]
      exact hv.bytes hintact
    · exact absurd hintact hother

/-- What `Get` answers with is the value of the map. -/
theorem Tracks.get_honest {m : Mem} {f : List UInt8 → Option (List UInt8)}
    (h : Tracks IntactOnly m f) {key : List UInt8} {v : View} (hg : get m key = some v) :
    f (keyName key) = some (v.bytes m) := by
  obtain ⟨i, hh, hintact, rfl⟩ := holds_of_get h.wellFormed.names hg
  obtain ⟨w, hw, hslot⟩ := h.slots i hh.1
  rw [← hh.2, hw, ← hslot.bytes hintact]
  rfl

/-- **The cache may miss but never lies** in any run whose compactions all start under `NoCollision`:
whenever `Get` succeeds it hands out the bytes of the latest successful `Put` of its key, in their
length. -/
theorem get_never_lies {file m : Mem} {history : List Call}
    (h : GuardedHistory (fun m => (directory m).NoCollision m) file history m) (key : List UInt8)
    (v : View) (hg : get m key = some v) :
    Latest (history.map (Call.edit Blob.bytes)) (keyName key) (v.bytes m) ∧
      (v.bytes m).length = v.length := by
  have ht : Tracks IntactOnly m (values history) :=
    h.tracks framed_intactOnly fun _ _ _ hn ht hc => ht.compacted_intactOnly hn hc
  exact ⟨(replay_eq_some_iff _ _ _).mp (ht.get_honest hg), Lib.ByteMemory.read_length _ _ _⟩

/-! ## An overwrite and a refused `Put` -/

/-- What is left of storing `a`, then `b` behind it, and then overwriting `a` with `third`: slot 0 lies
behind slot 1. -/
structure OverwrittenBy (second third : Blob) (m : Mem) : Prop where
  wellFormed : WellFormed (directory m)
  dir : directory m = (oneStored.store 1 [98] second).store 0 [97] third
  found : getBytes m [98] = some second.bytes
  third : read m (dataStart + 1 + second.length) third.length = third.bytes

/-- One `Put` at the end of a history. -/
theorem GuardedHistory.put {guard : Mem → Prop} {file m : Mem} {history : List Call}
    (h : GuardedHistory guard file history m) (key : List UInt8) (data : Blob)
    (hguard : Compacts m data.length → guard m) :
    GuardedHistory guard file
      (history ++ [⟨.put key (some data), .done (Cache.put (.start m) key (some data)).1⟩])
      (Cache.put (.start m) key (some data)).2.mem :=
  ⟨h.1, .snoc h.2 ⟨hguard, rfl, rfl⟩⟩

/-- One `Put` with room behind `next_offset` at the end of a quiet history. -/
theorem QuietHistory.put {file m : Mem} {history : List Call} (h : QuietHistory file history m)
    (hwf : WellFormed (directory m)) (key : List UInt8) (data : Blob)
    (hfit : (directory m).next + data.length ≤ cacheFileSize) :
    QuietHistory file
      (history ++ [⟨.put key (some data), .done (Cache.put (.start m) key (some data)).1⟩])
      (Cache.put (.start m) key (some data)).2.mem :=
  GuardedHistory.put h key data (not_compacts hwf hfit)

/-- The three stores are a quiet history on a zeroed file. -/
theorem quiet_overwritten (second third : Blob) (hsecond : 0 < second.length)
    (hthird : 0 < third.length)
    (hfit : dataStart + 1 + second.length + third.length ≤ cacheFileSize) :
    ∃ history m, QuietHistory (fun _ => 0) history m ∧ OverwrittenBy second third m := by
  have hfresh := initMmap_fresh (runFrom_zeros []).1
  have hquiet : QuietHistory (fun _ => 0) [] (initMmap (.start fun _ => 0)).mem := ⟨by decide, .nil⟩
  generalize (initMmap (.start fun _ => 0)).mem = m at hfresh hquiet
  have hwf : WellFormed (directory m) := hfresh ▸ .fresh
  -- the first store
  have ha := (put_first hfresh).2
  have hquietA := hquiet.put hwf [97] ⟨[1], by decide⟩ (by
    rw [hfresh]
    decide)
  generalize (put (.start m) [97] (some ⟨[1], by decide⟩)).2.mem = mA at ha hquietA
  have hwfA := ha.wellFormed hwf (by decide)
  have hdirA := oneStored_dir hfresh ha
  -- the second
  have hb := (put_second hwfA hdirA hsecond (by omega)).2
  have hquietB := hquietA.put hwfA [98] second (by
    rw [hdirA]
    show dataStart + 1 + second.length ≤ cacheFileSize
    omega)
  generalize (put (.start mA) [98] (some second)).2.mem = mB at hb hquietB
  have hwfB := hb.wellFormed hwfA hsecond
  have hdirB : directory mB = oneStored.store 1 [98] second := by rw [hb.dir, hdirA]
  have hnextB : (directory mB).next = dataStart + 1 + second.length := by
    rw [hdirB]
    rfl
  -- the overwrite
  have hfitB : (directory mB).next + third.length ≤ cacheFileSize := by
    rw [hnextB]
    exact hfit
  have htarget : (directory mB).Target [97] 0 := by
    rw [hdirB]
    exact Or.inl ⟨rfl, (by decide : (oneStored.slot 0).name = keyName [97])⟩
  have hc := (put_stored hwfB hthird hfitB (by decide) htarget).2
  have hquietC := hquietB.put hwfB [97] third hfitB
  generalize (put (.start mB) [97] (some third)).2.mem = mC at hc hquietC
  have hwfC := hc.wellFormed hwfB hthird
  refine ⟨_, mC, hquietC, hwfC, by rw [hc.dir, hdirB], ?_, ?_⟩
  · rw [hc.get_ne hwfB hthird (by decide), hb.get_self hwfA hsecond rfl]
  · have hbytes := hc.bytes_self hwfB
    rw [hc.slot_self, hnextB] at hbytes
    exact hbytes

/-- A refused `Put` that compacts, at the end of a history. -/
theorem GuardedHistory.put_oversized {guard : Mem → Prop} {file m : Mem} {history : List Call}
    (h : GuardedHistory guard file history m) (hwf : WellFormed (directory m)) (hguard : guard m)
    (key : List UInt8) : ∃ b, CompactedFrom m b ∧
      GuardedHistory guard file (history ++ [⟨.put key (some oversized), .done false⟩]) b := by
  obtain ⟨hok, hc⟩ := Cache.put_oversized hwf key
  have hnext := h.put key oversized fun _ => hguard
  rw [hok] at hnext
  exact ⟨_, hc, hnext⟩

section Compacted

variable {second third : Blob} {m b : Mem} (h : OverwrittenBy second third m)
include h

theorem OverwrittenBy.slot_zero :
    (directory m).slot 0 = storedSlot [97] third (dataStart + 1 + second.length) := by
  rw [h.dir]
  rfl

theorem OverwrittenBy.slot_one : (directory m).slot 1 = storedSlot [98] second (dataStart + 1) := by
  rw [h.dir]
  rfl

variable (hlen : second.length + 1 ≤ third.length)
include hlen

/-- What the moves leave for `b` is the end of the new value of `a`. -/
theorem OverwrittenBy.leftFor :
    (directory m).leftFor m 1 = (third.bytes.drop 1).take second.length := by
  rw [Directory.leftFor_one (by rw [h.slot_zero]; rfl) (by rw [h.slot_one]; rfl)
    (by rw [h.slot_zero, h.slot_one]; exact hlen), h.slot_zero, h.slot_one, ← h.third,
    read_drop _ _ _ _ (by omega), read_take _ _ _ _ (by omega)]
  rfl

/-- After the compaction `Get` of `b` is decided by the checksum of what the moves left. -/
theorem OverwrittenBy.get_compacted (hc : CompactedFrom m b) :
    (calculateChecksum ((third.bytes.drop 1).take second.length) = calculateChecksum second.bytes →
        getBytes b [98] = some ((third.bytes.drop 1).take second.length)) ∧
      (calculateChecksum ((third.bytes.drop 1).take second.length) ≠ calculateChecksum second.bytes →
        getBytes b [98] = none) := by
  have hholds : (directory m).Holds [98] 1 := by
    rw [Directory.Holds, h.slot_one]
    exact ⟨rfl, keyName_keyField [98]⟩
  have hget := hc.getBytes_cases h.wellFormed hholds
  rw [h.leftFor hlen, h.slot_one] at hget
  exact hget

/-- The compaction meets `NoCollision` when the checksums differ. -/
theorem OverwrittenBy.noCollision (hsum : calculateChecksum ((third.bytes.drop 1).take second.length) ≠
    calculateChecksum second.bytes) : (directory m).NoCollision m := by
  intro j hu
  match j with
  | 0 => exact Or.inl rfl
  | 1 =>
    refine Or.inr ?_
    rw [h.leftFor hlen, h.dir]
    exact hsum
  | j + 2 =>
    rw [h.dir, Directory.store_slot_ne _ _ _ (by omega), Directory.store_slot_ne _ _ _ (by omega),
      oneStored_slot_ne (by omega)] at hu
    exact absurd hu Bool.false_ne_true

end Compacted

/-- **`Get` lies.** The compaction that a refused `Put` runs leaves the bytes 1, 0 where `b` had 0, 33;
both have checksum 33, so `Get` of `b` succeeds with bytes that were never stored for it. -/
theorem get_lies : ∃ history m, HistoryFrom (fun _ => 0) history m ∧
    getBytes m [98] = some [1, 0] ∧
    Latest (history.map (Call.edit Blob.bytes)) (keyName [98]) [0, 33] ∧
    ¬ Latest (history.map (Call.edit Blob.bytes)) (keyName [98]) [1, 0] := by
  obtain ⟨history, m, hquiet, hover⟩ :=
    quiet_overwritten ⟨[0, 33], by decide⟩ ⟨[5, 1, 0], by decide⟩ (by decide) (by decide) (by decide)
  have hall : GuardedHistory (fun _ => True) (fun _ => 0) history m := hquiet.guarded
  obtain ⟨b, hc, hhist⟩ := hall.put_oversized hover.wellFormed trivial [99]
  have hget := (hover.get_compacted (by decide) hc).1 (by decide)
  have hvalue : values history (keyName [98]) = some [0, 33] := by
    rw [← hquiet.guarded.tracks_bytes.getBytes_eq, hover.found]
  -- the refused `Put` is the last call, and it edits nothing
  have hlatest : ∀ v, Latest ((history ++ [Call.mk (.put [99] (some oversized)) (.done false)]).map
      (Call.edit Blob.bytes)) (keyName [98]) v ↔ values history (keyName [98]) = some v := by
    intro v
    rw [List.map_append, List.map_singleton, latest_snoc, values, replay_eq_some_iff]
    show Edit.skip = _ ∨ _ ∧ ¬ False ↔ _
    simp
  refine ⟨_, b, ⟨hhist.1, hhist.2.mono fun _ _ _ hstep => hstep.2⟩, hget, (hlatest _).mpr hvalue, ?_⟩
  rw [hlatest, hvalue]
  decide

/-- A compaction that damages `b` and is caught: `b` is a miss, and every `Get` that succeeds is right. -/
theorem get_never_lies_damaged : ∃ history m,
    GuardedHistory (fun m => (directory m).NoCollision m) (fun _ => 0) history m ∧
      getBytes m [98] = none ∧ ∀ key v, get m key = some v →
        Latest (history.map (Call.edit Blob.bytes)) (keyName key) (v.bytes m) := by
  obtain ⟨history, m, hquiet, hover⟩ :=
    quiet_overwritten ⟨[2], by decide⟩ ⟨[3, 4], by decide⟩ (by decide) (by decide) (by decide)
  have hall : GuardedHistory (fun m => (directory m).NoCollision m) (fun _ => 0) history m :=
    hquiet.guarded
  have hguard : (directory m).NoCollision m := hover.noCollision (by decide) (by decide)
  obtain ⟨b, hc, hhist⟩ := hall.put_oversized hover.wellFormed hguard [99]
  exact ⟨_, b, hhist, (hover.get_compacted (by decide) hc).2 (by decide),
    fun key v hg => (get_never_lies hhist key v hg).1⟩

end CCache.Cache
