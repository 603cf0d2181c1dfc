/-
# CCache.Cache.CrashCompaction — a process killed inside `CompactCache`, and every crash together.

Inside `CompactCache` the slots below some `n` are packed, the others are as they were, and at most
the move of slot `n` is half done: outside its target the data bytes are those of `moved`.  So every
slot keeps its key, length and checksum, and when no packed extent overlaps the extent of a later
slot only the entry being moved can be damaged.  `crash_recovery` puts `Remove`, `Put` and `Clear`
together.
-/
import CCache.Cache.CrashRecovery

namespace CCache.Cache

open CCache.Lib.ByteMemory
open CCache.Lib.CString
open CCache.Lib.Extents
open CCache.Lib.Crash
open CCache.Lib.Runs

/-! ## Inside the loop -/

/-- The packed extent of a slot meets the extent of no later slot. -/
def Directory.NoOverlap (d : Directory) : Prop :=
  ∀ i j, i < j → (d.slot i).used = true → (d.slot j).used = true →
    Disj (d.packedStart i) (d.slot i).length (d.slot j).offset (d.slot j).length

theorem Directory.NoOverlap.noClobber {d : Directory} (h : d.NoOverlap) (m : Mem) :
    d.NoClobber m := by
  intro i j hij hi hj q hlo hhi hqlo hqhi
  rcases h i j hij hi hj with h | h <;> omega

/-- A file left inside `CompactCache`, with the slots below `n` packed: each data byte is there
before or after the move of slot `n`. -/
structure CompactCut (m : Mem) (n : Nat) (k : Mem) : Prop where
  le : n ≤ cacheMaxEntries
  dir : ∃ next, directory k = { (directory m).packedTo n with next := next } ∧
    (next = (directory m).next ∨
      n = cacheMaxEntries ∧ next = (directory m).packedStart cacheMaxEntries)
  data : ∀ x, dataStart ≤ x → k x = (directory m).moved m n x ∨ k x = (directory m).moved m (n + 1) x

theorem moveEntry_cuts {m : Mem} {Q : Mem → Prop} {s : Mapping} {w i : Nat} (hc : Cuts m Q s)
    (hw : w < 2 ^ 32) (hmove : ∀ done, Q (blit s.mem w (entryLength s.mem i) (torn s.mem w
      (fun x => s.mem (dataStart + sub32 (entryOffset s.mem i) dataStart + x)) done)))
    (hafter : Q (moveEntry s w i).mem) : Cuts m Q (moveEntry s w i) := by
  unfold moveEntry at hafter ⊢
  simp only [dataPtr_eq hw] at hafter ⊢
  by_cases hne : w ≠ entryOffset s.mem i
  · rw [if_pos hne] at hafter ⊢
    exact ((hc.sub32 _ _).memmove _ _ _ hmove).setWord _ _ hafter
  · rw [if_neg hne]
    exact hc.sub32 _ _

section Loop

variable {m : Mem} {Q : Mem → Prop} {s : Mapping} (h : WellFormed (directory s.mem))
  (hc : Cuts m Q s) (hQ : ∀ n k, CompactCut s.mem n k → Q k)
include h hc hQ

/-- **The loop of `CompactCache`, cut anywhere.** -/
theorem compactLoop_cuts (n : Nat) (hn : n ≤ cacheMaxEntries) : Cuts m Q (compactLoop s n).1 := by
  induction n with
  | zero => exact hc
  | succ n ih =>
    have hprev := ih (by omega)
    obtain ⟨hw, hdir, hdata, -⟩ := compactLoop_spec h n (by omega)
    obtain ⟨-, hdir', hdata', -⟩ := compactLoop_spec h (n + 1) hn
    have hafter : Q (compactLoop s (n + 1)).1.mem :=
      hQ (n + 1) _ ⟨hn, ⟨_, hdir', Or.inl rfl⟩, fun x hx => Or.inl (hdata' x hx)⟩
    have hsize := cacheFileSize_lt
    have hnext := (h.packedStart_le_next n (by omega)).trans h.next_hi
    rw [compactLoop] at hafter ⊢
    unfold compactStep at hafter ⊢
    by_cases hu : entryIsUsed (compactLoop s n).1.mem n = true ∧
        0 < entryLength (compactLoop s n).1.mem n
    · rw [if_pos hu] at hafter ⊢
      refine (moveEntry_cuts hprev (by omega) (fun done => ?_) hafter).add32 _ _
      have hlo := (directory s.mem).dataStart_le_packedStart n
      have hused : ((directory s.mem).slot n).used = true := by
        rw [entryIsUsed_eq (by omega), hdir, Directory.packedTo_slot_used] at hu
        exact hu.1
      have hlen : entryLength (compactLoop s n).1.mem n = ((directory s.mem).slot n).length := by
        rw [entryLength_eq (by omega), hdir, Directory.packedTo_slot_length]
      have hoff : entryOffset (compactLoop s n).1.mem n = ((directory s.mem).slot n).offset := by
        rw [entryOffset_eq (by omega), hdir, Directory.packedTo_slot_ge _ le_rfl]
      have hstart := h.extent_lo n hused
      have hend := h.extent_file hused
      refine hQ n _ ⟨by omega, ⟨_, ?_, Or.inl rfl⟩, fun x hx => ?_⟩
      · rw [hw, directory_blit_data hlo, hdir]
        rfl
      · rw [hw, hlen, hoff, sub32_eq (by omega) hstart, Nat.add_sub_cancel' hstart,
          Directory.moved, if_pos hused]
        -- a byte of the target is the old one or the one the move brings there
        by_cases hin : (directory s.mem).packedStart n ≤ x ∧
            x < (directory s.mem).packedStart n + ((directory s.mem).slot n).length
        · rw [blit_in hin.1 hin.2, blit_in hin.1 hin.2, torn]
          split
          · exact Or.inr (hdata _ (by omega))
          · rw [Nat.add_sub_cancel' hin.1]
            exact Or.inl (hdata x hx)
        · rw [blit_out (by omega)]
          exact Or.inl (hdata x hx)
    · rw [if_neg hu]
      exact hprev

/-- **`CompactCache`, cut anywhere.** -/
theorem compactCache_cuts : Cuts m Q (compactCache s) := by
  have hloop := compactLoop_cuts h hc hQ cacheMaxEntries (le_refl _)
  obtain ⟨hdir, hdata, -⟩ := compactCache_spec h
  refine hloop.setWord 12 _ (hQ cacheMaxEntries _ ⟨le_refl _, ⟨_, ?_, Or.inr ⟨rfl, rfl⟩⟩,
    fun x hx => Or.inl (hdata x hx)⟩)
  exact hdir

end Loop

/-! ## Reading a file left inside `CompactCache` -/

namespace CompactCut

variable {m k : Mem} {n : Nat} (hm : WellFormed (directory m)) (h : CompactCut m n k)
include h

theorem slot_eq (j : Nat) : (directory k).slot j = ((directory m).packedTo n).slot j := by
  obtain ⟨next, hdir, -⟩ := h.dir
  rw [hdir]

theorem used_eq (j : Nat) : ((directory k).slot j).used = ((directory m).slot j).used := by
  rw [h.slot_eq, Directory.packedTo_slot_used]

theorem length_eq (j : Nat) : ((directory k).slot j).length = ((directory m).slot j).length := by
  rw [h.slot_eq, Directory.packedTo_slot_length]

theorem key_eq (j : Nat) : ((directory k).slot j).key = ((directory m).slot j).key := by
  rw [h.slot_eq, Directory.packedTo]
  simp only
  split <;> rfl

theorem name_eq (j : Nat) : ((directory k).slot j).name = ((directory m).slot j).name := by
  rw [Slot.name, h.key_eq, Slot.name]

theorem checksum_eq (j : Nat) :
    ((directory k).slot j).checksum = ((directory m).slot j).checksum := by
  rw [h.slot_eq, Directory.packedTo]
  simp only
  split <;> rfl

theorem holds_iff (key : List UInt8) (j : Nat) :
    (directory k).Holds key j ↔ (directory m).Holds key j := by
  rw [Directory.Holds, h.used_eq, h.name_eq, Directory.Holds]

theorem offset_packed {j : Nat} (hj : j < n) (hu : ((directory m).slot j).used = true) :
    ((directory k).slot j).offset = (directory m).packedStart j := by
  rw [h.slot_eq, Directory.packedTo]
  simp only
  rw [if_pos ⟨hj, hu⟩]

theorem offset_old {j : Nat} (hj : n ≤ j) :
    ((directory k).slot j).offset = ((directory m).slot j).offset := by
  rw [h.slot_eq, Directory.packedTo_slot_ge _ hj]

include hm

theorem distinct : (directory k).Distinct := by
  intro i j hi hj heq
  rw [h.used_eq] at hi hj
  rw [h.name_eq, h.name_eq] at heq
  exact hm.names i j hi hj heq

theorem accepted : accepted k = true := by
  obtain ⟨next, hdir, -⟩ := h.dir
  have hmagic : (directory k).magic = cacheMagic := by
    rw [hdir]
    exact hm.magic
  have hversion : (directory k).version = cacheVersion := by
    rw [hdir]
    exact hm.version
  exact accepted_of_directory hmagic hversion

theorem count : entryCount k = usedSlots k := by
  have hset : (directory k).usedSet = (directory m).usedSet := by
    simp only [Directory.usedSet, h.used_eq]
  obtain ⟨next, hdir, -⟩ := h.dir
  have hcount : entryCount k = (directory m).count := congrArg Directory.count hdir
  rw [hcount, usedSlots, hset, hm.count]

/-- `next_offset` is in range, and every used extent is below it. -/
theorem bounds : (dataStart ≤ (directory k).next ∧ (directory k).next ≤ cacheFileSize) ∧
    ∀ i, ((directory k).slot i).used = true → dataStart ≤ ((directory k).slot i).offset ∧
      ((directory k).slot i).offset + ((directory k).slot i).length ≤ (directory k).next := by
  obtain ⟨next, hdir, hnext⟩ := h.dir
  have hk : (directory k).next = next := by rw [hdir]
  have hlo := (directory m).dataStart_le_packedStart cacheMaxEntries
  have hall := hm.packedStart_le_next cacheMaxEntries (le_refl _)
  rw [hk]
  refine ⟨?_, fun i hi => ?_⟩
  · rcases hnext with hold | ⟨-, hnew⟩
    · rw [hold]
      exact ⟨hm.next_lo, hm.next_hi⟩
    · rw [hnew]
      exact ⟨hlo, hall.trans hm.next_hi⟩
  · rw [h.used_eq] at hi
    rw [h.length_eq]
    have hlt := hm.table i hi
    by_cases hin : i < n
    · have hend := Directory.packedStart_add_length hi hlt
      rw [h.offset_packed hin hi]
      refine ⟨(directory m).dataStart_le_packedStart i, hend.trans ?_⟩
      rcases hnext with hold | ⟨-, hnew⟩
      · rw [hold]
        exact hall
      · rw [hnew]
    · rw [h.offset_old (Nat.not_lt.mp hin)]
      refine ⟨hm.extent_lo i hi, ?_⟩
      rcases hnext with hold | ⟨hend, -⟩
      · rw [hold]
        exact hm.extent_hi i hi
      · rw [hend] at hin
        exact absurd hlt hin

/-- In an order without overlap the extents stay disjoint at every point. -/
theorem disjoint (hord : (directory m).NoOverlap) {i j : Nat} (hij : i < j)
    (hi : ((directory k).slot i).used = true) (hj : ((directory k).slot j).used = true) :
    Disj ((directory k).slot i).offset ((directory k).slot i).length
      ((directory k).slot j).offset ((directory k).slot j).length := by
  rw [h.used_eq] at hi hj
  rw [h.length_eq, h.length_eq]
  by_cases hjn : j < n
  · rw [h.offset_packed (by omega) hi, h.offset_packed hjn hj]
    exact Or.inl (Directory.packedStart_add_length hi hij)
  · rw [h.offset_old (j := j) (by omega)]
    by_cases hin : i < n
    · rw [h.offset_packed hin hi]
      exact hord i j hij hi hj
    · rw [h.offset_old (by omega)]
      exact hm.disjoint i j hi hj (by omega)

/-- When no move writes over a slot that is still to be moved, only the slot being moved can have
changed bytes, and only when it moves onto itself. -/
theorem bytes_eq (hclob : (directory m).NoClobber m) {j : Nat}
    (hj : ((directory m).slot j).used = true)
    (hne : j = n → Disj ((directory m).packedStart j) ((directory m).slot j).length
      ((directory m).slot j).offset ((directory m).slot j).length) :
    ((directory k).slot j).bytes k = ((directory m).slot j).bytes m := by
  have hstart := (directory m).dataStart_le_packedStart j
  have hintact := fun i => Directory.intactFrom_of_noClobber hclob i
  rw [Slot.bytes, Slot.bytes, h.length_eq]
  refine read_congr fun i hi => ?_
  by_cases hjn : j < n
  · rw [h.offset_packed hjn hj]
    rcases h.data ((directory m).packedStart j + i) (by omega) with hx | hx
    · rw [hx, Directory.moved_packed _ _ hj hjn hi]
      exact hintact j j (le_refl j) hj i hi
    · rw [hx, Directory.moved_packed _ _ hj (by omega) hi]
      exact hintact j j (le_refl j) hj i hi
  · have hlo := hm.extent_lo j hj
    rw [h.offset_old (by omega)]
    rcases h.data (((directory m).slot j).offset + i) (by omega) with hx | hx
    · rw [hx]
      exact hintact n j (by omega) hj i hi
    · rw [hx]
      by_cases hjeq : j = n
      · subst hjeq
        have hdisj := hne rfl
        rw [Directory.moved, if_pos hj, blit_out (by rcases hdisj with hd | hd <;> omega)]
        exact hintact j j le_rfl hj i hi
      · exact hintact (n + 1) j (by omega) hj i hi

end CompactCut

/-- A value of the length and with the checksum recorded for a key. -/
def Fits (m : Mem) (key bytes : List UInt8) : Prop :=
  ∃ i, (directory m).Holds key i ∧ bytes.length = ((directory m).slot i).length ∧
    calculateChecksum bytes = ((directory m).slot i).checksum

/-- What `Get` answers fits what is recorded. -/
theorem fits_of_getBytes {m : Mem} (h : (directory m).Distinct) {key bytes : List UInt8}
    (hget : getBytes m key = some bytes) : Fits m key bytes := by
  rw [getBytes, Option.map_eq_some_iff] at hget
  obtain ⟨v, hv, rfl⟩ := hget
  obtain ⟨i, hh, hintact, rfl⟩ := holds_of_get h hv
  exact ⟨i, hh, read_length _ _ _, hintact⟩

theorem CompactCut.fits {m k : Mem} {n : Nat} (hm : WellFormed (directory m))
    (h : CompactCut m n k) {key bytes : List UInt8} (hget : getBytes k key = some bytes) :
    Fits m key bytes := by
  obtain ⟨i, hh, hlen, hsum⟩ := fits_of_getBytes (h.distinct hm) hget
  exact ⟨i, (h.holds_iff key i).mp hh, hlen.trans (h.length_eq i), hsum.trans (h.checksum_eq i)⟩

theorem CompactCut.get_eq {m k : Mem} {n : Nat} (hm : WellFormed (directory m))
    (h : CompactCut m n k) (hclob : (directory m).NoClobber m) {key : List UInt8}
    (hne : (directory m).Holds key n → Disj ((directory m).packedStart n)
      ((directory m).slot n).length ((directory m).slot n).offset ((directory m).slot n).length) :
    getBytes k key = getBytes m key := by
  refine getBytes_frame hm.names (h.distinct hm) (h.holds_iff key) fun j hh => ⟨h.checksum_eq j, ?_⟩
  refine h.bytes_eq hm hclob hh.1 ?_
  rintro rfl
  exact hne hh

/-! ## Put -/

/-- The files a killed `Put` may leave, without and with a compaction. -/
def PutLeft (m : Mem) (key : List UInt8) (data : Blob) (k : Mem) : Prop :=
  data.length ≤ cacheFileSize - nextOffset m ∧
      (k = m ∨ ∃ idx, idx < cacheMaxEntries ∧ (directory m).Target key idx ∧
        (directory m).next + data.length ≤ cacheFileSize ∧ PutCut m key data idx k) ∨
    cacheFileSize - nextOffset m < data.length ∧
      ((∃ n, CompactCut m n k) ∨ ∃ b idx, CompactedFrom m b ∧ idx < cacheMaxEntries ∧
        (directory b).Target key idx ∧ (directory b).next + data.length ≤ cacheFileSize ∧
          PutCut b key data idx k)

/-- The choice of a slot and the stores, cut anywhere. -/
theorem putEntry_cuts {m : Mem} {Q : Mem → Prop} {s : Mapping} {key : List UInt8} {data : Blob}
    (hb : WellFormed (directory s.mem)) (hc : Cuts m Q s)
    (hfit : (directory s.mem).next + data.length ≤ cacheFileSize)
    (hQ : ∀ idx k, idx < cacheMaxEntries → (directory s.mem).Target key idx →
      PutCut s.mem key data idx k → Q k) : Cuts m Q (putEntry s key data).2 := by
  unfold putEntry
  cases hchoose : chooseEntry s key with
  | none => exact hc
  | some p =>
    obtain ⟨idx, t⟩ := p
    obtain ⟨hidx, ht, -, -, -⟩ := chooseEntry_some hb hchoose
    exact store_cuts hb hc hfit hchoose fun k => hQ idx k hidx ht

/-- What `ensureSpace` leaves, cut anywhere. -/
theorem ensureSpace_cuts {m : Mem} (hm : WellFormed (directory m)) {key : List UInt8} {data : Blob} :
    Cuts m (PutLeft m key data) (ensureSpace (.start m) data.length).2 := by
  have hnext : nextOffset m ≤ cacheFileSize := hm.next_hi
  unfold ensureSpace
  simp only [Mapping.emit_sub32_mem, Mapping.start_mem, availableSpace_eq hm, gt_iff_lt]
  by_cases hfull : cacheFileSize - nextOffset m < data.length
  · rw [if_pos hfull]
    have hstart : CompactCut m 0 m :=
      ⟨Nat.zero_le _, ⟨_, by rw [Directory.packedTo_zero], Or.inl rfl⟩, fun _ _ => Or.inl rfl⟩
    have hc : Cuts m (PutLeft m key data) (.start m) := .start (Or.inr ⟨hfull, Or.inl ⟨0, hstart⟩⟩)
    have hcc := compactCache_cuts
      (s := (Mapping.start m).emit (.sub32 cacheFileSize (nextOffset m))) hm (hc.sub32 _ _)
      fun n k hk => Or.inr ⟨hfull, Or.inl ⟨n, hk⟩⟩
    split
    · exact hcc.sub32 _ _
    · exact hcc.sub32 _ _
  · rw [if_neg hfull]
    have hc : Cuts m (PutLeft m key data) (.start m) := .start (Or.inl ⟨by omega, Or.inl rfl⟩)
    exact hc.sub32 _ _

/-- **`Put`, cut anywhere.** -/
theorem put_cuts {m : Mem} (hm : WellFormed (directory m)) (key : List UInt8) {data : Blob}
    (hlen : 0 < data.length) : Cuts m (PutLeft m key data) (put (.start m) key (some data)).2 := by
  have hspace : Cuts m (PutLeft m key data) _ := ensureSpace_cuts hm
  obtain ⟨hroom, hwf, -, hok⟩ := ensureSpace_cases (s := .start m) hm (Mapping.safe_start m)
    data.length
  unfold put
  simp only [if_neg (Nat.ne_of_gt hlen)]
  generalize ensureSpace (.start m) data.length = r at hspace hroom hwf hok
  obtain ⟨ok, s⟩ := r
  cases ok with
  | false => exact hspace
  | true =>
    have hnext := hwf.next_hi
    have hle : data.length ≤ cacheFileSize - (directory s.mem).next := hok.mp rfl
    have hfit : (directory s.mem).next + data.length ≤ cacheFileSize := by omega
    refine putEntry_cuts hwf hspace hfit fun idx k hidx ht hk => ?_
    rcases hroom with ⟨hin, hsame⟩ | ⟨hfull, hfrom⟩
    · simp only [Mapping.start_mem] at hsame
      rw [hsame] at ht hfit hk
      exact Or.inl ⟨hin, Or.inr ⟨idx, hidx, ht, hfit, hk⟩⟩
    · exact Or.inr ⟨hfull, Or.inr ⟨s.mem, idx, hfrom, hidx, ht, hfit, hk⟩⟩

/-- **What is left of a cache inside `CompactCache`.** -/
structure CompactCrash (m k : Mem) : Prop where
  count : entryCount k = usedSlots k
  next_lo : dataStart ≤ (directory k).next
  next_hi : (directory k).next ≤ cacheFileSize
  extents : ∀ i, ((directory k).slot i).used = true → dataStart ≤ ((directory k).slot i).offset ∧
    ((directory k).slot i).offset + ((directory k).slot i).length ≤ (directory k).next
  gets : ∀ key bytes, getBytes k key = some bytes → Fits m key bytes
  /-- Where no packed extent meets the old one of a later slot, the extents stay disjoint. -/
  apart : (directory m).NoOverlap → ExtentsSound k fun _ => True
  /-- Where no move writes over a value still to be moved, every key is answered as before but the one
  being moved, and that one too unless it is moved onto itself. -/
  kept : (directory m).NoClobber m → ∃ n, ∀ key, ((directory m).Holds key n →
    Disj ((directory m).packedStart n) ((directory m).slot n).length ((directory m).slot n).offset
      ((directory m).slot n).length) → getBytes k key = getBytes m key

/-- **What is left of a cache by a `Put` that is killed after its compaction**, which left `b`. -/
structure CompactedPutCrash (m : Mem) (key : List UInt8) (data : Blob) (b k : Mem) : Prop where
  compacted : CompactedFrom m b
  put : PutCrash b key data k
  gets : ∀ other bytes, getBytes b other = some bytes → Fits m other bytes
  kept : (directory m).NoClobber m → ∀ other, getBytes b other = getBytes m other

theorem CompactCut.crash {m k : Mem} {n : Nat} (hm : WellFormed (directory m))
    (h : CompactCut m n k) : CompactCrash m k where
  count := h.count hm
  next_lo := (h.bounds hm).1.1
  next_hi := (h.bounds hm).1.2
  extents := (h.bounds hm).2
  gets := fun _ _ hget => h.fits hm hget
  apart := fun hord => by
    obtain ⟨⟨hlo, hhi⟩, hext⟩ := h.bounds hm
    refine ⟨⟨fun i _ hi => (hext i hi).1, fun i _ hi => (hext i hi).2, ?_⟩, hlo, hhi⟩
    intro i j _ _ hij hi hj
    rcases Nat.lt_or_gt_of_ne hij with hlt | hgt
    · exact h.disjoint hm hord hlt hi hj
    · exact (h.disjoint hm hord hgt hj hi).symm
  kept := fun hclob => ⟨n, fun _ hne => h.get_eq hm hclob hne⟩

/-- A compacted file answers with what is recorded. -/
theorem CompactedFrom.fits {m b : Mem} (hm : WellFormed (directory m)) (hc : CompactedFrom m b)
    {key bytes : List UInt8} (hget : getBytes b key = some bytes) : Fits m key bytes := by
  obtain ⟨i, hh, hlen, hsum⟩ := fits_of_getBytes (hc.wellFormed hm).names hget
  rw [hc.dir, Directory.compacted_holds] at hh
  rw [hc.dir, Directory.compacted_length] at hlen
  rw [hc.dir, Directory.compacted_checksum] at hsum
  exact ⟨i, hh, hlen, hsum⟩

/-- A cut in the storing part, after a compaction. -/
theorem CompactedFrom.crash {m b k : Mem} {key : List UInt8} {data : Blob}
    (hm : WellFormed (directory m)) (hc : CompactedFrom m b) (h : PutCrash b key data k) :
    CompactedPutCrash m key data b k :=
  ⟨hc, h, fun _ _ hget => hc.fits hm hget, fun hclob => hc.getBytes_eq hm hclob⟩

/-! ## Clear -/

/-- Before `Clear` zeroes the table: the slots are as they were. -/
structure ClearHeader (m k : Mem) : Prop where
  slots : ∀ i, (directory k).slot i = (directory m).slot i
  extents : ExtentsWithin k (fun _ => True) (nextOffset m)
  words : nextOffset k = nextOffset m ∧ (entryCount k = usedSlots k ∨ entryCount k = 0) ∨
    nextOffset k = dataStart ∧ entryCount k = 0

/-- While `Clear` zeroes the table: slots become free, and the fields of the others lose bytes. -/
structure ClearTable (m k : Mem) : Prop where
  count : entryCount k = 0
  next : nextOffset k = dataStart
  slots : ∀ i, ((directory k).slot i).used = true → ((directory m).slot i).used = true ∧
    ((directory k).slot i).offset ≤ ((directory m).slot i).offset ∧
    ((directory k).slot i).length ≤ ((directory m).slot i).length
  extents : ExtentsWithin k
    (fun i => ((directory k).slot i).offset = ((directory m).slot i).offset) (nextOffset m)

/-- **What is left of a cache by a `Clear` that is killed.** -/
structure ClearCrash (m k : Mem) : Prop where
  magic : magicNumber k = cacheMagic
  version : version k = cacheVersion
  stage : ClearHeader m k ∨ ClearTable m k

/-- `Clear` uses no slot. -/
theorem ClearCrash.used {m k : Mem} (h : ClearCrash m k) {i : Nat}
    (hu : ((directory k).slot i).used = true) : ((directory m).slot i).used = true := by
  rcases h.stage with hhead | htable
  · exact hhead.slots i ▸ hu
  · exact (htable.slots i hu).1

theorem ClearCrash.next {m k : Mem} (h : ClearCrash m k) :
    nextOffset k = nextOffset m ∨ nextOffset k = dataStart := by
  rcases h.stage with hhead | htable
  · exact hhead.words.imp And.left And.left
  · exact Or.inr htable.next

/-- The header after the first stores of `Clear`. -/
theorem ClearCrash.of_directory {m k : Mem} (hm : WellFormed (directory m)) {c n : Nat}
    (h : directory k = { directory m with count := c, next := n })
    (hwords : n = nextOffset m ∧ (c = entryCount m ∨ c = 0) ∨ n = dataStart ∧ c = 0) :
    ClearCrash m k := by
  have hslot : ∀ i, (directory k).slot i = (directory m).slot i := by
    intro i
    rw [h]
  have hused : usedSlots k = entryCount m := by
    rw [usedSlots, Directory.usedSet, funext hslot]
    exact hm.count.symm
  have hcount : entryCount k = c := congrArg Directory.count h
  have hnext : nextOffset k = n := congrArg Directory.next h
  refine ⟨(congrArg Directory.magic h).trans hm.magic,
    (congrArg Directory.version h).trans hm.version, Or.inl ⟨hslot, ?_, ?_⟩⟩
  · refine (hm.extentsWithin fun _ => True).of_slots fun i _ hi => ?_
    rw [hslot] at hi ⊢
    exact ⟨hi, rfl, le_rfl⟩
  · rw [hused, hcount, hnext]
    exact hwords

/-- A write of zeros, or of some of them, makes no byte larger. -/
theorem zeroed_le (m : Mem) (a n : Nat) (done : Nat → Bool) (x : Nat) :
    (blit m a n (torn m a (fun _ => 0) done) x).toNat ≤ (m x).toNat := by
  by_cases hin : a ≤ x ∧ x < a + n
  · rw [blit_in hin.1 hin.2, torn]
    split
    · exact Nat.zero_le _
    · rw [Nat.add_sub_cancel' hin.1]
  · rw [blit_out (by omega)]

/-- A table with smaller bytes uses no more slots, and its words are no larger. -/
theorem slotAt_le {m k : Mem} (h : ∀ x, (k x).toNat ≤ (m x).toNat) {i : Nat}
    (hu : (slotAt k i).used = true) : (slotAt m i).used = true ∧
      (slotAt k i).offset ≤ (slotAt m i).offset ∧ (slotAt k i).length ≤ (slotAt m i).length := by
  have hi := lt_of_used hu
  rw [slotAt_lt hi] at hu ⊢
  rw [slotAt_lt hi]
  refine ⟨?_, readWord_le h _, readWord_le h _⟩
  have hle := h (entryAddr i + 520)
  simp only [entryIsUsed, bne_iff_ne, ne_eq] at hu ⊢
  intro hzero
  rw [hzero] at hle
  exact hu (UInt8.toNat_inj.mp (Nat.le_zero.mp hle))

/-- The zeroing of the table, complete or torn. -/
theorem ClearCrash.zeroed {m r : Mem} (hm : WellFormed (directory m))
    (h : directory r = { directory m with count := 0, next := dataStart }) (done : Nat → Bool) :
    ClearCrash m (blit r sizeofCacheHeader (sizeofCacheEntryHeader * cacheMaxEntries)
      (torn r sizeofCacheHeader (fun _ => 0) done)) := by
  have hhead : ∀ a, a + 4 ≤ 32 → readWord (blit r sizeofCacheHeader
      (sizeofCacheEntryHeader * cacheMaxEntries) (torn r sizeofCacheHeader (fun _ => 0) done)) a =
        readWord r a := fun a ha => readWord_blit_disjoint (Or.inl ha)
  have hslot : ∀ i, slotAt r i = (directory m).slot i := congrFun (congrArg Directory.slot h)
  have hle := fun i => slotAt_le (i := i)
    (zeroed_le r sizeofCacheHeader (sizeofCacheEntryHeader * cacheMaxEntries) done)
  refine ⟨(hhead 0 (by omega)).trans ((congrArg Directory.magic h).trans hm.magic),
    (hhead 4 (by omega)).trans ((congrArg Directory.version h).trans hm.version), Or.inr ?_⟩
  have hslots := fun i hu => hslot i ▸ hle i hu
  refine ⟨(hhead 8 (by omega)).trans (congrArg Directory.count h),
    (hhead 12 (by omega)).trans (congrArg Directory.next h), hslots, ?_⟩
  refine (hm.extentsWithin _).of_slots fun i hoff hu => ?_
  exact ⟨(hslots i hu).1, hoff, (hslots i hu).2.2⟩

/-- **`Clear`, cut anywhere.** -/
theorem clear_cuts {m : Mem} (hm : WellFormed (directory m)) :
    Cuts m (ClearCrash m) (clear (.start m)) := by
  have hmagic : cacheMagic % 2 ^ 32 = (directory m).magic := hm.magic.symm
  have hversion : cacheVersion % 2 ^ 32 = (directory m).version := hm.version.symm
  have hdata : dataStart % 2 ^ 32 = dataStart := by decide
  have hold : nextOffset m = nextOffset m ∧ (entryCount m = entryCount m ∨ entryCount m = 0) ∨
      nextOffset m = dataStart ∧ entryCount m = 0 := Or.inl ⟨rfl, Or.inl rfl⟩
  have c0 : Cuts m (ClearCrash m) (.start m) := .start (.of_directory hm rfl hold)
  have d1 := Mapping.setMagicNumber_directory (.start m) cacheMagic
  rw [hmagic] at d1
  have c1 := c0.setWord 0 cacheMagic (.of_directory hm d1 hold)
  have d2 := Mapping.setVersion_directory ((Mapping.start m).setMagicNumber cacheMagic) cacheVersion
  rw [d1, hversion] at d2
  have c2 := c1.setWord 4 cacheVersion (.of_directory hm d2 hold)
  have d3 := Mapping.setEntryCount_directory
    (((Mapping.start m).setMagicNumber cacheMagic).setVersion cacheVersion) 0
  rw [d2] at d3
  have c3 := c2.setWord 8 0 (.of_directory hm d3 (Or.inl ⟨rfl, Or.inr rfl⟩))
  have d4 := Mapping.setNextOffset_directory
    ((((Mapping.start m).setMagicNumber cacheMagic).setVersion cacheVersion).setEntryCount 0) dataStart
  rw [d3, hdata] at d4
  have c4 := c3.setWord 12 dataStart (.of_directory hm d4 (Or.inr ⟨rfl, rfl⟩))
  exact c4.memset sizeofCacheHeader (sizeofCacheEntryHeader * cacheMaxEntries) 0 fun done =>
    .zeroed hm d4 done

/-! ## Every operation -/

/-- What is left of the cache `m` in the file `k` of a process killed during an operation. -/
def CrashRecovers (m k : Mem) : Op → Prop
  | .put key (some data) =>
    (¬ Compacts m data.length → PutCrash m key data k) ∧
      (Compacts m data.length → CompactCrash m k ∨ ∃ b, CompactedPutCrash m key data b k)
  | .put _ none => k = m
  | .get _ => k = m
  | .remove key => RemoveCrash m key k
  | .clear => ClearCrash m k
  | .restart => k = m

/-- An operation that makes no store leaves the file as it was. -/
theorem eq_of_crash_start {m k : Mem} (hk : CrashOf m (Mapping.start m).log k) : k = m :=
  crash_nil.mp hk

theorem PutLeft.recovers {m k : Mem} (hm : WellFormed (directory m)) {key : List UInt8} {data : Blob}
    (hlen : 0 < data.length) (h : PutLeft m key data k) :
    accepted k = true ∧ CrashRecovers m k (.put key (some data)) := by
  have hspace := availableSpace_eq hm
  rcases h with ⟨hroom, hcase⟩ | ⟨hfull, hcase⟩
  · have hquiet : ¬ Compacts m data.length := fun hc => by
      have hlt := hc.2
      rw [hspace] at hlt
      omega
    rcases hcase with rfl | ⟨idx, hidx, ht, hfit, hk⟩
    · exact ⟨accepted_of_wellFormed hm, fun _ => .refl hm key data, fun hc => absurd hc hquiet⟩
    · refine ⟨?_, fun _ => hk.crash hm hidx ht hfit, fun hc => absurd hc hquiet⟩
      obtain ⟨e, count, next, hp, -⟩ := hk
      exact hp.accepted hm
  · have hcomp : Compacts m data.length := ⟨hlen, by rw [hspace]; exact hfull⟩
    rcases hcase with ⟨n, hk⟩ | ⟨b, idx, hfrom, hidx, ht, hfit, hk⟩
    · exact ⟨hk.accepted hm, fun hc => absurd hcomp hc, fun _ => Or.inl (hk.crash hm)⟩
    · have hb := hfrom.wellFormed hm
      refine ⟨?_, fun hc => absurd hcomp hc,
        fun _ => Or.inr ⟨b, hfrom.crash hm (hk.crash hb hidx ht hfit)⟩⟩
      obtain ⟨e, count, next, hp, -⟩ := hk
      exact hp.accepted hb

/-- **Crash recovery.** Whatever operation a process is killed in, and wherever, the file is kept
when it is reopened, and what it then answers is limited as `CrashRecovers` says. -/
theorem crash_recovery {file m k : Mem} {ops : List Op} (hrun : RunFrom file ops m) (op : Op)
    (hk : CrashOf m (op.exec m).log k) :
    (initMmap (.start k)).mem = k ∧ CrashRecovers m k op := by
  have hm := hrun.wellFormed
  have hkept : ∀ j, Cache.accepted j = true → (initMmap (.start j)).mem = j := by
    intro j hj
    unfold initMmap
    rw [if_pos (by rw [Mapping.start_mem, hj])]
    rfl
  have hsame : CrashOf m (Mapping.start m).log k → (initMmap (.start k)).mem = k ∧ k = m := by
    intro h
    obtain rfl := eq_of_crash_start h
    exact ⟨hkept k (accepted_of_wellFormed hm), rfl⟩
  cases op with
  | put key data =>
    cases data with
    | none => exact hsame hk
    | some data =>
      rcases Nat.eq_zero_or_pos data.length with hzero | hlen
      · have hexec : (Op.put key (some data)).exec m = .start m := by
          simp only [Op.exec]
          rw [put_rejects key fun b hb => by rw [← Option.some.inj hb]; exact hzero]
        rw [hexec] at hk
        obtain ⟨hopen, rfl⟩ := hsame hk
        exact ⟨hopen, fun _ => .refl hm key data, fun hc => absurd hc.1 (by omega)⟩
      · obtain ⟨hacc, hrec⟩ := PutLeft.recovers hm hlen ((put_cuts hm key hlen).cuts k hk)
        exact ⟨hkept k hacc, hrec⟩
  | get key => exact hsame hk
  | remove key =>
    rcases remove_cases (s := .start m) hm key with ⟨-, hrem⟩ | ⟨idx, hheld, -⟩
    · have hexec : (Op.remove key).exec m = .start m := by
        simp only [Op.exec, hrem]
      rw [hexec] at hk
      obtain ⟨hopen, rfl⟩ := hsame hk
      exact ⟨hopen, fun _ => rfl, Or.inl hm.count, hm.extentsSound _, fun _ _ => rfl, Or.inl rfl⟩
    · rw [exec_remove hm hheld] at hk
      have hcut := (clearEntry_cuts hm hheld.1).cuts k hk
      refine ⟨hkept k ?_, hcut.crash hm hheld⟩
      obtain ⟨e, count, hp, -⟩ := hcut
      exact hp.accepted hm
  | clear =>
    have hcut := (clear_cuts hm).cuts k hk
    exact ⟨hkept k (accepted_of_directory hcut.magic hcut.version), hcut⟩
  | restart =>
    have hexec : Op.restart.exec m = .start m := by
      simp only [Op.exec, initMmap_of_wellFormed hm]
    rw [hexec] at hk
    exact hsame hk

/-- The recovery at work: a `Remove` on the store of one key, killed right after the flag.  The file is
kept, and counts a slot that is free. -/
theorem crash_recovery_uncounted : ∃ m k, RunFrom (fun _ => 0) [.put [97] (some ⟨[1], by decide⟩)] m ∧
    (initMmap (.start k)).mem = k ∧ RemoveCrash m [97] k ∧ entryCount k = 1 ∧ usedSlots k = 0 := by
  obtain ⟨m, hrun, hdir⟩ : ∃ m, RunFrom (fun _ => 0) [.put [97] (some ⟨[1], by decide⟩)] m ∧
      directory m = oneStored := by
    have hrun := runFrom_zeros [.put [97] (some ⟨[1], by decide⟩)]
    have hfresh := initMmap_fresh hrun.1
    generalize (initMmap (.start fun _ => 0)).mem = m at hrun hfresh
    exact ⟨_, hrun, oneStored_dir hfresh (put_first hfresh).2⟩
  have hheld : (directory m).Holds [97] 0 := by
    rw [hdir]
    exact ⟨rfl, by decide⟩
  have hused : usedSlots m = 1 := by
    rw [usedSlots, ← hrun.wellFormed.count, hdir]
    rfl
  obtain ⟨k, hk, hcount, hfree⟩ := remove_uncounted hrun.wellFormed hheld
  obtain ⟨hkept, hcrash⟩ := crash_recovery hrun (.remove [97]) hk
  exact ⟨m, k, hrun, hkept, hcrash, by omega, by omega⟩

end CCache.Cache
