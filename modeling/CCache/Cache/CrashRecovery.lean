/-
# CCache.Cache.CrashRecovery — what a reopened file still answers.

The file left by a killed operation passes the check of `InitMmap`, so it is kept as it is.  For
`Remove`, for `Put` without and with a compaction, and for `Clear`, a structure says what is still
true of it; `crash_recovery` proves them for every operation on every reachable file, wherever the
process is killed.
-/
import CCache.Cache.Crash

namespace CCache.Cache

open CCache.Lib.ByteMemory
open CCache.Lib.CString
open CCache.Lib.Extents
open CCache.Lib.Crash
open CCache.Lib.Runs

/-! ## Reading a patched file -/

/-- Magic and version are all that `InitMmap` checks. -/
theorem accepted_of_directory {k : Mem} (hmagic : (directory k).magic = cacheMagic)
    (hversion : (directory k).version = cacheVersion) : accepted k = true := by
  unfold accepted
  rw [show magicNumber k = cacheMagic from hmagic, show version k = cacheVersion from hversion]
  decide

namespace Patched

variable {m k : Mem} {idx : Nat} {e : Slot} {count next : Nat} {key : List UInt8}

theorem slot_self (h : Patched m idx e count next k) : (directory k).slot idx = e := by
  rw [h.dir]
  exact if_pos rfl

theorem slot_ne (h : Patched m idx e count next k) {j : Nat} (hj : j ≠ idx) :
    (directory k).slot j = (directory m).slot j := by
  rw [h.dir]
  exact if_neg hj

/-- The header still passes the check of `InitMmap`. -/
theorem accepted (hm : WellFormed (directory m)) (h : Patched m idx e count next k) :
    accepted k = true := by
  have hmagic : (directory k).magic = cacheMagic := by
    rw [h.dir]
    exact hm.magic
  have hversion : (directory k).version = cacheVersion := by
    rw [h.dir]
    exact hm.version
  exact accepted_of_directory hmagic hversion

section Keyed

variable (hm : WellFormed (directory m)) (ht : (directory m).Target key idx)
  (h : Patched m idx e count next k) (hname : e.used = true → e.name = keyName key)
include hm ht h hname

theorem distinct : (directory k).Distinct := by
  intro i j hi hj heq
  by_cases hii : i = idx <;> by_cases hjj : j = idx
  · rw [hii, hjj]
  · rw [hii, h.slot_self] at hi heq
    rw [h.slot_ne hjj] at hj heq
    rw [hname hi] at heq
    exact absurd heq.symm (hm.name_ne_of_target ht hj hjj)
  · rw [h.slot_ne hii] at hi heq
    rw [hjj, h.slot_self] at hj heq
    rw [hname hj] at heq
    exact absurd heq (hm.name_ne_of_target ht hi hii)
  · rw [h.slot_ne hii] at hi heq
    rw [h.slot_ne hjj] at hj heq
    exact hm.names i j hi hj heq

omit hm ht in
/-- Another key is in the slot it was in. -/
theorem holds_ne {other : List UInt8} (hne : keyName other ≠ keyName key) (j : Nat) :
    (directory k).Holds other j ↔ (directory m).Holds other j ∧ j ≠ idx := by
  by_cases hj : j = idx
  · rw [hj]
    refine iff_of_false (fun hh => ?_) fun hh => hh.2 rfl
    rw [Directory.Holds, h.slot_self] at hh
    exact hne (hh.2.symm.trans (hname hh.1))
  · rw [Directory.Holds, h.slot_ne hj, ← Directory.Holds]
    exact (and_iff_left hj).symm

/-- **Another key is answered as before.** -/
theorem get_ne {other : List UInt8} (hne : keyName other ≠ keyName key) :
    getBytes k other = getBytes m other := by
  have hidx : ∀ j, (directory m).Holds other j → j ≠ idx := by
    rintro j hh rfl
    rcases ht with ht | ⟨⟨hfree, -⟩, -⟩
    · exact hne (hh.2.symm.trans ht.2)
    · rw [hh.1] at hfree
      exact Bool.false_ne_true hfree.symm
  refine getBytes_frame_slot hm.names (distinct hm ht h hname) (fun j => ?_) (fun j hh => ?_)
    fun j hh x hlo hhi => ?_
  · rw [holds_ne h hname hne]
    exact ⟨And.left, fun hh => ⟨hh, hidx j hh⟩⟩
  · exact h.slot_ne (hidx j hh)
  · have hextent := hm.extent_hi j hh.1
    exact h.live x ((hm.extent_lo j hh.1).trans hlo) (by omega)

/-- Only slot `idx` can hold the key. -/
theorem holds_self (j : Nat) : (directory k).Holds key j ↔ j = idx ∧ e.used = true := by
  constructor
  · intro hh
    by_cases hj : j = idx
    · rw [Directory.Holds, hj, h.slot_self] at hh
      exact ⟨hj, hh.1⟩
    · rw [Directory.Holds, h.slot_ne hj] at hh
      exact absurd hh.2 (hm.name_ne_of_target ht hh.1 hj)
  · rintro ⟨rfl, hu⟩
    rw [Directory.Holds, h.slot_self]
    exact ⟨hu, hname hu⟩

theorem get_unused (hu : e.used = false) : getBytes k key = none := by
  refine getBytes_of_absent fun j hh => ?_
  rw [((holds_self hm ht h hname j).mp hh).2] at hu
  exact Bool.false_ne_true hu.symm

/-- What the key is answered when the slot is used: bytes of its length with its checksum. -/
theorem get_used {bytes : List UInt8} (hget : getBytes k key = some bytes) :
    bytes.length = e.length ∧ calculateChecksum bytes = e.checksum := by
  cases hu : e.used with
  | false =>
    rw [get_unused hm ht h hname hu] at hget
    cases hget
  | true =>
    have hh := (holds_self hm ht h hname idx).mpr ⟨rfl, hu⟩
    have hd := distinct hm ht h hname
    by_cases hi : ((directory k).slot idx).Intact k
    · rw [(getBytes_of_holds hd hh).1 hi] at hget
      rw [← Option.some.inj hget]
      rw [Slot.Intact] at hi
      rw [hi, Slot.bytes_length, h.slot_self]
      exact ⟨rfl, rfl⟩
    · rw [(getBytes_of_holds hd hh).2 hi] at hget
      cases hget

omit ht hname in
/-- A slot that is as it was is answered as it was. -/
theorem get_same (he : e = (directory m).slot idx) : getBytes k key = getBytes m key := by
  have hsame : ∀ j, (directory k).slot j = (directory m).slot j := by
    intro j
    by_cases hj : j = idx
    · rw [hj, h.slot_self, he]
    · exact h.slot_ne hj
  have hholds : ∀ j, (directory k).Holds key j ↔ (directory m).Holds key j := by
    intro j
    rw [Directory.Holds, hsame j, ← Directory.Holds]
  refine getBytes_frame_slot hm.names ?_ hholds (fun j _ => hsame j) fun j hh x hlo hhi => ?_
  · intro i j hi hj heq
    rw [hsame] at hi heq
    rw [hsame] at hj heq
    exact hm.names i j hi hj heq
  · have hextent := hm.extent_hi j hh.1
    exact h.live x ((hm.extent_lo j hh.1).trans hlo) (by omega)

end Keyed

/-- The used slots of the patched file. -/
theorem usedSet_eq (hidx : idx < cacheMaxEntries) (h : Patched m idx e count next k) :
    (directory k).usedSet =
      if e.used then insert idx (directory m).usedSet else (directory m).usedSet.erase idx := by
  ext i
  by_cases hi : i = idx
  · subst hi
    cases hu : e.used <;> simp [Directory.usedSet, h.slot_self, hu, hidx]
  · cases hu : e.used <;>
      simp [Directory.usedSet, h.slot_ne hi, hi]

end Patched

/-- The number of used slots. -/
def usedSlots (m : Mem) : Nat := (directory m).usedSet.card

/-- The extents of the used slots among `among` lie from `dataStart` to `stop` and are disjoint. -/
structure ExtentsWithin (k : Mem) (among : Nat → Prop) (stop : Nat) : Prop where
  lo : ∀ i, among i → ((directory k).slot i).used = true → dataStart ≤ ((directory k).slot i).offset
  hi : ∀ i, among i → ((directory k).slot i).used = true →
    ((directory k).slot i).offset + ((directory k).slot i).length ≤ stop
  disjoint : ∀ i j, among i → among j → i ≠ j → ((directory k).slot i).used = true →
    ((directory k).slot j).used = true →
    Disj ((directory k).slot i).offset ((directory k).slot i).length
      ((directory k).slot j).offset ((directory k).slot j).length

/-- The extents of the used slots among `among` are inside the data in use and disjoint. -/
structure ExtentsSound (k : Mem) (among : Nat → Prop) : Prop
    extends ExtentsWithin k among (directory k).next where
  next_lo : dataStart ≤ (directory k).next
  next_hi : (directory k).next ≤ cacheFileSize

theorem WellFormed.extentsWithin {m : Mem} (h : WellFormed (directory m)) (among : Nat → Prop) :
    ExtentsWithin m among (directory m).next :=
  ⟨fun i _ => h.extent_lo i, fun i _ => h.extent_hi i,
    fun i j _ _ hij hi hj => h.disjoint i j hi hj hij⟩

theorem WellFormed.extentsSound {m : Mem} (h : WellFormed (directory m)) (among : Nat → Prop) :
    ExtentsSound m among :=
  ⟨h.extentsWithin among, h.next_lo, h.next_hi⟩

/-- Slots that are as they were, or only claim less, have their extents. -/
theorem ExtentsWithin.of_slots {m k : Mem} {among : Nat → Prop} {stop : Nat}
    (h : ExtentsWithin m among stop)
    (hslot : ∀ i, among i → ((directory k).slot i).used = true →
      ((directory m).slot i).used = true ∧
        ((directory k).slot i).offset = ((directory m).slot i).offset ∧
        ((directory k).slot i).length ≤ ((directory m).slot i).length) :
    ExtentsWithin k among stop := by
  refine ⟨fun i ha hu => ?_, fun i ha hu => ?_, fun i j hai haj hij hui huj => ?_⟩
  · obtain ⟨hm, hoff, -⟩ := hslot i ha hu
    rw [hoff]
    exact h.lo i ha hm
  · obtain ⟨hm, hoff, hlen⟩ := hslot i ha hu
    have hend := h.hi i ha hm
    omega
  · obtain ⟨hmi, hoffi, hleni⟩ := hslot i hai hui
    obtain ⟨hmj, hoffj, hlenj⟩ := hslot j haj huj
    rcases h.disjoint i j hai haj hij hmi hmj with hd | hd
    · exact Or.inl (by omega)
    · exact Or.inr (by omega)

theorem ExtentsWithin.mono {m : Mem} {among : Nat → Prop} {stop further : Nat}
    (h : ExtentsWithin m among stop) (hle : stop ≤ further) : ExtentsWithin m among further :=
  ⟨h.lo, fun i ha hu => (h.hi i ha hu).trans hle, h.disjoint⟩

/-- The slots that are not patched keep their extents. -/
theorem Patched.extentsSound {m k : Mem} {idx : Nat} {e : Slot} {count next : Nat}
    (hm : WellFormed (directory m)) (h : Patched m idx e count next k) {among : Nat → Prop}
    (hlo : (directory m).next ≤ next) (hhi : next ≤ cacheFileSize)
    (hamong : ∀ i, among i → ((directory k).slot i).used = true → i ≠ idx) :
    ExtentsSound k among := by
  have hnext : (directory k).next = next := by
    rw [h.dir]
    rfl
  refine ⟨?_, ?_, ?_⟩
  · rw [hnext]
    refine ((hm.extentsWithin among).of_slots fun i ha hu => ?_).mono hlo
    have hs := h.slot_ne (hamong i ha hu)
    rw [hs] at hu ⊢
    exact ⟨hu, rfl, le_rfl⟩
  · rw [hnext]
    exact hm.next_lo.trans hlo
  · rw [hnext]
    exact hhi

/-! ## Remove -/

/-- A file left by `Remove` of the key in slot `idx`. -/
def RemoveCut (m : Mem) (idx : Nat) (k : Mem) : Prop :=
  ∃ e count, Patched m idx e count (directory m).next k ∧
    (e = (directory m).slot idx ∧ count = (directory m).count ∨
      e.used = false ∧ (count = (directory m).count ∨ count = (directory m).count - 1))

theorem clearEntry_cuts {m : Mem} {idx : Nat} (hm : WellFormed (directory m))
    (hused : ((directory m).slot idx).used = true) :
    Cuts m (RemoveCut m idx) (clearEntry (.start m) idx) := by
  have hidx := hm.table idx hused
  have hpos : 0 < entryCount (Mapping.start m).mem := hm.count_pos_of_used hused
  have hbound := entryAddr_bounds hidx
  have hfree : ∀ {e : Slot} {k : Mem}, e.used = false →
      Patched m idx e (directory m).count (directory m).next k → RemoveCut m idx k :=
    fun hu hp => ⟨_, _, hp, Or.inr ⟨hu, Or.inl rfl⟩⟩
  have p0 : Patched m idx _ _ _ (Mapping.start m).mem := Patched.refl m idx
  have c0 : Cuts m (RemoveCut m idx) (.start m) := .start ⟨_, _, p0, Or.inl ⟨rfl, rfl⟩⟩
  -- the flag goes first: from here on the slot is free
  have p1 := p0.setIsUsed hidx false
  have c1 := c0.setByte (entryAddr idx + 520) 0 (hfree rfl p1)
  have p2 := p1.clearKey hidx
  have c2 := c1.memset (entryAddr idx + 256) sizeofKey 0 fun done => by
    obtain ⟨key, hp⟩ := p1.key_write hidx (a := entryAddr idx + 256) (n := sizeofKey)
      (torn _ _ _ done) (le_refl _) (by simp only [sizeofKey]; omega)
    exact hfree rfl hp
  have p3 := p2.setLength hidx 0
  have c3 := c2.setWord (entryAddr idx + 512) 0 (hfree rfl p3)
  have p4 := p3.setOffset hidx 0
  have c4 := c3.setWord (entryAddr idx + 516) 0 (hfree rfl p4)
  have p5 := p4.setChecksum hidx 0
  have c5 := c4.setWord (entryAddr idx + 524) 0 (hfree rfl p5)
  rw [clearEntry_eq hidx hpos]
  have c6 := c5.sub32 (entryCount (Mapping.start m).mem) 1
  have p6 := Patched.setEntryCount (s := (clearSlot (.start m) idx).emit
    (.sub32 (entryCount (Mapping.start m).mem) 1)) p5 (entryCount (Mapping.start m).mem - 1)
  refine c6.setWord 8 _ ⟨_, _, p6, Or.inr ⟨rfl, Or.inr ?_⟩⟩
  have hlt : entryCount (Mapping.start m).mem < 2 ^ 32 := readWord_lt _ _
  exact Nat.mod_eq_of_lt (by omega)

/-- **What is left of a cache by a `Remove` that is killed.** -/
structure RemoveCrash (m : Mem) (key : List UInt8) (k : Mem) : Prop where
  absent : (∀ i, ¬ (directory m).Holds key i) → k = m
  count : entryCount k = usedSlots k ∨ entryCount k = usedSlots k + 1
  extents : ExtentsSound k fun _ => True
  others : ∀ other, keyName other ≠ keyName key → getBytes k other = getBytes m other
  own : getBytes k key = getBytes m key ∨ getBytes k key = none

theorem RemoveCut.crash {m k : Mem} {idx : Nat} {key : List UInt8} (hm : WellFormed (directory m))
    (hheld : (directory m).Holds key idx) (h : RemoveCut m idx k) : RemoveCrash m key k := by
  obtain ⟨e, count, hp, hcase⟩ := h
  have hidx := hm.table idx hheld.1
  have ht : (directory m).Target key idx := Or.inl hheld
  have hcount : entryCount k = count := congrArg Directory.count hp.dir
  have hin := hm.mem_usedSet.mpr hheld.1
  have hcard := hm.count
  rcases hcase with ⟨rfl, rfl⟩ | ⟨hu, hc⟩
  · have hset : (directory k).usedSet = (directory m).usedSet := by
      rw [hp.usedSet_eq hidx, if_pos hheld.1, Finset.insert_eq_of_mem hin]
    refine ⟨fun hnone => absurd hheld (hnone idx), Or.inl ?_, ?_,
      fun other hne => hp.get_ne hm ht (fun _ => hheld.2) hne, Or.inl (hp.get_same hm rfl)⟩
    · rw [hcount, usedSlots, hset, hcard]
    · have hsame : ∀ j, (directory k).slot j = (directory m).slot j := by
        intro j
        by_cases hj : j = idx
        · rw [hj, hp.slot_self]
        · exact hp.slot_ne hj
      have hnext : (directory k).next = (directory m).next := by
        rw [hp.dir]
        rfl
      refine ⟨?_, hnext ▸ hm.next_lo, hnext ▸ hm.next_hi⟩
      rw [hnext]
      refine (hm.extentsWithin fun _ => True).of_slots fun i _ hi => ?_
      rw [hsame] at hi ⊢
      exact ⟨hi, rfl, le_rfl⟩
  · have hset : (directory k).usedSet = (directory m).usedSet.erase idx := by
      rw [hp.usedSet_eq hidx, if_neg (by rw [hu]; exact Bool.false_ne_true)]
    have hname : e.used = true → e.name = keyName key := fun h => by
      rw [hu] at h
      exact absurd h Bool.false_ne_true
    refine ⟨fun hnone => absurd hheld (hnone idx), ?_,
      hp.extentsSound hm (le_refl _) hm.next_hi fun i _ hi => ?_, fun other hne => hp.get_ne hm ht hname hne, Or.inr (hp.get_unused hm ht hname hu)⟩
    · have hone := Finset.card_erase_of_mem hin
      have hsome := Finset.card_pos.mpr ⟨idx, hin⟩
      rw [hcount, usedSlots, hset, hone]
      rcases hc with rfl | rfl <;> omega
    · rintro rfl
      rw [hp.slot_self, hu] at hi
      exact Bool.false_ne_true hi

/-- `Remove` of a key in slot `idx` is its stores to that slot. -/
theorem exec_remove {m : Mem} {key : List UInt8} {idx : Nat} (hm : WellFormed (directory m))
    (hheld : (directory m).Holds key idx) :
    (Op.remove key).exec m = clearEntry (.start m) idx := by
  show (remove (.start m) key).2 = clearEntry (.start m) idx
  unfold remove
  rw [Mapping.start_mem, findEntry_of_holds hm.names hheld]

/-- **A cut of `Remove` at which the count is wrong**: right after the flag. -/
theorem remove_uncounted {m : Mem} {key : List UInt8} {idx : Nat} (hm : WellFormed (directory m))
    (hheld : (directory m).Holds key idx) :
    ∃ k, CrashOf m ((Op.remove key).exec m).log k ∧ entryCount k = usedSlots m ∧
      usedSlots k + 1 = usedSlots m := by
  have hidx := hm.table idx hheld.1
  have hpos : 0 < entryCount (Mapping.start m).mem := hm.count_pos_of_used hheld.1
  have hin := hm.mem_usedSet.mpr hheld.1
  have hp : Patched m idx _ _ _ ((Mapping.start m).setIsUsed idx false).mem :=
    (Patched.refl m idx).setIsUsed hidx false
  have hcuts : Cuts m (fun _ => True) ((Mapping.start m).setIsUsed idx false) :=
    (Cuts.start trivial).setByte _ _ trivial
  rw [exec_remove hm hheld, clearEntry_eq hidx hpos]
  refine ⟨_, hcuts.crash ?_, (congrArg Directory.count hp.dir).trans hm.count, ?_⟩
  · refine Mapping.extends_emit (Mapping.extends_emit ?_ _) _
    exact Mapping.extends_emit (Mapping.extends_emit (Mapping.extends_emit
      (Mapping.extends_emit (List.prefix_refl _) _) _) _) _
  · have hset := hp.usedSet_eq hidx
    rw [if_neg Bool.false_ne_true] at hset
    rw [usedSlots, hset]
    exact Finset.card_erase_add_one hin

/-! ## The storing part of Put -/

/-- What slot `idx` may look like while a `Put` writes it: as it was, free, or with the new length,
still where it was or at `next`, and with the old or the new checksum. -/
structure PutSlot (old : Slot) (next : Nat) (key : List UInt8) (data : Blob) (e : Slot) : Prop where
  kept : old.used = true → e.used = true
  name : e.used = true → e.name = keyName key
  value : e = old ∨ e.used = false ∨ e.length = data.length ∧
    (old.used = true ∧ e.offset = old.offset ∧ e.checksum = old.checksum ∨
      e.offset = next ∧ (e.checksum = old.checksum ∨ e.checksum = calculateChecksum data.bytes))

/-- A file left by the storing part of `Put` on the mapping `b`. -/
def PutCut (b : Mem) (key : List UInt8) (data : Blob) (idx : Nat) (k : Mem) : Prop :=
  ∃ e count next, Patched b idx e count next k ∧
    PutSlot ((directory b).slot idx) (directory b).next key data e ∧
    (next = (directory b).next ∨ next = (directory b).next + data.length) ∧
    (count = (directory b).count ∧ e.used = ((directory b).slot idx).used ∨
      ((directory b).slot idx).used = false ∧ count = (directory b).count + 1)

section Store

variable {b : Mem} {key : List UInt8} {data : Blob} {idx : Nat} (hb : WellFormed (directory b))
  (hidx : idx < cacheMaxEntries) (ht : (directory b).Target key idx)
include hb ht

/-- The key field of the key's own slot is what `Put` writes there. -/
theorem keyField_of_target (hu : ((directory b).slot idx).used = true) :
    ((directory b).slot idx).key = keyField key := by
  rcases ht with ht | ⟨⟨hfree, -⟩, -⟩
  · rw [hb.key_field idx hu]
    unfold keyField
    rw [strncpy_congr ht.2]
  · rw [hu] at hfree
    exact absurd hfree.symm Bool.false_ne_true

/-- A slot as it was. -/
theorem putSlot_old (next : Nat) :
    PutSlot ((directory b).slot idx) next key data ((directory b).slot idx) := by
  refine ⟨id, fun hu => ?_, Or.inl rfl⟩
  rw [Slot.name, keyField_of_target hb ht hu, keyName_keyField]

include hidx

/-- `strncpy` of the key over the slot, complete or torn: the key's own slot does not change, a free
slot stays free. -/
theorem key_copy {count next : Nat} {s : Mapping}
    (hp : Patched b idx ((directory b).slot idx) count next s.mem) (done : Nat → Bool) :
    ∃ e, Patched b idx e count next (blit s.mem (entryAddr idx + 256)
        (strncpy (sizeofKey - 1) key).length
        (torn s.mem (entryAddr idx + 256) (content (strncpy (sizeofKey - 1) key)) done)) ∧
      (e = (directory b).slot idx ∨ e.used = false ∧ ((directory b).slot idx).used = false) := by
  have hlen : (strncpy (sizeofKey - 1) key).length = 255 := strncpy_length _ _
  cases hu : ((directory b).slot idx).used with
  | false =>
    obtain ⟨k, hk⟩ := hp.key_write hidx (a := entryAddr idx + 256)
      (n := (strncpy (sizeofKey - 1) key).length) (torn _ _ _ done) (le_refl _)
      (by rw [hlen]; omega)
    exact ⟨_, hk, Or.inr ⟨hu, rfl⟩⟩
  | true =>
    have hkey : entryKey s.mem idx = strncpy (sizeofKey - 1) key ++ [0] := by
      rw [entryKey_eq hidx, hp.slot_self, keyField_of_target hb ht hu]
      rfl
    have hbyte : ∀ i, i < 255 →
        content (strncpy (sizeofKey - 1) key) i = s.mem (entryAddr idx + 256 + i) := by
      intro i hi
      have hget : (entryKey s.mem idx).getD i 0 = s.mem (entryAddr idx + 256 + i) := by
        have hlt : i < sizeofKey := by simp only [sizeofKey]; omega
        simp [entryKey, Lib.ByteMemory.read, hlt]
      have hin : i < (strncpy (sizeofKey - 1) key).length := by rw [hlen]; exact hi
      rw [← hget, hkey, content, List.getD_eq_getElem?_getD, List.getD_eq_getElem?_getD,
        List.getElem?_append_left hin]
    have hsame : blit s.mem (entryAddr idx + 256) (strncpy (sizeofKey - 1) key).length
        (torn s.mem (entryAddr idx + 256) (content (strncpy (sizeofKey - 1) key)) done) = s.mem := by
      funext x
      by_cases hx : entryAddr idx + 256 ≤ x ∧ x < entryAddr idx + 256 + 255
      · rw [blit_in hx.1 (by rw [hlen]; exact hx.2), torn, hbyte _ (by omega),
          Nat.add_sub_cancel' hx.1, ite_self]
      · rw [blit_out (by rw [hlen]; omega)]
    rw [hsame]
    exact ⟨_, hp, Or.inl rfl⟩

/-- **The stores of `Put` to its slot, cut anywhere.** -/
theorem writeSlot_cuts {m : Mem} {Q : Mem → Prop} {s : Mapping} {count : Nat}
    (hQ : ∀ k, PutCut b key data idx k → Q k) (hc : Cuts m Q s)
    (hp : Patched b idx ((directory b).slot idx) count (directory b).next s.mem)
    (hcount : count = (directory b).count ∧ ((directory b).slot idx).used = true ∨
      ((directory b).slot idx).used = false ∧ count = (directory b).count + 1) :
    Cuts m Q (writeSlot s idx key data) ∧
      Patched b idx (storedSlot key data (directory b).next) count (directory b).next
        (writeSlot s idx key data).mem := by
  have hold : PutSlot _ _ key data _ := putSlot_old hb ht (directory b).next
  -- every file from here on has the slot `e`, the count that was stored and the old `next_offset`
  have hcut : ∀ {e : Slot} {k : Mem}, Patched b idx e count (directory b).next k →
      PutSlot ((directory b).slot idx) (directory b).next key data e → Q k := by
    intro e k hk he
    refine hQ k ⟨e, _, _, hk, he, Or.inl rfl, ?_⟩
    rcases hcount with ⟨hsame, hu⟩ | ⟨hu, hnew⟩
    · exact Or.inl ⟨hsame, by rw [hu]; exact he.kept hu⟩
    · exact Or.inr ⟨hu, hnew⟩
  have hnamed : ∀ {e : Slot}, e.key = keyField key → e.name = keyName key := by
    intro e he
    rw [Slot.name, he, keyName_keyField]
  have hkeyed : ∀ {e : Slot}, e.key = keyField key →
      (e.used = ((directory b).slot idx).used ∨ e.used = true) → e.length = data.length →
      e.offset = (directory b).next → (e.checksum = ((directory b).slot idx).checksum ∨
        e.checksum = calculateChecksum data.bytes) →
      PutSlot ((directory b).slot idx) (directory b).next key data e := by
    intro e hk hu hl ho hs
    refine ⟨fun hused => ?_, fun _ => hnamed hk, Or.inr (Or.inr ⟨hl, Or.inr ⟨ho, hs⟩⟩)⟩
    rcases hu with hu | hu
    · rw [hu, hused]
    · exact hu
  have c1 : Cuts m Q (s.copyKey idx key) := hc.memcpy _ _ fun done => by
    obtain ⟨e, hk, he | ⟨hfree, hofree⟩⟩ := key_copy hb hidx ht hp done
    · exact hcut (he ▸ hk) hold
    · refine hcut hk ⟨fun ho => ?_, fun he => ?_, Or.inr (Or.inl hfree)⟩
      · rw [hofree] at ho
        exact absurd ho Bool.false_ne_true
      · rw [hfree] at he
        exact absurd he Bool.false_ne_true
  have p2 := hp.copyKey hidx key
  have e2 : PutSlot ((directory b).slot idx) (directory b).next key data
      { (directory b).slot idx with key := keyField key } := by
    refine ⟨id, fun _ => hnamed rfl, ?_⟩
    by_cases hu : ((directory b).slot idx).used = true
    · refine Or.inl ?_
      rw [← keyField_of_target hb ht hu]
    · exact Or.inr (Or.inl (Bool.eq_false_iff.mpr hu))
  have c2 : Cuts m Q ((s.copyKey idx key).closeKey idx) := c1.setByte _ _ (hcut p2 e2)
  have hlen : data.length % 2 ^ 32 = data.length := Nat.mod_eq_of_lt data.fits
  have p3 := p2.setLength hidx data.length
  have e3 : PutSlot ((directory b).slot idx) (directory b).next key data
      { (directory b).slot idx with key := keyField key, length := data.length % 2 ^ 32 } := by
    refine ⟨id, fun _ => hnamed rfl, ?_⟩
    by_cases hu : ((directory b).slot idx).used = true
    · exact Or.inr (Or.inr ⟨hlen, Or.inl ⟨hu, rfl, rfl⟩⟩)
    · exact Or.inr (Or.inl (Bool.eq_false_iff.mpr hu))
  have c3 := c2.setWord (entryAddr idx + 512) data.length (hcut p3 e3)
  have hnext : nextOffset s.mem = (directory b).next := congrArg Directory.next hp.dir
  have hoff : nextOffset (((s.copyKey idx key).closeKey idx).setLength idx data.length).mem % 2 ^ 32 =
      (directory b).next := by
    have hlt : nextOffset s.mem < 2 ^ 32 := readWord_lt _ _
    rw [nextOffset_setLength hidx, Nat.mod_eq_of_lt hlt, hnext]
  have p4 := p3.setOffset hidx (nextOffset (((s.copyKey idx key).closeKey idx).setLength idx
    data.length).mem)
  have c4 := c3.setWord (entryAddr idx + 516) _
    (hcut p4 (hkeyed rfl (Or.inl rfl) hlen hoff (Or.inl rfl)))
  have p5 := p4.setIsUsed hidx true
  have c5 := c4.setByte (entryAddr idx + 520) 1
    (hcut p5 (hkeyed rfl (Or.inr rfl) hlen hoff (Or.inl rfl)))
  have hsum : calculateChecksum data.bytes % 2 ^ 32 = calculateChecksum data.bytes :=
    Nat.mod_eq_of_lt (calculateChecksum_lt _)
  have p6 := p5.setChecksum hidx (calculateChecksum data.bytes)
  have c6 := c5.setWord (entryAddr idx + 524) (calculateChecksum data.bytes)
    (hcut p6 (hkeyed rfl (Or.inr rfl) hlen hoff (Or.inr hsum)))
  refine ⟨c6, hp.modify (f := fun _ => storedSlot key data (directory b).next) ?_
    fun x hx => writeSlot_data hidx key data hx⟩
  rw [writeSlot_directory hidx, hnext]
  rfl

end Store

/-- **The storing part of `Put`, cut anywhere.** -/
theorem store_cuts {m : Mem} {Q : Mem → Prop} {s t : Mapping} {key : List UInt8} {data : Blob}
    {idx : Nat} (hb : WellFormed (directory s.mem)) (hc : Cuts m Q s)
    (hfit : (directory s.mem).next + data.length ≤ cacheFileSize)
    (hchoose : chooseEntry s key = some (idx, t))
    (hQ : ∀ k, PutCut s.mem key data idx k → Q k) : Cuts m Q (writeEntry t idx key data) := by
  obtain ⟨hidx, ht, hdir, -, -⟩ := chooseEntry_some hb hchoose
  have hsize := cacheFileSize_lt
  have hlo := hb.next_lo
  -- the count store, for a key that was not there
  have hstart : Cuts m Q t ∧ ∃ count,
      Patched s.mem idx ((directory s.mem).slot idx) count (directory s.mem).next t.mem ∧
        (count = (directory s.mem).count ∧ ((directory s.mem).slot idx).used = true ∨
          ((directory s.mem).slot idx).used = false ∧ count = (directory s.mem).count + 1) := by
    have p0 := Patched.refl s.mem idx
    unfold chooseEntry at hchoose
    cases hfind : findEntry s.mem key with
    | some j =>
      rw [hfind] at hchoose
      cases hchoose
      exact ⟨hc, _, p0, Or.inl ⟨rfl, (findEntry_eq_some.mp hfind).2.1.1⟩⟩
    | none =>
      rw [hfind] at hchoose
      cases hfree : findFreeEntry s.mem with
      | none =>
        rw [hfree] at hchoose
        cases hchoose
      | some j =>
        rw [hfree] at hchoose
        cases hchoose
        obtain ⟨hj, hunused, -⟩ := findFreeEntry_eq_some.mp hfree
        have p1 := p0.countEntry (hb.count_lt_of_free hj hunused)
        exact ⟨(hc.add32 _ _).setWord 8 _ (hQ _ ⟨_, _, _, p1, putSlot_old hb ht _, Or.inl rfl,
          Or.inr ⟨hunused, rfl⟩⟩), _, p1, Or.inr ⟨hunused, rfl⟩⟩
  obtain ⟨hct, count, hp, hcount⟩ := hstart
  obtain ⟨c1, p1⟩ := writeSlot_cuts hb hidx ht hQ hct hp hcount
  have hnext : nextOffset t.mem = (directory s.mem).next := congrArg Directory.next hp.dir
  have hslot : PutSlot ((directory s.mem).slot idx) (directory s.mem).next key data
      (storedSlot key data (directory s.mem).next) :=
    ⟨fun _ => rfl, fun _ => keyName_keyField key, Or.inr (Or.inr ⟨rfl, Or.inr ⟨rfl, Or.inr rfl⟩⟩)⟩
  have hcount' : count = (directory s.mem).count ∧
      (storedSlot key data (directory s.mem).next).used = ((directory s.mem).slot idx).used ∨
        ((directory s.mem).slot idx).used = false ∧ count = (directory s.mem).count + 1 := by
    rcases hcount with ⟨hsame, hu⟩ | hnew
    · exact Or.inl ⟨hsame, hu.symm⟩
    · exact Or.inr hnew
  rw [writeEntry_eq hidx key data (by rw [hnext]; exact hlo) (by rw [hnext]; omega), hnext]
  have hdata := fun f => p1.data_write (a := (directory s.mem).next) (n := data.length) f hlo
    (le_refl _)
  have c2 := c1.memcpy (directory s.mem).next data.bytes fun done =>
    hQ _ ⟨_, _, _, hdata _, hslot, Or.inl rfl, hcount'⟩
  have p3 := Patched.setNextOffset (s := ((writeSlot t idx key data).memcpy (directory s.mem).next
    data.bytes).emit (.add32 (directory s.mem).next data.length)) (hdata _)
    ((directory s.mem).next + data.length)
  refine (c2.add32 _ _).setWord 12 _ (hQ _ ⟨_, _, _, p3, hslot, Or.inr ?_, hcount'⟩)
  exact Nat.mod_eq_of_lt (by omega)

/-- The checksum stored for a key, 0 when the key is absent. -/
def oldChecksum (m : Mem) (key : List UInt8) : Nat :=
  match findEntry m key with
  | some i => entryChecksum m i
  | none => 0

theorem oldChecksum_of_target {m : Mem} (hm : WellFormed (directory m)) {key : List UInt8}
    {idx : Nat} (ht : (directory m).Target key idx) :
    ((directory m).slot idx).checksum = oldChecksum m key := by
  unfold oldChecksum
  rcases ht with ht | ⟨⟨hfree, -⟩, hnone⟩
  · rw [findEntry_of_holds hm.names ht]
    exact (entryChecksum_eq (hm.table idx ht.1)).symm
  · rw [findEntry_eq_none.mpr hnone, hm.free idx hfree]
    rfl

/-- Slot `i` of the key after a `Put` of `length` bytes that was killed: its extent is in the file, and
in the data in use or, with the new length, right behind it, and apart from all others; but for a longer
value whose length is stored and whose offset is not. -/
structure KeyPlaced (m : Mem) (key : List UInt8) (length : Nat) (k : Mem) (i : Nat) : Prop where
  lo : dataStart ≤ ((directory k).slot i).offset
  hi : ((directory k).slot i).offset + ((directory k).slot i).length ≤ cacheFileSize
  apart : ((((directory k).slot i).offset + ((directory k).slot i).length ≤ (directory k).next ∨
        ((directory k).slot i).offset = (directory k).next ∧
          ((directory k).slot i).length = length) ∧
      ∀ j, j ≠ i → ((directory k).slot j).used = true →
        Disj ((directory k).slot i).offset ((directory k).slot i).length
          ((directory k).slot j).offset ((directory k).slot j).length) ∨
    (directory m).Holds key i ∧ ((directory k).slot i).offset = ((directory m).slot i).offset ∧
      ((directory k).slot i).length = length ∧ ((directory m).slot i).length < length

/-- **What is left of a cache by a `Put` that is killed**, when it does not compact. -/
structure PutCrash (m : Mem) (key : List UInt8) (data : Blob) (k : Mem) : Prop where
  count : entryCount k = usedSlots k ∨
    (∀ i, ¬ (directory m).Holds key i) ∧ entryCount k = usedSlots k + 1
  extents : ExtentsSound k fun i => ((directory k).slot i).name ≠ keyName key
  placed : ∀ i, (directory k).Holds key i → KeyPlaced m key data.length k i
  others : ∀ other, keyName other ≠ keyName key → getBytes k other = getBytes m other
  own : getBytes k key = getBytes m key ∨ getBytes k key = none ∨
    ∃ bytes, getBytes k key = some bytes ∧ bytes.length = data.length ∧
      (calculateChecksum bytes = oldChecksum m key ∨
        calculateChecksum bytes = calculateChecksum data.bytes)

theorem PutCrash.refl {m : Mem} (hm : WellFormed (directory m)) (key : List UInt8) (data : Blob) :
    PutCrash m key data m where
  count := Or.inl hm.count
  extents := hm.extentsSound _
  placed := fun i hi => by
    have hend := hm.extent_hi i hi.1
    exact ⟨hm.extent_lo i hi.1, hend.trans hm.next_hi,
      Or.inl ⟨Or.inl hend, fun j hj hu => hm.disjoint i j hi.1 hu hj.symm⟩⟩
  others := fun _ _ => rfl
  own := Or.inl rfl

section PutCut

variable {m k : Mem} {key : List UInt8} {data : Blob} {idx : Nat} (hm : WellFormed (directory m))
  (hidx : idx < cacheMaxEntries) (ht : (directory m).Target key idx) (h : PutCut m key data idx k)
include hm ht h

include hidx in
/-- How the count relates to the used slots while `Put` stores. -/
theorem PutCut.count : entryCount k = usedSlots k ∨
    (∀ i, ¬ (directory m).Holds key i) ∧ entryCount k = usedSlots k + 1 := by
  obtain ⟨e, count, next, hp, he, -, hcount⟩ := h
  have hk : entryCount k = count := congrArg Directory.count hp.dir
  have hcard := hm.count
  rw [hk, usedSlots, hp.usedSet_eq hidx]
  rcases hcount with ⟨rfl, hu⟩ | ⟨hu, rfl⟩
  · refine Or.inl ?_
    cases hold : ((directory m).slot idx).used with
    | true =>
      rw [if_pos (hu.trans hold), Finset.insert_eq_of_mem (hm.mem_usedSet.mpr hold), hcard]
    | false =>
      have hout : idx ∉ (directory m).usedSet := fun hin => by
        rw [hm.mem_usedSet, hold] at hin
        exact Bool.false_ne_true hin
      rw [if_neg (by rw [hu, hold]; exact Bool.false_ne_true), Finset.erase_eq_of_notMem hout, hcard]
  · have hout : idx ∉ (directory m).usedSet := fun hin => by
      rw [hm.mem_usedSet, hu] at hin
      exact Bool.false_ne_true hin
    cases hnew : e.used with
    | true =>
      rw [if_pos rfl, Finset.card_insert_of_notMem hout, hcard]
      exact Or.inl rfl
    | false =>
      rw [if_neg Bool.false_ne_true, Finset.erase_eq_of_notMem hout, hcard]
      refine Or.inr ⟨?_, rfl⟩
      rcases ht with ht | ⟨-, habsent⟩
      · exact absurd (hu.symm.trans ht.1) Bool.false_ne_true
      · exact habsent

/-- Where the extent of the key is while `Put` stores. -/
theorem PutCut.placed (hfit : (directory m).next + data.length ≤ cacheFileSize) {i : Nat}
    (hi : (directory k).Holds key i) : KeyPlaced m key data.length k i := by
  obtain ⟨e, count, next, hp, he, hnext, -⟩ := h
  obtain ⟨rfl, hu⟩ := (hp.holds_self hm ht he.name i).mp hi
  have hk : (directory k).next = next := by
    rw [hp.dir]
    rfl
  have hlo := hm.next_lo
  -- the other extents end at the old `next_offset`
  have hother : ∀ j, j ≠ i → ((directory k).slot j).used = true →
      ((directory k).slot j).offset + ((directory k).slot j).length ≤ (directory m).next := by
    intro j hj huj
    rw [hp.slot_ne hj] at huj ⊢
    exact hm.extent_hi j huj
  have hapart : ∀ (a n : Nat), (((directory m).slot i).used = true → a = ((directory m).slot i).offset ∧
      n ≤ ((directory m).slot i).length) → ((directory m).slot i).used = true → ∀ j, j ≠ i →
        ((directory k).slot j).used = true →
          Disj a n ((directory k).slot j).offset ((directory k).slot j).length := by
    intro a n hin hold j hj huj
    obtain ⟨rfl, hle⟩ := hin hold
    rw [hp.slot_ne hj] at huj ⊢
    rcases hm.disjoint i j hold huj hj.symm with hd | hd
    · exact Or.inl (by omega)
    · exact Or.inr hd
  constructor <;> rw [hp.slot_self]
  all_goals rcases he.value with rfl | hfree | ⟨hlen, ⟨hold, hoff, -⟩ | ⟨hoff, -⟩⟩
  all_goals try exact absurd (hfree.symm.trans hu) Bool.false_ne_true
  · exact hm.extent_lo i hu
  · rw [hoff]
    exact hm.extent_lo i hold
  · rw [hoff]
    exact hlo
  · exact (hm.extent_hi i hu).trans hm.next_hi
  · have hend := hm.extent_hi i hold
    have hpos := hm.length_pos i hold
    rw [hoff, hlen]
    omega
  · rw [hoff, hlen]
    exact hfit
  · have hend := hm.extent_hi i hu
    exact Or.inl ⟨Or.inl (by rw [hk]; omega), hapart _ _ (fun _ => ⟨rfl, le_rfl⟩) hu⟩
  · by_cases hlong : ((directory m).slot i).length < data.length
    · refine Or.inr ⟨?_, hoff, hlen, hlong⟩
      rcases ht with ht | ⟨⟨hfree, -⟩, -⟩
      · exact ht
      · exact absurd (hfree.symm.trans hold) Bool.false_ne_true
    · have hend := hm.extent_hi i hold
      refine Or.inl ⟨Or.inl (by rw [hk, hoff, hlen]; omega), hapart _ _ (fun _ => ⟨hoff, ?_⟩) hold⟩
      rw [hlen]
      omega
  · refine Or.inl ⟨?_, fun j hj huj => Or.inr (by rw [hoff]; exact hother j hj huj)⟩
    rw [hk, hoff, hlen]
    rcases hnext with rfl | rfl
    · exact Or.inr ⟨rfl, rfl⟩
    · exact Or.inl le_rfl

include hidx in
theorem PutCut.crash (hfit : (directory m).next + data.length ≤ cacheFileSize) :
    PutCrash m key data k := by
  have hcount := h.count hm hidx ht
  have hplaced : ∀ i, (directory k).Holds key i → KeyPlaced m key data.length k i :=
    fun _ hi => h.placed hm ht hfit hi
  obtain ⟨e, count, next, hp, he, hnext, -⟩ := h
  refine ⟨hcount, ?_, hplaced, fun other hne => hp.get_ne hm ht he.name hne, ?_⟩
  · refine hp.extentsSound hm (by omega) (by omega) fun i hname hu => ?_
    rintro rfl
    rw [hp.slot_self] at hname hu
    exact hname (he.name hu)
  · rcases he.value with hold | hfree | ⟨hlen, hsum⟩
    · exact Or.inl (hp.get_same hm hold)
    · exact Or.inr (Or.inl (hp.get_unused hm ht he.name hfree))
    · cases hget : getBytes k key with
      | none => exact Or.inr (Or.inl rfl)
      | some bytes =>
        obtain ⟨hblen, hbsum⟩ := hp.get_used hm ht he.name hget
        rw [oldChecksum_of_target hm ht] at hsum
        refine Or.inr (Or.inr ⟨bytes, rfl, hblen.trans hlen, ?_⟩)
        rw [hbsum]
        rcases hsum with ⟨-, -, hsum⟩ | ⟨-, hsum⟩
        · exact Or.inl hsum
        · exact hsum

end PutCut

end CCache.Cache
