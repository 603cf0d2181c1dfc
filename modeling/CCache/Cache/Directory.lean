/-
# CCache.Cache.Directory — the header and the slot table read as a record.

`directory m` decodes the bytes below `dataStart`: the four header words and, for each index, the
slot with its key field, length, offset, flag and checksum (an index past the table reads as the
empty slot).  Every store the cache makes has one law here that gives the directory after it, and one
that says the data area is as before; a write to the data area leaves the directory as it is.  The
later modules reason about directories and data bytes and no longer about addresses.
-/
import CCache.Cache.SharedCache

namespace CCache.Cache

open CCache.Lib.ByteMemory
open CCache.Lib.CString

/-! ## Addresses -/

theorem dataStart_eq : dataStart = 540704 := rfl

theorem header_le_dataStart : 32 ≤ dataStart := by
  rw [dataStart_eq]
  norm_num

theorem cacheFileSize_eq : cacheFileSize = 104857600 := rfl

theorem cacheMaxEntries_eq : cacheMaxEntries = 1024 := rfl

theorem entryAddr_eq (i : Nat) : entryAddr i = 32 + 528 * i := rfl

/-- The entries lie between the header and the data area. -/
theorem entryAddr_bounds {i : Nat} (hi : i < cacheMaxEntries) :
    32 ≤ entryAddr i ∧ entryAddr i + 528 ≤ dataStart := by
  rw [cacheMaxEntries_eq] at hi
  rw [entryAddr_eq, dataStart_eq]
  omega

/-- Two entries share no byte. -/
theorem entryAddr_apart {i j : Nat} (h : i ≠ j) :
    entryAddr i + 528 ≤ entryAddr j ∨ entryAddr j + 528 ≤ entryAddr i := by
  rw [entryAddr_eq, entryAddr_eq]
  omega

/-- On every `uint32_t` offset the pointer arithmetic of the data area gives the offset back. -/
theorem dataPtr_eq {offset : Nat} (h : offset < 2 ^ 32) : dataPtr offset = offset := by
  unfold dataPtr
  rw [dataStart_eq]
  omega

theorem add32_eq {a b : Nat} (h : a + b < 2 ^ 32) : add32 a b = a + b := Nat.mod_eq_of_lt h

theorem sub32_eq {a b : Nat} (ha : a < 2 ^ 32) (h : b ≤ a) : sub32 a b = a - b := by
  unfold sub32
  omega

/-! ## Slots and directories -/

/-- One `CacheEntryHeader`, less `function_name`, which no operation reads. -/
structure Slot where
  key : List UInt8
  length : Nat
  offset : Nat
  used : Bool
  checksum : Nat

/-- The slot whose bytes are all zero. -/
def Slot.empty : Slot := ⟨List.replicate sizeofKey 0, 0, 0, false, 0⟩

/-- `t(k)`: what the lookup sees of a key. -/
def keyName (key : List UInt8) : List UInt8 := trunc (sizeofKey - 1) key

/-- The key of a slot as a string. -/
def Slot.name (e : Slot) : List UInt8 := keyName e.key

/-- The 256 bytes `Put` leaves in the key field. -/
def keyField (key : List UInt8) : List UInt8 := strncpy (sizeofKey - 1) key ++ [0]

@[simp] theorem keyName_keyField (key : List UInt8) : keyName (keyField key) = keyName key :=
  trunc_strncpy_append _ _ _

/-- The header and the slots. -/
@[ext]
structure Directory where
  magic : Nat
  version : Nat
  count : Nat
  next : Nat
  slot : Nat → Slot

/-- Replace one slot. -/
def Directory.setSlot (d : Directory) (i : Nat) (e : Slot) : Directory :=
  { d with slot := fun j => if j = i then e else d.slot j }

@[simp] theorem Directory.setSlot_slot_self (d : Directory) (i : Nat) (e : Slot) :
    (d.setSlot i e).slot i = e := if_pos rfl

theorem Directory.setSlot_slot_ne (d : Directory) {i j : Nat} (e : Slot) (h : j ≠ i) :
    (d.setSlot i e).slot j = d.slot j := if_neg h

@[simp] theorem Directory.setSlot_count (d : Directory) (i : Nat) (e : Slot) :
    (d.setSlot i e).count = d.count := rfl

@[simp] theorem Directory.setSlot_next (d : Directory) (i : Nat) (e : Slot) :
    (d.setSlot i e).next = d.next := rfl

@[simp] theorem Directory.setSlot_setSlot (d : Directory) (i : Nat) (e e2 : Slot) :
    (d.setSlot i e).setSlot i e2 = d.setSlot i e2 := by
  unfold Directory.setSlot
  congr 1
  funext j
  by_cases h : j = i <;> simp [h]

/-- Change one slot. -/
def Directory.modify (d : Directory) (i : Nat) (f : Slot → Slot) : Directory :=
  d.setSlot i (f (d.slot i))

@[simp] theorem Directory.modify_modify (d : Directory) (i : Nat) (f g : Slot → Slot) :
    (d.modify i f).modify i g = d.modify i fun e => g (f e) := by
  simp [Directory.modify]

@[simp] theorem Directory.modify_count (d : Directory) (i : Nat) (f : Slot → Slot) :
    (d.modify i f).count = d.count := rfl

@[simp] theorem Directory.modify_next (d : Directory) (i : Nat) (f : Slot → Slot) :
    (d.modify i f).next = d.next := rfl

@[simp] theorem Directory.modify_slot_self (d : Directory) (i : Nat) (f : Slot → Slot) :
    (d.modify i f).slot i = f (d.slot i) := if_pos rfl

/-- Entry `i` of the table, decoded. -/
def slotAt (m : Mem) (i : Nat) : Slot :=
  if i < cacheMaxEntries then
    ⟨entryKey m i, entryLength m i, entryOffset m i, entryIsUsed m i, entryChecksum m i⟩
  else .empty

/-- The bytes below `dataStart`, decoded. -/
def directory (m : Mem) : Directory :=
  ⟨magicNumber m, version m, entryCount m, nextOffset m, slotAt m⟩

theorem slotAt_lt {m : Mem} {i : Nat} (h : i < cacheMaxEntries) :
    slotAt m i = ⟨entryKey m i, entryLength m i, entryOffset m i, entryIsUsed m i,
      entryChecksum m i⟩ := if_pos h

section Fields

variable {m : Mem} {i : Nat} (h : i < cacheMaxEntries)
include h

theorem entryKey_eq : entryKey m i = ((directory m).slot i).key := by
  simp [directory, slotAt_lt h]

theorem entryLength_eq : entryLength m i = ((directory m).slot i).length := by
  simp [directory, slotAt_lt h]

theorem entryOffset_eq : entryOffset m i = ((directory m).slot i).offset := by
  simp [directory, slotAt_lt h]

theorem entryIsUsed_eq : entryIsUsed m i = ((directory m).slot i).used := by
  simp [directory, slotAt_lt h]

theorem entryChecksum_eq : entryChecksum m i = ((directory m).slot i).checksum := by
  simp [directory, slotAt_lt h]

end Fields

/-- A used slot is inside the table. -/
theorem lt_of_used {m : Mem} {i : Nat} (h : (slotAt m i).used = true) : i < cacheMaxEntries := by
  by_contra hi
  simp [slotAt, hi, Slot.empty] at h

/-- The directory depends on the bytes below `dataStart` only. -/
theorem directory_congr {m k : Mem} (h : ∀ x, x < dataStart → m x = k x) :
    directory m = directory k := by
  have hd : dataStart = 540704 := rfl
  have hword : ∀ a, a + 4 ≤ dataStart → readWord m a = readWord k a := fun a ha =>
    readWord_congr fun i hi => h _ (by omega)
  have hslot : slotAt m = slotAt k := by
    funext i
    by_cases hi : i < cacheMaxEntries
    · have hb := entryAddr_bounds hi
      have hkey : entryKey m i = entryKey k i :=
        read_congr fun j hj => h _ (by simp only [sizeofKey] at hj; omega)
      have hused : entryIsUsed m i = entryIsUsed k i := by
        unfold entryIsUsed
        rw [h _ (by omega)]
      rw [slotAt_lt hi, slotAt_lt hi, hkey, hused]
      unfold entryLength entryOffset entryChecksum
      rw [hword _ (by omega), hword _ (by omega), hword _ (by omega)]
    · simp [slotAt, hi]
  unfold directory magicNumber version entryCount nextOffset
  rw [hword _ (by omega), hword _ (by omega), hword _ (by omega), hword _ (by omega), hslot]

/-- A write to the data area leaves the directory alone. -/
theorem directory_blit_data {m : Mem} {a n : Nat} {f : Nat → UInt8} (ha : dataStart ≤ a) :
    directory (blit m a n f) = directory m :=
  directory_congr fun _ hx => blit_out (by omega)

/-- A write inside one entry changes that slot only. -/
theorem directory_blit_entry {m : Mem} {a n i : Nat} {f : Nat → UInt8} (hi : i < cacheMaxEntries)
    (ha : entryAddr i ≤ a) (hb : a + n ≤ entryAddr i + 528) :
    directory (blit m a n f) = (directory m).setSlot i (slotAt (blit m a n f) i) := by
  have hbd := entryAddr_bounds hi
  have hword : ∀ b, b + 4 ≤ 32 → readWord (blit m a n f) b = readWord m b := fun b hb =>
    readWord_blit_disjoint (by omega)
  have hslot : slotAt (blit m a n f) =
      ((directory m).setSlot i (slotAt (blit m a n f) i)).slot := by
    funext j
    by_cases hj : j = i
    · rw [hj, Directory.setSlot_slot_self]
    · rw [Directory.setSlot_slot_ne _ _ hj]
      show slotAt (blit m a n f) j = slotAt m j
      by_cases hj2 : j < cacheMaxEntries
      · have hap := entryAddr_apart hj
        rw [slotAt_lt hj2, slotAt_lt hj2]
        unfold entryKey entryLength entryOffset entryIsUsed entryChecksum sizeofKey
        rw [read_blit_disjoint (by omega), readWord_blit_disjoint (by omega),
          readWord_blit_disjoint (by omega), readWord_blit_disjoint (by omega),
          blit_out (by omega)]
      · simp [slotAt, hj2]
  exact Directory.ext (hword 0 (by omega)) (hword 4 (by omega)) (hword 8 (by omega))
    (hword 12 (by omega)) hslot

/-- A write to one header word leaves every slot alone. -/
theorem slotAt_blit_header {m : Mem} {a n : Nat} {f : Nat → UInt8} (ha : a + n ≤ 32) :
    slotAt (blit m a n f) = slotAt m := by
  funext j
  by_cases hj : j < cacheMaxEntries
  · have hb := entryAddr_bounds hj
    rw [slotAt_lt hj, slotAt_lt hj]
    unfold entryKey entryLength entryOffset entryIsUsed entryChecksum sizeofKey
    rw [read_blit_disjoint (by omega), readWord_blit_disjoint (by omega),
      readWord_blit_disjoint (by omega), readWord_blit_disjoint (by omega),
      blit_out (by omega)]
  · simp [slotAt, hj]

/-! ## Lookup -/

/-- Slot `i` is used and holds the key. -/
def Directory.Holds (d : Directory) (key : List UInt8) (i : Nat) : Prop :=
  (d.slot i).used = true ∧ (d.slot i).name = keyName key

theorem findEntry_test (m : Mem) (key : List UInt8) {i : Nat} (hi : i < cacheMaxEntries) :
    (entryIsUsed m i && strncmp (sizeofKey - 1) (entryKey m i) key == 0) = true ↔
      (directory m).Holds key i := by
  rw [Bool.and_eq_true, beq_iff_eq, strncmp_eq_zero_iff, entryIsUsed_eq hi, entryKey_eq hi]
  rfl

/-- `FindEntry` answers the first slot that holds the key. -/
theorem findEntry_eq_some {m : Mem} {key : List UInt8} {i : Nat} :
    findEntry m key = some i ↔ i < cacheMaxEntries ∧ (directory m).Holds key i ∧
      ∀ j, j < i → ¬ (directory m).Holds key j := by
  unfold findEntry
  rw [List.find?_range_eq_some, List.mem_range]
  constructor
  · rintro ⟨htest, hi, hfirst⟩
    refine ⟨hi, (findEntry_test m key hi).mp htest, fun j hj hh => ?_⟩
    have h := hfirst j hj
    rw [(findEntry_test m key (by omega)).mpr hh] at h
    exact Bool.false_ne_true h
  · rintro ⟨hi, hh, hfirst⟩
    refine ⟨(findEntry_test m key hi).mpr hh, hi, fun j hj => ?_⟩
    rw [Bool.not_eq_true', Bool.eq_false_iff]
    exact fun htest => hfirst j hj ((findEntry_test m key (by omega)).mp htest)

/-- `FindEntry` answers -1 when no slot holds the key. -/
theorem findEntry_eq_none {m : Mem} {key : List UInt8} :
    findEntry m key = none ↔ ∀ j, ¬ (directory m).Holds key j := by
  unfold findEntry
  rw [List.find?_range_eq_none]
  constructor
  · intro h j hh
    have hj : j < cacheMaxEntries := lt_of_used hh.1
    have hnot := h j hj
    rw [(findEntry_test m key hj).mpr hh] at hnot
    exact Bool.false_ne_true hnot
  · intro h j hj
    rw [Bool.not_eq_true', Bool.eq_false_iff]
    exact fun htest => h j ((findEntry_test m key hj).mp htest)

/-- `FindFreeEntry` answers the first slot that is not used. -/
theorem findFreeEntry_eq_some {m : Mem} {i : Nat} :
    findFreeEntry m = some i ↔ i < cacheMaxEntries ∧ ((directory m).slot i).used = false ∧
      ∀ j, j < i → ((directory m).slot j).used = true := by
  unfold findFreeEntry
  rw [List.find?_range_eq_some, List.mem_range]
  constructor
  · rintro ⟨htest, hi, hfirst⟩
    refine ⟨hi, ?_, fun j hj => ?_⟩
    · rw [← entryIsUsed_eq hi]
      simpa using htest
    · rw [← entryIsUsed_eq (lt_trans hj hi)]
      simpa using hfirst j hj
  · rintro ⟨hi, hfree, hfirst⟩
    refine ⟨?_, hi, fun j hj => ?_⟩
    · rw [entryIsUsed_eq hi, hfree]
      rfl
    · rw [entryIsUsed_eq (lt_trans hj hi), hfirst j hj]
      rfl

/-- `FindFreeEntry` answers -1 when the whole table is used. -/
theorem findFreeEntry_eq_none {m : Mem} :
    findFreeEntry m = none ↔ ∀ i, i < cacheMaxEntries → ((directory m).slot i).used = true := by
  unfold findFreeEntry
  rw [List.find?_range_eq_none]
  refine forall_congr' fun i => forall_congr' fun hi => ?_
  rw [entryIsUsed_eq hi]
  simp

/-! ## The stores -/

namespace Mapping

@[simp] theorem start_mem (m : Mem) : (start m).mem = m := rfl

@[simp] theorem start_log (m : Mem) : (start m).log = [] := rfl

@[simp] theorem emit_add32_mem (s : Mapping) (a b : Nat) : (s.emit (.add32 a b)).mem = s.mem := rfl

@[simp] theorem emit_sub32_mem (s : Mapping) (a b : Nat) : (s.emit (.sub32 a b)).mem = s.mem := rfl

theorem setWord_mem (s : Mapping) (a v : Nat) :
    (s.setWord a v).mem = blit s.mem a 4 (content (toLE 4 v)) := rfl

theorem setByte_mem (s : Mapping) (a : Nat) (b : UInt8) :
    (s.setByte a b).mem = blit s.mem a 1 (fun _ => b) := rfl

theorem memset_mem (s : Mapping) (a : Nat) (b : UInt8) (n : Nat) :
    (s.memset a b n).mem = blit s.mem a n (fun _ => b) := rfl

theorem memcpy_mem (s : Mapping) (a : Nat) (bs : List UInt8) :
    (s.memcpy a bs).mem = blit s.mem a bs.length (content bs) := rfl

theorem memmove_mem (s : Mapping) (dst src n : Nat) :
    (s.memmove dst src n).mem = blit s.mem dst n (fun i => s.mem (src + i)) := rfl

theorem setMagicNumber_directory (s : Mapping) (v : Nat) :
    directory (s.setMagicNumber v).mem = { directory s.mem with magic := v % 2 ^ 32 } :=
  Directory.ext (readWord_blit_toLE _ _ _) (readWord_blit_disjoint (by omega))
    (readWord_blit_disjoint (by omega)) (readWord_blit_disjoint (by omega))
    (slotAt_blit_header (by omega))

theorem setVersion_directory (s : Mapping) (v : Nat) :
    directory (s.setVersion v).mem = { directory s.mem with version := v % 2 ^ 32 } :=
  Directory.ext (readWord_blit_disjoint (by omega)) (readWord_blit_toLE _ _ _)
    (readWord_blit_disjoint (by omega)) (readWord_blit_disjoint (by omega))
    (slotAt_blit_header (by omega))

theorem setEntryCount_directory (s : Mapping) (v : Nat) :
    directory (s.setEntryCount v).mem = { directory s.mem with count := v % 2 ^ 32 } :=
  Directory.ext (readWord_blit_disjoint (by omega)) (readWord_blit_disjoint (by omega))
    (readWord_blit_toLE _ _ _) (readWord_blit_disjoint (by omega))
    (slotAt_blit_header (by omega))

theorem setNextOffset_directory (s : Mapping) (v : Nat) :
    directory (s.setNextOffset v).mem = { directory s.mem with next := v % 2 ^ 32 } :=
  Directory.ext (readWord_blit_disjoint (by omega)) (readWord_blit_disjoint (by omega))
    (readWord_blit_disjoint (by omega)) (readWord_blit_toLE _ _ _)
    (slotAt_blit_header (by omega))

section EntryStores

variable {s : Mapping} {i : Nat} (hi : i < cacheMaxEntries)
include hi

theorem copyKey_directory (key : List UInt8) :
    directory ((s.copyKey i key).closeKey i).mem =
      (directory s.mem).modify i fun e => { e with key := keyField key } := by
  show _ = (directory s.mem).setSlot i { slotAt s.mem i with key := keyField key }
  have hlen : (strncpy (sizeofKey - 1) key).length = 255 := strncpy_length _ _
  have hmem : ((s.copyKey i key).closeKey i).mem =
      blit (blit s.mem (entryAddr i + 256) 255 (content (strncpy (sizeofKey - 1) key)))
        (entryAddr i + 256 + 255) 1 (fun _ => 0) := by
    rw [closeKey, setByte_mem, copyKey, memcpy_mem, hlen]
    rfl
  have hkey : entryKey ((s.copyKey i key).closeKey i).mem i = keyField key := by
    have h1 := read_blit_content s.mem (entryAddr i + 256) (strncpy (sizeofKey - 1) key)
    rw [hlen] at h1
    rw [entryKey, hmem]
    show Lib.ByteMemory.read _ (entryAddr i + 256) (255 + 1) = _
    rw [read_append, read_blit_disjoint (by omega), h1, read_blit_same]
    rfl
  rw [hmem, directory_blit_entry hi (by omega) (by omega),
    directory_blit_entry hi (by omega) (by omega), Directory.setSlot_setSlot, ← hmem,
    slotAt_lt hi, slotAt_lt hi, hkey, hmem]
  unfold entryLength entryOffset entryIsUsed entryChecksum
  rw [readWord_blit_disjoint (by omega), readWord_blit_disjoint (by omega),
    readWord_blit_disjoint (by omega), readWord_blit_disjoint (by omega),
    readWord_blit_disjoint (by omega), readWord_blit_disjoint (by omega),
    blit_out (by omega), blit_out (by omega)]

theorem setLength_directory (v : Nat) :
    directory (s.setLength i v).mem =
      (directory s.mem).modify i fun e => { e with length := v % 2 ^ 32 } := by
  show _ = (directory s.mem).setSlot i { slotAt s.mem i with length := v % 2 ^ 32 }
  rw [setLength, setWord_mem, directory_blit_entry hi (by omega) (by omega), slotAt_lt hi,
    slotAt_lt hi]
  unfold entryKey entryLength entryOffset entryIsUsed entryChecksum sizeofKey
  rw [read_blit_disjoint (by omega), readWord_blit_toLE, readWord_blit_disjoint (by omega),
    readWord_blit_disjoint (by omega), blit_out (by omega)]

theorem setOffset_directory (v : Nat) :
    directory (s.setOffset i v).mem =
      (directory s.mem).modify i fun e => { e with offset := v % 2 ^ 32 } := by
  show _ = (directory s.mem).setSlot i { slotAt s.mem i with offset := v % 2 ^ 32 }
  rw [setOffset, setWord_mem, directory_blit_entry hi (by omega) (by omega), slotAt_lt hi,
    slotAt_lt hi]
  unfold entryKey entryLength entryOffset entryIsUsed entryChecksum sizeofKey
  rw [read_blit_disjoint (by omega), readWord_blit_disjoint (by omega), readWord_blit_toLE,
    readWord_blit_disjoint (by omega), blit_out (by omega)]

theorem setIsUsed_directory (b : Bool) :
    directory (s.setIsUsed i b).mem =
      (directory s.mem).modify i fun e => { e with used := b } := by
  show _ = (directory s.mem).setSlot i { slotAt s.mem i with used := b }
  rw [setIsUsed, setByte_mem, directory_blit_entry hi (by omega) (by omega), slotAt_lt hi,
    slotAt_lt hi]
  unfold entryKey entryLength entryOffset entryIsUsed entryChecksum sizeofKey
  rw [read_blit_disjoint (by omega), readWord_blit_disjoint (by omega),
    readWord_blit_disjoint (by omega), readWord_blit_disjoint (by omega),
    blit_in (by omega) (by omega)]
  cases b <;> rfl

theorem setChecksum_directory (v : Nat) :
    directory (s.setChecksum i v).mem =
      (directory s.mem).modify i fun e => { e with checksum := v % 2 ^ 32 } := by
  show _ = (directory s.mem).setSlot i { slotAt s.mem i with checksum := v % 2 ^ 32 }
  rw [setChecksum, setWord_mem, directory_blit_entry hi (by omega) (by omega), slotAt_lt hi,
    slotAt_lt hi]
  unfold entryKey entryLength entryOffset entryIsUsed entryChecksum sizeofKey
  rw [read_blit_disjoint (by omega), readWord_blit_disjoint (by omega),
    readWord_blit_disjoint (by omega), readWord_blit_toLE, blit_out (by omega)]

theorem clearKey_directory :
    directory (s.memset (entryAddr i + 256) 0 sizeofKey).mem =
      (directory s.mem).modify i fun e => { e with key := List.replicate sizeofKey 0 } := by
  show _ = (directory s.mem).setSlot i { slotAt s.mem i with key := List.replicate sizeofKey 0 }
  rw [memset_mem, directory_blit_entry hi (by omega) (by simp only [sizeofKey]; omega),
    slotAt_lt hi, slotAt_lt hi]
  unfold entryKey entryLength entryOffset entryIsUsed entryChecksum sizeofKey
  rw [read_blit_const, readWord_blit_disjoint (by omega), readWord_blit_disjoint (by omega),
    readWord_blit_disjoint (by omega), blit_out (by omega)]

variable {x : Nat} (hx : dataStart ≤ x)
include hx

theorem copyKey_data (key : List UInt8) : ((s.copyKey i key).closeKey i).mem x = s.mem x := by
  have hb := entryAddr_bounds hi
  have hlen : (strncpy (sizeofKey - 1) key).length = 255 := strncpy_length _ _
  rw [closeKey, setByte_mem, copyKey, memcpy_mem, hlen, blit_out (by simp only [sizeofKey]; omega),
    blit_out (by omega)]

theorem setLength_data (v : Nat) : (s.setLength i v).mem x = s.mem x := by
  have hb := entryAddr_bounds hi
  rw [setLength, setWord_mem, blit_out (by omega)]

theorem setOffset_data (v : Nat) : (s.setOffset i v).mem x = s.mem x := by
  have hb := entryAddr_bounds hi
  rw [setOffset, setWord_mem, blit_out (by omega)]

theorem setIsUsed_data (b : Bool) : (s.setIsUsed i b).mem x = s.mem x := by
  have hb := entryAddr_bounds hi
  rw [setIsUsed, setByte_mem, blit_out (by omega)]

theorem setChecksum_data (v : Nat) : (s.setChecksum i v).mem x = s.mem x := by
  have hb := entryAddr_bounds hi
  rw [setChecksum, setWord_mem, blit_out (by omega)]

theorem clearKey_data : (s.memset (entryAddr i + 256) 0 sizeofKey).mem x = s.mem x := by
  have hb := entryAddr_bounds hi
  rw [memset_mem, blit_out (by simp only [sizeofKey]; omega)]

end EntryStores

theorem setEntryCount_data (s : Mapping) (v : Nat) {x : Nat} (hx : dataStart ≤ x) :
    (s.setEntryCount v).mem x = s.mem x := by
  have hd := header_le_dataStart
  rw [setEntryCount, setWord_mem, blit_out (by omega)]

theorem setNextOffset_data (s : Mapping) (v : Nat) {x : Nat} (hx : dataStart ≤ x) :
    (s.setNextOffset v).mem x = s.mem x := by
  have hd := header_le_dataStart
  rw [setNextOffset, setWord_mem, blit_out (by omega)]

end Mapping

/-! ## The stages of the operations -/

theorem calculateChecksum_lt (data : List UInt8) : calculateChecksum data < 2 ^ 32 := by
  unfold calculateChecksum
  suffices h : ∀ c, c < 2 ^ 32 → data.foldl
      (fun checksum b => add32 (add32 ((checksum <<< 5) % 2 ^ 32) checksum) b.toNat) c < 2 ^ 32 by
    exact h 0 (by norm_num)
  induction data with
  | nil => exact fun c hc => hc
  | cons b data ih => exact fun c _ => ih _ (Nat.mod_lt _ (by norm_num))

/-- `entry_count++` below the maximum counts one entry more and changes nothing else. -/
theorem countEntry_spec {s : Mapping} (h : entryCount s.mem < cacheMaxEntries) :
    directory (countEntry s).mem = { directory s.mem with count := (directory s.mem).count + 1 } ∧
      ∀ x, dataStart ≤ x → (countEntry s).mem x = s.mem x := by
  rw [cacheMaxEntries_eq] at h
  have hadd : add32 (entryCount s.mem) 1 = entryCount s.mem + 1 := add32_eq (by omega)
  unfold countEntry
  rw [hadd]
  refine ⟨?_, fun x hx => ?_⟩
  · rw [Mapping.setEntryCount_directory, Mapping.emit_add32_mem, Nat.mod_eq_of_lt (by omega)]
    rfl
  · rw [Mapping.setEntryCount_data _ _ hx, Mapping.emit_add32_mem]

/-- The slot `Put` leaves for `data` at file offset `offset`. -/
def storedSlot (key : List UInt8) (data : Blob) (offset : Nat) : Slot :=
  ⟨keyField key, data.length, offset, true, calculateChecksum data.bytes⟩

/-- The stores of the key and the length leave the header. -/
theorem nextOffset_setLength {s : Mapping} {idx : Nat} (hidx : idx < cacheMaxEntries)
    (key : List UInt8) (length : Nat) :
    nextOffset (((s.copyKey idx key).closeKey idx).setLength idx length).mem = nextOffset s.mem := by
  show (directory _).next = _
  rw [Mapping.setLength_directory hidx, Mapping.copyKey_directory hidx]
  rfl

theorem writeSlot_directory {s : Mapping} {idx : Nat} (hidx : idx < cacheMaxEntries)
    (key : List UInt8) (data : Blob) :
    directory (writeSlot s idx key data).mem =
      (directory s.mem).setSlot idx (storedSlot key data (nextOffset s.mem)) := by
  have hnext := nextOffset_setLength (s := s) hidx key data.length
  have hlen : data.length % 2 ^ 32 = data.length := Nat.mod_eq_of_lt data.fits
  have hoff : nextOffset s.mem % 2 ^ 32 = nextOffset s.mem := Nat.mod_eq_of_lt (readWord_lt _ _)
  have hsum : calculateChecksum data.bytes % 2 ^ 32 = calculateChecksum data.bytes :=
    Nat.mod_eq_of_lt (calculateChecksum_lt _)
  unfold writeSlot
  simp only
  rw [Mapping.setChecksum_directory hidx, Mapping.setIsUsed_directory hidx,
    Mapping.setOffset_directory hidx, Mapping.setLength_directory hidx,
    Mapping.copyKey_directory hidx, hnext, hlen, hoff, hsum]
  simp only [Directory.modify_modify]
  rfl

theorem writeSlot_data {s : Mapping} {idx : Nat} (hidx : idx < cacheMaxEntries)
    (key : List UInt8) (data : Blob) {x : Nat} (hx : dataStart ≤ x) :
    (writeSlot s idx key data).mem x = s.mem x := by
  unfold writeSlot
  simp only
  rw [Mapping.setChecksum_data hidx hx, Mapping.setIsUsed_data hidx hx,
    Mapping.setOffset_data hidx hx, Mapping.setLength_data hidx hx, Mapping.copyKey_data hidx hx]

/-- `writeEntry` is `writeSlot`, the copy of the data to the new offset, and the advance of
`next_offset`. -/
theorem writeEntry_eq {s : Mapping} {idx : Nat} (hidx : idx < cacheMaxEntries)
    (key : List UInt8) (data : Blob) (hlo : dataStart ≤ nextOffset s.mem)
    (hhi : nextOffset s.mem + data.length < 2 ^ 32) :
    writeEntry s idx key data =
      ((((writeSlot s idx key data).memcpy (nextOffset s.mem) data.bytes).emit
        (.add32 (nextOffset s.mem) data.length)).setNextOffset
          (nextOffset s.mem + data.length)) := by
  have hd := writeSlot_directory (s := s) hidx key data
  have hoff : entryOffset (writeSlot s idx key data).mem idx = nextOffset s.mem := by
    rw [entryOffset_eq hidx, hd, Directory.setSlot_slot_self]
    rfl
  have hptr : dataPtr (nextOffset s.mem) = nextOffset s.mem := dataPtr_eq (readWord_lt _ _)
  have hnext : nextOffset ((writeSlot s idx key data).memcpy (nextOffset s.mem) data.bytes).mem =
      nextOffset s.mem := by
    show (directory _).next = _
    rw [Mapping.memcpy_mem, directory_blit_data hlo, hd]
    rfl
  unfold writeEntry
  simp only [hoff, hptr, Mapping.emit_add32_mem, hnext, add32_eq hhi]

/-- **`writeEntry`, directory and data.** The slot gets the key, the length, the old `next_offset`
and the checksum; the data lands at the old `next_offset`, which then moves past it. -/
theorem writeEntry_spec {s : Mapping} {idx : Nat} (hidx : idx < cacheMaxEntries)
    (key : List UInt8) (data : Blob) (hlo : dataStart ≤ nextOffset s.mem)
    (hhi : nextOffset s.mem + data.length < 2 ^ 32) :
    directory (writeEntry s idx key data).mem =
        { (directory s.mem).setSlot idx (storedSlot key data (nextOffset s.mem)) with
          next := nextOffset s.mem + data.length } ∧
      ∀ x, dataStart ≤ x → (writeEntry s idx key data).mem x =
        blit s.mem (nextOffset s.mem) data.length (content data.bytes) x := by
  rw [writeEntry_eq hidx key data hlo hhi]
  refine ⟨?_, ?_⟩
  · rw [Mapping.setNextOffset_directory, Mapping.emit_add32_mem, Mapping.memcpy_mem,
      directory_blit_data hlo, writeSlot_directory hidx, Nat.mod_eq_of_lt hhi]
  · intro x hx
    rw [Mapping.setNextOffset_data _ _ hx, Mapping.emit_add32_mem, Mapping.memcpy_mem]
    by_cases h : nextOffset s.mem ≤ x ∧ x < nextOffset s.mem + data.length
    · rw [blit_in h.1 h.2, blit_in h.1 h.2]
    · have hout : x < nextOffset s.mem ∨ nextOffset s.mem + data.length ≤ x := by omega
      rw [blit_out hout, blit_out hout, writeSlot_data hidx key data hx]

theorem clearSlot_directory {s : Mapping} {idx : Nat} (hidx : idx < cacheMaxEntries) :
    directory (clearSlot s idx).mem = (directory s.mem).setSlot idx .empty := by
  unfold clearSlot
  simp only
  rw [Mapping.setChecksum_directory hidx, Mapping.setOffset_directory hidx,
    Mapping.setLength_directory hidx, Mapping.clearKey_directory hidx,
    Mapping.setIsUsed_directory hidx]
  simp only [Directory.modify_modify]
  rfl

theorem clearSlot_data {s : Mapping} {idx : Nat} (hidx : idx < cacheMaxEntries) {x : Nat}
    (hx : dataStart ≤ x) : (clearSlot s idx).mem x = s.mem x := by
  unfold clearSlot
  simp only
  rw [Mapping.setChecksum_data hidx hx, Mapping.setOffset_data hidx hx,
    Mapping.setLength_data hidx hx, Mapping.clearKey_data hidx hx, Mapping.setIsUsed_data hidx hx]

/-- `clearEntry` is `clearSlot` and the count one lower. -/
theorem clearEntry_eq {s : Mapping} {idx : Nat} (hidx : idx < cacheMaxEntries)
    (hcount : 0 < entryCount s.mem) :
    clearEntry s idx = (((clearSlot s idx).emit (.sub32 (entryCount s.mem) 1)).setEntryCount
      (entryCount s.mem - 1)) := by
  have hlt : entryCount s.mem < 2 ^ 32 := readWord_lt _ _
  have hc : entryCount (clearSlot s idx).mem = entryCount s.mem := by
    show (directory _).count = _
    rw [clearSlot_directory hidx]
    rfl
  unfold clearEntry
  simp only [Mapping.emit_sub32_mem, hc, sub32_eq hlt hcount]

/-- **`clearEntry`.** The slot becomes the empty slot and the count goes down by one. -/
theorem clearEntry_spec {s : Mapping} {idx : Nat} (hidx : idx < cacheMaxEntries)
    (hcount : 0 < entryCount s.mem) :
    directory (clearEntry s idx).mem =
        { (directory s.mem).setSlot idx .empty with count := entryCount s.mem - 1 } ∧
      ∀ x, dataStart ≤ x → (clearEntry s idx).mem x = s.mem x := by
  have hlt : entryCount s.mem < 2 ^ 32 := readWord_lt _ _
  rw [clearEntry_eq hidx hcount]
  refine ⟨?_, ?_⟩
  · rw [Mapping.setEntryCount_directory, Mapping.emit_sub32_mem, clearSlot_directory hidx,
      Nat.mod_eq_of_lt (by omega)]
  · intro x hx
    rw [Mapping.setEntryCount_data _ _ hx, Mapping.emit_sub32_mem, clearSlot_data hidx hx]

/-- The directory of a fresh cache. -/
def Directory.fresh : Directory := ⟨cacheMagic, cacheVersion, 0, dataStart, fun _ => .empty⟩

/-- A zeroed table decodes to empty slots. -/
theorem slotAt_zeroed {m : Mem} {j : Nat} :
    slotAt (blit m 32 (sizeofCacheEntryHeader * cacheMaxEntries) fun _ => 0) j = .empty := by
  by_cases hj : j < cacheMaxEntries
  · have hb := entryAddr_bounds hj
    have hd : dataStart = 32 + sizeofCacheEntryHeader * cacheMaxEntries := rfl
    have hzero : ∀ a n, entryAddr j ≤ a → a + n ≤ entryAddr j + 528 →
        read (blit m 32 (sizeofCacheEntryHeader * cacheMaxEntries) fun _ => 0) a n =
          List.replicate n 0 := by
      intro a n ha hn
      rw [← read_blit_const m a n 0]
      exact read_congr fun i hi => by rw [blit_in (by omega) (by omega), blit_in (by omega) (by omega)]
    have hword : ofLE (List.replicate 4 0) = 0 := by decide
    rw [slotAt_lt hj]
    unfold entryKey entryLength entryOffset entryIsUsed entryChecksum readWord
    rw [hzero _ _ (by omega) (by simp only [sizeofKey]; omega), hzero _ _ (by omega) (by omega),
      hzero _ _ (by omega) (by omega), hzero _ _ (by omega) (by omega), hword,
      blit_in (by omega) (by omega)]
    rfl
  · simp [slotAt, hj]

/-- **`InitializeCache`.** Whatever the file held, its directory is now that of a fresh cache; the
data area is left as it was. -/
theorem initializeCache_spec (s : Mapping) :
    directory (initializeCache s).mem = .fresh ∧
      ∀ x, dataStart ≤ x → (initializeCache s).mem x = s.mem x := by
  unfold initializeCache
  simp only
  generalize hr : (((s.setMagicNumber cacheMagic).setVersion cacheVersion).setEntryCount
    0).setNextOffset dataStart = r
  have hd : dataStart = 32 + sizeofCacheEntryHeader * cacheMaxEntries := rfl
  rw [Mapping.memset_mem, show sizeofCacheHeader = 32 from rfl]
  have hhead : ∀ a, a + 4 ≤ 32 → readWord (blit r.mem 32
      (sizeofCacheEntryHeader * cacheMaxEntries) fun _ => 0) a = readWord r.mem a :=
    fun a ha => readWord_blit_disjoint (Or.inl ha)
  have hdir : directory r.mem = ⟨cacheMagic % 2 ^ 32, cacheVersion % 2 ^ 32, 0 % 2 ^ 32,
      dataStart % 2 ^ 32, slotAt s.mem⟩ := by
    rw [← hr, Mapping.setNextOffset_directory, Mapping.setEntryCount_directory,
      Mapping.setVersion_directory, Mapping.setMagicNumber_directory]
    rfl
  refine ⟨Directory.ext ?_ ?_ ?_ ?_ ?_, ?_⟩
  · exact (hhead 0 (by omega)).trans (congrArg Directory.magic hdir)
  · exact (hhead 4 (by omega)).trans (congrArg Directory.version hdir)
  · exact (hhead 8 (by omega)).trans (congrArg Directory.count hdir)
  · exact (hhead 12 (by omega)).trans (congrArg Directory.next hdir)
  · funext j
    exact slotAt_zeroed
  · intro x hx
    rw [blit_out (by omega), ← hr, Mapping.setNextOffset_data _ _ hx,
      Mapping.setEntryCount_data _ _ hx, Mapping.setVersion, Mapping.setWord_mem,
      Mapping.setMagicNumber, Mapping.setWord_mem, blit_out (by omega), blit_out (by omega)]

end CCache.Cache
