/-
# CCache.Cache.Accesses — the byte ranges that the operations reach through offsets from the file.

`Get` runs the checksum over the extent of the slot it found, `CompactCache` moves extents, and `Put`
copies its data to the offset it has just stored in a slot.  The addresses and lengths come from the
header and the slots; nothing compares them with the file.  `Op.accesses` lists the ranges of one
operation in program order; the moves and the copy are those of the operation's trace.
-/
import CCache.Cache.Layout
import CCache.Cache.Lookup

namespace CCache.Cache

open CCache.Lib.ByteMemory
open CCache.Lib.Runs

/-! ## Ranges -/

/-- One range of bytes read or written through a computed pointer. -/
inductive Access where
  /-- `CalculateChecksum` in `Get` reads. -/
  | checksum (src n : Nat)
  /-- The `memcpy` of `Put` writes. -/
  | memcpy (dst n : Nat)
  /-- A `memmove` of `CompactCache` reads and writes. -/
  | memmove (dst src n : Nat)
deriving DecidableEq, Repr

/-- Every byte of the range is a byte of the file. -/
def InFile (a n : Nat) : Prop := 0 < n → a + n ≤ cacheFileSize

/-- Every byte of the range is a byte of the data area. -/
def InData (a n : Nat) : Prop := 0 < n → dataStart ≤ a ∧ a + n ≤ cacheFileSize

/-- What is read lies in the file, and what is written behind the header and the slot table. -/
def Access.Safe : Access → Prop
  | .checksum src n => InFile src n
  | .memcpy dst n => InData dst n
  | .memmove dst src n => InData dst n ∧ InFile src n

/-- The ranges of a `memmove`. -/
def Event.memmove : Event → Option Access
  | .move dst src n _ => some (.memmove dst src n)
  | _ => none

/-- The `memmove` calls of a trace, oldest first. -/
def Mapping.memmoves (s : Mapping) : List Access := s.log.filterMap Event.memmove

/-- The `memcpy` of `Put` once `ensureSpace` has answered: to the offset that the slot holds by then. -/
def copyAccess (r : Bool × Mapping) (key : List UInt8) (data : Blob) : List Access :=
  if r.1 then
    ((chooseEntry r.2 key).map fun p =>
      Access.memcpy (dataPtr (entryOffset (writeSlot p.2 p.1 key data).mem p.1)) data.length).toList
  else []

/-- The ranges of one operation. -/
def Op.accesses (m : Mem) : Op → List Access
  | .put key (some data) =>
    if data.length = 0 then []
    else
      let r := ensureSpace (.start m) data.length
      r.2.memmoves ++ copyAccess r key data
  | .get key =>
    ((findEntry m key).map fun idx =>
      Access.checksum (dataPtr (entryOffset m idx)) (entryLength m idx)).toList
  | _ => []

/-! ## They are those of the trace -/

namespace Mapping

@[simp] theorem memmoves_start (m : Mem) : (start m).memmoves = [] := rfl

@[simp] theorem memmoves_emit (s : Mapping) (e : Event) :
    (s.emit e).memmoves = s.memmoves ++ e.memmove.toList := by
  rw [memmoves, memmoves, emit, List.filterMap_append]
  cases h : e.memmove with
  | none => simp [h]
  | some a => simp [h]

@[simp] theorem memmoves_emit_sub32 (s : Mapping) (a b : Nat) :
    (s.emit (.sub32 a b)).memmoves = s.memmoves := by
  simp [Event.memmove]

@[simp] theorem memmoves_setWord (s : Mapping) (a v : Nat) : (s.setWord a v).memmoves = s.memmoves := by
  simp [setWord, Event.memmove]

@[simp] theorem memmoves_setByte (s : Mapping) (a : Nat) (b : UInt8) :
    (s.setByte a b).memmoves = s.memmoves := by
  simp [setByte, Event.memmove]

@[simp] theorem memmoves_memset (s : Mapping) (a : Nat) (b : UInt8) (n : Nat) :
    (s.memset a b n).memmoves = s.memmoves := by
  simp [memset, Event.memmove]

@[simp] theorem memmoves_memcpy (s : Mapping) (a : Nat) (bs : List UInt8) :
    (s.memcpy a bs).memmoves = s.memmoves := by
  simp [memcpy, Event.memmove]

end Mapping

theorem memmoves_writeEntry (s : Mapping) (idx : Nat) (key : List UInt8) (data : Blob) :
    (writeEntry s idx key data).memmoves = s.memmoves := by
  simp [writeEntry, writeSlot, Mapping.setNextOffset, Mapping.setChecksum, Mapping.setIsUsed,
    Mapping.setOffset, Mapping.setLength, Mapping.closeKey, Mapping.copyKey, Event.memmove]

theorem memmoves_countEntry (s : Mapping) : (countEntry s).memmoves = s.memmoves := by
  simp [countEntry, Mapping.setEntryCount, Event.memmove]

theorem memmoves_chooseEntry {s t : Mapping} {key : List UInt8} {idx : Nat}
    (h : chooseEntry s key = some (idx, t)) : t.memmoves = s.memmoves := by
  unfold chooseEntry at h
  cases hfind : findEntry s.mem key with
  | some j =>
    rw [hfind] at h
    cases h
    rfl
  | none =>
    rw [hfind] at h
    cases hfree : findFreeEntry s.mem with
    | none =>
      rw [hfree] at h
      cases h
    | some j =>
      rw [hfree] at h
      cases h
      exact memmoves_countEntry s

theorem memmoves_clearEntry (s : Mapping) (idx : Nat) : (clearEntry s idx).memmoves = s.memmoves := by
  simp [clearEntry, clearSlot, Mapping.setEntryCount, Mapping.setChecksum, Mapping.setIsUsed,
    Mapping.setOffset, Mapping.setLength, Event.memmove]

theorem memmoves_initializeCache (s : Mapping) : (initializeCache s).memmoves = s.memmoves := by
  simp [initializeCache, Mapping.setMagicNumber, Mapping.setVersion, Mapping.setEntryCount,
    Mapping.setNextOffset]

theorem memmove_not_mem_copyAccess {r : Bool × Mapping} {key : List UInt8} {data : Blob}
    {dst src n : Nat} : Access.memmove dst src n ∉ copyAccess r key data := by
  unfold copyAccess
  split
  · cases chooseEntry r.2 key <;> simp
  · simp

/-- A `Put` moves what its `ensureSpace` moves. -/
theorem memmoves_put (m : Mem) (key : List UInt8) {data : Blob} (hlen : data.length ≠ 0) :
    (put (.start m) key (some data)).2.memmoves = (ensureSpace (.start m) data.length).2.memmoves := by
  unfold put
  simp only [if_neg hlen]
  generalize ensureSpace (.start m) data.length = r
  obtain ⟨ok, s⟩ := r
  cases ok with
  | false => simp only
  | true =>
    unfold putEntry
    cases hc : chooseEntry s key with
    | none => simp only [hc]
    | some p =>
      simp only [hc]
      rw [memmoves_writeEntry, memmoves_chooseEntry hc]

/-- **The moves are those of the trace.** -/
theorem memmove_mem_accesses {op : Op} {m : Mem} {dst src n : Nat} :
    Access.memmove dst src n ∈ op.accesses m ↔ Access.memmove dst src n ∈ (op.exec m).memmoves := by
  cases op with
  | put key data =>
    cases data with
    | none => simp [Op.accesses, Op.exec, put]
    | some data =>
      by_cases hlen : data.length = 0
      · simp [Op.accesses, Op.exec, put, hlen]
      · simp only [Op.accesses, if_neg hlen, Op.exec, memmoves_put m key hlen, List.mem_append,
          memmove_not_mem_copyAccess, or_false]
  | get key =>
    simp only [Op.accesses, Op.exec, Mapping.memmoves_start]
    cases findEntry m key <;> simp
  | remove key =>
    simp only [Op.accesses, Op.exec]
    unfold remove
    cases hfind : findEntry (Mapping.start m).mem key with
    | none => simp
    | some idx => simp [memmoves_clearEntry]
  | clear => simp [Op.accesses, Op.exec, clear, memmoves_initializeCache]
  | restart =>
    simp only [Op.accesses, Op.exec, initMmap]
    split
    · simp
    · simp [memmoves_initializeCache]

/-- The copy of the data is an event of `writeEntry`. -/
theorem writeEntry_logs (s : Mapping) (idx : Nat) (key : List UInt8) (data : Blob) :
    Event.bulk (dataPtr (entryOffset (writeSlot s idx key data).mem idx)) data.length
      (content data.bytes) ∈ (writeEntry s idx key data).log := by
  simp [writeEntry, Mapping.memcpy, Mapping.emit, Mapping.setNextOffset, Mapping.setWord, Blob.length]

theorem memcpy_mem_copyAccess {r : Bool × Mapping} {key : List UInt8} {data : Blob} {dst n : Nat} :
    Access.memcpy dst n ∈ copyAccess r key data ↔ r.1 = true ∧ ∃ idx t,
      chooseEntry r.2 key = some (idx, t) ∧
        dst = dataPtr (entryOffset (writeSlot t idx key data).mem idx) ∧ n = data.length := by
  unfold copyAccess
  cases r.1 with
  | false => simp
  | true =>
    cases chooseEntry r.2 key with
    | none => simp
    | some p =>
      obtain ⟨idx, t⟩ := p
      simp

/-- **The copy is that of the trace.** -/
theorem memcpy_logged {m : Mem} {key : List UInt8} {data : Blob} {dst n : Nat}
    (h : Access.memcpy dst n ∈ (Op.put key (some data)).accesses m) :
    Event.bulk dst n (content data.bytes) ∈ ((Op.put key (some data)).exec m).log := by
  simp only [Op.accesses] at h
  split at h
  · cases h
  · rename_i hlen
    simp only [Op.exec]
    unfold put
    simp only [if_neg hlen]
    generalize ensureSpace (.start m) data.length = r at h
    rcases List.mem_append.mp h with hmove | hcopy
    · obtain ⟨e, -, he⟩ := List.mem_filterMap.mp hmove
      cases e <;> cases he
    · obtain ⟨hok, idx, t, hchoose, hdst, hn⟩ := memcpy_mem_copyAccess.mp hcopy
      obtain ⟨ok, s⟩ := r
      cases hok
      unfold putEntry
      simp only [hchoose, hdst, hn]
      exact writeEntry_logs t idx key data

/-- **The checksum is that of `Get`**: it is run over the range before the answer is known. -/
theorem get_of_found {m : Mem} {key : List UInt8} {idx : Nat} (hfind : findEntry m key = some idx) :
    (Op.get key).accesses m = [.checksum (dataPtr (entryOffset m idx)) (entryLength m idx)] ∧
      get m key =
        if calculateChecksum (read m (dataPtr (entryOffset m idx)) (entryLength m idx)) =
            entryChecksum m idx then
          some ⟨dataPtr (entryOffset m idx), entryLength m idx⟩
        else none := by
  obtain ⟨hidx, hholds, -⟩ := findEntry_eq_some.mp hfind
  have hused : entryIsUsed m idx = true := by
    rw [entryIsUsed_eq hidx]
    exact hholds.1
  refine ⟨?_, ?_⟩
  · simp only [Op.accesses, hfind, Option.map_some, Option.toList_some]
  · unfold get
    simp only [hfind, hused, Bool.not_true, ite_not]
    exact if_neg Bool.false_ne_true

theorem accesses_get_of_absent {m : Mem} {key : List UInt8} (hfind : findEntry m key = none) :
    (Op.get key).accesses m = [] := by
  simp only [Op.accesses, hfind, Option.map_none, Option.toList_none]

/-! ## The table after the stages of an operation -/

/-- The header counts one entry more, modulo `2^32`; `next_offset` and the slots stay. -/
theorem countEntry_table (s : Mapping) : (directory (countEntry s).mem).next = (directory s.mem).next ∧
    (directory (countEntry s).mem).slot = (directory s.mem).slot := by
  unfold countEntry
  rw [Mapping.setEntryCount_directory, Mapping.emit_add32_mem]
  exact ⟨rfl, rfl⟩

/-- The slot that `Put` chooses is writable, and the table stays as it is. -/
theorem chooseEntry_table {s t : Mapping} {key : List UInt8} {idx : Nat}
    (hc : chooseEntry s key = some (idx, t)) :
    idx < cacheMaxEntries ∧ (directory s.mem).Writable idx ∧
      (directory t.mem).next = (directory s.mem).next ∧
      (directory t.mem).slot = (directory s.mem).slot := by
  unfold chooseEntry at hc
  cases hfind : findEntry s.mem key with
  | some j =>
    rw [hfind] at hc
    cases hc
    obtain ⟨hidx, hholds, hfirst⟩ := findEntry_eq_some.mp hfind
    refine ⟨hidx, fun _ i hi hu hname => hfirst i hi ⟨hu, ?_⟩, rfl, rfl⟩
    rw [hname]
    exact hholds.2
  | none =>
    rw [hfind] at hc
    cases hfree : findFreeEntry s.mem with
    | none =>
      rw [hfree] at hc
      cases hc
    | some j =>
      rw [hfree] at hc
      cases hc
      obtain ⟨hidx, hunused, -⟩ := findFreeEntry_eq_some.mp hfree
      refine ⟨hidx, fun hu => ?_, countEntry_table s⟩
      rw [hunused] at hu
      exact absurd hu Bool.false_ne_true

/-- After the slot is emptied nothing else of the table has changed. -/
theorem clearEntry_table {s : Mapping} {idx : Nat} (hidx : idx < cacheMaxEntries) :
    (directory (clearEntry s idx).mem).next = (directory s.mem).next ∧
      (directory (clearEntry s idx).mem).slot idx = .empty ∧
      ∀ j, j ≠ idx → (directory (clearEntry s idx).mem).slot j = (directory s.mem).slot j := by
  unfold clearEntry
  simp only
  rw [Mapping.setEntryCount_directory, Mapping.emit_sub32_mem, clearSlot_directory hidx]
  generalize sub32 (entryCount (clearSlot s idx).mem) 1 % 2 ^ 32 = count
  refine ⟨rfl, ?_, fun j hj => ?_⟩
  · exact if_pos rfl
  · exact if_neg hj

/-- The data goes to `next_offset`, which the slot holds by then. -/
theorem entryOffset_writeSlot (s : Mapping) {idx : Nat} (hidx : idx < cacheMaxEntries)
    (key : List UInt8) (data : Blob) :
    dataPtr (entryOffset (writeSlot s idx key data).mem idx) = (directory s.mem).next := by
  have hoffset : entryOffset (writeSlot s idx key data).mem idx = nextOffset s.mem := by
    rw [entryOffset_eq hidx, writeSlot_directory hidx, Directory.setSlot_slot_self]
    rfl
  rw [hoffset]
  exact dataPtr_eq (readWord_lt _ _)

end CCache.Cache
