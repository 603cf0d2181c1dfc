/-
# CCache.Cache.SharedCache — the memory-mapped cache file and the operations on it.

The file `/tmp/v8_code_cache` is a `CacheHeader`, a table of 1024 `CacheEntryHeader`s and a data
area.  Here it is the byte memory it is mapped to, at addresses relative to `mmap_base_`; every field
is read from and stored to its own bytes (x86-64 layout, little-endian), `uint32_t` values are `Nat`s
below `2^32` with explicit wrap-around, and `size_t` pointer arithmetic wraps at `2^64`.

A `Mapping` also records what the code does, in program order: each assignment to a field, each bulk
copy into the mapping, each `memmove`, and the operands of each `uint32_t` addition and subtraction.
The operations are the parts under `mutex_` on a cache that `EnsureInitialized` has mapped; `msync`
changes no byte and `fprintf` is left out.
-/
import CCache.Lib.ByteMemory
import CCache.Lib.CString
import CCache.Lib.Runs

namespace CCache.Cache

open CCache.Lib.ByteMemory
open CCache.Lib.CString
open CCache.Lib.Runs

/-! ## Constants and layout -/

/-- `CACHE_FILE_SIZE`. -/
def cacheFileSize : Nat := 1024 * 1024 * 100

/-- `CACHE_MAX_ENTRIES`. -/
def cacheMaxEntries : Nat := 1024

/-- `CACHE_MAGIC`. -/
def cacheMagic : Nat := 0xC4C4E001

/-- `CACHE_VERSION`. -/
def cacheVersion : Nat := 1

/-- `sizeof(CacheHeader)`: four words and 16 bytes of padding. -/
def sizeofCacheHeader : Nat := 32

/-- `sizeof(CacheEntryHeader)`: `function_name` at 0, `key` at 256, `length` at 512, `offset` at 516,
`is_used` at 520 (three bytes of padding), `checksum` at 524. -/
def sizeofCacheEntryHeader : Nat := 528

/-- `sizeof(entry->key)`. -/
def sizeofKey : Nat := 256

/-- `sizeof(CacheHeader) + sizeof(CacheEntryHeader) * CACHE_MAX_ENTRIES`: where the data area
(`GetDataArea`) begins. -/
def dataStart : Nat := sizeofCacheHeader + sizeofCacheEntryHeader * cacheMaxEntries

/-- The address of `GetEntries()[i]`. -/
def entryAddr (i : Nat) : Nat := sizeofCacheHeader + sizeofCacheEntryHeader * i

/-! ## Machine arithmetic -/

/-- `uint32_t` addition. -/
def add32 (a b : Nat) : Nat := (a + b) % 2 ^ 32

/-- `uint32_t` subtraction. -/
def sub32 (a b : Nat) : Nat := (a + 2 ^ 32 - b) % 2 ^ 32

/-- `GetDataArea() + (offset - (sizeof(CacheHeader) + …))`: the subtraction is in `size_t` and the
sum is a pointer, both modulo `2^64`. -/
def dataPtr (offset : Nat) : Nat := (dataStart + (offset + 2 ^ 64 - dataStart) % 2 ^ 64) % 2 ^ 64

/-! ## The mapping and its trace -/

/-- What one instruction of the cache does to the mapping or computes in `uint32_t`. -/
inductive Event where
  /-- One assignment to a field of `n` bytes. -/
  | store (addr n : Nat) (f : Nat → UInt8)
  /-- `memset`, `strncpy` or `memcpy` into the mapping, byte by byte. -/
  | bulk (addr n : Nat) (f : Nat → UInt8)
  /-- `memmove` inside the mapping; `f` is the source as it was at the call. -/
  | move (dst src n : Nat) (f : Nat → UInt8)
  | add32 (a b : Nat)
  | sub32 (a b : Nat)

/-- The effect of an event on the mapped bytes. -/
def Event.apply (m : Mem) : Event → Mem
  | .store addr n f => blit m addr n f
  | .bulk addr n f => blit m addr n f
  | .move dst _ n f => blit m dst n f
  | .add32 _ _ => m
  | .sub32 _ _ => m

/-- The mapped bytes and the events so far, oldest first. -/
structure Mapping where
  mem : Mem
  log : List Event

namespace Mapping

/-- A mapping at the start of an operation. -/
def start (m : Mem) : Mapping := ⟨m, []⟩

def emit (s : Mapping) (e : Event) : Mapping := ⟨e.apply s.mem, s.log ++ [e]⟩

/-- Assign a `uint32_t` field. -/
def setWord (s : Mapping) (addr v : Nat) : Mapping :=
  s.emit (.store addr 4 (content (toLE 4 v)))

/-- Assign a one-byte field. -/
def setByte (s : Mapping) (addr : Nat) (b : UInt8) : Mapping := s.emit (.store addr 1 fun _ => b)

def memset (s : Mapping) (addr : Nat) (b : UInt8) (n : Nat) : Mapping := s.emit (.bulk addr n fun _ => b)

/-- `memcpy` or `strncpy` of the given bytes into the mapping. -/
def memcpy (s : Mapping) (addr : Nat) (bs : List UInt8) : Mapping :=
  s.emit (.bulk addr bs.length (content bs))

def memmove (s : Mapping) (dst src n : Nat) : Mapping :=
  s.emit (.move dst src n fun i => s.mem (src + i))

end Mapping

/-! ## Fields -/

def magicNumber (m : Mem) : Nat := readWord m 0
def version (m : Mem) : Nat := readWord m 4
def entryCount (m : Mem) : Nat := readWord m 8
def nextOffset (m : Mem) : Nat := readWord m 12

/-- `entries[i].key`, all 256 bytes. -/
def entryKey (m : Mem) (i : Nat) : List UInt8 := read m (entryAddr i + 256) sizeofKey
def entryLength (m : Mem) (i : Nat) : Nat := readWord m (entryAddr i + 512)
def entryOffset (m : Mem) (i : Nat) : Nat := readWord m (entryAddr i + 516)
def entryIsUsed (m : Mem) (i : Nat) : Bool := m (entryAddr i + 520) != 0
def entryChecksum (m : Mem) (i : Nat) : Nat := readWord m (entryAddr i + 524)

namespace Mapping

def setMagicNumber (s : Mapping) (v : Nat) : Mapping := s.setWord 0 v
def setVersion (s : Mapping) (v : Nat) : Mapping := s.setWord 4 v
def setEntryCount (s : Mapping) (v : Nat) : Mapping := s.setWord 8 v
def setNextOffset (s : Mapping) (v : Nat) : Mapping := s.setWord 12 v

def setLength (s : Mapping) (i v : Nat) : Mapping := s.setWord (entryAddr i + 512) v
def setOffset (s : Mapping) (i v : Nat) : Mapping := s.setWord (entryAddr i + 516) v
def setIsUsed (s : Mapping) (i : Nat) (b : Bool) : Mapping :=
  s.setByte (entryAddr i + 520) (if b then 1 else 0)
def setChecksum (s : Mapping) (i v : Nat) : Mapping := s.setWord (entryAddr i + 524) v

/-- `strncpy(entry->key, key.c_str(), sizeof(entry->key) - 1)`. -/
def copyKey (s : Mapping) (i : Nat) (key : List UInt8) : Mapping :=
  s.memcpy (entryAddr i + 256) (strncpy (sizeofKey - 1) key)

/-- `entry->key[sizeof(entry->key) - 1] = '\0'`. -/
def closeKey (s : Mapping) (i : Nat) : Mapping := s.setByte (entryAddr i + 256 + (sizeofKey - 1)) 0

end Mapping

/-! ## Initialisation -/

/-- `SharedCache::InitializeCache`. -/
def initializeCache (s : Mapping) : Mapping :=
  let s := s.setMagicNumber cacheMagic
  let s := s.setVersion cacheVersion
  let s := s.setEntryCount 0
  let s := s.setNextOffset dataStart
  s.memset sizeofCacheHeader 0 (sizeofCacheEntryHeader * cacheMaxEntries)

/-- What `InitMmap` checks of a file before it keeps it. -/
def accepted (m : Mem) : Bool := magicNumber m == cacheMagic && version m == cacheVersion

/-- `SharedCache::InitMmap` on a file that could be opened, sized and mapped. -/
def initMmap (s : Mapping) : Mapping := if accepted s.mem then s else initializeCache s

/-! ## Lookup -/

/-- `SharedCache::FindEntry`; `none` is the code's `-1`. -/
def findEntry (m : Mem) (key : List UInt8) : Option Nat :=
  (List.range cacheMaxEntries).find? fun i =>
    entryIsUsed m i && strncmp (sizeofKey - 1) (entryKey m i) key == 0

/-- `SharedCache::FindFreeEntry`. -/
def findFreeEntry (m : Mem) : Option Nat :=
  (List.range cacheMaxEntries).find? fun i => !entryIsUsed m i

/-- `SharedCache::CalculateChecksum` over the bytes from `data`. -/
def calculateChecksum (data : List UInt8) : Nat :=
  data.foldl (fun checksum b => add32 (add32 ((checksum <<< 5) % 2 ^ 32) checksum) b.toNat) 0

/-! ## Compaction -/

/-- The move of entry `i` to `write_offset`, when it is not already there. -/
def moveEntry (s : Mapping) (writeOffset i : Nat) : Mapping :=
  let oldOffset := entryOffset s.mem i
  let dataOffset := sub32 oldOffset dataStart
  let s := s.emit (.sub32 oldOffset dataStart)
  if writeOffset ≠ oldOffset then
    let s := s.memmove (dataPtr writeOffset) (dataStart + dataOffset) (entryLength s.mem i)
    s.setOffset i writeOffset
  else s

/-- The loop body of `CompactCache` at entry `i`, with `write_offset`. -/
def compactStep (s : Mapping) (writeOffset i : Nat) : Mapping × Nat :=
  if entryIsUsed s.mem i ∧ 0 < entryLength s.mem i then
    let s := moveEntry s writeOffset i
    (s.emit (.add32 writeOffset (entryLength s.mem i)), add32 writeOffset (entryLength s.mem i))
  else (s, writeOffset)

/-- The loop of `CompactCache` after its first `i` entries. -/
def compactLoop (s : Mapping) : Nat → Mapping × Nat
  | 0 => (s, dataStart)
  | i + 1 => compactStep (compactLoop s i).1 (compactLoop s i).2 i

/-- `SharedCache::CompactCache`; it always returns true. -/
def compactCache (s : Mapping) : Mapping :=
  (compactLoop s cacheMaxEntries).1.setNextOffset (compactLoop s cacheMaxEntries).2

/-! ## Put -/

/-- The bytes a caller hands to `Put` behind a non-null pointer: their number is the `uint32_t`
argument `length`. -/
structure Blob where
  bytes : List UInt8
  fits : bytes.length < 2 ^ 32

abbrev Blob.length (b : Blob) : Nat := b.bytes.length

/-- `CACHE_FILE_SIZE - header->next_offset`. -/
def availableSpace (m : Mem) : Nat := sub32 cacheFileSize (nextOffset m)

/-- The space check of `Put`, with the compaction it may run. -/
def ensureSpace (s : Mapping) (length : Nat) : Bool × Mapping :=
  let s := s.emit (.sub32 cacheFileSize (nextOffset s.mem))
  if length > availableSpace s.mem then
    let s := compactCache s
    let s := s.emit (.sub32 cacheFileSize (nextOffset s.mem))
    if length > availableSpace s.mem then (false, s) else (true, s)
  else (true, s)

/-- `header->entry_count++`. -/
def countEntry (s : Mapping) : Mapping :=
  (s.emit (.add32 (entryCount s.mem) 1)).setEntryCount (add32 (entryCount s.mem) 1)

/-- The slot `Put` writes to: the key's own, or a free one, which `entry_count++` then counts. -/
def chooseEntry (s : Mapping) (key : List UInt8) : Option (Nat × Mapping) :=
  match findEntry s.mem key with
  | some idx => some (idx, s)
  | none =>
    match findFreeEntry s.mem with
    | none => none
    | some idx => some (idx, countEntry s)

/-- The stores of `Put` to its slot, in order: key, length, offset, flag, checksum. -/
def writeSlot (s : Mapping) (idx : Nat) (key : List UInt8) (data : Blob) : Mapping :=
  let s := s.copyKey idx key
  let s := s.closeKey idx
  let s := s.setLength idx data.length
  let s := s.setOffset idx (nextOffset s.mem)
  let s := s.setIsUsed idx true
  s.setChecksum idx (calculateChecksum data.bytes)

/-- The stores of `Put` to its slot, the data area and `next_offset`. -/
def writeEntry (s : Mapping) (idx : Nat) (key : List UInt8) (data : Blob) : Mapping :=
  let s := writeSlot s idx key data
  let s := s.memcpy (dataPtr (entryOffset s.mem idx)) data.bytes
  let s := s.emit (.add32 (nextOffset s.mem) data.length)
  s.setNextOffset (add32 (nextOffset s.mem) data.length)

/-- `Put` once there is room. -/
def putEntry (s : Mapping) (key : List UInt8) (data : Blob) : Bool × Mapping :=
  match chooseEntry s key with
  | none => (false, s)
  | some (idx, s) => (true, writeEntry s idx key data)

/-- `SharedCache::Put`; `none` is a null `data`. -/
def put (s : Mapping) (key : List UInt8) (data : Option Blob) : Bool × Mapping :=
  match data with
  | none => (false, s)
  | some data =>
    if data.length = 0 then (false, s)
    else
      match ensureSpace s data.length with
      | (false, s) => (false, s)
      | (true, s) => putEntry s key data

/-! ## Get, Remove, Clear -/

/-- What `Get` hands out: the pointer, relative to the mapping, and the length. -/
structure View where
  offset : Nat
  length : Nat
deriving DecidableEq, Repr

/-- The bytes a caller reads through a view. -/
def View.bytes (v : View) (m : Mem) : List UInt8 := read m v.offset v.length

/-- `SharedCache::Get`; `none` is the answer false. -/
def get (m : Mem) (key : List UInt8) : Option View :=
  match findEntry m key with
  | none => none
  | some idx =>
    if !entryIsUsed m idx then none
    else
      let dataPtr := dataPtr (entryOffset m idx)
      if calculateChecksum (read m dataPtr (entryLength m idx)) ≠ entryChecksum m idx then none
      else some ⟨dataPtr, entryLength m idx⟩

/-- The bytes `Get` answers with. -/
def getBytes (m : Mem) (key : List UInt8) : Option (List UInt8) := (get m key).map fun v => v.bytes m

/-- The stores of `Remove` to the slot it found, the flag first. -/
def clearSlot (s : Mapping) (idx : Nat) : Mapping :=
  let s := s.setIsUsed idx false
  let s := s.memset (entryAddr idx + 256) 0 sizeofKey
  let s := s.setLength idx 0
  let s := s.setOffset idx 0
  s.setChecksum idx 0

/-- The stores of `Remove` to the slot, and `entry_count--`. -/
def clearEntry (s : Mapping) (idx : Nat) : Mapping :=
  let s := clearSlot s idx
  let s := s.emit (.sub32 (entryCount s.mem) 1)
  s.setEntryCount (sub32 (entryCount s.mem) 1)

/-- `SharedCache::Remove`. -/
def remove (s : Mapping) (key : List UInt8) : Bool × Mapping :=
  match findEntry s.mem key with
  | none => (false, s)
  | some idx => (true, clearEntry s idx)

/-- `SharedCache::Clear`. -/
def clear (s : Mapping) : Mapping := initializeCache s

/-- `SharedCache::GetEntryCount`. -/
def getEntryCount (m : Mem) : Nat := entryCount m

/-! ## Runs of the cache -/

/-- One operation of a process on the cache, or a restart that reopens the file. -/
inductive Op where
  | put (key : List UInt8) (data : Option Blob)
  | get (key : List UInt8)
  | remove (key : List UInt8)
  | clear
  | restart

/-- What an operation returns. -/
inductive Answer where
  | done (ok : Bool)
  | found (bytes : Option (List UInt8))
  | unit
deriving DecidableEq, Repr

/-- The mapping after an operation, with the events of that operation. -/
def Op.exec (m : Mem) : Op → Mapping
  | .put key data => (Cache.put (.start m) key data).2
  | .get _ => .start m
  | .remove key => (Cache.remove (.start m) key).2
  | .clear => Cache.clear (.start m)
  | .restart => initMmap (.start m)

/-- The answer of an operation. -/
def Op.answer (m : Mem) : Op → Answer
  | .put key data => .done (Cache.put (.start m) key data).1
  | .get key => .found (getBytes m key)
  | .remove key => .done (Cache.remove (.start m) key).1
  | .clear => .unit
  | .restart => .unit

/-- One operation as a transition of the file. -/
def Step (m : Mem) (op : Op) (m' : Mem) : Prop := m' = (op.exec m).mem

/-- A run that starts where `InitMmap` found a wrong magic number or version. -/
def RunFrom (file : Mem) (ops : List Op) (m : Mem) : Prop :=
  accepted file = false ∧ Run Step (initMmap (.start file)).mem ops m

/-- The states of the file after some run from an initialised cache. -/
def Reachable (m : Mem) : Prop := ∃ file ops, RunFrom file ops m

end CCache.Cache
