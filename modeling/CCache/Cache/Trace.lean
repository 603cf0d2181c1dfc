/-
# CCache.Cache.Trace — when the recorded events of an operation are within bounds.

`Event.Safe` asks of a store or copy that its range lies in the file, of a `memmove` that both ranges
lie in the data area, and of a `uint32_t` addition or subtraction that it does not wrap.  An operation
that starts from an empty log is safe when every event it records is.
-/
import CCache.Cache.Directory

namespace CCache.Cache

open CCache.Lib.ByteMemory
open CCache.Lib.CString

/-- The event stays inside the file, or its arithmetic does not wrap. -/
def Event.Safe : Event → Prop
  | .store addr n _ => addr + n ≤ cacheFileSize
  | .bulk addr n _ => addr + n ≤ cacheFileSize
  | .move dst src n _ =>
    (dataStart ≤ dst ∧ dst + n ≤ cacheFileSize) ∧ (dataStart ≤ src ∧ src + n ≤ cacheFileSize)
  | .add32 a b => a + b < 2 ^ 32
  | .sub32 a b => b ≤ a ∧ a < 2 ^ 32

namespace Mapping

/-- Every event recorded so far is safe. -/
def Safe (s : Mapping) : Prop := ∀ e ∈ s.log, e.Safe

theorem safe_start (m : Mem) : (start m).Safe := by
  intro e he
  simp at he

@[simp] theorem safe_emit (s : Mapping) (e : Event) : (s.emit e).Safe ↔ s.Safe ∧ e.Safe := by
  simp [Safe, emit, or_imp, forall_and]

theorem safe_setWord {s : Mapping} (h : s.Safe) (a v : Nat) (ha : a + 4 ≤ cacheFileSize) :
    (s.setWord a v).Safe := (safe_emit _ _).mpr ⟨h, ha⟩

theorem safe_setByte {s : Mapping} (h : s.Safe) (a : Nat) (b : UInt8)
    (ha : a + 1 ≤ cacheFileSize) : (s.setByte a b).Safe := (safe_emit _ _).mpr ⟨h, ha⟩

theorem safe_memset {s : Mapping} (h : s.Safe) (a n : Nat) (b : UInt8)
    (ha : a + n ≤ cacheFileSize) : (s.memset a b n).Safe := (safe_emit _ _).mpr ⟨h, ha⟩

theorem safe_memcpy {s : Mapping} (h : s.Safe) (a : Nat) (bs : List UInt8)
    (ha : a + bs.length ≤ cacheFileSize) : (s.memcpy a bs).Safe := (safe_emit _ _).mpr ⟨h, ha⟩

end Mapping

theorem dataStart_le_fileSize : dataStart ≤ cacheFileSize := by
  rw [dataStart_eq, cacheFileSize_eq]
  norm_num

theorem cacheFileSize_lt : cacheFileSize < 2 ^ 32 := by
  rw [cacheFileSize_eq]
  norm_num

/-! ## The stages of the operations -/

theorem countEntry_safe {s : Mapping} (h : s.Safe) (hlt : entryCount s.mem < cacheMaxEntries) :
    (countEntry s).Safe := by
  have hfile := dataStart_le_fileSize
  have hhead := header_le_dataStart
  refine Mapping.safe_setWord ((Mapping.safe_emit _ _).mpr ⟨h, ?_⟩) _ _ (by omega)
  show entryCount s.mem + 1 < 2 ^ 32
  rw [cacheMaxEntries_eq] at hlt
  omega

theorem writeSlot_safe {s : Mapping} (h : s.Safe) {idx : Nat} (hidx : idx < cacheMaxEntries)
    (key : List UInt8) (data : Blob) : (writeSlot s idx key data).Safe := by
  have hb := entryAddr_bounds hidx
  have hd := dataStart_le_fileSize
  have hlen : (strncpy (sizeofKey - 1) key).length = 255 := strncpy_length _ _
  have hkey := Mapping.safe_memcpy h (entryAddr idx + 256) (strncpy (sizeofKey - 1) key)
    (by rw [hlen]; omega)
  have hclose := Mapping.safe_setByte hkey (entryAddr idx + 256 + (sizeofKey - 1)) 0
    (by simp only [sizeofKey]; omega)
  have hlength := Mapping.safe_setWord hclose (entryAddr idx + 512) data.length (by omega)
  have hoffset := Mapping.safe_setWord hlength (entryAddr idx + 516)
    (nextOffset (((s.copyKey idx key).closeKey idx).setLength idx data.length).mem) (by omega)
  have hused := Mapping.safe_setByte hoffset (entryAddr idx + 520) 1 (by omega)
  exact Mapping.safe_setWord hused _ _ (by omega)

theorem writeEntry_safe {s : Mapping} (h : s.Safe) {idx : Nat} (hidx : idx < cacheMaxEntries)
    (key : List UInt8) (data : Blob) (hlo : dataStart ≤ nextOffset s.mem)
    (hfit : nextOffset s.mem + data.length ≤ cacheFileSize) : (writeEntry s idx key data).Safe := by
  have hlt := cacheFileSize_lt
  have hd := dataStart_le_fileSize
  have hhead := header_le_dataStart
  rw [writeEntry_eq hidx key data hlo (by omega)]
  refine Mapping.safe_setWord ?_ _ _ (by omega)
  refine (Mapping.safe_emit _ _).mpr ⟨?_, ?_⟩
  · exact Mapping.safe_memcpy (writeSlot_safe h hidx key data) _ _ hfit
  · show nextOffset s.mem + data.length < 2 ^ 32
    omega

theorem clearSlot_safe {s : Mapping} (h : s.Safe) {idx : Nat} (hidx : idx < cacheMaxEntries) :
    (clearSlot s idx).Safe := by
  have hb := entryAddr_bounds hidx
  have hd := dataStart_le_fileSize
  have hused := Mapping.safe_setByte h (entryAddr idx + 520) 0 (by omega)
  have hkey := Mapping.safe_memset hused (entryAddr idx + 256) sizeofKey 0
    (by simp only [sizeofKey]; omega)
  have hlength := Mapping.safe_setWord hkey (entryAddr idx + 512) 0 (by omega)
  have hoffset := Mapping.safe_setWord hlength (entryAddr idx + 516) 0 (by omega)
  exact Mapping.safe_setWord hoffset _ _ (by omega)

theorem clearEntry_safe {s : Mapping} (h : s.Safe) {idx : Nat} (hidx : idx < cacheMaxEntries)
    (hcount : 0 < entryCount s.mem) : (clearEntry s idx).Safe := by
  have hd := dataStart_le_fileSize
  have hhead := header_le_dataStart
  have hlt : entryCount s.mem < 2 ^ 32 := readWord_lt _ _
  rw [clearEntry_eq hidx hcount]
  refine Mapping.safe_setWord ?_ _ _ (by omega)
  exact (Mapping.safe_emit _ _).mpr ⟨clearSlot_safe h hidx, hcount, hlt⟩

theorem initializeCache_safe {s : Mapping} (h : s.Safe) : (initializeCache s).Safe := by
  have hd := dataStart_le_fileSize
  have hhead := header_le_dataStart
  have hmagic := Mapping.safe_setWord h 0 cacheMagic (by omega)
  have hversion := Mapping.safe_setWord hmagic 4 cacheVersion (by omega)
  have hcount := Mapping.safe_setWord hversion 8 0 (by omega)
  have hnext := Mapping.safe_setWord hcount 12 dataStart (by omega)
  exact Mapping.safe_memset hnext _ _ 0 hd

end CCache.Cache
