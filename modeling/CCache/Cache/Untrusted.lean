/-
# CCache.Cache.Untrusted — which accepted files are safe to use.

`InitMmap` keeps a file for its magic number and its version.  `SafeToUse` asks of such a file that no
run of `Put`, `Get` and `Remove` touches a byte outside it or writes data below the data area.  Confined
tables are safe.  Conversely every clause of `Confined` guards an operation: a `Put` of one byte copies
to `next_offset`, a `Get` reads the extent of a slot, a `Put` that is too long moves every slot, and a
`Put` that fills the file leaves a table whose values the next compaction must still fit.
-/
import CCache.Cache.Confinement
import Mathlib.Data.Finset.Card

namespace CCache.Cache

open CCache.Lib.ByteMemory
open CCache.Lib.CString
open CCache.Lib.Runs

/-- **Safe to use**: in every run of operations that take a key, every range lies inside the file, and
no data is written below the data area. -/
def SafeToUse (m : Mem) : Prop :=
  ∀ ops m', Run KeyStep m ops m' → ∀ op : Op, op.ByKey → ∀ a ∈ op.accesses m', a.Safe

/-- **Confined tables are safe to use.** -/
theorem safeToUse_of_confined {m : Mem} (h : (directory m).Confined) : SafeToUse m :=
  fun _ _ hrun _ hop => (exec_confined (run_confined h hrun) hop).2

theorem SafeToUse.here {m : Mem} (h : SafeToUse m) (op : Op) (hop : op.ByKey) :
    ∀ a ∈ op.accesses m, a.Safe := h [] m .nil op hop

theorem SafeToUse.step {m : Mem} (h : SafeToUse m) (op : Op) (hop : op.ByKey) :
    SafeToUse (op.exec m).mem :=
  fun ops m' hrun => h (op :: ops) m' (Run.cons ⟨hop, rfl⟩ hrun)

/-- The files the cache leaves itself are safe to use. -/
theorem Reachable.safeToUse {m : Mem} (h : Reachable m) : SafeToUse m :=
  safeToUse_of_confined h.wellFormed.confined

/-! ## Names that are not in the table -/

/-- The `k`-th string of two characters. -/
def shortName (k : Nat) : List UInt8 := [UInt8.ofNat (1 + k / 255), UInt8.ofNat (1 + k % 255)]

theorem toNat_shortName {k : Nat} (hk : k < 255 * 255) :
    (shortName k).map UInt8.toNat = [1 + k / 255, 1 + k % 255] := by
  have hhigh : (1 + k / 255) % 2 ^ 8 = 1 + k / 255 := Nat.mod_eq_of_lt (by omega)
  have hlow : (1 + k % 255) % 2 ^ 8 = 1 + k % 255 := Nat.mod_eq_of_lt (by omega)
  simp only [shortName, List.map_cons, List.map_nil, UInt8.toNat_ofNat', hhigh, hlow]

theorem keyName_shortName {k : Nat} (hk : k < 255 * 255) : keyName (shortName k) = shortName k := by
  have hne : ∀ b ∈ shortName k, b ≠ 0 := by
    intro b hb hzero
    have hmem : b.toNat ∈ (shortName k).map UInt8.toNat := List.mem_map_of_mem hb
    rw [toNat_shortName hk, hzero] at hmem
    simp at hmem
    omega
  rw [keyName, trunc_of_ne_zero hne]
  rfl

theorem shortName_injective {j k : Nat} (hj : j < 255 * 255) (hk : k < 255 * 255)
    (h : shortName j = shortName k) : j = k := by
  have hnat := congrArg (List.map UInt8.toNat) h
  rw [toNat_shortName hj, toNat_shortName hk] at hnat
  obtain ⟨hhigh, hlow⟩ : 1 + j / 255 = 1 + k / 255 ∧ 1 + j % 255 = 1 + k % 255 := by
    simpa using hnat
  omega

/-- **Some key is not in the table**: there are more strings than slots. -/
theorem exists_fresh_key (m : Mem) : ∃ key, ∀ j, ¬ (directory m).Holds key j := by
  have hmax := cacheMaxEntries_eq
  have hcard : ((Finset.range cacheMaxEntries).image fun j => ((directory m).slot j).name).card <
      ((Finset.range (cacheMaxEntries + 1)).image shortName).card := by
    have hle : ((Finset.range cacheMaxEntries).image fun j => ((directory m).slot j).name).card ≤
        (Finset.range cacheMaxEntries).card := Finset.card_image_le
    have hinj : Set.InjOn shortName (Finset.range (cacheMaxEntries + 1)) := by
      intro j hj k hk h
      rw [Finset.coe_range, Set.mem_Iio] at hj hk
      exact shortName_injective (by omega) (by omega) h
    rw [Finset.card_image_of_injOn hinj, Finset.card_range]
    rw [Finset.card_range] at hle
    omega
  obtain ⟨key, hkey, hnot⟩ := Finset.exists_mem_notMem_of_card_lt_card hcard
  obtain ⟨k, hk, rfl⟩ := Finset.mem_image.mp hkey
  rw [Finset.mem_range] at hk
  refine ⟨shortName k, fun j hh => hnot ?_⟩
  rw [← keyName_shortName (by omega), ← hh.2]
  exact Finset.mem_image_of_mem _ (Finset.mem_range.mpr (lt_of_used hh.1))

/-! ## What one `Put` reveals -/

theorem exists_blob {n : Nat} (h : n < 2 ^ 32) : ∃ data : Blob, data.length = n :=
  ⟨⟨List.replicate n 0, by rwa [List.length_replicate]⟩, List.length_replicate⟩

/-- The mapping after the first instruction of the space check. -/
def spaceChecked (m : Mem) : Mapping := (Mapping.start m).emit (.sub32 cacheFileSize (nextOffset m))

@[simp] theorem spaceChecked_mem (m : Mem) : (spaceChecked m).mem = m := rfl

/-- A value that is not too long is not compacted for. -/
theorem ensureSpace_fits {m : Mem} {length : Nat} (h : length ≤ availableSpace m) :
    ensureSpace (.start m) length = (true, spaceChecked m) := by
  unfold ensureSpace
  simp only [Mapping.emit_sub32_mem, Mapping.start_mem]
  exact if_neg (by omega)

/-- A value that is too long moves every slot. -/
theorem ensureSpace_full {m : Mem} {length : Nat} (h : availableSpace m < length) :
    (ensureSpace (.start m) length).2.memmoves =
      (compactLoop (spaceChecked m) cacheMaxEntries).1.memmoves := by
  unfold ensureSpace
  simp only [Mapping.emit_sub32_mem, Mapping.start_mem, gt_iff_lt]
  rw [if_pos h, ← memmoves_compactCache]
  show (ite _ _ _ : Bool × Mapping).2.memmoves = (compactCache (spaceChecked m)).memmoves
  unfold spaceChecked
  generalize compactCache ((Mapping.start m).emit (.sub32 cacheFileSize (nextOffset m))) = c
  split
  · exact Mapping.memmoves_emit_sub32 _ _ _
  · exact Mapping.memmoves_emit_sub32 _ _ _

theorem availableSpace_eq_zero {m : Mem} : availableSpace m = 0 ↔ nextOffset m = cacheFileSize := by
  have hlt : nextOffset m < 2 ^ 32 := readWord_lt _ _
  have hsize := cacheFileSize_eq
  unfold availableSpace sub32
  omega

/-- The copy of a `Put` that needs no compaction and finds a slot. -/
theorem memcpy_mem_accesses {m : Mem} {key : List UInt8} {idx : Nat} {t : Mapping} (data : Blob)
    (hlen : data.length ≠ 0) (hspace : data.length ≤ availableSpace m)
    (hc : chooseEntry (spaceChecked m) key = some (idx, t)) :
    Access.memcpy (nextOffset m) data.length ∈ (Op.put key (some data)).accesses m := by
  simp only [Op.accesses, if_neg hlen, ensureSpace_fits hspace, copyAccess_of_chosen hc]
  exact List.mem_append_right _ (List.mem_singleton_self _)

/-- The key of slot 0 always has a slot to go to: its own, that of an earlier copy, or a free one. -/
theorem exists_slot (s : Mapping) :
    ∃ idx t, chooseEntry s ((directory s.mem).slot 0).key = some (idx, t) := by
  cases hc : chooseEntry s ((directory s.mem).slot 0).key with
  | some p => exact ⟨p.1, p.2, rfl⟩
  | none =>
    obtain ⟨hnone, hfull⟩ := chooseEntry_none hc
    exact absurd ⟨hfull 0 (by decide), rfl⟩ (hnone 0)

/-- Some key is stored to the writable slot, or to one as free as it. -/
theorem exists_target {m : Mem} {i : Nat} (hi : i < cacheMaxEntries)
    (hwritable : (directory m).Writable i) :
    ∃ key idx t, chooseEntry (spaceChecked m) key = some (idx, t) ∧
      (directory m).liveLength idx = (directory m).liveLength i := by
  by_cases hu : ((directory m).slot i).used = true
  · have hfind : findEntry m ((directory m).slot i).key = some i := by
      refine findEntry_eq_some.mpr ⟨hi, ⟨hu, rfl⟩, fun j hj hh => ?_⟩
      exact hwritable hu j hj hh.1 hh.2
    refine ⟨((directory m).slot i).key, i, spaceChecked m, ?_, rfl⟩
    unfold chooseEntry
    simp only [spaceChecked_mem, hfind]
  · have hfree : ((directory m).slot i).used = false := by simpa using hu
    obtain ⟨key, hfresh⟩ := exists_fresh_key m
    have hfind : findEntry m key = none := findEntry_eq_none.mpr hfresh
    cases hslot : findFreeEntry m with
    | none => exact absurd (findFreeEntry_eq_none.mp hslot i hi) hu
    | some j =>
      obtain ⟨-, hunused, -⟩ := findFreeEntry_eq_some.mp hslot
      refine ⟨key, j, countEntry (spaceChecked m), ?_, ?_⟩
      · unfold chooseEntry
        simp only [spaceChecked_mem, hfind, hslot]
      · rw [Directory.liveLength_of_free hunused, Directory.liveLength_of_free hfree]

/-! ## Every clause is needed -/

namespace SafeToUse

variable {m : Mem} (h : SafeToUse m)
include h

/-- **The header.** A `Put` of one byte copies to `next_offset` unless the file is full to the byte. -/
theorem next_bounds : dataStart ≤ nextOffset m ∧ nextOffset m ≤ cacheFileSize := by
  by_cases hfull : nextOffset m = cacheFileSize
  · have hfile := dataStart_le_fileSize
    omega
  · obtain ⟨data, hlen⟩ := exists_blob (n := 1) (by norm_num)
    obtain ⟨idx, t, hc⟩ := exists_slot (spaceChecked m)
    have hspace : data.length ≤ availableSpace m := by
      rw [hlen]
      exact Nat.pos_of_ne_zero (mt availableSpace_eq_zero.mp hfull)
    have hcopy := memcpy_mem_accesses data (by omega) hspace hc
    have hsafe : InData (nextOffset m) data.length := h.here (.put _ _) trivial _ hcopy
    have hin := hsafe (by omega)
    omega

/-- Earlier slots of the same name are removed, one by one, until `Get` finds slot `i`. -/
theorem extent_hi_of_hidden (key : List UInt8) {i : Nat} (hi : i < cacheMaxEntries) (k : Nat)
    (hlive : (directory m).Live i) (hheld : (directory m).Holds key i)
    (hfirst : ∀ j, j + k < i → ¬ (directory m).Holds key j) :
    ((directory m).slot i).offset + ((directory m).slot i).length ≤ cacheFileSize := by
  induction k generalizing m with
  | zero =>
    have hfind : findEntry m key = some i := findEntry_eq_some.mpr ⟨hi, hheld, hfirst⟩
    have hread : Access.checksum (dataPtr (entryOffset m i)) (entryLength m i) ∈
        (Op.get key).accesses m := by
      rw [(get_of_found hfind).1]
      exact List.mem_singleton_self _
    have hptr : dataPtr (entryOffset m i) = entryOffset m i := dataPtr_eq (readWord_lt _ _)
    have hsafe : InFile (dataPtr (entryOffset m i)) (entryLength m i) :=
      h.here (.get key) trivial _ hread
    rw [hptr, entryOffset_eq hi, entryLength_eq hi] at hsafe
    exact hsafe hlive.2
  | succ k ih =>
    by_cases hprev : ∃ j, j + (k + 1) = i ∧ (directory m).Holds key j
    · obtain ⟨j, hji, hj⟩ := hprev
      have hfind : findEntry m key = some j :=
        findEntry_eq_some.mpr ⟨by omega, hj, fun x hx => hfirst x (by omega)⟩
      have hexec : (Op.remove key).exec m = clearEntry (.start m) j := by
        simp only [Op.exec]
        rw [remove_of_found (s := .start m) hfind]
      have hidx : j < cacheMaxEntries := by omega
      obtain ⟨-, hempty, hother⟩ := clearEntry_table (s := .start m) hidx
      have hsafe : SafeToUse ((Op.remove key).exec m).mem := h.step (.remove key) trivial
      rw [hexec] at hsafe
      have hsame := hother i (by omega)
      rw [Mapping.start_mem] at hsame
      have hend := ih hsafe (by rw [Directory.Live, hsame]; exact hlive)
        (by rw [Directory.Holds, hsame]; exact hheld) ?_
      · rwa [hsame] at hend
      · intro x hx hh
        by_cases hxj : x = j
        · rw [hxj, Directory.Holds, hempty] at hh
          exact Bool.false_ne_true hh.1
        · rw [Directory.Holds, hother x hxj] at hh
          exact hfirst x (by omega) hh
    · refine ih h hlive hheld fun j hj hh => ?_
      by_cases heq : j + (k + 1) = i
      · exact hprev ⟨j, heq, hh⟩
      · exact hfirst j (by omega) hh

/-- **The ends of the extents.** -/
theorem extent_hi {i : Nat} (hi : i < cacheMaxEntries) (hlive : (directory m).Live i) :
    ((directory m).slot i).offset + ((directory m).slot i).length ≤ cacheFileSize :=
  h.extent_hi_of_hidden ((directory m).slot i).key hi i hlive ⟨hlive.1, rfl⟩ fun j hj => by omega

/-- A `Put` that is too long moves the slots, so the moves are safe. -/
theorem moves_safe : ∀ a ∈ (compactLoop (spaceChecked m) cacheMaxEntries).1.memmoves, a.Safe := by
  obtain ⟨hlo, hhi⟩ := h.next_bounds
  have hsize := cacheFileSize_lt
  have hpos : 0 < dataStart := by decide
  have havail : availableSpace m = cacheFileSize - nextOffset m := availableSpace_of_le hhi
  obtain ⟨data, hlen⟩ := exists_blob (n := cacheFileSize - nextOffset m + 1) (by omega)
  have hfull : availableSpace m < data.length := by omega
  intro a ha
  refine h.here (.put [] (some data)) trivial a ?_
  rw [← ensureSpace_full hfull] at ha
  simp only [Op.accesses, if_neg (show data.length ≠ 0 by omega)]
  exact List.mem_append_left _ ha

/-- Slot `n`, once the loop has come to it: if it moves it does so safely, and if it is in place it begins
where the loop is. -/
theorem placed {n : Nat} (hn : n < cacheMaxEntries) (hbefore : (directory m).Packable n)
    (hlive : (directory m).Live n) : dataStart ≤ ((directory m).slot n).offset ∧
      (directory m).packedStart n + ((directory m).slot n).length ≤ cacheFileSize := by
  have hstart := (directory m).dataStart_le_packedStart n
  by_cases hmove : (directory m).packedStart n = ((directory m).slot n).offset
  · have hend := h.extent_hi hn hlive
    omega
  · have hbelow := packedBelow_loop (s := spaceChecked m) (by omega) hbefore
    have hmem : (directory m).move n ∈ (compactLoop (spaceChecked m) (n + 1)).1.memmoves := by
      rw [compactLoop, hbelow.memmoves_step hn hbefore.fit]
      refine List.mem_append_right _ ?_
      rw [spaceChecked_mem, if_pos ⟨hlive, hmove⟩]
      exact List.mem_singleton_self _
    obtain ⟨hdst, hsrc⟩ := h.moves_safe _ (memmoves_loop_mono hn hmem)
    have hin := hsrc hlive.2
    have hout := hdst hlive.2
    have hsize := cacheFileSize_eq
    have hdata := dataStart_eq
    have hoff : ((directory m).slot n).offset < 2 ^ 32 := by
      rw [← entryOffset_eq hn]
      exact readWord_lt _ _
    -- `data_offset` of a slot below the data area would have wrapped
    unfold sub32 at hin
    omega

/-- **The beginnings of the extents, and their lengths**, by induction along the loop. -/
theorem packable {n : Nat} (hn : n ≤ cacheMaxEntries) : (directory m).Packable n := by
  induction n with
  | zero =>
    refine ⟨fun i hi => absurd hi (Nat.not_lt_zero i), ?_⟩
    rw [Directory.packedStart_zero]
    exact dataStart_le_fileSize
  | succ n ih =>
    have hbefore := ih (by omega)
    have hfit := hbefore.fit
    have hsucc := (directory m).packedStart_succ n
    constructor
    case lo =>
      intro i hi hlive
      by_cases heq : i = n
      · rw [heq] at hlive ⊢
        exact (h.placed hn hbefore hlive).1
      · exact hbefore.lo i (by omega) hlive
    case fit =>
      by_cases hlive : (directory m).Live n
      · rw [hsucc, Directory.liveLength_of_used hlive.1]
        exact (h.placed hn hbefore hlive).2
      · rw [hsucc, Directory.liveLength_of_not_live hlive]
        omega

/-- **The room behind a store.** A `Put` that fills the file is not compacted for; the next compaction
finds the new value among the others. -/
theorem room {i : Nat} (hi : i < cacheMaxEntries) (hwritable : (directory m).Writable i) :
    (directory m).packedEnd ≤ nextOffset m + (directory m).liveLength i := by
  obtain ⟨hlo, hhi⟩ := h.next_bounds
  by_cases hfull : nextOffset m = cacheFileSize
  · have hfit := (h.packable le_rfl).fit
    rw [hfull]
    exact Nat.le_add_right_of_le hfit
  · have hsize := cacheFileSize_lt
    have havail : availableSpace m = cacheFileSize - nextOffset m := availableSpace_of_le hhi
    obtain ⟨data, hlen⟩ := exists_blob (n := cacheFileSize - nextOffset m) (by omega)
    obtain ⟨key, idx, t, hc, hsame⟩ := exists_target hi hwritable
    obtain ⟨hidx, -, hnext, hslot⟩ := chooseEntry_table hc
    have hnext' : nextOffset t.mem = nextOffset m := hnext
    rw [spaceChecked_mem] at hslot
    obtain ⟨-, hself, hother⟩ := writeEntry_table (s := t) key data hidx (by omega) (by omega)
    have hexec : (Op.put key (some data)).exec m = writeEntry t idx key data := by
      simp only [Op.exec]
      rw [put_of_chosen (by omega) (ensureSpace_fits (by omega)) hc]
    have hafter : SafeToUse ((Op.put key (some data)).exec m).mem := h.step _ trivial
    rw [hexec] at hafter
    have hfit := (hafter.packable le_rfl).fit
    have hchange := Directory.packedEnd_change (d := directory m) hidx fun j hj => by
      rw [hother j hj, hslot]
    have hstored : (directory (writeEntry t idx key data).mem).liveLength idx = data.length := by
      rw [Directory.liveLength, hself]
      rfl
    rw [hstored, hsame] at hchange
    rw [Directory.packedEnd] at hchange
    omega

/-- **What is safe to use is confined.** -/
theorem confined : (directory m).Confined where
  next_lo := h.next_bounds.1
  next_hi := h.next_bounds.2
  extent := fun i hi hlive => ⟨(h.packable le_rfl).lo i hi hlive, h.extent_hi hi hlive⟩
  packed := (h.packable le_rfl).fit
  room := fun _ hi hwritable => h.room hi hwritable

end SafeToUse

/-! ## Accepted files -/

theorem initMmap_of_accepted {file : Mem} (h : accepted file = true) :
    initMmap (.start file) = .start file := if_pos h

/-- A file with the right magic number and version whose `entry_count` is 7: it has one entry, of three
bytes, and that lies behind `next_offset`. -/
def strayFile : Mem :=
  blit (content (toLE 4 cacheMagic ++ toLE 4 cacheVersion ++ toLE 4 7 ++ toLE 4 (dataStart + 3)))
    (entryAddr 0 + 512) 9 (content (toLE 4 3 ++ toLE 4 (dataStart + 10) ++ [1]))

theorem strayFile_used {i : Nat} (hi : i < cacheMaxEntries) :
    entryIsUsed strayFile i = true ↔ i = 0 := by
  rcases Nat.eq_zero_or_pos i with rfl | hpos
  · exact iff_of_true (by decide) rfl
  · have hbehind : strayFile (entryAddr i + 520) = 0 := by
      have haddr : 560 ≤ entryAddr i := by
        simp only [entryAddr, sizeofCacheHeader, sizeofCacheEntryHeader]
        omega
      have hfirst : entryAddr 0 + 512 + 9 < 560 := by decide
      rw [strayFile, blit_out (by omega), content, List.getD_eq_getElem?_getD,
        List.getElem?_eq_none, Option.getD_none]
      simp only [List.length_append, toLE_length]
      omega
    refine iff_of_false ?_ (by omega)
    rw [entryIsUsed, hbehind]
    decide

theorem strayFile_slot_zero : ((directory strayFile).slot 0).used = true ∧
    ((directory strayFile).slot 0).offset = dataStart + 10 ∧
    ((directory strayFile).slot 0).length = 3 := by
  rw [← entryIsUsed_eq (by decide), ← entryOffset_eq (by decide), ← entryLength_eq (by decide)]
  decide

theorem strayFile_next : (directory strayFile).next = dataStart + 3 := by decide

theorem strayFile_confined : (directory strayFile).Confined := by
  obtain ⟨hused, hoffset, hlength⟩ := strayFile_slot_zero
  have hnext := strayFile_next
  have hzero : ∀ i, i < cacheMaxEntries → ((directory strayFile).slot i).used = true → i = 0 :=
    fun i hi hu => (strayFile_used hi).mp ((entryIsUsed_eq hi).trans hu)
  have hsize : dataStart + 13 ≤ cacheFileSize := by
    rw [dataStart_eq, cacheFileSize_eq]
    decide
  have hend : (directory strayFile).packedEnd = dataStart + 3 := by
    rw [Directory.packedEnd, Directory.packedStart,
      Finset.sum_eq_single_of_mem 0 (Finset.mem_range.mpr (by decide)),
      Directory.liveLength_of_used hused, hlength]
    intro i hi hne
    refine Directory.liveLength_of_not_live fun hlive => hne ?_
    exact hzero i (Finset.mem_range.mp hi) hlive.1
  refine ⟨by omega, by omega, fun i hi hlive => ?_, by omega, fun i _ _ => by omega⟩
  rw [hzero i hi hlive.1, hoffset, hlength]
  omega

/-- **An accepted file is safe to use exactly when its table is confined**: `next_offset` lies between
the data area and the end of the file, so does every used extent, the values fit the file packed, and
they still fit when the slot a `Put` may take is filled up. -/
theorem accepted_safeToUse_iff {file : Mem} (h : accepted file = true) :
    SafeToUse (initMmap (.start file)).mem ↔ (directory file).Confined := by
  rw [initMmap_of_accepted h]
  exact ⟨SafeToUse.confined, safeToUse_of_confined⟩

/-- The cache leaves no such table, and it is safe to use. -/
theorem accepted_safeToUse_stray : accepted strayFile = true ∧ ¬ Reachable strayFile ∧
    SafeToUse (initMmap (.start strayFile)).mem := by
  have haccepted : accepted strayFile = true := by decide
  refine ⟨haccepted, fun h => ?_, (accepted_safeToUse_iff haccepted).mpr strayFile_confined⟩
  obtain ⟨hused, hoffset, hlength⟩ := strayFile_slot_zero
  have hhi := h.wellFormed.extent_hi 0 hused
  rw [hoffset, hlength, strayFile_next] at hhi
  omega

/-- A file with the right magic number and version, no entries, and a `next_offset` one byte past the end
of the file. -/
def wrappedFile : Mem :=
  content (toLE 4 cacheMagic ++ toLE 4 cacheVersion ++ toLE 4 0 ++ toLE 4 (cacheFileSize + 1))

/-- **The space check wraps.** `CACHE_FILE_SIZE - next_offset` is almost `2^32` there, so a `Put` of one
byte is neither refused nor compacted for, and its byte goes behind the file. -/
theorem wrapped_put_outside : accepted wrappedFile = true ∧
    availableSpace wrappedFile = 2 ^ 32 - 1 ∧
    Access.memcpy (cacheFileSize + 1) 1 ∈
      (Op.put [97] (some ⟨[1], by decide⟩)).accesses (initMmap (.start wrappedFile)).mem ∧
    ¬ SafeToUse (initMmap (.start wrappedFile)).mem := by
  have haccepted : accepted wrappedFile = true := by decide
  have hnext : nextOffset wrappedFile = cacheFileSize + 1 := by decide
  have hspace : availableSpace wrappedFile = 2 ^ 32 - 1 := by
    rw [availableSpace, hnext]
    decide
  have hcopy : Access.memcpy (cacheFileSize + 1) 1 ∈
      (Op.put [97] (some ⟨[1], by decide⟩)).accesses wrappedFile := by
    cases hc : chooseEntry (spaceChecked wrappedFile) [97] with
    | none =>
      have hfull := (chooseEntry_none hc).2 0 (by decide)
      rw [← entryIsUsed_eq (by decide)] at hfull
      exact absurd hfull (by decide)
    | some p =>
      rw [← hnext]
      refine memcpy_mem_accesses ⟨[1], by decide⟩ (by decide) ?_ hc
      rw [hspace]
      decide
  rw [initMmap_of_accepted haccepted]
  refine ⟨haccepted, hspace, hcopy, fun h => ?_⟩
  have hsafe : InData (cacheFileSize + 1) 1 := h.here (.put _ _) trivial _ hcopy
  have hin := hsafe (by decide)
  omega

end CCache.Cache
