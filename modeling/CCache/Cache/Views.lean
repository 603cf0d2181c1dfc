/-
# CCache.Cache.Views — how long the pointer that `Get` hands out stays good.

`Get` hands out a pointer into the mapping and releases the mutex, and the handlers copy from it
afterwards.  A store appends and a removal leaves the data in place, so only a compaction can hurt: it
may move other extents over the view, and it may move the entry itself away, after which the view lies
in free space that the next stores fill.  `SparesView` says which `Put`s do neither.  While the entry is
where the view points, these are all that do not compact and those whose compaction finds the entry in
its packed place; otherwise they are those that leave the end of the data at or before the view.
-/
import CCache.Cache.CrashInconsistency
import CCache.Cache.Packing

namespace CCache.Cache

open CCache.Lib.ByteMemory
open CCache.Lib.Runs

/-! ## Bytes that the moves leave alone -/

namespace Directory

variable (d : Directory) (m : Mem)

/-- The moves of the slots below `n` write below `packedStart n`. -/
theorem moved_above (n : Nat) {x : Nat} (hx : d.packedStart n ≤ x) : d.moved m n x = m x := by
  induction n with
  | zero => rfl
  | succ n ih =>
    rw [packedStart_succ] at hx
    rw [moved]
    split
    · rename_i hu
      rw [liveLength_of_used hu] at hx
      rw [blit_out (.inr hx)]
      exact ih (by omega)
    · exact ih (by omega)

/-- An extent that is in its packed place keeps its bytes. -/
theorem moved_in_place {j n : Nat} (hu : (d.slot j).used = true) (hj : j < n)
    (hplace : (d.slot j).offset = d.packedStart j) {x : Nat} (hlo : (d.slot j).offset ≤ x)
    (hhi : x < (d.slot j).offset + (d.slot j).length) : d.moved m n x = m x := by
  obtain ⟨k, rfl⟩ := Nat.exists_eq_add_of_le hlo
  have hmove := moved_packed d m hu hj (show k < (d.slot j).length by omega)
  rw [← hplace] at hmove
  rw [hmove]
  exact moved_above d m j (by omega)

end Directory

/-! ## What a `Put` writes -/

/-- A `Put` of the value finds room for it and a slot for the key. -/
def Stores (m : Mem) (key : List UInt8) (data : Blob) : Prop :=
  dataStart + liveBytes m + data.length ≤ cacheFileSize ∧
    (KeyStored m key ∨ (usedEntries m).card < cacheMaxEntries)

/-- Where a `Put` of so many bytes that stores its value puts it. -/
def placeFor (m : Mem) (length : Nat) : Nat :=
  if availableSpace m < length then dataStart + liveBytes m else nextOffset m

section Put

variable {m b : Mem} {key : List UInt8} {data : Blob} {x : Nat}

theorem Room.next_eq (h : WellFormed (directory m)) {length : Nat} (hr : Room m length b) :
    (directory b).next = placeFor m length := by
  rw [placeFor, availableSpace_eq h]
  rcases hr with ⟨hfit, rfl⟩ | ⟨hfull, hc⟩
  · exact (if_neg (Nat.not_lt.mpr hfit)).symm
  · rw [if_pos hfull, hc.dir]
    exact packedStart_all m

/-- **A byte that a `Put` leaves alone**: no move changes it, and the value goes elsewhere. -/
theorem put_keeps_byte (h : WellFormed (directory m)) (hlen : 0 < data.length) (hx : dataStart ≤ x)
    (hmoves : Compacts m data.length → (directory m).moved m cacheMaxEntries x = m x)
    (hstore : Stores m key data →
      x < placeFor m data.length ∨ placeFor m data.length + data.length ≤ x) :
    (put (.start m) key (some data)).2.mem x = m x := by
  obtain ⟨-, b, hroom, hwf, hcase⟩ := put_cases (s := .start m) h (Mapping.safe_start m) key hlen
  have hroom : Room m data.length b := hroom
  have hb : b x = m x := by
    rcases hroom with ⟨-, rfl⟩ | ⟨hfull, hc⟩
    · rfl
    · rw [hc.data x hx]
      refine hmoves ⟨hlen, ?_⟩
      rwa [availableSpace_eq h]
  rcases hcase with ⟨-, hmem, -⟩ | ⟨-, idx, hstored⟩
  · rw [hmem, hb]
  · have hstores : Stores m key data := by
      by_contra hnot
      exact hstored.not_refused ((hroom.refused_iff h key).mpr hnot)
    rw [hstored.data x hx, hroom.next_eq h, blit_out (hstore hstores), hb]

end Put

/-! ## Operations that spare a view -/

/-- Slot `i` holds the key, and its extent is the view. -/
structure EntryAt (m : Mem) (key : List UInt8) (v : View) (i : Nat) : Prop where
  lt : i < cacheMaxEntries
  used : entryIsUsed m i = true
  name : keyName (entryKey m i) = keyName key
  offset : entryOffset m i = v.offset
  length : entryLength m i = v.length

/-- The entry of the key is where the view points, and a compaction, if the `Put` runs one, finds it in
its packed place. -/
def StaysInPlace (m : Mem) (key : List UInt8) (v : View) (data : Blob) : Prop :=
  ∃ i, EntryAt m key v i ∧
    (Compacts m data.length → v.offset = dataStart + liveBytesBelow m i)

/-- Whatever the `Put` of the value under `other` writes ends at or before the view. -/
def EndsBefore (m : Mem) (v : View) (other : List UInt8) (data : Blob) : Prop :=
  (Compacts m data.length → dataStart + liveBytes m ≤ v.offset) ∧
    (Stores m other data → placeFor m data.length + data.length ≤ v.offset)

/-- The operation leaves the view on an entry of `key` alone. -/
def Op.SparesView (key : List UInt8) (v : View) (m : Mem) : Op → Prop
  | .put other (some data) =>
    0 < data.length → StaysInPlace m key v data ∨ EndsBefore m v other data
  | _ => True

section Step

variable {m : Mem} {key : List UInt8} {v : View} {i : Nat}

theorem EntryAt.slot (he : EntryAt m key v i) : ((directory m).slot i).used = true ∧
    ((directory m).slot i).offset = v.offset ∧ ((directory m).slot i).length = v.length := by
  rw [← entryIsUsed_eq he.lt, ← entryOffset_eq he.lt, ← entryLength_eq he.lt]
  exact ⟨he.used, he.offset, he.length⟩

theorem entryAt_iff : EntryAt m key v i ↔ (directory m).Holds key i ∧
    ((directory m).slot i).offset = v.offset ∧ ((directory m).slot i).length = v.length := by
  constructor
  · intro he
    obtain ⟨hu, hoffset, hlength⟩ := he.slot
    refine ⟨⟨hu, ?_⟩, hoffset, hlength⟩
    rw [Slot.name, ← entryKey_eq he.lt]
    exact he.name
  · rintro ⟨hh, hoffset, hlength⟩
    have hi : i < cacheMaxEntries := lt_of_used hh.1
    refine ⟨hi, ?_, ?_, (entryOffset_eq hi).trans hoffset, (entryLength_eq hi).trans hlength⟩
    · rw [entryIsUsed_eq hi, hh.1]
    · rw [entryKey_eq hi]
      exact hh.2

/-- An entry in its place is spared. -/
theorem put_stays_in_place (h : WellFormed (directory m)) {other : List UInt8} {data : Blob}
    (hlen : 0 < data.length) (hstays : StaysInPlace m key v data) {x : Nat} (hlo : v.offset ≤ x)
    (hhi : x < v.offset + v.length) : (put (.start m) other (some data)).2.mem x = m x := by
  obtain ⟨i, he, hplace⟩ := hstays
  obtain ⟨hu, hoffset, hlength⟩ := he.slot
  have hbegins := h.extent_lo i hu
  have hends := h.extent_hi i hu
  refine put_keeps_byte h hlen (by omega) (fun hcompacts => ?_) fun _ => ?_
  · refine Directory.moved_in_place _ _ hu he.lt ?_ (by omega) (by omega)
    rw [hoffset, hplace hcompacts, packedStart_eq m he.lt.le]
  · -- the value goes behind the extents, moved or not
    rw [placeFor]
    split
    · rename_i hfull
      have hpacked := Directory.packedStart_add_length hu he.lt
      rw [packedStart_all, packedStart_eq m he.lt.le] at hpacked
      have := hplace ⟨hlen, hfull⟩
      omega
    · have hnext : (directory m).next = nextOffset m := rfl
      omega

/-- A view behind the end of the data is spared. -/
theorem put_ends_before (h : WellFormed (directory m)) {other : List UInt8} {data : Blob}
    (hlen : 0 < data.length) (hends : EndsBefore m v other data) {x : Nat} (hx : dataStart ≤ x)
    (hlo : v.offset ≤ x) : (put (.start m) other (some data)).2.mem x = m x := by
  obtain ⟨hpacked, hstored⟩ := hends
  refine put_keeps_byte h hlen hx (fun hcompacts => ?_) fun hstores => ?_
  · refine Directory.moved_above _ _ _ ?_
    rw [packedStart_all]
    exact (hpacked hcompacts).trans hlo
  · exact .inr ((hstored hstores).trans hlo)

/-- **One step leaves the bytes of a spared view as they are.** -/
theorem step_spares {m' : Mem} {op : Op} (h : WellFormed (directory m)) (hv : dataStart ≤ v.offset)
    (hspares : op.SparesView key v m) (hstep : Step m op m') : v.bytes m' = v.bytes m := by
  rw [hstep]
  refine read_congr fun k hk => ?_
  generalize hx : v.offset + k = x
  have hdata : dataStart ≤ x := by omega
  cases op with
  | put other data =>
    simp only [Op.exec]
    by_cases hempty : ∀ b, data = some b → b.length = 0
    · rw [put_rejects other hempty]
      rfl
    · push Not at hempty
      obtain ⟨b, rfl, hne⟩ := hempty
      have hlen : 0 < b.length := Nat.pos_of_ne_zero hne
      rcases hspares hlen with hstays | hends
      · exact put_stays_in_place h hlen hstays (by omega) (by omega)
      · exact put_ends_before h hlen hends hdata (by omega)
  | get other => rfl
  | remove other =>
    simp only [Op.exec]
    rcases remove_erased h other with ⟨-, hrem⟩ | ⟨idx, -, he⟩
    · rw [hrem]
      rfl
    · exact he.data x hdata
  | clear => exact (initializeCache_spec (.start m)).2 x hdata
  | restart =>
    simp only [Op.exec, initMmap_of_wellFormed h]
    rfl

end Step

/-- A view lies in the data area, where the entry of its key is. -/
theorem entryAt_of_get {m : Mem} (h : WellFormed (directory m)) {key : List UInt8} {v : View}
    (hget : get m key = some v) : dataStart ≤ v.offset ∧ ∃ i, EntryAt m key v i := by
  obtain ⟨i, hh, -, rfl⟩ := holds_of_get h.names hget
  have hi : i < cacheMaxEntries := h.table i hh.1
  refine ⟨h.extent_lo i hh.1, i, hi, ?_, ?_, entryOffset_eq hi, entryLength_eq hi⟩
  · rw [entryIsUsed_eq hi, hh.1]
  · rw [entryKey_eq hi]
    exact hh.2

/-- **A view stays good while the `Put`s spare it.** From any reachable state in which `Get` answers
with a view, in every run whose `Put`s each find the entry where the view points and leave it there, or
end their writes before the view, the bytes of the view are those of the answer in every state
reached.  Nothing else is asked of the run: a removal of the key or a `Clear` does not touch the data. -/
theorem view_stays_good {m₀ m : Mem} {key : List UInt8} {v : View} {ops : List Op}
    (h : Reachable m₀) (hget : get m₀ key = some v)
    (hrun : Run (Guarded (fun m op => op.SparesView key v m) Step) m₀ ops m) :
    v.bytes m = v.bytes m₀ := by
  have hv := (entryAt_of_get h.wellFormed hget).1
  have hinv : WellFormed (directory m) ∧ v.bytes m = v.bytes m₀ := by
    refine hrun.invariant (I := fun m => WellFormed (directory m) ∧ v.bytes m = v.bytes m₀) ?_
      ⟨h.wellFormed, rfl⟩
    rintro k op k' ⟨hwf, hbytes⟩ ⟨hspares, hstep⟩
    exact ⟨step_wellFormed hwf hstep, (step_spares hwf hv hspares hstep).trans hbytes⟩
  exact hinv.2

/-- After `spaced` a `Put` that is refused compacts: the entry of `c` moves, and the view of `a` stays
good. -/
theorem view_stays_good_spaced : ∃ m₀ m v, RunFrom (fun _ => 0) spaced m₀ ∧ get m₀ [97] = some v ∧
    Run Step m₀ [.put [100] (some oversized)] m ∧ v.bytes m = [1] ∧
    entryOffset m₀ 2 = dataStart + 2 ∧ entryOffset m 2 = dataStart + 1 := by
  obtain ⟨m₀, hrun, h⟩ : ∃ m, RunFrom (fun _ => 0) spaced m ∧ SpacedAt m :=
    ⟨_, runFrom_zeros _, spaced_spec (initMmap_fresh (runFrom_zeros []).1)⟩
  have hslot := h.slot_zero
  have hholds : (directory m₀).Holds [97] 0 := by
    rw [Directory.Holds, hslot]
    exact ⟨rfl, by decide⟩
  have hbytes : ((directory m₀).slot 0).bytes m₀ = [1] := by
    have hread : ((directory m₀).slot 0).bytes m₀ = [m₀ dataStart] := by
      rw [hslot, Slot.bytes, Lib.ByteMemory.read]
      rfl
    rw [hread, h.first]
  have hintact : ((directory m₀).slot 0).Intact m₀ := by
    rw [Slot.Intact, hbytes, hslot]
    decide
  have hget := (get_of_holds h.wellFormed.names hholds).1 hintact
  have hmoved := (put_oversized h.wellFormed [100]).2
  refine ⟨m₀, _, _, hrun, hget, .single rfl, (view_stays_good ⟨_, _, hrun⟩ hget (.single ⟨?_, rfl⟩)).trans
    hbytes, ?_, ?_⟩
  · -- slot 0 is in its packed place
    intro _
    refine .inl ⟨0, entryAt_iff.mpr ⟨hholds, rfl, rfl⟩, fun _ => ?_⟩
    rw [← packedStart_eq m₀ (Nat.zero_le _), Directory.packedStart_zero, hslot]
    rfl
  · rw [entryOffset_eq (by decide), h.slot_two]
    rfl
  · rw [exec_put, entryOffset_eq (by decide), hmoved.dir,
      h.wellFormed.compacted_offset (h.used_iff.mpr (.inr rfl)), h.packedStart_two]

/-! ## Entries that stay in their place -/

/-- The operation leaves the entry of the key alone: it is no `Clear`, and no successful `Put` or `Remove` of
the key. -/
def Op.LeavesEntry (key : List UInt8) (m : Mem) : Op → Prop
  | .put other data => keyName other = keyName key → (Cache.put (.start m) other data).1 = false
  | .remove other => keyName other = keyName key → (Cache.remove (.start m) other).1 = false
  | .clear => False
  | _ => True

/-- A compaction, if the operation runs one, finds the entry of the key in its packed place. -/
def Op.FindsPacked (key : List UInt8) (v : View) (m : Mem) : Op → Prop
  | .put _ (some data) => Cache.Compacts m data.length →
    ∀ i, EntryAt m key v i → v.offset = dataStart + liveBytesBelow m i
  | _ => True

section Entry

variable {m : Mem} {key : List UInt8} {v : View} {i : Nat}

/-- An entry stays where it is when its slot does. -/
theorem EntryAt.of_slot_eq {k : Mem} (he : EntryAt m key v i)
    (hslot : (directory k).slot i = (directory m).slot i) : EntryAt k key v i := by
  rw [entryAt_iff] at he ⊢
  rw [Directory.Holds, hslot]
  exact he

/-- The mapping on which `Put` looks for a slot has the entry where it was. -/
theorem EntryAt.room (h : WellFormed (directory m)) (he : EntryAt m key v i) {b : Mem} {length : Nat}
    (hr : Room m length b) (hlen : 0 < length)
    (hpacked : Compacts m length → v.offset = dataStart + liveBytesBelow m i) : EntryAt b key v i := by
  rcases hr with ⟨-, rfl⟩ | ⟨hfull, hc⟩
  · exact he
  · obtain ⟨hh, -, hlength⟩ := entryAt_iff.mp he
    have hplace := hpacked ⟨hlen, by rwa [availableSpace_eq h]⟩
    refine entryAt_iff.mpr ⟨?_, ?_, ?_⟩
    · rw [hc.dir, Directory.compacted_holds]
      exact hh
    · rw [hc.dir, h.compacted_offset hh.1, packedStart_eq m he.lt.le, hplace]
    · rw [hc.dir, Directory.compacted_length, hlength]

/-- **One step leaves the entry where it is.** -/
theorem EntryAt.step (h : WellFormed (directory m)) (he : EntryAt m key v i) {m' : Mem} {op : Op}
    (helse : op.LeavesEntry key m) (hpacked : op.FindsPacked key v m) (hstep : Step m op m') :
    EntryAt m' key v i := by
  rw [hstep]
  have hholds : (directory m).Holds key i := (entryAt_iff.mp he).1
  cases op with
  | put other data =>
    simp only [Op.exec]
    by_cases hempty : ∀ b, data = some b → b.length = 0
    · rw [put_rejects other hempty]
      exact he
    · push Not at hempty
      obtain ⟨b, rfl, hne⟩ := hempty
      have hlen : 0 < b.length := Nat.pos_of_ne_zero hne
      obtain ⟨-, base, hroom, -, hcase⟩ := put_cases (s := .start m) h (Mapping.safe_start m) other hlen
      have hbase : EntryAt base key v i := he.room h hroom hlen fun hc => hpacked hc i he
      rcases hcase with ⟨-, hmem, -⟩ | ⟨hok, idx, hstored⟩
      · rw [hmem]
        exact hbase
      · -- a store goes to a slot of its own key
        have hname : keyName key ≠ keyName other := by
          intro hsame
          exact Bool.false_ne_true ((helse hsame.symm).symm.trans hok)
        refine hbase.of_slot_eq (hstored.slot_ne ?_)
        rintro rfl
        exact hstored.target_ne hname (entryAt_iff.mp hbase).1
  | get other => exact he
  | remove other =>
    simp only [Op.exec]
    rcases remove_erased h other with ⟨-, hrem⟩ | ⟨idx, hok, hgone⟩
    · rw [hrem]
      exact he
    · refine he.of_slot_eq ?_
      rw [hgone.dir, Directory.erase_slot_ne]
      rintro rfl
      have hsame : keyName other = keyName key := hgone.held.2.symm.trans hholds.2
      exact Bool.false_ne_true ((helse hsame).symm.trans hok)
  | clear => exact absurd helse id
  | restart =>
    simp only [Op.exec, initMmap_of_wellFormed h]
    exact he

end Entry

/-- **A view is good for as long as its entry is left alone and in place.** Without a successful `Put`
or `Remove` of the key and without a `Clear`, it is enough that every compaction finds the entry in its
packed place; so a run that never compacts keeps every view. -/
theorem view_stays_good_in_place {m₀ m : Mem} {key : List UInt8} {v : View} {ops : List Op}
    (h : Reachable m₀) (hget : get m₀ key = some v)
    (hrun : Run (Guarded (fun m op => op.LeavesEntry key m ∧ op.FindsPacked key v m) Step) m₀ ops m) :
    v.bytes m = v.bytes m₀ := by
  obtain ⟨hv, i, he⟩ := entryAt_of_get h.wellFormed hget
  have hinv : WellFormed (directory m) ∧ EntryAt m key v i ∧ v.bytes m = v.bytes m₀ := by
    refine hrun.invariant (I := fun m => WellFormed (directory m) ∧ EntryAt m key v i ∧
      v.bytes m = v.bytes m₀) ?_ ⟨h.wellFormed, he, rfl⟩
    rintro k op k' ⟨hwf, hentry, hbytes⟩ ⟨⟨helse, hpacked⟩, hstep⟩
    have hspares : op.SparesView key v k := by
      cases op with
      | put other data =>
        cases data with
        | none => trivial
        | some data => exact fun _ => .inl ⟨i, hentry, fun hc => hpacked hc i hentry⟩
      | get other => trivial
      | remove other => trivial
      | clear => trivial
      | restart => trivial
    exact ⟨step_wellFormed hwf hstep, hentry.step hwf helse hpacked hstep,
      (step_spares hwf hv hspares hstep).trans hbytes⟩
  exact hinv.2.2

/-! ## A view that goes bad -/

section Gapped

variable {m b : Mem} (h : GappedAt m)
include h

/-- After `gapped` the view of `b` begins one byte behind the data start. -/
theorem GappedAt.get : Cache.get m [98] = some ⟨dataStart + 1, 2⟩ ∧
    (⟨dataStart + 1, 2⟩ : View).bytes m = [2, 3] := by
  refine ⟨?_, ?_⟩
  · rw [(get_of_holds h.wellFormed.names h.holds).1 h.intact, h.slot_one]
  · have hbytes := h.bytes
    rw [h.slot_one] at hbytes
    exact hbytes

/-- A compaction moves the entry of `b` down by one, its second byte over the first of the view. -/
theorem GappedAt.view_damaged (hc : CompactedFrom m b) : b (dataStart + 1) = 3 := by
  have hfirst : (directory m).packedStart 1 = dataStart := by
    rw [Directory.packedStart_succ, Directory.packedStart_zero, Directory.liveLength,
      h.slot_zero_free, if_neg Bool.false_ne_true, Nat.add_zero]
  have hmove := Directory.moved_packed (directory m) m h.holds.1
    (show 1 < cacheMaxEntries by decide) (show 1 < ((directory m).slot 1).length by
      rw [h.slot_one]
      decide)
  rw [hfirst, h.slot_one, Directory.moved, h.slot_zero_free, if_neg Bool.false_ne_true] at hmove
  rw [hc.data _ (Nat.le_add_right _ _), hmove]
  exact h.second

/-- The entry itself survives the compaction. -/
theorem GappedAt.found_compacted (hc : CompactedFrom m b) : getBytes b [98] = some [2, 3] := by
  have hleft : (directory m).leftFor m 1 = [2, 3] := by
    rw [Directory.leftFor, Directory.moved, h.slot_zero_free, if_neg Bool.false_ne_true]
    exact h.bytes
  have hget := (hc.getBytes_cases h.wellFormed h.holds).1
  rw [hleft, h.slot_one] at hget
  exact hget rfl

end Gapped

/-- **A view goes bad.** Store `a`, store `b` behind it, remove `a`, and ask for `b`: the view has the
bytes 2, 3.  A `Put` of a third key that is refused as too large compacts the file, and the view no
longer has them, though nobody touched `b` and `Get` answers 2, 3 as before. -/
theorem view_goes_bad : ∃ m₀ m v, RunFrom (fun _ => 0) gapped m₀ ∧ get m₀ [98] = some v ∧
    v.bytes m₀ = [2, 3] ∧
    Run (Guarded (fun m op => op.LeavesEntry [98] m) Step) m₀ [.put [99] (some oversized)] m ∧
    getBytes m [98] = some [2, 3] ∧ v.bytes m ≠ [2, 3] := by
  have hgapped := gapped_spec (initMmap_fresh (runFrom_zeros []).1)
  have hrun := runFrom_zeros gapped
  generalize execAll (initMmap (.start fun _ => 0)).mem gapped = m₀ at hgapped hrun
  obtain ⟨hok, hc⟩ := put_oversized hgapped.wellFormed [99]
  have hstep : Step m₀ (.put [99] (some oversized)) (put (.start m₀) [99] (some oversized)).2.mem := by
    rw [Step, exec_put]
  -- from here on the mapping is only known by the compaction
  generalize (put (.start m₀) [99] (some oversized)).2.mem = m at hc hstep
  have helse : (Op.put [99] (some oversized)).LeavesEntry [98] m₀ := by
    intro _
    exact hok
  obtain ⟨hget, hbytes⟩ := hgapped.get
  have hbyte := hgapped.view_damaged hc
  refine ⟨m₀, m, _, hrun, hget, hbytes, .single ⟨helse, hstep⟩, hgapped.found_compacted hc, ?_⟩
  intro hsame
  have hread : read m (dataStart + 1) 2 = read m₀ (dataStart + 1) 2 := hsame.trans hbytes.symm
  have hfirst := read_eq_iff.mp hread 0 Nat.two_pos
  rw [Nat.add_zero, hbyte, hgapped.first] at hfirst
  exact absurd hfirst (by decide)

end CCache.Cache
