/-
# CCache.Cache.Store — the cache as a bounded map from key names to values.

What the cache is for, without offsets, slots or checksums: a map from key names to byte strings whose
values fit in the data area and whose keys fit in the slot table.  As long as each compaction meets
`NoClobber`, no answer of the cache tells it from this map: `Put` succeeds exactly when the map accepts
the value, `Get` answers with what the map holds, `Remove` tells whether the key was there.
-/
import CCache.Cache.Packing
import CCache.Cache.Values
import CCache.Lib.BoundedMap
import CCache.Lib.Machine

namespace CCache.Cache

open CCache.Lib
open CCache.Lib.ByteMemory
open CCache.Lib.KeyValue
open CCache.Lib.PartialMap
open CCache.Lib.Machine

/-! ## The abstract store -/

/-- The room of the file: the bytes of its data area and the slots of its table. -/
def roomOfFile : Limits := ⟨cacheFileSize - dataStart, cacheMaxEntries⟩

/-- The store the cache implements: key names with their values. -/
abbrev Store : Type := BoundedMap (List UInt8) (List UInt8) List.length roomOfFile

/-- The operations on the store. -/
noncomputable def Op.serve (b : Store) : Op → Answer × Store
  | .put _ none => (.done false, b)
  | .put key (some data) => (.done (b.put (keyName key) data.bytes).1, (b.put (keyName key) data.bytes).2)
  | .get key => (.found (b.get (keyName key)), b)
  | .remove key => (.done (b.remove (keyName key)).1, (b.remove (keyName key)).2)
  | .clear => (.unit, .empty)
  | .restart => (.unit, b)

/-! ## What the file holds of the store -/

section Tracks

variable {m : Mem} {f : List UInt8 → Option (List UInt8)}

/-- The live bytes of the file are the bytes of all values. -/
theorem Tracks.total_eq (h : Tracks HasBytes m f) : total List.length f = liveBytes m := by
  have hcover : keySet f ⊆ ↑((directory m).usedSet.image fun i => ((directory m).slot i).name) :=
    h.domain.subset
  have hinj : Set.InjOn (fun i => ((directory m).slot i).name) ↑(directory m).usedSet := by
    intro i hi j hj hname
    exact h.wellFormed.names i j (h.wellFormed.mem_usedSet.mp hi) (h.wellFormed.mem_usedSet.mp hj)
      hname
  rw [total_eq_sum hcover, Finset.sum_image hinj, liveBytes, usedEntries_eq]
  refine Finset.sum_congr rfl fun i hi => ?_
  have hused := h.wellFormed.mem_usedSet.mp hi
  obtain ⟨v, hv, hbytes, -⟩ := h.slots i hused
  have hlen : ((directory m).slot i).length = v.length := by
    rw [← hbytes]
    exact (Lib.ByteMemory.read_length _ _ _).symm
  rw [hv, entryLength_eq (h.wellFormed.table i hused), hlen]
  rfl

/-- A key is present when some slot holds it. -/
theorem Tracks.present_iff (h : Tracks HasBytes m f) (key : List UInt8) :
    f (keyName key) ≠ none ↔ KeyStored m key := by
  rw [keyStored_iff, h.holds_iff, Option.ne_none_iff_exists']

/-- As many keys as used slots. -/
theorem Tracks.keys_card (h : Tracks HasBytes m f) : (keySet f).ncard = (usedEntries m).card := by
  rw [usedEntries_eq]
  exact h.ncard.trans h.wellFormed.count

end Tracks

/-- `Put` on a well-formed file succeeds exactly when there is room for the value and for the key. -/
theorem put_ok_iff {m : Mem} (h : WellFormed (directory m)) (key : List UInt8) {data : Blob}
    (hlen : 0 < data.length) :
    (put (.start m) key (some data)).1 = true ↔
      dataStart + liveBytes m + data.length ≤ cacheFileSize ∧
        (KeyStored m key ∨ (usedEntries m).card < cacheMaxEntries) := by
  obtain ⟨-, b, hroom, -, hcase⟩ := put_cases (s := .start m) h (Mapping.safe_start m) key hlen
  have href := hroom.refused_iff h key
  rcases hcase with ⟨hok, -, hrefused⟩ | ⟨hok, idx, hstored⟩
  · rw [hok]
    exact iff_of_false Bool.false_ne_true (href.mp hrefused)
  · refine iff_of_true hok ?_
    by_contra hnot
    exact hstored.not_refused (href.mpr hnot)

section Store

variable {m m' : Mem} {b : Store} {key : List UInt8} {data : Blob} {c : Call}

/-- **`Put` accepts what the store accepts.** -/
theorem Tracks.put_iff (h : Tracks HasBytes m b.get) (key : List UInt8) (data : Blob) :
    (put (.start m) key (some data)).1 = true ↔ b.Accepts (keyName key) data.bytes := by
  rcases Nat.eq_zero_or_pos data.length with hlen | hlen
  · rw [put_rejects key fun b hb => by rw [← Option.some.inj hb, hlen]]
    exact iff_of_false Bool.false_ne_true fun hpos => absurd hlen (Nat.ne_of_gt hpos.1)
  · have hspace : total List.length b.get + data.bytes.length ≤ roomOfFile.space ↔
        dataStart + liveBytes m + data.length ≤ cacheFileSize := by
      rw [h.total_eq]
      show liveBytes m + data.length ≤ cacheFileSize - dataStart ↔ _
      have hdata : dataStart ≤ cacheFileSize := by decide
      omega
    rw [put_ok_iff h.wellFormed key hlen, BoundedMap.Accepts, and_iff_right hlen, hspace,
      h.present_iff, h.keys_card]
    rfl

/-- What a call edits is what the store makes of its operation, when the answers agree. -/
theorem edit_serve (h : c.answer = (c.op.serve b).1) :
    (c.edit Blob.bytes).apply b.get = (c.op.serve b).2.get := by
  obtain ⟨op, answer⟩ := c
  obtain rfl : answer = (op.serve b).1 := h
  cases op with
  | put key data =>
    cases data with
    | none => rfl
    | some data =>
      by_cases haccepts : b.Accepts (keyName key) data.bytes
      · obtain ⟨hok, hget⟩ := BoundedMap.put_of_accepts haccepts
        simp only [Op.serve, hok, hget, Call.edit, Edit.apply]
      · simp only [Op.serve, BoundedMap.put_of_not_accepts haccepts, Call.edit, Edit.apply]
  | get key => rfl
  | remove key =>
    cases hget : b.get (keyName key) with
    | none =>
      simp only [Op.serve, BoundedMap.get_remove_of_absent hget, BoundedMap.remove_answer, hget,
        Option.isSome_none, Call.edit, Edit.apply]
    | some v =>
      simp only [Op.serve, BoundedMap.remove_answer, hget, Option.isSome_some, Call.edit, Edit.apply]
      rfl
  | clear => rfl
  | restart => rfl

/-- **One operation is served as the store serves it**, provided a compaction it runs meets
`NoClobber`. -/
theorem Tracks.serve (h : Tracks HasBytes m b.get)
    (hguard : c.op.Compacts m → (directory m).NoClobber m) (hc : Recorded m c m') :
    c.answer = (c.op.serve b).1 ∧ Tracks HasBytes m' (c.op.serve b).2.get := by
  have hanswer : c.answer = (c.op.serve b).1 := by
    rw [hc.1]
    cases c.op with
    | put key data =>
      cases data with
      | none => exact congrArg Answer.done (congrArg Prod.fst (put_rejects key (by simp)))
      | some data =>
        refine congrArg Answer.done ?_
        by_cases haccepts : b.Accepts (keyName key) data.bytes
        · rw [(BoundedMap.put_of_accepts haccepts).1, (h.put_iff key data).mpr haccepts]
        · rw [BoundedMap.put_of_not_accepts haccepts, Bool.eq_false_iff]
          exact fun hok => haccepts ((h.put_iff key data).mp hok)
    | get key => exact congrArg Answer.found (h.getBytes_eq key)
    | remove key =>
      refine congrArg Answer.done ?_
      rw [Bool.eq_iff_iff, h.remove_iff, BoundedMap.remove_answer, Option.isSome_iff_exists]
    | clear => rfl
    | restart => rfl
  refine ⟨hanswer, ?_⟩
  rw [← edit_serve hanswer]
  exact h.call framed_bytes (fun hcompacts b hb => h.compacted_bytes (hguard hcompacts) hb) hc

end Store

/-! ## Runs -/

/-- **The cache is a bounded map.** In every run from an initialised cache whose compactions all meet
`NoClobber`, every answer is that of the bounded map, run over the same operations; and the map it has
come to is what `Get` finds in the file, its keys are as many as `GetEntryCount` says, and its bytes
are the live bytes. -/
theorem serves_bounded_map {file m : Mem} {history : List Call}
    (h : GuardedHistory (fun m => (directory m).NoClobber m) file history m) :
    history.map Call.answer = answers (fun b op => Op.serve b op) .empty (history.map Call.op) ∧
      ∃ b : Store, b = after (fun b op => Op.serve b op) .empty (history.map Call.op) ∧
        (∀ key, getBytes m key = b.get (keyName key)) ∧ getEntryCount m = (keySet b.get).ncard ∧
        liveBytes m = total List.length b.get := by
  have hfresh : Tracks HasBytes (initMmap (.start file)).mem (BoundedMap.empty : Store).get :=
    .of_fresh (initMmap_fresh h.1)
  have hstep : ∀ m c m' (b : Store), Tracks HasBytes m b.get →
      Runs.Guarded (fun m call => call.op.Compacts m → (directory m).NoClobber m) Recorded m c m' →
      c.answer = (c.op.serve b).1 ∧ Tracks HasBytes m' (c.op.serve b).2.get :=
    fun m c m' b ht hstep => ht.serve hstep.1 hstep.2
  obtain ⟨hanswers, htracks⟩ := explained (R := fun m (b : Store) => Tracks HasBytes m b.get)
    (fun m c m' b => hstep m c m' b) hfresh h.2
  exact ⟨hanswers, _, rfl, htracks.getBytes_eq, htracks.ncard.symm, htracks.total_eq.symm⟩

/-- A store on a new file, and the value read back. -/
theorem serves_bounded_map_stored : ∃ history : List Call,
    history.map Call.op = [.put [97] (some ⟨[1], by decide⟩), .get [97]] ∧
      history.map Call.answer = answers (fun b op => Op.serve b op) .empty
        [.put [97] (some ⟨[1], by decide⟩), .get [97]] := by
  have hfresh := initMmap_fresh (runFrom_zeros []).1
  generalize hm : (initMmap (.start fun _ => 0)).mem = m at hfresh
  have hrun : GuardedHistory (fun m => (directory m).NoClobber m) (fun _ => 0)
      (recordAll m [.put [97] (some ⟨[1], by decide⟩), .get [97]])
      (execAll m [.put [97] (some ⟨[1], by decide⟩), .get [97]]) := by
    refine ⟨by decide, ?_⟩
    rw [hm]
    refine Runs.Run.cons ⟨fun hc => ?_, rfl, rfl⟩ (Runs.Run.single ⟨fun hc => hc.elim, rfl, rfl⟩)
    -- one byte fits behind `next_offset` of a new file
    obtain ⟨-, hfull⟩ := hc
    have hwf : WellFormed (directory m) := hfresh ▸ .fresh
    have hnext : nextOffset m = dataStart := congrArg Directory.next hfresh
    rw [availableSpace_eq hwf, hnext] at hfull
    exact absurd hfull (by decide)
  exact ⟨_, rfl, (serves_bounded_map hrun).1⟩

end CCache.Cache
