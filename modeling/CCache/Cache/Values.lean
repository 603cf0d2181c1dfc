/-
# CCache.Cache.Values — the stored values, as long as no compaction clobbers them.

Between compactions the file is a map from key names to values: each used slot points to the bytes of
the latest successful `Put` of its key, and its checksum is theirs, so `Get` answers with exactly
these bytes.  A compaction that meets `NoClobber` keeps this, hence so does every run whose
compactions do.
-/
import CCache.Cache.Refinement

namespace CCache.Cache

open CCache.Lib.ByteMemory
open CCache.Lib.KeyValue
open CCache.Lib.Runs

/-- The slot points to the value, and its checksum is the value's. -/
def HasBytes (m : Mem) (e : Slot) (bytes : List UInt8) : Prop := e.bytes m = bytes ∧ e.Intact m

theorem framed_bytes : Framed Blob.bytes HasBytes where
  self := by
    intro b k key data idx hb hs
    have hbytes := hs.bytes_self hb
    refine ⟨hbytes, ?_⟩
    rw [Slot.Intact, hbytes, hs.slot_self]
    rfl
  frame := by
    intro m k e v hbytes h
    rw [HasBytes, Slot.Intact, hbytes]
    exact h

/-- The values the successful calls of a history leave. -/
def values (history : List Call) : List UInt8 → Option (List UInt8) :=
  replay (history.map (Call.edit Blob.bytes))

/-- A compaction under `NoClobber` keeps the values. -/
theorem Tracks.compacted_bytes {m b : Mem} {f : List UInt8 → Option (List UInt8)}
    (hn : (directory m).NoClobber m) (h : Tracks HasBytes m f) (hc : CompactedFrom m b) :
    Tracks HasBytes b f := by
  refine h.compacted hc fun i v hu hv => ?_
  have hbytes : ((directory b).slot i).bytes b = ((directory m).slot i).bytes m := by
    rw [hc.bytes_eq_iff h.wellFormed hu]
    exact fun k hk => Directory.bytesKept_of_noClobber hn i (h.wellFormed.table i hu) hu k hk
  have hsum : ((directory b).slot i).checksum = ((directory m).slot i).checksum := by
    rw [hc.dir, Directory.compacted_checksum]
  rw [HasBytes, Slot.Intact, hbytes, hsum]
  exact hv

/-- **Values survive every run whose compactions meet `NoClobber`.** -/
theorem GuardedHistory.tracks_bytes {file m : Mem} {history : List Call}
    (h : GuardedHistory (fun m => (directory m).NoClobber m) file history m) :
    Tracks HasBytes m (values history) :=
  h.tracks framed_bytes fun _ _ _ hn ht hc => ht.compacted_bytes hn hc

/-- The bytes `Get` answers with are the value of the map. -/
theorem Tracks.getBytes_eq {m : Mem} {f : List UInt8 → Option (List UInt8)}
    (h : Tracks HasBytes m f) (key : List UInt8) : getBytes m key = f (keyName key) := by
  cases hf : f (keyName key) with
  | none => rw [getBytes, h.get_absent hf, Option.map_none]
  | some v =>
    obtain ⟨i, hh⟩ := (h.holds_iff key).mpr ⟨v, hf⟩
    obtain ⟨w, hw, hbytes, hintact⟩ := h.slots i hh.1
    rw [hh.2, hf] at hw
    rw [(getBytes_of_holds h.wellFormed.names hh).1 hintact, hbytes, Option.some.inj hw]

/-- The operation is about another key name, or about none. -/
def Op.Elsewhere (key : List UInt8) : Op → Prop
  | .put other _ => keyName other ≠ keyName key
  | .remove other => keyName other ≠ keyName key
  | .get _ => True
  | .clear => False
  | .restart => True

theorem Call.not_touches_of_elsewhere {ν : Type*} {value : Blob → ν} {key : List UInt8} {c : Call}
    (h : c.op.Elsewhere key) : ¬ (c.edit value).Touches (keyName key) := by
  obtain ⟨op, answer⟩ := c
  cases op with
  | put other data =>
    rcases data with _ | data
    · exact id
    · rcases answer with (_ | _) | _ | _
      · exact id
      · exact h
      · exact id
      · exact id
  | get other => exact id
  | remove other =>
    rcases answer with (_ | _) | _ | _
    · exact id
    · exact h
    · exact id
    · exact id
  | clear => exact h.elim
  | restart => exact id

/-- **Map refinement between compactions.** `Get` succeeds exactly on the keys whose latest
successful `Put` no successful `Remove` and no `Clear` has followed, and answers with its bytes;
`Remove` succeeds on the same keys; an operation elsewhere changes neither. -/
theorem map_refinement {file m : Mem} {history : List Call} (h : QuietHistory file history m)
    (key : List UInt8) :
    (∀ bytes, getBytes m key = some bytes ↔
        Latest (history.map (Call.edit Blob.bytes)) (keyName key) bytes) ∧
      (∀ v, get m key = some v → (v.bytes m).length = v.length) ∧
      ((remove (.start m) key).1 = true ↔
        ∃ bytes, Latest (history.map (Call.edit Blob.bytes)) (keyName key) bytes) ∧
      ∀ op : Op, op.Elsewhere key → ¬ op.Compacts m →
        getBytes (op.exec m).mem key = getBytes m key ∧
          (remove (.start (op.exec m).mem) key).1 = (remove (.start m) key).1 := by
  have ht := h.guarded.tracks_bytes
  refine ⟨fun bytes => ?_, fun v _ => Lib.ByteMemory.read_length _ _ _, ?_, fun op helse hquiet => ?_⟩
  · rw [ht.getBytes_eq, values, replay_eq_some_iff]
  · rw [ht.remove_iff]
    exact exists_congr fun bytes => replay_eq_some_iff _ _ _
  · have hlater : Tracks HasBytes (op.exec m).mem _ :=
      ht.call framed_bytes (c := ⟨op, op.answer m⟩) (fun hc => absurd hc hquiet) ⟨rfl, rfl⟩
    have huntouched : ¬ (Call.edit Blob.bytes ⟨op, op.answer m⟩).Touches (keyName key) :=
      Call.not_touches_of_elsewhere helse
    have hsame := Edit.apply_of_not_touches huntouched (values history)
    refine ⟨by rw [hlater.getBytes_eq, ht.getBytes_eq, hsame], ?_⟩
    rw [Bool.eq_iff_iff, hlater.remove_iff, ht.remove_iff, hsame]

/-- The map after one store that is read back. -/
theorem map_refinement_stored : ∃ history m, QuietHistory (fun _ => 0) history m ∧
    getBytes m [97] = some [1] := by
  have hfresh := initMmap_fresh (runFrom_zeros []).1
  generalize hm : (initMmap (.start fun _ => 0)).mem = m at hfresh
  have hok : (Op.put [97] (some ⟨[1], by decide⟩)).answer m = .done true :=
    congrArg Answer.done (put_first hfresh).1
  have hquiet : QuietHistory (fun _ => 0)
      (recordAll m [.put [97] (some ⟨[1], by decide⟩), .get [97]])
      (execAll m [.put [97] (some ⟨[1], by decide⟩), .get [97]]) := by
    refine ⟨by decide, ?_⟩
    rw [hm]
    refine Run.cons ⟨fun hc => ?_, rfl, rfl⟩ (Run.single ⟨fun hc => hc, rfl, rfl⟩)
    obtain ⟨-, hfull⟩ := hc
    have hwf : WellFormed (directory m) := hfresh ▸ .fresh
    have hnext : nextOffset m = dataStart := congrArg Directory.next hfresh
    rw [availableSpace_eq hwf, hnext] at hfull
    exact absurd hfull (by decide)
  refine ⟨_, _, hquiet, ((map_refinement hquiet [97]).1 [1]).mpr ?_⟩
  refine ⟨[], [.skip], ?_, fun e he => ?_⟩
  · simp only [recordAll, List.map_cons, List.map_nil, hok]
    rfl
  · rw [List.mem_singleton.mp he]
    exact id

end CCache.Cache
