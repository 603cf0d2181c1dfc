/-
# CCache.Cache.Refinement — the cache file as a map from key names to values.

The history of a run is the list of its operations with what they returned; `Call.edit` reads each
call as an edit of a map from key names.  `Tracks P m f` relates a file to such a map: the used slots
are the keys of `f`, and `P` relates each slot to the value of its key.  One lemma per change of the
file keeps it, for any `P` that a store establishes and that changes elsewhere do not disturb
(`Framed`).  With the lengths as values every operation keeps it, compactions included; with the bytes
as values it is kept as long as each compaction meets `NoClobber`.
-/
import CCache.Cache.CompactionBytes
import CCache.Lib.KeyValue
import Mathlib.Data.Set.Card

namespace CCache.Cache

open CCache.Lib.ByteMemory
open CCache.Lib.CString
open CCache.Lib.Runs
open CCache.Lib.KeyValue

/-! ## Histories -/

/-- An operation with what it returned. -/
structure Call where
  op : Op
  answer : Answer

/-- A call as an edit of the map from key names to values: only a `Put` or `Remove` that answered
true, and `Clear`, count. -/
def Call.edit {ν : Type*} (value : Blob → ν) : Call → Edit (List UInt8) ν
  | ⟨.put key (some data), .done true⟩ => .set (keyName key) (value data)
  | ⟨.remove key, .done true⟩ => .delete (keyName key)
  | ⟨.clear, _⟩ => .clear
  | _ => .skip

/-- One operation as a transition labelled with its answer. -/
def Recorded (m : Mem) (call : Call) (m' : Mem) : Prop :=
  call.answer = call.op.answer m ∧ Step m call.op m'

/-- The operation is a `Put` that has to run `CompactCache`. -/
def Op.Compacts (m : Mem) : Op → Prop
  | .put _ (some data) => Cache.Compacts m data.length
  | _ => False

/-- The history of a run from an initialised cache. -/
def HistoryFrom (file : Mem) (history : List Call) (m : Mem) : Prop :=
  accepted file = false ∧ Run Recorded (initMmap (.start file)).mem history m

/-- The history of a run whose compactions all start where `guard` holds. -/
def GuardedHistory (guard : Mem → Prop) (file : Mem) (history : List Call) (m : Mem) : Prop :=
  accepted file = false ∧
    Run (Guarded (fun m call => call.op.Compacts m → guard m) Recorded)
      (initMmap (.start file)).mem history m

/-- The history of a run in which no `Put` has to call `CompactCache`. -/
def QuietHistory : Mem → List Call → Mem → Prop := GuardedHistory fun _ => False

theorem QuietHistory.guarded {guard : Mem → Prop} {file m : Mem} {history : List Call}
    (h : QuietHistory file history m) : GuardedHistory guard file history m :=
  ⟨h.1, h.2.mono fun _ _ _ hstep => ⟨fun hc => (hstep.1 hc).elim, hstep.2⟩⟩

/-- The history of the given operations. -/
def recordAll (m : Mem) : List Op → List Call
  | [] => []
  | op :: ops => ⟨op, op.answer m⟩ :: recordAll (op.exec m).mem ops

theorem run_recordAll (m : Mem) (ops : List Op) :
    Run Recorded m (recordAll m ops) (execAll m ops) := by
  induction ops generalizing m with
  | nil => exact .nil
  | cons op ops ih => exact Run.cons ⟨rfl, rfl⟩ (ih _)

/-- Every list of operations on a zeroed file has a history. -/
theorem historyFrom_zeros (ops : List Op) :
    HistoryFrom (fun _ => 0) (recordAll (initMmap (.start fun _ => 0)).mem ops)
      (execAll (initMmap (.start fun _ => 0)).mem ops) :=
  ⟨by decide, run_recordAll _ _⟩

/-! ## Files that track a map -/

section Tracks

variable {ν : Type*}

/-- The used slots of `m` are the keys of `f`, and `P` holds of each slot and the value of its key. -/
structure Tracks (P : Mem → Slot → ν → Prop) (m : Mem) (f : List UInt8 → Option ν) : Prop where
  wellFormed : WellFormed (directory m)
  slots : ∀ i, ((directory m).slot i).used = true →
    ∃ v, f ((directory m).slot i).name = some v ∧ P m ((directory m).slot i) v
  keys : ∀ n v, f n = some v →
    ∃ i, ((directory m).slot i).used = true ∧ ((directory m).slot i).name = n

/-- What a relation between slots and values needs for a store and a removal to keep it. -/
structure Framed (value : Blob → ν) (P : Mem → Slot → ν → Prop) : Prop where
  self : ∀ {b k : Mem} {key : List UInt8} {data : Blob} {idx : Nat}, WellFormed (directory b) →
    StoredAt b key data idx k → P k ((directory k).slot idx) (value data)
  frame : ∀ {m k : Mem} {e : Slot} {v : ν}, e.bytes k = e.bytes m → P m e v → P k e v

variable {value : Blob → ν} {P : Mem → Slot → ν → Prop} {m b k : Mem} {f : List UInt8 → Option ν}
  {key : List UInt8} {data : Blob} {idx : Nat}

theorem Tracks.of_fresh (h : directory m = .fresh) : Tracks P m fun _ => none where
  wellFormed := h ▸ .fresh
  slots := by
    intro i hi
    rw [h] at hi
    exact absurd hi Bool.false_ne_true
  keys := fun n v hv => absurd hv (by simp)

/-- A store sets the key. -/
theorem Tracks.stored (hP : Framed value P) (h : Tracks P b f) (hs : StoredAt b key data idx k)
    (hlen : 0 < data.length) :
    Tracks P k (Function.update f (keyName key) (some (value data))) where
  wellFormed := hs.wellFormed h.wellFormed hlen
  slots := by
    intro i hi
    by_cases hidx : i = idx
    · rw [hidx, hs.holds_self.2, Function.update_self]
      exact ⟨_, rfl, hP.self h.wellFormed hs⟩
    · rw [hs.slot_ne hidx] at hi ⊢
      obtain ⟨v, hv, hPv⟩ := h.slots i hi
      rw [Function.update_of_ne (h.wellFormed.name_ne_of_target hs.target hi hidx)]
      exact ⟨v, hv, hP.frame (hs.bytes_ne h.wellFormed hi) hPv⟩
  keys := by
    intro n v hv
    by_cases hn : n = keyName key
    · exact ⟨idx, hs.holds_self.1, hs.holds_self.2.trans hn.symm⟩
    · rw [Function.update_of_ne hn] at hv
      obtain ⟨i, hi, hname⟩ := h.keys n v hv
      -- the slot of another name is not the one that was written
      have hidx : i ≠ idx := by
        rintro rfl
        rcases hs.target with ht | ⟨⟨hfree, -⟩, -⟩
        · exact hn (hname.symm.trans ht.2)
        · rw [hi] at hfree
          exact Bool.false_ne_true hfree.symm
      rw [← hs.slot_ne hidx] at hi hname
      exact ⟨i, hi, hname⟩

/-- A removal deletes the key. -/
theorem Tracks.erased (hP : Framed value P) (h : Tracks P m f) (he : ErasedAt m key idx k) :
    Tracks P k (Function.update f (keyName key) none) where
  wellFormed := he.wellFormed h.wellFormed
  slots := by
    intro i hi
    rw [he.dir] at hi ⊢
    obtain ⟨hidx, hi⟩ := WellFormed.of_erase_used hi
    rw [Directory.erase_slot_ne _ hidx]
    have hname : ((directory m).slot i).name ≠ keyName key := fun hname =>
      hidx (h.wellFormed.names i idx hi he.held.1 (hname.trans he.held.2.symm))
    obtain ⟨v, hv, hPv⟩ := h.slots i hi
    have hlo := h.wellFormed.extent_lo i hi
    rw [Function.update_of_ne hname]
    exact ⟨v, hv, hP.frame (read_congr fun j _ => he.data _ (by omega)) hPv⟩
  keys := by
    intro n v hv
    have hn : n ≠ keyName key := by
      rintro rfl
      rw [Function.update_self] at hv
      cases hv
    rw [Function.update_of_ne hn] at hv
    obtain ⟨i, hi, hname⟩ := h.keys n v hv
    have hidx : i ≠ idx := by
      rintro rfl
      exact hn (hname.symm.trans he.held.2)
    rw [he.dir]
    refine ⟨i, ?_, ?_⟩
    · rwa [Directory.erase_slot_ne _ hidx]
    · rwa [Directory.erase_slot_ne _ hidx]

/-- Compaction keeps the map when it keeps what `P` says of each slot. -/
theorem Tracks.compacted (h : Tracks P m f) (hc : CompactedFrom m b)
    (hP : ∀ i v, ((directory m).slot i).used = true → P m ((directory m).slot i) v →
      P b ((directory b).slot i) v) : Tracks P b f where
  wellFormed := hc.wellFormed h.wellFormed
  slots := by
    intro i hi
    have hused : ((directory m).slot i).used = true := by
      rwa [hc.dir, Directory.compacted_used] at hi
    obtain ⟨v, hv, hPv⟩ := h.slots i hused
    refine ⟨v, ?_, hP i v hused hPv⟩
    rw [hc.dir, Directory.compacted_name, hv]
  keys := by
    intro n v hv
    obtain ⟨i, hi, hname⟩ := h.keys n v hv
    rw [hc.dir]
    refine ⟨i, ?_, ?_⟩
    · rwa [Directory.compacted_used]
    · rwa [Directory.compacted_name]

/-- **One call edits the map**, provided a compaction it runs keeps it. -/
theorem Tracks.call (hP : Framed value P) {m' : Mem} {c : Call} (h : Tracks P m f)
    (hcomp : c.op.Compacts m → ∀ b, CompactedFrom m b → Tracks P b f) (hc : Recorded m c m') :
    Tracks P m' ((c.edit value).apply f) := by
  obtain ⟨op, answer⟩ := c
  obtain ⟨hans, hstep⟩ := hc
  simp only at hans hstep
  rw [hans, hstep]
  cases op with
  | put key data =>
    by_cases hdata : ∀ b, data = some b → b.length = 0
    · simp only [Op.exec, Op.answer, put_rejects key hdata, Call.edit, Edit.apply]
      exact h
    · push Not at hdata
      obtain ⟨data, rfl, hlen⟩ := hdata
      have hpos : 0 < data.length := Nat.pos_of_ne_zero hlen
      obtain ⟨-, b, hroom, -, hcase⟩ := put_cases (s := .start m) h.wellFormed
        (Mapping.safe_start m) key hpos
      have hb : Tracks P b f := by
        rcases hroom with ⟨-, rfl⟩ | ⟨hfull, hfrom⟩
        · exact h
        · refine hcomp ⟨hpos, ?_⟩ b hfrom
          rw [availableSpace_eq h.wellFormed]
          exact hfull
      rcases hcase with ⟨hok, hmem, -⟩ | ⟨hok, idx, hs⟩
      · simp only [Op.exec, Op.answer, hok, hmem, Call.edit, Edit.apply]
        exact hb
      · simp only [Op.exec, Op.answer, hok, Call.edit, Edit.apply]
        exact hb.stored hP hs hpos
  | get key => exact h
  | remove key =>
    rcases remove_erased h.wellFormed key with ⟨-, hrem⟩ | ⟨idx, hok, he⟩
    · simp only [Op.exec, Op.answer, hrem, Call.edit, Edit.apply]
      exact h
    · simp only [Op.exec, Op.answer, hok, Call.edit, Edit.apply]
      exact h.erased hP he
  | clear => exact .of_fresh (initializeCache_spec (.start m)).1
  | restart =>
    simp only [Op.exec, initMmap_of_wellFormed h.wellFormed, Call.edit, Edit.apply]
    exact h

/-- **A run replays its history**, when the compactions it allows keep the map. -/
theorem GuardedHistory.tracks (hP : Framed value P) {guard : Mem → Prop}
    (hguard : ∀ m f b, guard m → Tracks P m f → CompactedFrom m b → Tracks P b f) {file : Mem}
    {history : List Call} (h : GuardedHistory guard file history m) :
    Tracks P m (replay (history.map (Call.edit value))) := by
  refine h.2.traceInvariant (I := fun history m => Tracks P m (replay (history.map (Call.edit value))))
    ?_ ?_
  · exact .of_fresh (initMmap_fresh h.1)
  · intro calls t c u _ ht hstep
    rw [List.map_append, List.map_singleton, replay_snoc]
    exact ht.call hP (fun hc b hb => hguard t _ b (hstep.1 hc) ht hb) hstep.2

end Tracks

/-! ## Lengths, compactions included -/

/-- The slot has the recorded length. -/
def HasLength (_ : Mem) (e : Slot) (length : Nat) : Prop := e.length = length

theorem framed_length : Framed Blob.length HasLength where
  self := fun _ hs => by
    rw [hs.slot_self]
    rfl
  frame := fun _ h => h

theorem HistoryFrom.guarded {file m : Mem} {history : List Call} (h : HistoryFrom file history m) :
    GuardedHistory (fun _ => True) file history m :=
  ⟨h.1, h.2.mono fun _ _ _ hstep => ⟨fun _ => trivial, hstep⟩⟩

/-- The lengths the successful calls of a history leave: `Put` sets `t(k)`, `Remove` deletes it,
`Clear` empties the map. -/
def lengths (history : List Call) : List UInt8 → Option Nat :=
  replay (history.map (Call.edit Blob.length))

theorem HistoryFrom.tracks {file m : Mem} {history : List Call} (h : HistoryFrom file history m) :
    Tracks HasLength m (lengths history) := by
  refine h.guarded.tracks framed_length fun m f b _ ht hc => ht.compacted hc fun i v _ hlen => ?_
  rw [HasLength, hc.dir, Directory.compacted_length]
  exact hlen

/-- A key that no slot holds is absent from the map. -/
theorem Tracks.holds_iff {ν : Type*} {P : Mem → Slot → ν → Prop} {m : Mem}
    {f : List UInt8 → Option ν} (h : Tracks P m f) (key : List UInt8) :
    (∃ i, (directory m).Holds key i) ↔ ∃ v, f (keyName key) = some v := by
  constructor
  · rintro ⟨i, hi, hname⟩
    obtain ⟨v, hv, -⟩ := h.slots i hi
    exact ⟨v, hname ▸ hv⟩
  · rintro ⟨v, hv⟩
    exact h.keys _ v hv

/-- `Remove` answers true exactly on the keys of the map. -/
theorem Tracks.remove_iff {ν : Type*} {P : Mem → Slot → ν → Prop} {m : Mem}
    {f : List UInt8 → Option ν} (h : Tracks P m f) (key : List UInt8) :
    (remove (.start m) key).1 = true ↔ ∃ v, f (keyName key) = some v := by
  rw [← h.holds_iff]
  rcases remove_erased h.wellFormed key with ⟨hnone, hrem⟩ | ⟨idx, hok, he⟩
  · rw [hrem]
    exact iff_of_false Bool.false_ne_true fun ⟨j, hj⟩ => hnone j hj
  · exact iff_of_true hok ⟨idx, he.held⟩

/-- `Get` answers false on a key that is not in the map. -/
theorem Tracks.get_absent {ν : Type*} {P : Mem → Slot → ν → Prop} {m : Mem}
    {f : List UInt8 → Option ν} (h : Tracks P m f) {key : List UInt8} (hf : f (keyName key) = none) :
    get m key = none := by
  refine get_of_absent fun j hj => ?_
  obtain ⟨v, hv⟩ := (h.holds_iff key).mp ⟨j, hj⟩
  rw [hf] at hv
  cases hv

/-- The names of the used slots are the keys of the map. -/
theorem Tracks.domain {ν : Type*} {P : Mem → Slot → ν → Prop} {m : Mem} {f : List UInt8 → Option ν}
    (h : Tracks P m f) :
    {n | f n ≠ none} = ↑((directory m).usedSet.image fun i => ((directory m).slot i).name) := by
  ext n
  simp only [Set.mem_ofPred_eq, Finset.coe_image, Set.mem_image, Finset.mem_coe]
  constructor
  · intro hn
    obtain ⟨v, hv⟩ := Option.ne_none_iff_exists'.mp hn
    obtain ⟨i, hi, hname⟩ := h.keys n v hv
    exact ⟨i, h.wellFormed.mem_usedSet.mpr hi, hname⟩
  · rintro ⟨i, hi, rfl⟩
    obtain ⟨v, hv, -⟩ := h.slots i (h.wellFormed.mem_usedSet.mp hi)
    rw [hv]
    exact Option.some_ne_none v

/-- The map has as many keys as slots are used. -/
theorem Tracks.ncard {ν : Type*} {P : Mem → Slot → ν → Prop} {m : Mem} {f : List UInt8 → Option ν}
    (h : Tracks P m f) : {n | f n ≠ none}.ncard = entryCount m := by
  rw [h.domain, Set.ncard_coe_finset, Finset.card_image_of_injOn]
  · exact h.wellFormed.count.symm
  · intro i hi j hj hname
    exact h.wellFormed.names i j (h.wellFormed.mem_usedSet.mp hi) (h.wellFormed.mem_usedSet.mp hj)
      hname

/-- **The slot table is a directory of `lengths`.** -/
structure ExactDirectory (m : Mem) (lengths : List UInt8 → Option Nat) : Prop where
  /-- A used slot's key field is a NUL-terminated string. -/
  terminated : ∀ i, i < cacheMaxEntries → entryIsUsed m i = true → 0 ∈ entryKey m i
  /-- The keys of two used slots differ. -/
  different : ∀ i j, i < cacheMaxEntries → j < cacheMaxEntries → entryIsUsed m i = true →
    entryIsUsed m j = true → cstr (entryKey m i) = cstr (entryKey m j) → i = j
  /-- Stored keys with their lengths are the entries of the map. -/
  entries : ∀ n l, lengths n = some l ↔ ∃ i, i < cacheMaxEntries ∧ entryIsUsed m i = true ∧
    cstr (entryKey m i) = n ∧ entryLength m i = l
  finite : {n | lengths n ≠ none}.Finite
  count : getEntryCount m = {n | lengths n ≠ none}.ncard
  count_le : getEntryCount m ≤ cacheMaxEntries
  /-- `entry_count--` does not underflow. -/
  count_pos : ∀ key, (remove (.start m) key).1 = true → 0 < entryCount m
  get_absent : ∀ key, lengths (keyName key) = none → get m key = none
  remove_absent : ∀ key, lengths (keyName key) = none → (remove (.start m) key).1 = false
  get_length : ∀ key v, get m key = some v → lengths (keyName key) = some v.length

/-- A key field holds its name followed by a NUL. -/
theorem keyField_terminated (key : List UInt8) :
    (0 : UInt8) ∈ keyField key ∧ cstr (keyField key) = keyName key := by
  have hzero : (0 : UInt8) ∈ keyField key := List.mem_append_right _ List.mem_cons_self
  refine ⟨hzero, ?_⟩
  -- a NUL among 256 bytes ends the string within 255
  have hlen : (keyField key).length = 256 := by
    simp [keyField, sizeofKey]
  have hlt : (cstr (keyField key)).length < (keyField key).length := by
    by_contra hle
    have hpre : cstr (keyField key) = keyField key :=
      (List.takeWhile_prefix _).eq_of_length (le_antisymm (List.takeWhile_prefix _).length_le
        (Nat.not_lt.mp hle))
    rw [← hpre] at hzero
    exact absurd (List.mem_takeWhile_imp hzero) (by decide)
  rw [← keyName_keyField key, keyName, trunc, List.take_of_length_le]
  simp only [sizeofKey]
  omega

/-- The key of a used slot as a NUL-terminated string. -/
theorem WellFormed.entryKey_cstr {m : Mem} (h : WellFormed (directory m)) {i : Nat}
    (hi : ((directory m).slot i).used = true) :
    (0 : UInt8) ∈ entryKey m i ∧ cstr (entryKey m i) = ((directory m).slot i).name := by
  rw [entryKey_eq (h.table i hi), h.key_field i hi, Slot.name]
  obtain ⟨hzero, hname⟩ := keyField_terminated ((directory m).slot i).key
  exact ⟨hzero, hname⟩

/-- **The slot table is an exact directory**, in every state of every run, compactions included. -/
theorem slot_table_exact {file m : Mem} {history : List Call} (h : HistoryFrom file history m) :
    ExactDirectory m (lengths history) := by
  have ht := h.tracks
  have hwf := ht.wellFormed
  have hused : ∀ i, i < cacheMaxEntries → entryIsUsed m i = true →
      ((directory m).slot i).used = true := fun i hi hu => by rwa [entryIsUsed_eq hi] at hu
  refine
    { terminated := fun i hi hu => (hwf.entryKey_cstr (hused i hi hu)).1
      different := ?_, entries := ?_, finite := ?_, count := ht.ncard.symm
      count_le := hwf.count_le, count_pos := ?_, get_absent := fun key => ht.get_absent
      remove_absent := ?_, get_length := ?_ }
  · intro i j hi hj hui huj hname
    rw [(hwf.entryKey_cstr (hused i hi hui)).2, (hwf.entryKey_cstr (hused j hj huj)).2] at hname
    exact hwf.names i j (hused i hi hui) (hused j hj huj) hname
  · intro n l
    constructor
    · intro hn
      obtain ⟨i, hi, rfl⟩ := ht.keys n l hn
      obtain ⟨v, hv, hlen⟩ := ht.slots i hi
      rw [hn] at hv
      obtain rfl := Option.some.inj hv
      have hlt := hwf.table i hi
      refine ⟨i, hlt, ?_, (hwf.entryKey_cstr hi).2, ?_⟩
      · rw [entryIsUsed_eq hlt, hi]
      · rw [entryLength_eq hlt]
        exact hlen
    · rintro ⟨i, hi, hu, rfl, rfl⟩
      obtain ⟨v, hv, hlen⟩ := ht.slots i (hused i hi hu)
      rw [(hwf.entryKey_cstr (hused i hi hu)).2, hv, entryLength_eq hi]
      exact congrArg some hlen.symm
  · rw [ht.domain]
    exact Finset.finite_toSet _
  · intro key hrem
    rcases remove_erased hwf key with ⟨-, hr⟩ | ⟨idx, -, he⟩
    · rw [hr] at hrem
      cases hrem
    · exact hwf.count_pos_of_used he.held.1
  · intro key hn
    rw [Bool.eq_false_iff, ne_eq, ht.remove_iff]
    rintro ⟨v, hv⟩
    rw [hn] at hv
    cases hv
  · intro key v hg
    obtain ⟨i, hh, -, rfl⟩ := holds_of_get hwf.names hg
    obtain ⟨l, hl, hlen⟩ := ht.slots i hh.1
    rw [hh.2] at hl
    rw [hl]
    exact congrArg some hlen.symm

/-- After `spaced` an overwrite of `c`, and a `Put` that compacts and is refused. -/
def spacedOn : List Op :=
  spaced ++ [.put [99] (some ⟨[5], by decide⟩), .put [100] (some oversized)]

/-- What the operations of `spacedOn` answer, from a fresh directory. -/
theorem recordAll_spacedOn {m : Mem} (h : directory m = .fresh) :
    recordAll m spacedOn = (spacedOn.take 5).map (⟨·, .done true⟩) ++
      [⟨.put [100] (some oversized), .done false⟩] := by
  obtain ⟨hokA, ha⟩ := put_first h
  have hwfA := ha.wellFormed (h ▸ .fresh) (by decide)
  obtain ⟨hokB, hb⟩ : _ ∧ StoredAt _ [98] ⟨[2], by decide⟩ 1 _ :=
    put_second hwfA (oneStored_dir h ha) (by decide) (by decide)
  have hdirB := twoStored_dir (oneStored_dir h ha) hb
  have hwfB := hb.wellFormed hwfA (by decide)
  obtain ⟨hokC, hc⟩ := put_next hwfB hdirB
  have hheld : (directory (put (.start (put (.start (put (.start m) [97]
      (some ⟨[1], by decide⟩)).2.mem) [98] (some ⟨[2], by decide⟩)).2.mem) [99]
      (some ⟨[3, 4], by decide⟩)).2.mem).Holds [98] 1 := by
    rw [Directory.Holds, hc.slot_ne (by decide), hdirB]
    exact ⟨rfl, by decide⟩
  obtain ⟨hokD, hd⟩ := remove_held (hc.wellFormed hwfB (by decide)) hheld
  have hspaced := SpacedAt.of_stored h ha hb hc hd
  obtain ⟨hokE, he⟩ : _ ∧ StoredAt _ [99] ⟨[5], by decide⟩ 2 _ :=
    put_stored hspaced.wellFormed (by decide) (by rw [hspaced.dir]; decide) (by decide)
      (.inl hspaced.holds_two)
  have hokF := (put_oversized (he.wellFormed hspaced.wellFormed (by decide)) [100]).1
  simp only [spacedOn, spaced, overwritten, List.take_succ_cons, List.take_zero, List.cons_append,
    List.nil_append, List.map_cons, List.map_nil, recordAll, Op.answer, Op.exec, hokA, hokB, hokC, hokD,
    hokE, hokF]

/-- After `spacedOn` the keys are `a` and `c`, `c` with the length of its second value. -/
theorem slot_table_exact_spaced : ∃ history m, HistoryFrom (fun _ => 0) history m ∧
    history.map Call.op = spacedOn ∧
    (lengths history [97] = some 1 ∧ lengths history [98] = none ∧ lengths history [99] = some 1 ∧
      lengths history [100] = none) ∧ ExactDirectory m (lengths history) := by
  have hrun := historyFrom_zeros spacedOn
  rw [recordAll_spacedOn (initMmap_fresh (runFrom_zeros []).1)] at hrun
  refine ⟨_, _, hrun, rfl, ?_, slot_table_exact hrun⟩
  exact ⟨rfl, rfl, rfl, rfl⟩

end CCache.Cache
