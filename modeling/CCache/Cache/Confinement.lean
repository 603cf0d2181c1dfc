/-
# CCache.Cache.Confinement — a confined table keeps every operation inside the file.

The loop of `CompactCache` is followed on an arbitrary table: as long as the slots point behind the
slot table and their values fit the file, `write_offset` is the sum of the lengths so far and every
slot is moved once.  From this each operation that takes a key touches only bytes of the file, writes
none below the data area, and leaves a confined table; so does every run.
-/
import CCache.Cache.Accesses

namespace CCache.Cache

open CCache.Lib.ByteMemory
open CCache.Lib.Runs

/-! ## The loop of `CompactCache` on any table -/

/-- The loop has packed the slots below `n` of the table `d`. -/
structure PackedBelow (d : Directory) (s : Mapping) (w n : Nat) : Prop where
  place : w = d.packedStart n
  next : (directory s.mem).next = d.next
  used : ∀ i, ((directory s.mem).slot i).used = (d.slot i).used
  length : ∀ i, ((directory s.mem).slot i).length = (d.slot i).length
  packed : ∀ i, i < n → d.Live i → ((directory s.mem).slot i).offset = d.packedStart i
  rest : ∀ i, n ≤ i → (directory s.mem).slot i = d.slot i

/-- A slot without bytes is skipped, used or not. -/
theorem compactStep_skip {s : Mapping} {w i : Nat} (hi : i < cacheMaxEntries)
    (h : ¬ (directory s.mem).Live i) : compactStep s w i = (s, w) := by
  unfold compactStep
  rw [entryIsUsed_eq hi, entryLength_eq hi]
  exact if_neg h

/-- An entry with bytes: it is moved to `write_offset`, if it is not there already. -/
theorem PackedBelow.step_live {d : Directory} {s : Mapping} {w n : Nat} (h : PackedBelow d s w n)
    (hn : n < cacheMaxEntries) (hlive : d.Live n) (hlo : dataStart ≤ (d.slot n).offset)
    (hfit : d.packedStart (n + 1) ≤ cacheFileSize) :
    PackedBelow d (compactStep s w n).1 (compactStep s w n).2 (n + 1) := by
  have hslot : (directory s.mem).slot n = d.slot n := h.rest n le_rfl
  have hstart := d.dataStart_le_packedStart n
  rw [Directory.packedStart_succ, Directory.liveLength_of_used hlive.1] at hfit
  obtain ⟨hdir, -, hw, -⟩ := compactStep_used hn hslot hlo (w := w)
    (h.place ▸ hstart) (h.place ▸ hfit) hlive.1 hlive.2
  have hother : ∀ i, i ≠ n →
      (directory (compactStep s w n).1.mem).slot i = (directory s.mem).slot i := by
    intro i hi
    rw [hdir, Directory.modify, Directory.setSlot_slot_ne _ _ hi]
  have hself : (directory (compactStep s w n).1.mem).slot n = { d.slot n with offset := w } := by
    rw [hdir, Directory.modify_slot_self, hslot]
  constructor
  case place =>
    rw [hw, h.place, Directory.packedStart_succ, Directory.liveLength_of_used hlive.1]
  case next =>
    rw [hdir, Directory.modify_next, h.next]
  case used =>
    intro i
    by_cases hi : i = n
    · rw [hi, hself]
    · rw [hother i hi, h.used]
  case length =>
    intro i
    by_cases hi : i = n
    · rw [hi, hself]
    · rw [hother i hi, h.length]
  case packed =>
    intro i hi hlive
    by_cases heq : i = n
    · rw [heq, hself]
      exact h.place
    · rw [hother i heq]
      exact h.packed i (by omega) hlive
  case rest =>
    intro i hi
    rw [hother i (by omega)]
    exact h.rest i (by omega)

/-- An entry without bytes. -/
theorem PackedBelow.step_skip {d : Directory} {s : Mapping} {w n : Nat} (h : PackedBelow d s w n)
    (hn : n < cacheMaxEntries) (hlive : ¬ d.Live n) :
    PackedBelow d (compactStep s w n).1 (compactStep s w n).2 (n + 1) := by
  have hskip : ¬ (directory s.mem).Live n := by
    rw [Directory.Live, h.rest n le_rfl]
    exact hlive
  rw [compactStep_skip hn hskip]
  constructor
  case place =>
    rw [h.place, Directory.packedStart_succ, Directory.liveLength_of_not_live hlive, Nat.add_zero]
  case next => exact h.next
  case used => exact h.used
  case length => exact h.length
  case packed =>
    intro i hi hlive'
    have hne : i ≠ n := fun heq => hlive (heq ▸ hlive')
    exact h.packed i (by omega) hlive'
  case rest =>
    intro i hi
    exact h.rest i (by omega)

/-- **One entry of the loop**, on any table: its place has to be in the file. -/
theorem PackedBelow.step {d : Directory} {s : Mapping} {w n : Nat} (h : PackedBelow d s w n)
    (hn : n < cacheMaxEntries) (hlo : d.Live n → dataStart ≤ (d.slot n).offset)
    (hfit : d.packedStart (n + 1) ≤ cacheFileSize) :
    PackedBelow d (compactStep s w n).1 (compactStep s w n).2 (n + 1) := by
  by_cases hlive : d.Live n
  · exact h.step_live hn hlive (hlo hlive) hfit
  · exact h.step_skip hn hlive

/-- The loop starts with nothing packed. -/
theorem PackedBelow.zero (s : Mapping) : PackedBelow (directory s.mem) (compactLoop s 0).1
    (compactLoop s 0).2 0 where
  place := (Directory.packedStart_zero _).symm
  next := rfl
  used := fun _ => rfl
  length := fun _ => rfl
  packed := fun i hi => absurd hi (Nat.not_lt_zero i)
  rest := fun _ _ => rfl

/-- The moves of one entry of the loop: one at most, from where the slot says to `write_offset`. -/
theorem memmoves_compactStep {s : Mapping} {w i : Nat} :
    (compactStep s w i).1.memmoves = s.memmoves ++
      if (entryIsUsed s.mem i = true ∧ 0 < entryLength s.mem i) ∧ w ≠ entryOffset s.mem i then
        [.memmove (dataPtr w) (dataStart + sub32 (entryOffset s.mem i) dataStart)
          (entryLength s.mem i)]
      else [] := by
  unfold compactStep
  by_cases hlive : entryIsUsed s.mem i = true ∧ 0 < entryLength s.mem i
  · rw [if_pos hlive]
    unfold moveEntry
    by_cases hmove : w ≠ entryOffset s.mem i
    · simp [hlive, hmove, Mapping.memmove, Mapping.setOffset, Event.memmove]
    · simp [hmove, Event.memmove]
  · rw [if_neg hlive, if_neg fun h => hlive h.1, List.append_nil]

/-- The slots below `n` point behind the slot table, and packed they fit the file. -/
structure Directory.Packable (d : Directory) (n : Nat) : Prop where
  lo : ∀ i, i < n → d.Live i → dataStart ≤ (d.slot i).offset
  fit : d.packedStart n ≤ cacheFileSize

theorem Directory.Packable.of_succ {d : Directory} {n : Nat} (h : d.Packable (n + 1)) :
    d.Packable n where
  lo := fun i hi => h.lo i (by omega)
  fit := (d.packedStart_mono (Nat.le_succ n)).trans h.fit

theorem Directory.Confined.packable {d : Directory} (h : d.Confined) {n : Nat}
    (hn : n ≤ cacheMaxEntries) : d.Packable n where
  lo := fun i hi hlive => (h.extent i (by omega) hlive).1
  fit := (d.packedStart_mono hn).trans h.packed

/-- **The loop packs** what is packable. -/
theorem packedBelow_loop {s : Mapping} {n : Nat} (hn : n ≤ cacheMaxEntries)
    (h : (directory s.mem).Packable n) :
    PackedBelow (directory s.mem) (compactLoop s n).1 (compactLoop s n).2 n := by
  induction n with
  | zero => exact .zero s
  | succ n ih =>
    have hbelow := ih (by omega) h.of_succ
    exact hbelow.step (by omega) (h.lo n (by omega)) h.fit

/-- The move of slot `i` to its place in the packed area, from where the slot says. -/
def Directory.move (d : Directory) (i : Nat) : Access :=
  .memmove (d.packedStart i) (dataStart + sub32 (d.slot i).offset dataStart) (d.slot i).length

theorem PackedBelow.memmoves_step {d : Directory} {s : Mapping} {w n : Nat}
    (h : PackedBelow d s w n) (hn : n < cacheMaxEntries) (hfit : d.packedStart n ≤ cacheFileSize) :
    (compactStep s w n).1.memmoves = s.memmoves ++
      if d.Live n ∧ d.packedStart n ≠ (d.slot n).offset then [d.move n] else [] := by
  have hsize := cacheFileSize_lt
  have hplace : dataPtr (d.packedStart n) = d.packedStart n := dataPtr_eq (by omega)
  rw [memmoves_compactStep, entryIsUsed_eq hn, entryLength_eq hn, entryOffset_eq hn, h.rest n le_rfl,
    h.place, hplace]
  rfl

/-- The loop forgets none of its moves. -/
theorem memmoves_loop_mono {s : Mapping} {a : Access} {n k : Nat} (hnk : n ≤ k)
    (ha : a ∈ (compactLoop s n).1.memmoves) : a ∈ (compactLoop s k).1.memmoves := by
  induction hnk with
  | refl => exact ha
  | step _ ih =>
    rw [compactLoop, memmoves_compactStep]
    exact List.mem_append_left _ ih

theorem memmoves_compactCache (s : Mapping) :
    (compactCache s).memmoves = (compactLoop s cacheMaxEntries).1.memmoves := by
  rw [compactCache, Mapping.setNextOffset, Mapping.memmoves_setWord]

/-- A move inside the file. -/
theorem Directory.Confined.move_safe {d : Directory} (h : d.Confined) {i : Nat}
    (hi : i < cacheMaxEntries) (hlive : d.Live i) (hoff : (d.slot i).offset < 2 ^ 32) :
    (d.move i).Safe := by
  obtain ⟨hlo, hhi⟩ := h.extent i hi hlive
  have hstart := d.dataStart_le_packedStart i
  have hend := (Directory.packedStart_add_length hlive.1 hi).trans h.packed
  have hsrc : dataStart + sub32 (d.slot i).offset dataStart = (d.slot i).offset := by
    rw [sub32_eq hoff hlo]
    omega
  rw [Directory.move, hsrc]
  exact ⟨fun _ => ⟨hstart, hend⟩, fun _ => hhi⟩

/-! ## Confined tables stay confined -/

section Confined

variable {s : Mapping} (h : (directory s.mem).Confined)
include h

theorem memmoves_loop_safe (hs : ∀ a ∈ s.memmoves, a.Safe) {n : Nat} (hn : n ≤ cacheMaxEntries) :
    ∀ a ∈ (compactLoop s n).1.memmoves, a.Safe := by
  induction n with
  | zero => exact hs
  | succ n ih =>
    have hbelow := packedBelow_loop (Nat.le_of_succ_le hn) (h.packable (Nat.le_of_succ_le hn))
    intro a ha
    rw [compactLoop, hbelow.memmoves_step hn (h.packable (Nat.le_of_succ_le hn)).fit,
      List.mem_append] at ha
    rcases ha with ha | ha
    · exact ih (Nat.le_of_succ_le hn) a ha
    · split at ha
      · rename_i hmove
        rw [List.mem_singleton.mp ha]
        refine h.move_safe hn hmove.1 ?_
        rw [← entryOffset_eq hn]
        exact readWord_lt _ _
      · cases ha

theorem compactCache_moves_safe (hs : ∀ a ∈ s.memmoves, a.Safe) :
    ∀ a ∈ (compactCache s).memmoves, a.Safe := by
  rw [memmoves_compactCache]
  exact memmoves_loop_safe h hs le_rfl

theorem compactCache_confined : (directory (compactCache s).mem).Confined := by
  have hsize := cacheFileSize_lt
  have hpacked := h.packed
  have hall := packedBelow_loop le_rfl (h.packable le_rfl)
  have hdir : directory (compactCache s).mem =
      { directory (compactLoop s cacheMaxEntries).1.mem with
        next := (directory s.mem).packedEnd } := by
    rw [compactCache, Mapping.setNextOffset_directory, hall.place]
    show { directory _ with next := (directory s.mem).packedEnd % 2 ^ 32 } = _
    rw [Nat.mod_eq_of_lt (by omega)]
  refine .of_packed h.packed ?_ ?_ ?_ ?_
  · intro i
    rw [hdir]
    exact hall.used i
  · intro i
    rw [hdir]
    exact hall.length i
  · intro i hi hlive
    rw [hdir]
    exact hall.packed i hi hlive
  · rw [hdir]

end Confined

/-- **The space check** of `Put` on a confined table: it compacts or not, and leaves a confined table. -/
theorem ensureSpace_confined {s : Mapping} (h : (directory s.mem).Confined)
    (hs : ∀ a ∈ s.memmoves, a.Safe) (length : Nat) :
    (directory (ensureSpace s length).2.mem).Confined ∧
      (∀ a ∈ (ensureSpace s length).2.memmoves, a.Safe) ∧
      ((ensureSpace s length).1 = true →
        nextOffset (ensureSpace s length).2.mem + length ≤ cacheFileSize) := by
  unfold ensureSpace
  simp only [Mapping.emit_sub32_mem, availableSpace_of_le h.next_hi, gt_iff_lt]
  by_cases hroom : length ≤ cacheFileSize - nextOffset s.mem
  · have hnext : nextOffset s.mem ≤ cacheFileSize := h.next_hi
    rw [if_neg (by omega)]
    simp only [Mapping.memmoves_emit_sub32]
    refine ⟨h, hs, fun _ => ?_⟩
    show nextOffset s.mem + length ≤ cacheFileSize
    omega
  · rw [if_pos (by omega)]
    have hmoves := compactCache_moves_safe (s := s.emit (.sub32 cacheFileSize (nextOffset s.mem))) h
      (by rwa [Mapping.memmoves_emit_sub32])
    have hc := compactCache_confined (s := s.emit (.sub32 cacheFileSize (nextOffset s.mem))) h
    generalize compactCache (s.emit (.sub32 cacheFileSize (nextOffset s.mem))) = c at hmoves hc
    have hnext : nextOffset c.mem ≤ cacheFileSize := hc.next_hi
    rw [availableSpace_of_le hnext]
    by_cases hfit : cacheFileSize - nextOffset c.mem < length
    · rw [if_pos hfit]
      simp only [Mapping.memmoves_emit_sub32]
      exact ⟨hc, hmoves, fun hok => absurd hok Bool.false_ne_true⟩
    · rw [if_neg hfit]
      simp only [Mapping.memmoves_emit_sub32]
      refine ⟨hc, hmoves, fun _ => ?_⟩
      show nextOffset c.mem + length ≤ cacheFileSize
      omega

section Put

variable {s t u : Mapping} {key : List UInt8} {data : Blob} {idx : Nat}

/-- `Put` once the space check has let it through and a slot is chosen. -/
theorem put_of_chosen (hlen : data.length ≠ 0) (hspace : ensureSpace s data.length = (true, t))
    (hc : chooseEntry t key = some (idx, u)) :
    put s key (some data) = (true, writeEntry u idx key data) := by
  unfold put
  simp only [if_neg hlen, hspace]
  unfold putEntry
  simp only [hc]

/-- `Put` without a slot leaves what the space check has left. -/
theorem put_of_full (hlen : data.length ≠ 0) (hspace : ensureSpace s data.length = (true, t))
    (hc : chooseEntry t key = none) : put s key (some data) = (false, t) := by
  unfold put
  simp only [if_neg hlen, hspace]
  unfold putEntry
  simp only [hc]

theorem put_of_no_space (hlen : data.length ≠ 0) (hspace : ensureSpace s data.length = (false, t)) :
    put s key (some data) = (false, t) := by
  unfold put
  simp only [if_neg hlen, hspace]

/-- Once a slot is chosen the data goes to `next_offset`. -/
theorem copyAccess_of_chosen (hc : chooseEntry s key = some (idx, t)) :
    copyAccess (true, s) key data = [.memcpy (nextOffset s.mem) data.length] := by
  obtain ⟨hidx, -, hnext, -⟩ := chooseEntry_table hc
  have hdst := entryOffset_writeSlot t hidx key data
  rw [hnext] at hdst
  unfold copyAccess
  simp only [hc, if_true, Option.map_some, Option.toList_some, hdst]
  rfl

theorem copyAccess_of_full (hc : chooseEntry s key = none) : copyAccess (true, s) key data = [] := by
  unfold copyAccess
  simp only [hc, if_true, Option.map_none, Option.toList_none]

/-- After the data is stored the slot points to the old `next_offset`; the other slots stay. -/
theorem writeEntry_table (key : List UInt8) (data : Blob) (hidx : idx < cacheMaxEntries)
    (hlo : dataStart ≤ nextOffset s.mem)
    (hfit : nextOffset s.mem + data.length ≤ cacheFileSize) :
    (directory (writeEntry s idx key data).mem).next = nextOffset s.mem + data.length ∧
      (directory (writeEntry s idx key data).mem).slot idx = storedSlot key data (nextOffset s.mem) ∧
      ∀ j, j ≠ idx →
        (directory (writeEntry s idx key data).mem).slot j = (directory s.mem).slot j := by
  have hsize := cacheFileSize_lt
  obtain ⟨hdir, -⟩ := writeEntry_spec (s := s) hidx key data hlo (by omega)
  rw [hdir]
  refine ⟨rfl, ?_, fun j hj => ?_⟩
  · exact Directory.setSlot_slot_self _ _ _
  · exact Directory.setSlot_slot_ne _ _ hj

theorem writeEntry_confined (h : (directory s.mem).Confined) (hc : chooseEntry s key = some (idx, t))
    (hfit : nextOffset s.mem + data.length ≤ cacheFileSize) :
    (directory (writeEntry t idx key data).mem).Confined := by
  obtain ⟨hidx, hwritable, hnext, hslot⟩ := chooseEntry_table hc
  have hsame : nextOffset t.mem = nextOffset s.mem := hnext
  obtain ⟨hend, hself, hother⟩ := writeEntry_table (s := t) key data hidx
    (by rw [hsame]; exact h.next_lo) (by rw [hsame]; exact hfit)
  refine h.store hidx hwritable ?_ ?_ ?_ ?_ ?_
  · intro j hj
    rw [hother j hj, hslot]
  · rw [hself]
    rfl
  · rw [hself]
    exact hnext
  · rw [hself, hend, hsame]
    rfl
  · rw [hself]
    exact hfit

end Put

/-- **Put on a confined table.** -/
theorem put_confined {m : Mem} (h : (directory m).Confined) (key : List UInt8) {data : Blob}
    (hlen : data.length ≠ 0) :
    (directory (put (.start m) key (some data)).2.mem).Confined ∧
      ∀ a ∈ (Op.put key (some data)).accesses m, a.Safe := by
  obtain ⟨hconfined, hmoves, hroom⟩ := ensureSpace_confined (s := .start m) h
    (fun a ha => by cases ha) data.length
  simp only [Op.accesses, if_neg hlen, List.mem_append]
  generalize hspace : ensureSpace (.start m) data.length = r at hconfined hmoves hroom
  obtain ⟨ok, t⟩ := r
  cases ok with
  | false =>
    rw [put_of_no_space hlen hspace]
    refine ⟨hconfined, fun a ha => ?_⟩
    rcases ha with ha | ha
    · exact hmoves a ha
    · cases ha
  | true =>
    have hfit : nextOffset t.mem + data.length ≤ cacheFileSize := hroom rfl
    cases hc : chooseEntry t key with
    | none =>
      rw [put_of_full hlen hspace hc, copyAccess_of_full hc]
      refine ⟨hconfined, fun a ha => ?_⟩
      rcases ha with ha | ha
      · exact hmoves a ha
      · cases ha
    | some p =>
      obtain ⟨idx, u⟩ := p
      rw [put_of_chosen hlen hspace hc, copyAccess_of_chosen hc]
      refine ⟨writeEntry_confined hconfined hc hfit, fun a ha => ?_⟩
      rcases ha with ha | ha
      · exact hmoves a ha
      · rw [List.mem_singleton.mp ha]
        exact fun _ => ⟨hconfined.next_lo, hfit⟩

/-- **Get on a confined table** reads inside the file before it has compared anything. -/
theorem get_confined {m : Mem} (h : (directory m).Confined) (key : List UInt8) :
    ∀ a ∈ (Op.get key).accesses m, a.Safe := by
  intro a ha
  cases hfind : findEntry m key with
  | none =>
    rw [accesses_get_of_absent hfind] at ha
    cases ha
  | some idx =>
    obtain ⟨hidx, hholds, -⟩ := findEntry_eq_some.mp hfind
    have hptr : dataPtr (entryOffset m idx) = entryOffset m idx := dataPtr_eq (readWord_lt _ _)
    rw [(get_of_found hfind).1, List.mem_singleton] at ha
    rw [ha, hptr, entryOffset_eq hidx, entryLength_eq hidx]
    exact fun hpos => (h.extent idx hidx ⟨hholds.1, hpos⟩).2

theorem remove_of_found {s : Mapping} {key : List UInt8} {idx : Nat}
    (hfind : findEntry s.mem key = some idx) : remove s key = (true, clearEntry s idx) := by
  unfold remove
  simp only [hfind]

theorem remove_of_absent {s : Mapping} {key : List UInt8} (hfind : findEntry s.mem key = none) :
    remove s key = (false, s) := by
  unfold remove
  simp only [hfind]

/-- **Remove on a confined table.** -/
theorem remove_confined {m : Mem} (h : (directory m).Confined) (key : List UInt8) :
    (directory (remove (.start m) key).2.mem).Confined := by
  cases hfind : findEntry (Mapping.start m).mem key with
  | none =>
    rw [remove_of_absent hfind]
    exact h
  | some idx =>
    rw [remove_of_found hfind]
    obtain ⟨hidx, hholds, hfirst⟩ := findEntry_eq_some.mp hfind
    obtain ⟨hnext, hempty, hother⟩ := clearEntry_table (s := .start m) hidx
    refine h.erase hidx ?_ hother ?_ hnext
    · intro _ j hj hu hname
      exact hfirst j hj ⟨hu, hname.trans hholds.2⟩
    · rw [hempty]
      rfl

/-! ## Runs -/

/-- The operations that take a key: all but `Clear` and the restart. -/
def Op.ByKey : Op → Prop
  | .put _ _ => True
  | .get _ => True
  | .remove _ => True
  | .clear => False
  | .restart => False

/-- **One operation on a confined table** stays inside the file and leaves a confined table. -/
theorem exec_confined {m : Mem} (h : (directory m).Confined) {op : Op} (hop : op.ByKey) :
    (directory (op.exec m).mem).Confined ∧ ∀ a ∈ op.accesses m, a.Safe := by
  cases op with
  | put key data =>
    cases data with
    | none =>
      simp only [Op.exec, Op.accesses]
      rw [put_rejects key fun b hb => by cases hb]
      exact ⟨h, fun a ha => by cases ha⟩
    | some data =>
      by_cases hlen : data.length = 0
      · simp only [Op.exec, Op.accesses, if_pos hlen]
        rw [put_rejects key fun b hb => by cases hb; exact hlen]
        exact ⟨h, fun a ha => by cases ha⟩
      · simp only [Op.exec]
        exact put_confined h key hlen
  | get key => exact ⟨h, get_confined h key⟩
  | remove key =>
    simp only [Op.exec]
    refine ⟨remove_confined h key, fun a ha => ?_⟩
    cases ha
  | clear => exact hop.elim
  | restart => exact hop.elim

/-- Steps of the operations that take a key. -/
abbrev KeyStep : Mem → Op → Mem → Prop := Guarded (fun _ op => op.ByKey) Step

/-- **A run from a confined table** stays confined. -/
theorem run_confined {m m' : Mem} {ops : List Op} (h : (directory m).Confined)
    (hrun : Run KeyStep m ops m') : (directory m').Confined := by
  refine hrun.invariant (I := fun m => (directory m).Confined) ?_ h
  rintro s op t hs ⟨hop, hstep⟩
  rw [hstep]
  exact (exec_confined hs hop).1

end CCache.Cache
