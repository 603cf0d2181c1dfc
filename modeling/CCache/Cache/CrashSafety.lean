/-
# CCache.Cache.CrashSafety — when the file of a killed process is safe to use again.

`Put` stores the new length before it advances `next_offset`, and `Clear` resets `next_offset` before
it frees the slots.  In between the slots claim more bytes than lie below `next_offset`: a `Put` after
the reopening may fill the file up to its end, and the compaction after that moves values past it.
Every file left by a killed `Put`, `Get` or `Remove` keeps the other clauses of `Confined`, so it is
safe to use exactly when that room is there (`killed_safe_iff`).  From this, for every operation, when
it can be killed anywhere (`crashSafe_iff`), and the same for the first formatting of a new file.
-/
import CCache.Cache.CrashInconsistency
import CCache.Cache.Untrusted

namespace CCache.Cache

open CCache.Lib.ByteMemory
open CCache.Lib.CString
open CCache.Lib.Extents
open CCache.Lib.Crash
open CCache.Lib.Runs

/-! ## The room for one more store -/

namespace Directory

/-- `Confined` without the room behind a store. -/
structure Bounded (d : Directory) : Prop where
  next_lo : dataStart ≤ d.next
  next_hi : d.next ≤ cacheFileSize
  extent : ∀ i, i < cacheMaxEntries → d.Live i →
    dataStart ≤ (d.slot i).offset ∧ (d.slot i).offset + (d.slot i).length ≤ cacheFileSize
  packed : d.packedEnd ≤ cacheFileSize

/-- Whichever slot is stored to next, the values of the others fit below `next_offset`. -/
def Roomy (d : Directory) : Prop :=
  ∀ i, i < cacheMaxEntries → d.packedEnd ≤ d.next + d.liveLength i

/-- A slot of its own name may be written to. -/
theorem Distinct.writable {d : Directory} (h : d.Distinct) (i : Nat) : d.Writable i := by
  intro hi j hlt hj hname
  exact absurd (h j i hj hi hname) (Nat.ne_of_lt hlt)

/-- With one slot for each name every slot may be written to, so all of them need the room. -/
theorem Bounded.confined_iff {d : Directory} (h : d.Bounded) (hd : d.Distinct) :
    d.Confined ↔ d.Roomy := by
  constructor
  · exact fun hc i hi => hc.room i hi (hd.writable i)
  · exact fun hr => ⟨h.next_lo, h.next_hi, h.extent, h.packed, fun i hi _ => hr i hi⟩

/-- A table whose values all lie below `next_offset`. -/
theorem roomy_of_packed {d : Directory} (h : d.packedEnd ≤ d.next) : d.Roomy :=
  fun _ _ => Nat.le_add_right_of_le h

end Directory

/-- What no operation on a key can break, wherever it is killed. -/
structure Kept (k : Mem) : Prop where
  accepted : accepted k = true
  distinct : (directory k).Distinct
  bounded : (directory k).Bounded

/-- **A kept file is safe to use exactly when it has the room.** -/
theorem Kept.safeToUse_iff {k : Mem} (h : Kept k) :
    SafeToUse (initMmap (.start k)).mem ↔ (directory k).Roomy := by
  rw [accepted_safeToUse_iff h.accepted]
  exact h.bounded.confined_iff h.distinct

theorem WellFormed.packedEnd_le {d : Directory} (h : WellFormed d) : d.packedEnd ≤ d.next :=
  h.packedStart_le_next cacheMaxEntries le_rfl

theorem WellFormed.roomy {d : Directory} (h : WellFormed d) : d.Roomy :=
  Directory.roomy_of_packed h.packedEnd_le

theorem WellFormed.bounded {d : Directory} (h : WellFormed d) : d.Bounded :=
  ⟨h.next_lo, h.next_hi, h.confined.extent, h.confined.packed⟩

theorem WellFormed.kept {m : Mem} (h : WellFormed (directory m)) : Kept m :=
  ⟨accepted_of_wellFormed h, h.names, h.bounded⟩

/-! ## Compaction and Remove -/

namespace CompactCut

variable {m k : Mem} {n : Nat} (hm : WellFormed (directory m)) (h : CompactCut m n k)
include h

theorem packedEnd_eq : (directory k).packedEnd = (directory m).packedEnd := by
  refine Directory.packedStart_congr (fun i => ?_) _
  rw [Directory.liveLength, Directory.liveLength, h.used_eq, h.length_eq]

include hm

theorem packedEnd_le : (directory k).packedEnd ≤ (directory k).next := by
  obtain ⟨next, hdir, hnext⟩ := h.dir
  have hk : (directory k).next = next := by rw [hdir]
  rw [h.packedEnd_eq, hk]
  rcases hnext with hold | ⟨-, hnew⟩
  · rw [hold]
    exact hm.packedEnd_le
  · rw [hnew]
    exact le_rfl

theorem kept : Kept k := by
  obtain ⟨⟨hlo, hhi⟩, hext⟩ := h.bounds hm
  refine ⟨h.accepted hm, h.distinct hm, hlo, hhi, fun i _ hlive => ?_, (h.packedEnd_le hm).trans hhi⟩
  obtain ⟨hstart, hend⟩ := hext i hlive.1
  exact ⟨hstart, hend.trans hhi⟩

end CompactCut

namespace Patched

variable {m k : Mem} {idx : Nat} {e : Slot} {count next : Nat} (h : Patched m idx e count next k)
include h

theorem next_eq : (directory k).next = next := by
  rw [h.dir]
  rfl

theorem liveLength_ne {i : Nat} (hi : i ≠ idx) :
    (directory k).liveLength i = (directory m).liveLength i :=
  Directory.liveLength_congr (h.slot_ne hi)

/-- The packed end moves by what the slot claims. -/
theorem packedEnd_add (hidx : idx < cacheMaxEntries) :
    (directory k).packedEnd + (directory m).liveLength idx =
      (directory m).packedEnd + (directory k).liveLength idx :=
  Directory.packedEnd_change hidx fun _ hj => h.slot_ne hj

/-- A slot that is free, or as it was, claims no more than before. -/
theorem packedEnd_le (hidx : idx < cacheMaxEntries)
    (he : e = (directory m).slot idx ∨ e.used = false) :
    (directory k).packedEnd ≤ (directory m).packedEnd := by
  have hchange := h.packedEnd_add hidx
  rcases he with rfl | hfree
  · have hsame := Directory.liveLength_congr h.slot_self
    omega
  · have hzero : (directory k).liveLength idx = 0 :=
      Directory.liveLength_of_free (by rw [h.slot_self, hfree])
    omega

/-- The files of a patch: the slot holds its key, and is as it was, free, or has an extent in the
file. -/
theorem kept (hm : WellFormed (directory m)) {key : List UInt8} (ht : (directory m).Target key idx)
    (hname : e.used = true → e.name = keyName key)
    (hext : e.used = true → e = (directory m).slot idx ∨
      dataStart ≤ e.offset ∧ e.offset + e.length ≤ cacheFileSize)
    (hnext : dataStart ≤ next ∧ next ≤ cacheFileSize)
    (hpacked : (directory k).packedEnd ≤ cacheFileSize) : Kept k := by
  refine ⟨h.accepted hm, h.distinct hm ht hname, ?_, ?_, fun i hi hlive => ?_, hpacked⟩
  · rw [h.next_eq]
    exact hnext.1
  · rw [h.next_eq]
    exact hnext.2
  · have hold := hm.bounded.extent i hi
    by_cases hii : i = idx
    · subst hii
      rw [Directory.Live, h.slot_self] at hlive
      rw [h.slot_self]
      rcases hext hlive.1 with rfl | hin
      · exact hold hlive
      · exact hin
    · rw [Directory.Live, h.slot_ne hii] at hlive
      rw [h.slot_ne hii]
      exact hold hlive

end Patched

/-- A file left by `Remove` has the room: the slot claims no more than before, `next_offset` stays. -/
theorem RemoveCut.packedEnd_le {m k : Mem} {idx : Nat} (hm : WellFormed (directory m))
    (hidx : idx < cacheMaxEntries) (h : RemoveCut m idx k) :
    (directory k).packedEnd ≤ (directory k).next := by
  obtain ⟨e, count, hp, hcase⟩ := h
  rw [hp.next_eq]
  exact (hp.packedEnd_le hidx (hcase.imp And.left And.left)).trans hm.packedEnd_le

theorem RemoveCut.kept {m k : Mem} {idx : Nat} {key : List UInt8} (hm : WellFormed (directory m))
    (hheld : (directory m).Holds key idx) (h : RemoveCut m idx k) : Kept k := by
  have hidx := hm.table idx hheld.1
  have hroom := h.packedEnd_le hm hidx
  obtain ⟨e, count, hp, hcase⟩ := h
  rw [hp.next_eq] at hroom
  have hold : e.used = true → e = (directory m).slot idx := by
    intro hu
    rcases hcase with ⟨he, -⟩ | ⟨hfree, -⟩
    · exact he
    · rw [hfree] at hu
      exact absurd hu Bool.false_ne_true
  refine hp.kept hm (Or.inl hheld) (fun hu => ?_) (fun hu => Or.inl (hold hu))
    ⟨hm.next_lo, hm.next_hi⟩ (hroom.trans hm.next_hi)
  rw [hold hu]
  exact hheld.2

/-! ## Put -/

/-- A value of this length can be entered in slot `idx` before `next_offset` covers it: there is that
much room next to the value it replaces and any other one. -/
def Directory.Backed (d : Directory) (next idx length : Nat) : Prop :=
  ∀ i, i < cacheMaxEntries → i ≠ idx →
    d.packedEnd + length ≤ next + d.liveLength idx + d.liveLength i

/-- What the slot of the key claims while `Put` writes it: what it did, nothing, or the new length
from where it pointed or from `next_offset` on. -/
def Claims (old : Slot) (next length : Nat) (e : Slot) : Prop :=
  e = old ∨ e.used = false ∨ e.length = length ∧ dataStart ≤ e.offset ∧ e.offset ≤ next

/-- A file left by the storing part of `Put` on the mapping `b`, with the extent of the slot. -/
def Staged (b : Mem) (key : List UInt8) (data : Blob) (idx : Nat) (k : Mem) : Prop :=
  ∃ e count next, Patched b idx e count next k ∧ (e.used = true → e.name = keyName key) ∧
    Claims ((directory b).slot idx) (directory b).next data.length e ∧
    (next = (directory b).next ∨ next = (directory b).next + data.length)

section Store

variable {m b : Mem} {Q : Mem → Prop} {s t : Mapping} {key : List UInt8} {data : Blob} {idx : Nat}

/-- The choice of a slot: the count goes up if the key is new. -/
theorem chooseEntry_cuts (hb : WellFormed (directory s.mem)) (hc : Cuts m Q s)
    (hchoose : chooseEntry s key = some (idx, t)) (hQ : ∀ k, Staged s.mem key data idx k → Q k) :
    Cuts m Q t ∧ ∃ count,
      Patched s.mem idx ((directory s.mem).slot idx) count (directory s.mem).next t.mem := by
  have hhold : PutSlot _ 0 key data _ := putSlot_old hb (chooseEntry_some hb hchoose).2.1 0
  have p0 := Patched.refl s.mem idx
  unfold chooseEntry at hchoose
  cases hfind : findEntry s.mem key with
  | some j =>
    rw [hfind] at hchoose
    cases hchoose
    exact ⟨hc, _, p0⟩
  | none =>
    rw [hfind] at hchoose
    cases hfree : findFreeEntry s.mem with
    | none =>
      rw [hfree] at hchoose
      cases hchoose
    | some j =>
      rw [hfree] at hchoose
      cases hchoose
      obtain ⟨hj, hunused, -⟩ := findFreeEntry_eq_some.mp hfree
      have p1 := p0.countEntry (hb.count_lt_of_free hj hunused)
      exact ⟨(hc.add32 _ _).setWord 8 _ (hQ _ ⟨_, _, _, p1, hhold.name, Or.inl rfl, Or.inl rfl⟩), _, p1⟩

/-- **The stores to the slot**: the length is there before the offset, the flag before the data. -/
theorem writeSlot_staged (hb : WellFormed (directory b)) (hidx : idx < cacheMaxEntries)
    (ht : (directory b).Target key idx) (hc : Cuts m Q s) {count : Nat}
    (hp : Patched b idx ((directory b).slot idx) count (directory b).next s.mem)
    (hQ : ∀ k, Staged b key data idx k → Q k) :
    Cuts m Q (writeSlot s idx key data) ∧
      Patched b idx (storedSlot key data (directory b).next) count (directory b).next
        (writeSlot s idx key data).mem := by
  have hcut : ∀ {e : Slot} {k : Mem}, Patched b idx e count (directory b).next k →
      (e.used = true → e.name = keyName key) →
      Claims ((directory b).slot idx) (directory b).next data.length e → Q k :=
    fun hk hname he => hQ _ ⟨_, _, _, hk, hname, he, Or.inl rfl⟩
  have hnamed : ∀ {e : Slot}, e.key = keyField key → e.used = true → e.name = keyName key := by
    intro e he _
    rw [Slot.name, he, keyName_keyField]
  have hnext : nextOffset s.mem = (directory b).next := congrArg Directory.next hp.dir
  have hlen : data.length % 2 ^ 32 = data.length := Nat.mod_eq_of_lt data.fits
  have hoff : nextOffset (((s.copyKey idx key).closeKey idx).setLength idx data.length).mem % 2 ^ 32 =
      (directory b).next := by
    have hlt : nextOffset s.mem < 2 ^ 32 := readWord_lt _ _
    rw [nextOffset_setLength hidx, Nat.mod_eq_of_lt hlt, hnext]
  have hlo := hb.next_lo
  have hold : PutSlot _ 0 key data _ := putSlot_old hb ht 0
  have c1 : Cuts m Q (s.copyKey idx key) := hc.memcpy _ _ fun done => by
    obtain ⟨e, hk, he | ⟨hfree, -⟩⟩ := key_copy hb hidx ht hp done
    · exact hcut hk (he ▸ hold.name) (Or.inl he)
    · refine hcut hk (fun hu => ?_) (Or.inr (Or.inl hfree))
      rw [hfree] at hu
      exact absurd hu Bool.false_ne_true
  have p2 := hp.copyKey hidx key
  have c2 : Cuts m Q ((s.copyKey idx key).closeKey idx) := c1.setByte _ _ (hcut p2 (hnamed rfl) (by
    by_cases hu : ((directory b).slot idx).used = true
    · exact Or.inl (by rw [← keyField_of_target hb ht hu])
    · exact Or.inr (Or.inl (Bool.eq_false_iff.mpr hu))))
  have p3 := p2.setLength hidx data.length
  have c3 := c2.setWord (entryAddr idx + 512) data.length (hcut p3 (hnamed rfl) (by
    -- a used slot still points to its old value, which is shorter or longer than the new one
    by_cases hu : ((directory b).slot idx).used = true
    · have hend := hb.extent_hi idx hu
      exact Or.inr (Or.inr ⟨hlen, hb.extent_lo idx hu, by dsimp only; omega⟩)
    · exact Or.inr (Or.inl (Bool.eq_false_iff.mpr hu))))
  have p4 := p3.setOffset hidx (nextOffset (((s.copyKey idx key).closeKey idx).setLength idx
    data.length).mem)
  have hext : ∀ {e : Slot}, e.length = data.length % 2 ^ 32 →
      e.offset = nextOffset (((s.copyKey idx key).closeKey idx).setLength idx data.length).mem %
        2 ^ 32 → Claims ((directory b).slot idx) (directory b).next data.length e := by
    intro e hl ho
    rw [hlen] at hl
    rw [hoff] at ho
    exact Or.inr (Or.inr ⟨hl, by rw [ho]; exact hlo, ho.le⟩)
  have c4 := c3.setWord (entryAddr idx + 516) _ (hcut p4 (hnamed rfl) (hext rfl rfl))
  have p5 := p4.setIsUsed hidx true
  have c5 := c4.setByte (entryAddr idx + 520) 1 (hcut p5 (hnamed rfl) (hext rfl rfl))
  have p6 := p5.setChecksum hidx (calculateChecksum data.bytes)
  have c6 := c5.setWord (entryAddr idx + 524) (calculateChecksum data.bytes)
    (hcut p6 (hnamed rfl) (hext rfl rfl))
  refine ⟨c6, hp.modify (f := fun _ => storedSlot key data (directory b).next) ?_
    fun x hx => writeSlot_data hidx key data hx⟩
  rw [writeSlot_directory hidx, hnext]
  rfl

/-- **The storing part of `Put`**: the slot, the data, and `next_offset` last. -/
theorem store_staged (hb : WellFormed (directory s.mem)) (hc : Cuts m Q s)
    (hfit : (directory s.mem).next + data.length ≤ cacheFileSize)
    (hchoose : chooseEntry s key = some (idx, t)) (hQ : ∀ k, Staged s.mem key data idx k → Q k) :
    (Cuts m Q (writeSlot t idx key data) ∧ ∃ count,
      Patched s.mem idx (storedSlot key data (directory s.mem).next) count (directory s.mem).next
        (writeSlot t idx key data).mem) ∧ Cuts m Q (writeEntry t idx key data) := by
  obtain ⟨hidx, ht, -⟩ := chooseEntry_some hb hchoose
  have hsize := cacheFileSize_lt
  have hlo := hb.next_lo
  obtain ⟨hct, count, hp⟩ := chooseEntry_cuts hb hc hchoose hQ
  obtain ⟨c1, p1⟩ := writeSlot_staged hb hidx ht hct hp hQ
  refine ⟨⟨c1, count, p1⟩, ?_⟩
  have hnext : nextOffset t.mem = (directory s.mem).next := congrArg Directory.next hp.dir
  have hname : (storedSlot key data (directory s.mem).next).used = true →
      (storedSlot key data (directory s.mem).next).name = keyName key :=
    fun _ => keyName_keyField key
  have hclaims : Claims ((directory s.mem).slot idx) (directory s.mem).next data.length
      (storedSlot key data (directory s.mem).next) := Or.inr (Or.inr ⟨rfl, hlo, le_rfl⟩)
  rw [writeEntry_eq hidx key data (by rw [hnext]; exact hlo) (by rw [hnext]; omega), hnext]
  have hdata := fun f => p1.data_write (a := (directory s.mem).next) (n := data.length) f hlo le_rfl
  have c2 := c1.memcpy (directory s.mem).next data.bytes fun done =>
    hQ _ ⟨_, _, _, hdata _, hname, hclaims, Or.inl rfl⟩
  have p3 := Patched.setNextOffset (s := ((writeSlot t idx key data).memcpy (directory s.mem).next
    data.bytes).emit (.add32 (directory s.mem).next data.length)) (hdata _)
    ((directory s.mem).next + data.length)
  refine (c2.add32 _ _).setWord 12 _ (hQ _ ⟨_, _, _, p3, hname, hclaims, Or.inr ?_⟩)
  exact Nat.mod_eq_of_lt (by omega)

end Store

namespace Staged

variable {b k : Mem} {key : List UInt8} {data : Blob} {idx : Nat}
  (hb : WellFormed (directory b)) (hidx : idx < cacheMaxEntries) (h : Staged b key data idx k)
include hb hidx h

/-- The values fit below the end of the new one. -/
theorem packedEnd_le : (directory k).packedEnd ≤ (directory b).next + data.length := by
  obtain ⟨e, count, next, hp, -, hclaims, -⟩ := h
  have hpacked := hb.packedEnd_le
  rcases hclaims with hold | hfree | ⟨hlen, -⟩
  · have hle := hp.packedEnd_le hidx (Or.inl hold)
    omega
  · have hle := hp.packedEnd_le hidx (Or.inr hfree)
    omega
  · have hchange := hp.packedEnd_add hidx
    have hnew : (directory k).liveLength idx ≤ data.length := by
      rw [Directory.liveLength, hp.slot_self, hlen]
      split
      · exact le_rfl
      · exact Nat.zero_le _
    omega

theorem kept (ht : (directory b).Target key idx)
    (hfit : (directory b).next + data.length ≤ cacheFileSize) : Kept k := by
  have hpacked := h.packedEnd_le hb hidx
  have hlo := hb.next_lo
  obtain ⟨e, count, next, hp, hname, hclaims, hnext⟩ := h
  refine hp.kept hb ht hname (fun hu => ?_) (by omega) (hpacked.trans hfit)
  rcases hclaims with hold | hfree | ⟨hlen, hstart, hend⟩
  · exact Or.inl hold
  · rw [hfree] at hu
    exact absurd hu Bool.false_ne_true
  · exact Or.inr ⟨hstart, by omega⟩

/-- **Backed, the room is there at every point.** -/
theorem roomy (hbacked : (directory b).Backed (directory b).next idx data.length) :
    (directory k).Roomy := by
  have hpacked := h.packedEnd_le hb hidx
  obtain ⟨e, count, next, hp, -, hclaims, hnext⟩ := h
  have hk := hp.next_eq
  rcases hnext with rfl | rfl
  · rcases hclaims with hold | hfree | ⟨hlen, -⟩
    · refine Directory.roomy_of_packed ?_
      rw [hk]
      exact (hp.packedEnd_le hidx (Or.inl hold)).trans hb.packedEnd_le
    · refine Directory.roomy_of_packed ?_
      rw [hk]
      exact (hp.packedEnd_le hidx (Or.inr hfree)).trans hb.packedEnd_le
    · cases hu : e.used with
      | false =>
        refine Directory.roomy_of_packed ?_
        rw [hk]
        exact (hp.packedEnd_le hidx (Or.inr hu)).trans hb.packedEnd_le
      | true =>
        have hnew : (directory k).liveLength idx = data.length := by
          rw [Directory.liveLength, hp.slot_self, hu, hlen, if_pos rfl]
        intro i hi
        by_cases hii : i = idx
        · rw [hii, hk, hnew]
          exact hpacked
        · have hchange := hp.packedEnd_add hidx
          have hroom := hbacked i hi hii
          rw [hp.liveLength_ne hii, hk]
          omega
  · exact Directory.roomy_of_packed (by rw [hk]; exact hpacked)

end Staged

/-- A file left by `Put`: before it stores anything, inside the compaction, or inside its stores. -/
def PutStaged (m : Mem) (key : List UInt8) (data : Blob) (k : Mem) : Prop :=
  (k = m ∨ ∃ n, CompactCut m n k) ∨ ∃ b idx, Room m data.length b ∧ idx < cacheMaxEntries ∧
    (directory b).Target key idx ∧ (directory b).next + data.length ≤ cacheFileSize ∧
    Staged b key data idx k

section Put

variable {m : Mem} (hm : WellFormed (directory m)) {key : List UInt8} {data : Blob}
include hm

/-- The space check, cut anywhere. -/
theorem ensureSpace_staged {Q : Mem → Prop} (hsame : Q m) (hQ : ∀ n k, CompactCut m n k → Q k) :
    Cuts m Q (ensureSpace (.start m) data.length).2 := by
  have hc : Cuts m Q (.start m) := .start hsame
  unfold ensureSpace
  simp only [Mapping.emit_sub32_mem, Mapping.start_mem, availableSpace_eq hm, gt_iff_lt]
  by_cases hfull : cacheFileSize - nextOffset m < data.length
  · rw [if_pos hfull]
    have hcc := compactCache_cuts
      (s := (Mapping.start m).emit (.sub32 cacheFileSize (nextOffset m))) hm (hc.sub32 _ _) hQ
    split
    · exact hcc.sub32 _ _
    · exact hcc.sub32 _ _
  · rw [if_neg hfull]
    exact hc.sub32 _ _

/-- What `Put` stores to once the space check has let it through. -/
theorem ensureSpace_true (key : List UInt8) {s : Mapping} (hspace : ensureSpace (.start m) data.length = (true, s)) :
    Room m data.length s.mem ∧ WellFormed (directory s.mem) ∧
      (directory s.mem).next + data.length ≤ cacheFileSize ∧
      Cuts m (PutStaged m key data) s := by
  obtain ⟨hroom, hwf, -, hok⟩ := ensureSpace_cases (s := .start m) hm (Mapping.safe_start m)
    data.length
  have hcuts : Cuts m (PutStaged m key data) (ensureSpace (.start m) data.length).2 :=
    ensureSpace_staged hm (Or.inl (Or.inl rfl)) fun n k hk => Or.inl (Or.inr ⟨n, hk⟩)
  rw [hspace] at hroom hwf hok hcuts
  have hnext : nextOffset s.mem ≤ cacheFileSize := hwf.next_hi
  have hle : data.length ≤ cacheFileSize - nextOffset s.mem := hok.mp rfl
  refine ⟨hroom, hwf, ?_, hcuts⟩
  show nextOffset s.mem + data.length ≤ cacheFileSize
  omega

/-- The stores of a `Put` that has chosen its slot. -/
theorem stored_staged {s t : Mapping} {idx : Nat}
    (hspace : ensureSpace (.start m) data.length = (true, s))
    (hchoose : chooseEntry s key = some (idx, t)) :
    (Cuts m (PutStaged m key data) (writeSlot t idx key data) ∧ ∃ count,
      Patched s.mem idx (storedSlot key data (directory s.mem).next) count (directory s.mem).next
        (writeSlot t idx key data).mem) ∧
      Cuts m (PutStaged m key data) (writeEntry t idx key data) := by
  obtain ⟨hroom, hwf, hfit, hcuts⟩ := ensureSpace_true hm key hspace
  obtain ⟨hidx, ht, -⟩ := chooseEntry_some hwf hchoose
  exact store_staged hwf hcuts hfit hchoose fun k hk =>
    Or.inr ⟨s.mem, idx, hroom, hidx, ht, hfit, hk⟩

/-- **`Put`, cut anywhere**, with the extent of its slot. -/
theorem put_staged (hlen : 0 < data.length) :
    Cuts m (PutStaged m key data) (put (.start m) key (some data)).2 := by
  cases hspace : ensureSpace (.start m) data.length with
  | mk ok s =>
    cases ok with
    | false =>
      rw [put_of_no_space hlen.ne' hspace]
      have hcuts : Cuts m (PutStaged m key data) (ensureSpace (.start m) data.length).2 :=
        ensureSpace_staged hm (Or.inl (Or.inl rfl)) fun n k hk => Or.inl (Or.inr ⟨n, hk⟩)
      rwa [hspace] at hcuts
    | true =>
      cases hchoose : chooseEntry s key with
      | none =>
        rw [put_of_full hlen.ne' hspace hchoose]
        exact (ensureSpace_true hm key hspace).2.2.2
      | some p =>
        obtain ⟨idx, t⟩ := p
        rw [put_of_chosen hlen.ne' hspace hchoose]
        exact (stored_staged hm hspace hchoose).2

end Put

/-! ## Where the value of a Put goes -/

/-- Where `Put` stores a value of this length: at `next_offset`, behind the packed values if it has to
compact first. -/
def storeOffset (m : Mem) (length : Nat) : Nat :=
  if availableSpace m < length then (directory m).packedEnd else nextOffset m

namespace Room

variable {m b : Mem} {length : Nat} (hm : WellFormed (directory m)) (h : Room m length b)
include hm h

/-- The mapping `Put` stores to has the slots of `m`, but for their offsets. -/
theorem table : (directory b).next = storeOffset m length ∧
    (∀ i, (directory b).liveLength i = (directory m).liveLength i) ∧
    (∀ i, ((directory b).slot i).used = ((directory m).slot i).used) ∧
    ∀ key i, (directory b).Holds key i ↔ (directory m).Holds key i := by
  unfold storeOffset
  rw [availableSpace_eq hm]
  rcases h with ⟨hin, rfl⟩ | ⟨hfull, hc⟩
  · rw [if_neg (Nat.not_lt.mpr hin)]
    exact ⟨rfl, fun _ => rfl, fun _ => rfl, fun _ _ => Iff.rfl⟩
  · rw [if_pos hfull, hc.dir]
    refine ⟨rfl, fun i => ?_, Directory.compacted_used _, Directory.compacted_holds _⟩
    rw [Directory.liveLength, Directory.liveLength, Directory.compacted_used,
      Directory.compacted_length]

theorem packedEnd_eq : (directory b).packedEnd = (directory m).packedEnd :=
  Directory.packedStart_congr (h.table hm).2.1 _

theorem target_iff (key : List UInt8) (idx : Nat) :
    (directory b).Target key idx ↔ (directory m).Target key idx := by
  obtain ⟨-, -, hused, hholds⟩ := h.table hm
  simp only [Directory.Target, hused, hholds]

theorem backed_iff (idx : Nat) : (directory b).Backed (directory b).next idx length ↔
    (directory m).Backed (storeOffset m length) idx length := by
  obtain ⟨hnext, hlive, -, -⟩ := h.table hm
  simp only [Directory.Backed, hnext, hlive, h.packedEnd_eq hm]

/-- The value fits behind the values that are packed if it fits where it is stored. -/
theorem fits_packed (hb : WellFormed (directory b))
    (hfit : (directory b).next + length ≤ cacheFileSize) :
    (directory m).packedEnd + length ≤ cacheFileSize := by
  have hle := hb.packedEnd_le
  rw [h.packedEnd_eq hm] at hle
  omega

end Room

/-- A value that fits behind the packed values is let through. -/
theorem ensureSpace_of_fits {m : Mem} (hm : WellFormed (directory m)) {length : Nat}
    (hfit : (directory m).packedEnd + length ≤ cacheFileSize) :
    ∃ s, ensureSpace (.start m) length = (true, s) := by
  obtain ⟨hroom, -, -, hok⟩ := ensureSpace_cases (s := .start m) hm (Mapping.safe_start m) length
  have htrue : (ensureSpace (.start m) length).1 = true := by
    refine hok.mpr ?_
    rcases hroom with ⟨hin, hsame⟩ | ⟨-, hc⟩
    · rw [hsame]
      exact hin
    · have hnext : nextOffset (ensureSpace (.start m) length).2.mem = (directory m).packedEnd :=
        congrArg Directory.next hc.dir
      rw [hnext]
      omega
  exact ⟨_, Prod.ext htrue rfl⟩

/-- The slot for the key is chosen. -/
theorem chooseEntry_of_target {s : Mapping} (hs : WellFormed (directory s.mem)) {key : List UInt8}
    {idx : Nat} (hidx : idx < cacheMaxEntries) (ht : (directory s.mem).Target key idx) :
    ∃ t, chooseEntry s key = some (idx, t) := by
  rcases ht with hheld | ⟨⟨hfree, hfirst⟩, hnone⟩
  · refine ⟨s, ?_⟩
    unfold chooseEntry
    rw [findEntry_of_holds hs.names hheld]
  · exact ⟨_, chooseEntry_new hidx hfree hfirst hnone⟩

/-- **Before the data**: a `Put` that stores its value leaves, at one point, a file with the slot
already pointing behind `next_offset`. -/
theorem put_slot_left {m : Mem} (hm : WellFormed (directory m)) (key : List UInt8) {data : Blob}
    (hlen : 0 < data.length) (hfit : (directory m).packedEnd + data.length ≤ cacheFileSize)
    {idx : Nat} (hidx : idx < cacheMaxEntries) (ht : (directory m).Target key idx) :
    ∃ b k count, Room m data.length b ∧ WellFormed (directory b) ∧
      CrashOf m (put (.start m) key (some data)).2.log k ∧
      Patched b idx (storedSlot key data (directory b).next) count (directory b).next k := by
  obtain ⟨s, hspace⟩ := ensureSpace_of_fits hm hfit
  obtain ⟨hroom, hwf, hend, -⟩ := ensureSpace_true hm key hspace
  obtain ⟨t, hchoose⟩ := chooseEntry_of_target hwf hidx ((hroom.target_iff hm key idx).mpr ht)
  obtain ⟨⟨hcuts, count, hp⟩, -⟩ := stored_staged hm hspace hchoose
  refine ⟨s.mem, _, count, hroom, hwf, hcuts.crash ?_, hp⟩
  rw [put_of_chosen hlen.ne' hspace hchoose]
  exact Mapping.extends_emit (Mapping.extends_emit (Mapping.extends_emit (List.prefix_refl _) _) _) _

/-! ## Formatting -/

namespace Directory

variable {d : Directory}

/-- Two slots and the beginning of the data area. -/
theorem add_liveLength_le_packedEnd {i j : Nat} (hij : i ≠ j) (hi : i < cacheMaxEntries)
    (hj : j < cacheMaxEntries) : dataStart + d.liveLength i + d.liveLength j ≤ d.packedEnd := by
  have hsub : ({i, j} : Finset Nat) ⊆ Finset.range cacheMaxEntries := by
    intro x hx
    rw [Finset.mem_insert, Finset.mem_singleton] at hx
    rcases hx with rfl | rfl
    · exact Finset.mem_range.mpr hi
    · exact Finset.mem_range.mpr hj
  have hsum := Finset.sum_le_sum_of_subset (f := d.liveLength) hsub
  rw [Finset.sum_pair hij] at hsum
  rw [packedEnd, packedStart]
  omega

theorem packedEnd_of_empty (h : ∀ i, (d.slot i).used = false) : d.packedEnd = dataStart := by
  rw [packedEnd, packedStart, Finset.sum_eq_zero fun i _ => liveLength_of_free (h i), Nat.add_zero]

/-- An empty table is confined once `next_offset` is in range. -/
theorem confined_iff_of_empty (h : ∀ i, (d.slot i).used = false) :
    d.Confined ↔ dataStart ≤ d.next ∧ d.next ≤ cacheFileSize := by
  constructor
  · exact fun hc => ⟨hc.next_lo, hc.next_hi⟩
  · rintro ⟨hlo, hhi⟩
    have hend := packedEnd_of_empty h
    refine ⟨hlo, hhi, fun i _ hlive => ?_, by omega, fun i _ _ => by omega⟩
    rw [Live, h i] at hlive
    exact absurd hlive.1 Bool.false_ne_true

end Directory

section Formatting

variable {m : Mem}

/-- A file left by the formatting of a file without entries. -/
structure Blank (m k : Mem) : Prop where
  free : ∀ i, ((directory k).slot i).used = false
  next : nextOffset k = nextOffset m ∨ nextOffset k = dataStart

variable {k : Mem} (hfree : ∀ i, ((directory m).slot i).used = false)
include hfree

theorem Blank.of_header {next : Nat} (hslot : (directory k).slot = (directory m).slot)
    (hnext : (directory k).next = next) (hcase : next = nextOffset m ∨ next = dataStart) :
    Blank m k := by
  refine ⟨fun i => ?_, ?_⟩
  · rw [hslot]
    exact hfree i
  · rw [show nextOffset k = next from hnext]
    exact hcase

/-- **`InitializeCache` on a file without entries, cut anywhere.** -/
theorem initializeCache_cuts : Cuts m (Blank m) (initializeCache (.start m)) := by
  have hslot : ∀ {k : Mem} {magic version count next : Nat}, directory k =
      { directory m with magic := magic, version := version, count := count, next := next } →
      (directory k).slot = (directory m).slot := by
    intro k magic version count next h
    rw [h]
  have c0 : Cuts m (Blank m) (.start m) := .start (.of_header hfree rfl rfl (Or.inl rfl))
  have d1 := Mapping.setMagicNumber_directory (.start m) cacheMagic
  have c1 : Cuts m (Blank m) ((Mapping.start m).setMagicNumber cacheMagic) :=
    c0.setWord 0 _ (.of_header hfree (hslot d1) (congrArg Directory.next d1)
      (Or.inl rfl))
  have d2 := stamped_directory (.start m)
  have c2 : Cuts m (Blank m) (stamped (.start m)) :=
    c1.setWord 4 _ (.of_header hfree (hslot d2) (congrArg Directory.next d2)
      (Or.inl rfl))
  have d3 := Mapping.setEntryCount_directory (stamped (.start m)) 0
  rw [d2] at d3
  have c3 : Cuts m (Blank m) ((stamped (.start m)).setEntryCount 0) :=
    c2.setWord 8 0 (.of_header hfree (hslot d3) (congrArg Directory.next d3)
      (Or.inl rfl))
  have d4 := headed_directory (.start m)
  have h4 : Blank m (headed (.start m)).mem :=
    .of_header hfree (hslot d4) (congrArg Directory.next d4) (Or.inr rfl)
  have c4 : Cuts m (Blank m) (headed (.start m)) := c3.setWord 12 dataStart h4
  have hnext : nextOffset (headed (.start m)).mem = dataStart := congrArg Directory.next d4
  refine c4.memset sizeofCacheHeader (sizeofCacheEntryHeader * cacheMaxEntries) 0 fun done =>
    ⟨fun i => ?_, Or.inr ?_⟩
  · refine Bool.eq_false_iff.mpr fun hu => ?_
    have hused := (slotAt_le (zeroed_le _ _ _ done) hu).1
    exact Bool.false_ne_true ((h4.free i).symm.trans hused)
  · exact (readWord_blit_disjoint (Or.inl (by decide))).trans hnext

omit hfree in
/-- What is left has an empty table, confined when `next_offset` was in range. -/
theorem Blank.confined (h : Blank m k)
    (hnext : dataStart ≤ nextOffset m ∧ nextOffset m ≤ cacheFileSize) : (directory k).Confined := by
  refine (Directory.confined_iff_of_empty h.free).mpr ?_
  show dataStart ≤ nextOffset k ∧ nextOffset k ≤ cacheFileSize
  rcases h.next with hold | hnew
  · rw [hold]
    exact hnext
  · rw [hnew]
    exact ⟨le_rfl, dataStart_le_fileSize⟩

end Formatting

/-! ## Which operations can be killed anywhere -/

/-- Wherever the process is killed in the operation, the file it leaves is safe to use once it is
reopened. -/
def CrashSafe (m : Mem) (op : Op) : Prop :=
  ∀ k, CrashOf m (op.exec m).log k → SafeToUse (initMmap (.start k)).mem

/-- What it takes for that: a `Put` that stores needs the room for its value, a `Clear` an empty
cache. -/
def Op.Covered (m : Mem) : Op → Prop
  | .put key (some data) =>
    0 < data.length → (directory m).packedEnd + data.length ≤ cacheFileSize →
      ∀ idx, idx < cacheMaxEntries → (directory m).Target key idx →
        (directory m).Backed (storeOffset m data.length) idx data.length
  | .put _ none => True
  | .get _ => True
  | .remove _ => True
  | .clear => entryCount m = 0
  | .restart => True

section Reached

variable {m : Mem} (hm : WellFormed (directory m))
include hm

theorem WellFormed.safeToUse : SafeToUse (initMmap (.start m)).mem :=
  hm.kept.safeToUse_iff.mpr hm.roomy

/-- An operation that stores nothing. -/
theorem crashSafe_of_unchanged {op : Op} (h : op.exec m = .start m) : CrashSafe m op := by
  intro k hk
  rw [h] at hk
  obtain rfl := eq_of_crash_start hk
  exact hm.safeToUse

omit hm in
theorem exec_put_rejected (key : List UInt8) {data : Option Blob}
    (h : ∀ b, data = some b → b.length = 0) : (Op.put key data).exec m = .start m := by
  rw [exec_put, put_rejects key h]

/-- Every file left by a killed `Put` is kept. -/
theorem PutStaged.kept {key : List UInt8} {data : Blob} {k : Mem} (h : PutStaged m key data k) :
    Kept k := by
  rcases h with (rfl | ⟨n, hn⟩) | ⟨b, idx, hroom, hidx, ht, hfit, hk⟩
  · exact hm.kept
  · exact hn.kept hm
  · have hb : WellFormed (directory b) := by
      rcases hroom with ⟨-, rfl⟩ | ⟨-, hc⟩
      · exact hm
      · exact hc.wellFormed hm
    exact hk.kept hb hidx ht hfit

theorem put_crashSafe_iff (key : List UInt8) (data : Blob) :
    CrashSafe m (.put key (some data)) ↔ Op.Covered m (.put key (some data)) := by
  constructor
  · intro hsafe hlen hfit idx hidx ht
    obtain ⟨b, k, count, hroom, hb, hk, hp⟩ := put_slot_left hm key hlen hfit hidx ht
    have hkept := ((put_staged hm hlen).cuts k hk).kept hm
    have hroomy := hkept.safeToUse_iff.mp (hsafe k hk)
    refine (hroom.backed_iff hm idx).mp fun i hi hne => ?_
    have hclaims : (directory k).liveLength idx = data.length := by
      rw [Directory.liveLength, hp.slot_self]
      rfl
    have hchange := hp.packedEnd_add hidx
    have hneed := hroomy i hi
    rw [hp.liveLength_ne hne, hp.next_eq] at hneed
    omega
  · intro hcovered
    rcases Nat.eq_zero_or_pos data.length with hzero | hlen
    · exact crashSafe_of_unchanged hm (exec_put_rejected key fun b hb => Option.some.inj hb ▸ hzero)
    · intro k hk
      have hstaged := (put_staged hm hlen).cuts k hk
      rw [(hstaged.kept hm).safeToUse_iff]
      rcases hstaged with (rfl | ⟨n, hn⟩) | ⟨b, idx, hroom, hidx, ht, hfit, hk⟩
      · exact hm.roomy
      · exact Directory.roomy_of_packed (hn.packedEnd_le hm)
      · have hb : WellFormed (directory b) := by
          rcases hroom with ⟨-, rfl⟩ | ⟨-, hc⟩
          · exact hm
          · exact hc.wellFormed hm
        have hneed := hcovered hlen (hroom.fits_packed hm hb hfit) idx hidx
          ((hroom.target_iff hm key idx).mp ht)
        exact hk.roomy hb hidx ((hroom.backed_iff hm idx).mpr hneed)

/-- A `Remove` frees its slot before anything else, and `next_offset` stays. -/
theorem remove_crashSafe (key : List UInt8) : CrashSafe m (.remove key) := by
  rcases remove_cases (s := .start m) hm key with ⟨-, hrem⟩ | ⟨idx, hheld, hidx, hrem, -, -, -⟩
  · exact crashSafe_of_unchanged hm (by simp only [Op.exec, hrem])
  · intro k hk
    have hexec : (Op.remove key).exec m = clearEntry (.start m) idx := by
      simp only [Op.exec, hrem]
    rw [hexec] at hk
    have hcut := (clearEntry_cuts hm hheld.1).cuts k hk
    exact (hcut.kept hm hheld).safeToUse_iff.mpr
      (Directory.roomy_of_packed (hcut.packedEnd_le hm hidx))

/-- `Clear` on a cache with an entry passes through a file with the entry and no room for it. -/
theorem clear_crashSafe_iff : CrashSafe m .clear ↔ entryCount m = 0 := by
  have hcard : entryCount m = (directory m).usedSet.card := hm.count
  constructor
  · intro hsafe
    by_contra hne
    obtain ⟨u, hu⟩ := Finset.card_pos.mp (by omega : 0 < (directory m).usedSet.card)
    have hused := hm.mem_usedSet.mp hu
    have hmax := cacheMaxEntries_eq
    obtain ⟨i, hi, hiu⟩ : ∃ i, i < cacheMaxEntries ∧ i ≠ u := by
      by_cases hzero : u = 0
      · exact ⟨1, by omega, by omega⟩
      · exact ⟨0, by omega, fun h => hzero h.symm⟩
    have hdir := headed_directory (.start m)
    have hk := hsafe _ (headed_crash (m := m))
    rw [accepted_safeToUse_iff (accepted_of_directory (congrArg Directory.magic hdir)
      (congrArg Directory.version hdir)), hdir] at hk
    have hroom : (directory m).packedEnd ≤ dataStart + (directory m).liveLength i :=
      hk.room i hi (Directory.Distinct.writable (d := directory m) hm.names i)
    have hsum := (directory m).add_liveLength_le_packedEnd hiu hi (hm.table u hused)
    rw [Directory.liveLength_of_used hused] at hsum
    have hpos := hm.length_pos u hused
    omega
  · intro hzero k hk
    have hcut := (clear_cuts hm).cuts k hk
    have hempty : ∀ i, ((directory k).slot i).used = false := by
      intro i
      refine Bool.eq_false_iff.mpr fun hu => ?_
      have hin := Finset.card_pos.mpr ⟨i, hm.mem_usedSet.mpr (hcut.used hu)⟩
      omega
    rw [accepted_safeToUse_iff (accepted_of_directory hcut.magic hcut.version)]
    exact Blank.confined ⟨hempty, hcut.next⟩ ⟨hm.next_lo, hm.next_hi⟩

end Reached

/-- The cache in a new file. -/
theorem exists_new : ∃ m, RunFrom (fun _ => 0) [] m ∧ (∀ i, ((directory m).slot i).used = false) ∧
    (directory m).packedEnd = dataStart ∧ (∀ length, storeOffset m length = dataStart) ∧
    entryCount m = 0 ∧ (directory m).Target [97] 0 := by
  have hfresh := initMmap_fresh (runFrom_zeros []).1
  have hempty : ∀ i, ((directory (initMmap (.start fun _ => 0)).mem).slot i).used = false := by
    intro i
    rw [hfresh]
    rfl
  have hpacked := Directory.packedEnd_of_empty hempty
  have hnext : nextOffset (initMmap (.start fun _ => 0)).mem = dataStart :=
    congrArg Directory.next hfresh
  refine ⟨_, runFrom_zeros [], hempty, hpacked, fun length => ?_, congrArg Directory.count hfresh,
    Or.inr ⟨⟨hempty 0, fun j hj => absurd hj (Nat.not_lt_zero j)⟩, fun j hj => ?_⟩⟩
  · show storeOffset (initMmap (.start fun _ => 0)).mem length = dataStart
    rw [storeOffset, hpacked, hnext, ite_self]
  · exact Bool.false_ne_true ((hempty j).symm.trans hj.1)

/-- **Whatever is left by a killed `Put`, `Get` or `Remove`** is safe to use exactly when every slot
leaves the others their room below `next_offset`. -/
theorem killed_safe_iff {file m k : Mem} {ops : List Op} (hrun : RunFrom file ops m) {op : Op}
    (hop : op.ByKey) (hk : CrashOf m (op.exec m).log k) :
    SafeToUse (initMmap (.start k)).mem ↔ ∀ i, i < cacheMaxEntries →
      (directory k).packedEnd ≤ nextOffset k + (directory k).liveLength i := by
  have hm := hrun.wellFormed
  have hsame : CrashOf m (Mapping.start m).log k → Kept k := fun h => eq_of_crash_start h ▸ hm.kept
  have hkept : Kept k := by
    cases op with
    | put key data =>
      cases data with
      | none => exact hsame hk
      | some data =>
        rcases Nat.eq_zero_or_pos data.length with hzero | hlen
        · rw [exec_put_rejected key fun b hb => Option.some.inj hb ▸ hzero] at hk
          exact hsame hk
        · exact ((put_staged hm hlen).cuts k hk).kept hm
    | get key => exact hsame hk
    | remove key =>
      rcases remove_cases (s := .start m) hm key with ⟨-, hrem⟩ | ⟨idx, hheld, -, hrem, -, -, -⟩
      · have hexec : (Op.remove key).exec m = .start m := by simp only [Op.exec, hrem]
        rw [hexec] at hk
        exact hsame hk
      · have hexec : (Op.remove key).exec m = clearEntry (.start m) idx := by
          simp only [Op.exec, hrem]
        rw [hexec] at hk
        exact ((clearEntry_cuts hm hheld.1).cuts k hk).kept hm hheld
    | clear => exact hop.elim
    | restart => exact hop.elim
  exact hkept.safeToUse_iff

/-- The first `Put` on a new cache: its slot is entered while `next_offset` still stands at the beginning
of the data area, and the other slots have nothing. -/
theorem killed_put_unsafe : ∃ m k, RunFrom (fun _ => 0) [] m ∧
    CrashOf m ((Op.put [97] (some threeBytes)).exec m).log k ∧
    ¬ SafeToUse (initMmap (.start k)).mem := by
  obtain ⟨m, hrun, hempty, hpacked, hoffset, -, ht⟩ := exists_new
  have hm := hrun.wellFormed
  have hlen : 0 < threeBytes.length := by decide
  obtain ⟨b, k, count, hroom, hb, hk, hp⟩ := put_slot_left hm [97] hlen (by rw [hpacked]; decide)
    (by decide) ht
  have hcut : CrashOf m ((Op.put [97] (some threeBytes)).exec m).log k := hk
  refine ⟨m, k, hrun, hcut, fun hsafe => ?_⟩
  have hop : (Op.put [97] (some threeBytes)).ByKey := trivial
  have hneed := (killed_safe_iff hrun hop hcut).mp hsafe 1 (by decide)
  have hlive : ∀ i, (directory b).liveLength i = 0 := fun i => by
    rw [(hroom.table hm).2.1, Directory.liveLength_of_free (hempty i)]
  have hclaims : (directory k).liveLength 0 = 3 := by
    rw [Directory.liveLength, hp.slot_self]
    rfl
  have hchange := hp.packedEnd_add (by decide)
  have hnext : nextOffset k = dataStart := by
    show (directory k).next = dataStart
    rw [hp.next_eq, (hroom.table hm).1, hoffset]
  rw [hlive, hroom.packedEnd_eq hm, hclaims, hpacked] at hchange
  rw [hp.liveLength_ne (by decide), hlive, hnext] at hneed
  omega

/-- **Which operations can be killed anywhere.** `Get`, `Remove` and a restart always; `Clear` only on
an empty cache; a `Put` that stores exactly when the room for its value is there beforehand. -/
theorem crashSafe_iff {file m : Mem} {ops : List Op} (hrun : RunFrom file ops m) (op : Op) :
    CrashSafe m op ↔ op.Covered m := by
  have hm := hrun.wellFormed
  cases op with
  | put key data =>
    cases data with
    | none =>
      exact iff_of_true (crashSafe_of_unchanged hm (exec_put_rejected key fun b hb => by cases hb))
        trivial
    | some data => exact put_crashSafe_iff hm key data
  | get key => exact iff_of_true (crashSafe_of_unchanged hm rfl) trivial
  | remove key => exact iff_of_true (remove_crashSafe hm key) trivial
  | clear => exact clear_crashSafe_iff hm
  | restart => exact iff_of_true (crashSafe_of_unchanged hm (by
      simp only [Op.exec, initMmap_of_wellFormed hm])) trivial

/-- On a new cache `Clear` can be killed anywhere, a `Put` cannot. -/
theorem crashSafe_fresh : ∃ m, RunFrom (fun _ => 0) [] m ∧ CrashSafe m .clear ∧
    ¬ CrashSafe m (.put [97] (some threeBytes)) := by
  obtain ⟨m, hrun, hempty, hpacked, hoffset, hcount, ht⟩ := exists_new
  refine ⟨m, hrun, (crashSafe_iff hrun .clear).mpr hcount, fun hsafe => ?_⟩
  have hneed := (crashSafe_iff hrun _).mp hsafe (by decide) (by rw [hpacked]; decide) 0 (by decide)
    ht 1 (by decide) (by decide)
  rw [hpacked, hoffset, Directory.liveLength_of_free (hempty 0),
    Directory.liveLength_of_free (hempty 1)] at hneed
  have hlen : threeBytes.length = 3 := rfl
  omega

/-- **The first formatting.** A file without entries that `InitMmap` does not accept can be formatted by
a process that is killed anywhere exactly when its `next_offset` happens to be in range. -/
theorem init_crashSafe_iff {file : Mem} (h : accepted file = false)
    (hfree : ∀ i, ((directory file).slot i).used = false) :
    CrashSafe file .restart ↔ dataStart ≤ nextOffset file ∧ nextOffset file ≤ cacheFileSize := by
  have hexec : Op.restart.exec file = initializeCache (.start file) := by
    show initMmap (.start file) = _
    unfold initMmap
    rw [Mapping.start_mem, h]
    exact if_neg Bool.false_ne_true
  constructor
  · intro hsafe
    have hdir := stamped_directory (.start file)
    have hk := hsafe (stamped (.start file)).mem (by rw [hexec]; exact stamped_crash)
    rw [accepted_safeToUse_iff (accepted_of_directory (congrArg Directory.magic hdir)
      (congrArg Directory.version hdir)), hdir] at hk
    exact ⟨hk.next_lo, hk.next_hi⟩
  · intro hnext k hk
    rw [hexec] at hk
    have hblank := (initializeCache_cuts hfree).cuts k hk
    cases haccepted : accepted k with
    | false => exact (Reachable.initMmap haccepted).safeToUse
    | true =>
      rw [accepted_safeToUse_iff haccepted]
      exact hblank.confined hnext

/-- A new file is all zeros, so a process that is killed while formatting it may leave a file that is kept
and is not safe to use. -/
theorem init_crashSafe_zeros : ¬ CrashSafe (fun _ => 0) .restart := by
  have hfree : ∀ i, ((directory fun _ => 0).slot i).used = false := by
    intro i
    refine Bool.eq_false_iff.mpr fun hu => ?_
    have hi := lt_of_used hu
    rw [← entryIsUsed_eq hi] at hu
    exact absurd hu (by simp [entryIsUsed])
  intro hsafe
  have hnext := ((init_crashSafe_iff (by decide) hfree).mp hsafe).1
  exact absurd hnext (by decide)

end CCache.Cache
