/-
# CCache.Cache.Operations — what one operation can do, and the space invariant of every run.

Each operation gets one inversion lemma.  `put_cases` says all `Put` can do: it works on the mapping
as it is or on the compacted one, and there either refuses, leaving it so, or stores the value behind
the old `next_offset` in the slot `Target` allows.  `remove_cases` does the same for `Remove`.  From
these follow that every operation keeps `WellFormed` and records only safe events, and by induction on
the run that every reachable file satisfies the space invariant.
-/
import CCache.Cache.Compaction

namespace CCache.Cache

open CCache.Lib.ByteMemory
open CCache.Lib.Extents
open CCache.Lib.Runs

/-! ## Compaction keeps the invariant -/

namespace Directory

theorem compacted_used (d : Directory) (i : Nat) :
    (d.compacted.slot i).used = (d.slot i).used := packedTo_slot_used d cacheMaxEntries i

theorem compacted_length (d : Directory) (i : Nat) :
    (d.compacted.slot i).length = (d.slot i).length := packedTo_slot_length d cacheMaxEntries i

theorem compacted_key (d : Directory) (i : Nat) : (d.compacted.slot i).key = (d.slot i).key := by
  simp only [compacted, packedTo]
  split <;> rfl

theorem compacted_name (d : Directory) (i : Nat) : (d.compacted.slot i).name = (d.slot i).name := by
  rw [Slot.name, compacted_key, Slot.name]

theorem compacted_checksum (d : Directory) (i : Nat) :
    (d.compacted.slot i).checksum = (d.slot i).checksum := by
  simp only [compacted, packedTo]
  split <;> rfl

theorem compacted_slot_free {d : Directory} {i : Nat} (h : (d.slot i).used = false) :
    d.compacted.slot i = d.slot i := by
  simp only [compacted, packedTo]
  rw [if_neg (by simp [h])]

theorem compacted_usedSet (d : Directory) : d.compacted.usedSet = d.usedSet := by
  simp only [usedSet, compacted_used]

theorem compacted_holds (d : Directory) (key : List UInt8) (i : Nat) :
    d.compacted.Holds key i ↔ d.Holds key i := by
  rw [Holds, Holds, compacted_used, compacted_name]

end Directory

namespace WellFormed

variable {d : Directory}

theorem compacted_offset (h : WellFormed d) {i : Nat} (hu : (d.slot i).used = true) :
    (d.compacted.slot i).offset = d.packedStart i := by
  rw [Directory.compacted_slot d (h.table i hu), if_pos hu]

/-- **Compaction keeps the invariant.** -/
theorem compacted (h : WellFormed d) : WellFormed d.compacted where
  magic := by
    unfold Directory.compacted
    exact h.magic
  version := by
    unfold Directory.compacted
    exact h.version
  next_lo := d.dataStart_le_packedStart cacheMaxEntries
  next_hi := (h.packedStart_le_next cacheMaxEntries (le_refl _)).trans h.next_hi
  table := fun i hi => h.table i (by rwa [Directory.compacted_used] at hi)
  length_pos := by
    intro i hi
    rw [Directory.compacted_used] at hi
    rw [Directory.compacted_length]
    exact h.length_pos i hi
  extent_lo := by
    intro i hi
    rw [Directory.compacted_used] at hi
    rw [h.compacted_offset hi]
    exact d.dataStart_le_packedStart i
  extent_hi := by
    intro i hi
    rw [Directory.compacted_used] at hi
    rw [h.compacted_offset hi, Directory.compacted_length]
    show d.packedStart i + (d.slot i).length ≤ d.packedStart cacheMaxEntries
    exact Directory.packedStart_add_length hi (h.table i hi)
  disjoint := by
    intro i j hi hj hij
    rw [Directory.compacted_used] at hi hj
    rw [h.compacted_offset hi, h.compacted_offset hj, Directory.compacted_length,
      Directory.compacted_length]
    rcases Nat.lt_or_gt_of_ne hij with hlt | hgt
    · exact Or.inl (Directory.packedStart_add_length hi hlt)
    · exact Or.inr (Directory.packedStart_add_length hj hgt)
  names := by
    intro i j hi hj hname
    rw [Directory.compacted_used] at hi hj
    rw [Directory.compacted_name, Directory.compacted_name] at hname
    exact h.names i j hi hj hname
  key_field := by
    intro i hi
    rw [Directory.compacted_used] at hi
    rw [Directory.compacted_key]
    exact h.key_field i hi
  free := by
    intro i hi
    rw [Directory.compacted_used] at hi
    rw [← h.free i hi]
    exact Directory.compacted_slot_free hi
  count := by
    rw [Directory.compacted_usedSet, ← h.count]
    unfold Directory.compacted
    rfl

end WellFormed

/-! ## Put -/

/-- `b` is a mapping `CompactCache` may leave of `m`. -/
structure CompactedFrom (m b : Mem) : Prop where
  dir : directory b = (directory m).compacted
  data : ∀ x, dataStart ≤ x → b x = (directory m).moved m cacheMaxEntries x

/-- The mapping on which `Put` looks for a slot: the file as it is when the value fits behind
`next_offset`, else the compacted one. -/
def Room (m : Mem) (length : Nat) (b : Mem) : Prop :=
  length ≤ cacheFileSize - nextOffset m ∧ b = m ∨
    cacheFileSize - nextOffset m < length ∧ CompactedFrom m b

/-- `k` is the mapping after a successful `Put` of `data` into slot `idx` of `b`. -/
structure StoredAt (b : Mem) (key : List UInt8) (data : Blob) (idx : Nat) (k : Mem) : Prop where
  lt : idx < cacheMaxEntries
  target : (directory b).Target key idx
  fits : (directory b).next + data.length ≤ cacheFileSize
  dir : directory k = (directory b).store idx key data
  data : ∀ x, dataStart ≤ x →
    k x = blit b (directory b).next data.length (content data.bytes) x

theorem availableSpace_of_le {m : Mem} (h : nextOffset m ≤ cacheFileSize) :
    availableSpace m = cacheFileSize - nextOffset m := sub32_eq cacheFileSize_lt h

theorem availableSpace_eq {m : Mem} (h : WellFormed (directory m)) :
    availableSpace m = cacheFileSize - nextOffset m := availableSpace_of_le h.next_hi

theorem safe_sub_next {s : Mapping} (h : WellFormed (directory s.mem)) (hs : s.Safe) :
    (s.emit (.sub32 cacheFileSize (nextOffset s.mem))).Safe :=
  (Mapping.safe_emit _ _).mpr ⟨hs, h.next_hi, cacheFileSize_lt⟩

/-- What `ensureSpace` answers, on what mapping, and that it records only safe events. -/
theorem ensureSpace_cases {s : Mapping} (h : WellFormed (directory s.mem)) (hs : s.Safe)
    (length : Nat) :
    Room s.mem length (ensureSpace s length).2.mem ∧
      WellFormed (directory (ensureSpace s length).2.mem) ∧ (ensureSpace s length).2.Safe ∧
      ((ensureSpace s length).1 = true ↔
        length ≤ cacheFileSize - nextOffset (ensureSpace s length).2.mem) := by
  unfold ensureSpace
  simp only [Mapping.emit_sub32_mem, availableSpace_eq h, gt_iff_lt]
  by_cases hroom : length ≤ cacheFileSize - nextOffset s.mem
  · rw [if_neg (by omega)]
    exact ⟨Or.inl ⟨hroom, rfl⟩, h, safe_sub_next h hs, iff_of_true rfl hroom⟩
  · rw [if_pos (by omega)]
    -- the value is compared again, with what the compaction left
    generalize hc : compactCache (s.emit (.sub32 cacheFileSize (nextOffset s.mem))) = c
    have hspec := compactCache_spec (s := s.emit (.sub32 cacheFileSize (nextOffset s.mem))) h
    rw [hc] at hspec
    obtain ⟨hdir, hdata, hsafe⟩ := hspec
    have hwf : WellFormed (directory c.mem) := by
      rw [hdir]
      exact h.compacted
    have hsafeC := safe_sub_next hwf (hsafe (safe_sub_next h hs))
    have hfrom : Room s.mem length c.mem := Or.inr ⟨by omega, hdir, hdata⟩
    rw [availableSpace_eq hwf]
    by_cases hfit : cacheFileSize - nextOffset c.mem < length
    · rw [if_pos hfit]
      exact ⟨hfrom, hwf, hsafeC, iff_of_false Bool.false_ne_true (by
        show ¬ length ≤ cacheFileSize - nextOffset c.mem
        omega)⟩
    · rw [if_neg hfit]
      exact ⟨hfrom, hwf, hsafeC, iff_of_true rfl (by
        show length ≤ cacheFileSize - nextOffset c.mem
        omega)⟩

/-- The slot `Put` chooses, with the count it leaves. -/
theorem chooseEntry_some {s t : Mapping} {key : List UInt8} {idx : Nat}
    (h : WellFormed (directory s.mem)) (hc : chooseEntry s key = some (idx, t)) :
    idx < cacheMaxEntries ∧ (directory s.mem).Target key idx ∧
      directory t.mem = { directory s.mem with
        count := if ((directory s.mem).slot idx).used then (directory s.mem).count
          else (directory s.mem).count + 1 } ∧
      (∀ x, dataStart ≤ x → t.mem x = s.mem x) ∧ (s.Safe → t.Safe) := by
  unfold chooseEntry at hc
  cases hfind : findEntry s.mem key with
  | some j =>
    rw [hfind] at hc
    cases hc
    obtain ⟨hidx, hholds, _⟩ := findEntry_eq_some.mp hfind
    refine ⟨hidx, Or.inl hholds, ?_, fun x _ => rfl, id⟩
    rw [if_pos hholds.1]
  | none =>
    rw [hfind] at hc
    cases hfree : findFreeEntry s.mem with
    | none =>
      rw [hfree] at hc
      cases hc
    | some j =>
      rw [hfree] at hc
      cases hc
      obtain ⟨hidx, hunused, hfirst⟩ := findFreeEntry_eq_some.mp hfree
      have hlt : entryCount s.mem < cacheMaxEntries := h.count_lt_of_free hidx hunused
      obtain ⟨hdir, hdata⟩ := countEntry_spec hlt
      refine ⟨hidx, Or.inr ⟨⟨hunused, hfirst⟩, findEntry_eq_none.mp hfind⟩, ?_, hdata,
        fun hs => countEntry_safe hs hlt⟩
      rw [hdir, hunused]
      rfl

theorem chooseEntry_none {s : Mapping} {key : List UInt8} (hc : chooseEntry s key = none) :
    (∀ j, ¬ (directory s.mem).Holds key j) ∧
      ∀ i, i < cacheMaxEntries → ((directory s.mem).slot i).used = true := by
  unfold chooseEntry at hc
  cases hfind : findEntry s.mem key with
  | some j =>
    rw [hfind] at hc
    cases hc
  | none =>
    rw [hfind] at hc
    cases hfree : findFreeEntry s.mem with
    | none => exact ⟨findEntry_eq_none.mp hfind, findFreeEntry_eq_none.mp hfree⟩
    | some j =>
      rw [hfree] at hc
      cases hc

/-- Why `Put` refuses: the value does not fit, or the key is new and every slot is used. -/
def Refused (b : Mem) (key : List UInt8) (data : Blob) : Prop :=
  cacheFileSize < (directory b).next + data.length ∨
    (∀ j, ¬ (directory b).Holds key j) ∧
      ∀ i, i < cacheMaxEntries → ((directory b).slot i).used = true

/-- **All `Put` can do.** -/
theorem put_cases {s : Mapping} (h : WellFormed (directory s.mem)) (hs : s.Safe)
    (key : List UInt8) {data : Blob} (hlen : 0 < data.length) :
    (put s key (some data)).2.Safe ∧ ∃ b, Room s.mem data.length b ∧ WellFormed (directory b) ∧
      ((put s key (some data)).1 = false ∧ (put s key (some data)).2.mem = b ∧
          Refused b key data ∨
        (put s key (some data)).1 = true ∧
          ∃ idx, StoredAt b key data idx (put s key (some data)).2.mem) := by
  obtain ⟨hroom, hwf, hsafe, hok⟩ := ensureSpace_cases h hs data.length
  unfold put
  simp only [if_neg (Nat.ne_of_gt hlen)]
  generalize ensureSpace s data.length = r at hroom hwf hsafe hok
  obtain ⟨ok, t⟩ := r
  cases ok with
  | false =>
    have hfit : ¬ data.length ≤ cacheFileSize - nextOffset t.mem := fun hle =>
      Bool.false_ne_true (hok.mpr hle)
    refine ⟨hsafe, t.mem, hroom, hwf, Or.inl ⟨rfl, rfl, Or.inl ?_⟩⟩
    show cacheFileSize < nextOffset t.mem + data.length
    omega
  | true =>
    have hfit : data.length ≤ cacheFileSize - nextOffset t.mem := hok.mp rfl
    have hnext : nextOffset t.mem ≤ cacheFileSize := hwf.next_hi
    unfold putEntry
    cases hc : chooseEntry t key with
    | none =>
      simp only [hc]
      exact ⟨hsafe, t.mem, hroom, hwf, Or.inl ⟨trivial, rfl, Or.inr (chooseEntry_none hc)⟩⟩
    | some p =>
      obtain ⟨idx, u⟩ := p
      obtain ⟨hidx, htarget, hdir, hdata, hsafeU⟩ := chooseEntry_some hwf hc
      have hnextU : nextOffset u.mem = nextOffset t.mem := congrArg Directory.next hdir
      have hlo : dataStart ≤ nextOffset u.mem := by
        rw [hnextU]
        exact hwf.next_lo
      have hsize := cacheFileSize_lt
      obtain ⟨hwdir, hwdata⟩ := writeEntry_spec hidx key data hlo (by omega)
      simp only [hc]
      refine ⟨writeEntry_safe (hsafeU hsafe) hidx key data hlo (by omega), t.mem, hroom, hwf,
        Or.inr ⟨trivial, idx, hidx, htarget, ?_, ?_, fun x hx => ?_⟩⟩
      · show nextOffset t.mem + data.length ≤ cacheFileSize
        omega
      · rw [hwdir, hdir, hnextU]
        rfl
      · rw [hwdata x hx, hnextU]
        show blit u.mem (nextOffset t.mem) _ _ x = blit t.mem (nextOffset t.mem) _ _ x
        -- the count was stored below the data area
        by_cases hin : nextOffset t.mem ≤ x ∧ x < nextOffset t.mem + data.length
        · rw [blit_in hin.1 hin.2, blit_in hin.1 hin.2]
        · rw [blit_out (by omega), blit_out (by omega), hdata x hx]

theorem Room.wellFormed {m b : Mem} {length : Nat} (h : WellFormed (directory m))
    (hr : Room m length b) : WellFormed (directory b) := by
  rcases hr with ⟨_, rfl⟩ | ⟨_, hc⟩
  · exact h
  · rw [hc.dir]
    exact h.compacted

theorem StoredAt.wellFormed {b k : Mem} {key : List UInt8} {data : Blob} {idx : Nat}
    (h : WellFormed (directory b)) (hs : StoredAt b key data idx k) (hlen : 0 < data.length) :
    WellFormed (directory k) := by
  rw [hs.dir]
  exact h.store hs.lt hlen hs.fits hs.target

/-- The slot `Put` writes to is determined. -/
theorem target_unique {d : Directory} (h : WellFormed d) {key : List UInt8} {i j : Nat}
    (hi : d.Target key i) (hj : d.Target key j) : i = j := by
  rcases hi with hi | ⟨⟨hfree, hfirst⟩, hnone⟩
  · rcases hj with hj | ⟨-, hnone⟩
    · exact h.names i j hi.1 hj.1 (hi.2.trans hj.2.symm)
    · exact absurd hi (hnone i)
  · rcases hj with hj | ⟨⟨hfree', hfirst'⟩, -⟩
    · exact absurd hj (hnone j)
    · rcases Nat.lt_trichotomy i j with hlt | heq | hgt
      · exact absurd (hfirst' i hlt) (by rw [hfree]; exact Bool.false_ne_true)
      · exact heq
      · exact absurd (hfirst j hgt) (by rw [hfree']; exact Bool.false_ne_true)

/-- **When `Put` stores without compaction.** The value fits behind `next_offset` and the key has a
slot to go to. -/
theorem put_stored {m : Mem} (h : WellFormed (directory m)) {key : List UInt8} {data : Blob}
    (hlen : 0 < data.length) (hfit : (directory m).next + data.length ≤ cacheFileSize) {idx : Nat}
    (hidx : idx < cacheMaxEntries) (ht : (directory m).Target key idx) :
    (put (.start m) key (some data)).1 = true ∧
      StoredAt m key data idx (put (.start m) key (some data)).2.mem := by
  obtain ⟨-, b, hroom, -, hcase⟩ := put_cases (s := .start m) h (Mapping.safe_start m) key hlen
  have hb : b = m := by
    rcases hroom with ⟨-, hb⟩ | ⟨hfull, -⟩
    · exact hb
    · have hfull' : cacheFileSize - (directory m).next < data.length := hfull
      omega
  rw [hb] at hcase
  rcases hcase with ⟨-, -, hrefused⟩ | ⟨hok, j, hstored⟩
  · rcases hrefused with hbig | ⟨hnone, hfull⟩
    · omega
    · rcases ht with ht | ⟨⟨hfree, -⟩, -⟩
      · exact absurd ht (hnone idx)
      · rw [hfull idx hidx] at hfree
        exact absurd hfree.symm Bool.false_ne_true
  · rw [target_unique h ht hstored.target]
    exact ⟨hok, hstored⟩

/-- The first store on a fresh cache goes to slot 0. -/
theorem put_fresh {m : Mem} (h : directory m = .fresh) {key : List UInt8} {data : Blob}
    (hlen : 0 < data.length) (hfit : dataStart + data.length ≤ cacheFileSize) :
    (put (.start m) key (some data)).1 = true ∧
      StoredAt m key data 0 (put (.start m) key (some data)).2.mem := by
  refine put_stored (h ▸ .fresh) hlen ?_ (by decide) ?_
  · rw [h]
    exact hfit
  · rw [h]
    exact Or.inr ⟨⟨rfl, fun j hj => absurd hj (Nat.not_lt_zero j)⟩,
      fun j hh => Bool.false_ne_true hh.1⟩

/-- A null pointer or a length of 0 changes nothing. -/
theorem put_rejects {s : Mapping} (key : List UInt8) {data : Option Blob}
    (h : ∀ b, data = some b → b.length = 0) : put s key data = (false, s) := by
  cases data with
  | none => rfl
  | some b =>
    unfold put
    simp only [if_pos (h b rfl)]

/-! ## Remove and restart -/

/-- **All `Remove` can do.** -/
theorem remove_cases {s : Mapping} (h : WellFormed (directory s.mem)) (key : List UInt8) :
    (∀ j, ¬ (directory s.mem).Holds key j) ∧ remove s key = (false, s) ∨
      ∃ idx, (directory s.mem).Holds key idx ∧ idx < cacheMaxEntries ∧
        remove s key = (true, clearEntry s idx) ∧
        directory (clearEntry s idx).mem = (directory s.mem).erase idx ∧
        (∀ x, dataStart ≤ x → (clearEntry s idx).mem x = s.mem x) ∧
        (s.Safe → (clearEntry s idx).Safe) := by
  unfold remove
  cases hfind : findEntry s.mem key with
  | none => exact Or.inl ⟨findEntry_eq_none.mp hfind, rfl⟩
  | some idx =>
    obtain ⟨hidx, hholds, _⟩ := findEntry_eq_some.mp hfind
    have hpos : 0 < entryCount s.mem := h.count_pos_of_used hholds.1
    obtain ⟨hdir, hdata⟩ := clearEntry_spec hidx hpos
    exact Or.inr ⟨idx, hholds, hidx, rfl, hdir, hdata, fun hs => clearEntry_safe hs hidx hpos⟩

/-- The files of a well-formed directory pass the check of `InitMmap`. -/
theorem accepted_of_wellFormed {m : Mem} (h : WellFormed (directory m)) : accepted m = true := by
  have hmagic : magicNumber m = cacheMagic := h.magic
  have hversion : version m = cacheVersion := h.version
  unfold accepted
  rw [hmagic, hversion]
  decide

/-- Reopening such a file changes nothing. -/
theorem initMmap_of_wellFormed {m : Mem} (h : WellFormed (directory m)) :
    initMmap (.start m) = .start m := if_pos (accepted_of_wellFormed h)

/-! ## Every operation, every run -/

/-- **One operation keeps the invariant** and records safe events only. -/
theorem exec_spec {m : Mem} (h : WellFormed (directory m)) (op : Op) :
    WellFormed (directory (op.exec m).mem) ∧ (op.exec m).Safe := by
  have hstart := Mapping.safe_start m
  cases op with
  | put key data =>
    by_cases hdata : ∀ b, data = some b → b.length = 0
    · simp only [Op.exec, put_rejects key hdata]
      exact ⟨h, hstart⟩
    · push Not at hdata
      obtain ⟨b, rfl, hlen⟩ := hdata
      have hpos : 0 < b.length := Nat.pos_of_ne_zero hlen
      obtain ⟨hsafe, base, -, hwf, hcase⟩ := put_cases (s := .start m) h hstart key hpos
      refine ⟨?_, hsafe⟩
      rcases hcase with ⟨-, hmem, -⟩ | ⟨-, idx, hstored⟩
      · show WellFormed (directory (put (.start m) key (some b)).2.mem)
        rw [hmem]
        exact hwf
      · exact hstored.wellFormed hwf hpos
  | get key => exact ⟨h, hstart⟩
  | remove key =>
    rcases remove_cases (s := .start m) h key with ⟨-, hrem⟩ | ⟨idx, hholds, -, hrem, hdir, -, hsafe⟩
    · simp only [Op.exec, hrem]
      exact ⟨h, hstart⟩
    · simp only [Op.exec, hrem]
      rw [hdir]
      exact ⟨h.erase hholds.1, hsafe hstart⟩
  | clear =>
    obtain ⟨hdir, -⟩ := initializeCache_spec (.start m)
    refine ⟨?_, initializeCache_safe hstart⟩
    show WellFormed (directory (initializeCache (.start m)).mem)
    rw [hdir]
    exact .fresh
  | restart =>
    simp only [Op.exec, initMmap_of_wellFormed h]
    exact ⟨h, hstart⟩

theorem step_wellFormed {m m' : Mem} {op : Op} (h : WellFormed (directory m)) (hs : Step m op m') :
    WellFormed (directory m') := by
  rw [hs]
  exact (exec_spec h op).1

/-- `InitMmap` on a file it does not accept leaves a fresh directory. -/
theorem initMmap_fresh {file : Mem} (h : accepted file = false) :
    directory (initMmap (.start file)).mem = .fresh := by
  have hinit : initMmap (.start file) = initializeCache (.start file) := by
    unfold initMmap
    rw [if_neg (by rw [Mapping.start_mem, h]; exact Bool.false_ne_true)]
  rw [hinit]
  exact (initializeCache_spec _).1

/-- **Every reachable file is well formed.** -/
theorem RunFrom.wellFormed {file m : Mem} {ops : List Op} (h : RunFrom file ops m) :
    WellFormed (directory m) := by
  refine h.2.invariant (I := fun m => WellFormed (directory m))
    (fun _ _ _ hw hs => step_wellFormed hw hs) ?_
  rw [initMmap_fresh h.1]
  exact .fresh

theorem Reachable.wellFormed {m : Mem} (h : Reachable m) : WellFormed (directory m) := by
  obtain ⟨file, ops, hrun⟩ := h
  exact hrun.wellFormed

/-- A fresh cache is reachable, and so is what an operation makes of a reachable one. -/
theorem Reachable.initMmap {file : Mem} (h : accepted file = false) :
    Reachable (Cache.initMmap (.start file)).mem := ⟨file, [], h, .nil⟩

theorem Reachable.exec {m : Mem} (h : Reachable m) (op : Op) : Reachable (op.exec m).mem := by
  obtain ⟨file, ops, haccepted, hrun⟩ := h
  exact ⟨file, ops ++ [op], haccepted, .snoc hrun rfl⟩

/-- The file after a list of operations. -/
def execAll (m : Mem) (ops : List Op) : Mem := ops.foldl (fun m op => (op.exec m).mem) m

theorem run_execAll (m : Mem) (ops : List Op) : Run Step m ops (execAll m ops) := by
  induction ops generalizing m with
  | nil => exact .nil
  | cons op ops ih => exact Run.cons rfl (ih _)

/-- A file of zeros is not accepted, so every list of operations is a run from it. -/
theorem runFrom_zeros (ops : List Op) :
    RunFrom (fun _ => 0) ops (execAll (initMmap (.start fun _ => 0)).mem ops) :=
  ⟨by decide, run_execAll _ _⟩

/-! ## The space invariant -/

/-- **Space invariant.** In every state of every run `next_offset` stays between the data area's start
and the end of the file, the used extents lie below it and are pairwise disjoint; so whatever
operation comes next, its additions and subtractions do not wrap and its copies stay in the file. -/
theorem space_invariant {file m : Mem} {ops : List Op} (h : RunFrom file ops m) :
    (dataStart ≤ nextOffset m ∧ nextOffset m ≤ cacheFileSize) ∧
      (∀ i, i < cacheMaxEntries → entryIsUsed m i = true →
        0 < entryLength m i ∧ dataStart ≤ entryOffset m i ∧
          entryOffset m i + entryLength m i ≤ nextOffset m) ∧
      (∀ i j, i < cacheMaxEntries → j < cacheMaxEntries → i ≠ j → entryIsUsed m i = true →
        entryIsUsed m j = true →
        Disj (entryOffset m i) (entryLength m i) (entryOffset m j) (entryLength m j)) ∧
      (∀ op : Op, ∀ e ∈ (op.exec m).log, e.Safe) ∧
      ∀ e ∈ (compactCache (.start m)).log, e.Safe := by
  have hwf := h.wellFormed
  refine ⟨⟨hwf.next_lo, hwf.next_hi⟩, ?_, ?_, fun op => (exec_spec hwf op).2,
    (compactCache_spec (s := .start m) hwf).2.2 (Mapping.safe_start m)⟩
  · intro i hi hu
    rw [entryIsUsed_eq hi] at hu
    rw [entryLength_eq hi, entryOffset_eq hi]
    exact ⟨hwf.length_pos i hu, hwf.extent_lo i hu, hwf.extent_hi i hu⟩
  · intro i j hi hj hij hui huj
    rw [entryIsUsed_eq hi] at hui
    rw [entryIsUsed_eq hj] at huj
    rw [entryLength_eq hi, entryOffset_eq hi, entryLength_eq hj, entryOffset_eq hj]
    exact hwf.disjoint i j hui huj hij

/-- A run that stores one value on a zeroed file. -/
theorem reach_stored (key : List UInt8) (data : Blob) (hlen : 0 < data.length)
    (hfit : dataStart + data.length ≤ cacheFileSize) :
    ∃ b m, directory b = .fresh ∧ RunFrom (fun _ => 0) [.put key (some data)] m ∧
      StoredAt b key data 0 m := by
  have hfresh := initMmap_fresh (runFrom_zeros []).1
  refine ⟨_, _, hfresh, runFrom_zeros _, ?_⟩
  simp only [execAll, List.foldl_cons, List.foldl_nil, Op.exec]
  exact (put_fresh hfresh hlen hfit).2

/-- The space invariant in a run that stores, overwrites and reopens. -/
theorem space_invariant_overwritten :
    ∃ m, nextOffset m ≤ cacheFileSize ∧
      RunFrom (fun _ => 0) [.put [97] (some ⟨[1], by decide⟩),
        .put [97] (some ⟨[2, 3], by decide⟩), .restart] m :=
  ⟨_, (space_invariant (runFrom_zeros _)).1.2, runFrom_zeros _⟩

end CCache.Cache
