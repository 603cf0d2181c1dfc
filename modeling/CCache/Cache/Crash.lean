/-
# CCache.Cache.Crash — the files a killed process leaves.

A field assignment is done or not done; a `memset`, `strncpy`, `memcpy` or `memmove` that is cut has
written some of its bytes, in whatever order the library copies.  `Patched m idx e count next k` is
the shape of every file left by a `Remove` or by the storing part of a `Put`: the directory of `m`
with slot `idx`, the count and `next_offset` replaced, and the live data of `m`.  `CompactCut` is the
shape of a file left inside `CompactCache`.  Each operation is followed store by store, and the
answers of the reopened file are read off the shapes.
-/
import CCache.Cache.CompactionBytes
import CCache.Lib.Crash

namespace CCache.Cache

open CCache.Lib.ByteMemory
open CCache.Lib.CString
open CCache.Lib.Extents
open CCache.Lib.Crash

/-! ## Cutting an operation -/

/-- The bytes of a copy of which only those in `done` have been written. -/
def torn (m : Mem) (addr : Nat) (f : Nat → UInt8) (done : Nat → Bool) : Nat → UInt8 :=
  fun i => if done i then f i else m (addr + i)

/-- The files inside an event. -/
def Event.mid (m : Mem) : Event → Mem → Prop
  | .store _ _ _, _ => False
  | .bulk addr n f, k => ∃ done, k = blit m addr n (torn m addr f done)
  | .move dst _ n f, k => ∃ done, k = blit m dst n (torn m dst f done)
  | .add32 _ _, _ => False
  | .sub32 _ _, _ => False

/-- `k` is what is in the file when the process is killed during these events. -/
abbrev CrashOf (m : Mem) (log : List Event) (k : Mem) : Prop :=
  Killed Event.apply Event.mid m log k

/-- `Q` holds of whatever is left of the operation so far, which started on `m`. -/
structure Cuts (m : Mem) (Q : Mem → Prop) (s : Mapping) : Prop where
  traced : s.log.foldl Event.apply m = s.mem
  cuts : ∀ k, CrashOf m s.log k → Q k

namespace Cuts

variable {m : Mem} {Q : Mem → Prop} {s : Mapping}

theorem start (h : Q m) : Cuts m Q (.start m) :=
  ⟨rfl, fun _ hk => crash_nil.mp hk ▸ h⟩

theorem mono {R : Mem → Prop} (h : Cuts m Q s) (hsub : ∀ k, Q k → R k) : Cuts m R s :=
  ⟨h.traced, fun k hk => hsub k (h.cuts k hk)⟩

/-- What is there now is one of the files that may be left. -/
theorem now (h : Cuts m Q s) : Q s.mem := by
  have hk : CrashOf m s.log (s.log.foldl Event.apply m) := crash_foldl m s.log
  rw [h.traced] at hk
  exact h.cuts _ hk

/-- **One more event.** -/
theorem emit (h : Cuts m Q s) (e : Event) (hmid : ∀ k, e.mid s.mem k → Q k)
    (hafter : Q (e.apply s.mem)) : Cuts m Q (s.emit e) := by
  refine ⟨?_, fun k hk => ?_⟩
  · show (s.log ++ [e]).foldl Event.apply m = e.apply s.mem
    rw [List.foldl_append, h.traced]
    rfl
  · rcases crash_snoc.mp hk with hk | hk | hk
    · exact h.cuts k hk
    · rw [h.traced] at hk
      exact hmid k hk
    · rw [h.traced] at hk
      exact hk ▸ hafter

theorem add32 (h : Cuts m Q s) (a b : Nat) : Cuts m Q (s.emit (.add32 a b)) :=
  h.emit _ (fun _ hk => hk.elim) h.now

theorem sub32 (h : Cuts m Q s) (a b : Nat) : Cuts m Q (s.emit (.sub32 a b)) :=
  h.emit _ (fun _ hk => hk.elim) h.now

theorem setWord (h : Cuts m Q s) (a v : Nat) (hafter : Q (s.setWord a v).mem) :
    Cuts m Q (s.setWord a v) := h.emit _ (fun _ hk => hk.elim) hafter

theorem setByte (h : Cuts m Q s) (a : Nat) (b : UInt8) (hafter : Q (s.setByte a b).mem) :
    Cuts m Q (s.setByte a b) := h.emit _ (fun _ hk => hk.elim) hafter

/-- A copy into the mapping, complete or torn, is some write to the same range. -/
theorem memcpy (h : Cuts m Q s) (a : Nat) (bs : List UInt8)
    (hwrite : ∀ done, Q (blit s.mem a bs.length (torn s.mem a (content bs) done))) :
    Cuts m Q (s.memcpy a bs) := by
  refine h.emit _ (fun k hk => ?_) ?_
  · obtain ⟨done, rfl⟩ := hk
    exact hwrite done
  · exact hwrite fun _ => true

theorem memset (h : Cuts m Q s) (a n : Nat) (b : UInt8)
    (hwrite : ∀ done, Q (blit s.mem a n (torn s.mem a (fun _ => b) done))) :
    Cuts m Q (s.memset a b n) := by
  refine h.emit _ (fun k hk => ?_) ?_
  · obtain ⟨done, rfl⟩ := hk
    exact hwrite done
  · exact hwrite fun _ => true

theorem memmove (h : Cuts m Q s) (dst src n : Nat)
    (hwrite : ∀ done, Q (blit s.mem dst n (torn s.mem dst (fun i => s.mem (src + i)) done))) :
    Cuts m Q (s.memmove dst src n) := by
  refine h.emit _ (fun k hk => ?_) ?_
  · obtain ⟨done, rfl⟩ := hk
    exact hwrite done
  · exact hwrite fun _ => true

end Cuts

/-- What is there at some point of an operation may be left when it is killed. -/
theorem Cuts.crash {m : Mem} {Q : Mem → Prop} {s : Mapping} (h : Cuts m Q s) {log : List Event}
    (hlog : s.log <+: log) : CrashOf m log s.mem := by
  have hk : CrashOf m s.log (s.log.foldl Event.apply m) := crash_foldl m s.log
  rw [h.traced] at hk
  exact hk.of_prefix hlog

theorem Mapping.extends_emit {s t : Mapping} (h : s.log <+: t.log) (e : Event) :
    s.log <+: (t.emit e).log := h.trans (List.prefix_append _ _)

/-! ## One slot, the count and `next_offset` -/

/-- The directory with one slot, the count and `next_offset` replaced. -/
def Directory.patch (d : Directory) (idx : Nat) (e : Slot) (count next : Nat) : Directory :=
  { d.setSlot idx e with count := count, next := next }

/-- `k` is the file `m` with one slot, the count and `next_offset` replaced, and with its live data. -/
structure Patched (m : Mem) (idx : Nat) (e : Slot) (count next : Nat) (k : Mem) : Prop where
  dir : directory k = (directory m).patch idx e count next
  live : ∀ x, dataStart ≤ x → x < (directory m).next → k x = m x

namespace Patched

variable {m : Mem} {idx : Nat} {e : Slot} {count next : Nat} {s : Mapping}

theorem refl (m : Mem) (idx : Nat) :
    Patched m idx ((directory m).slot idx) (directory m).count (directory m).next m := by
  refine ⟨?_, fun _ _ _ => rfl⟩
  refine Directory.ext rfl rfl rfl rfl ?_
  funext j
  show _ = if j = idx then _ else _
  by_cases hj : j = idx
  · rw [if_pos hj, hj]
  · rw [if_neg hj]

/-- A store to a field of the slot. -/
theorem modify (h : Patched m idx e count next s.mem) {k : Mem} {f : Slot → Slot}
    (hdir : directory k = (directory s.mem).modify idx f) (hdata : ∀ x, dataStart ≤ x → k x = s.mem x) :
    Patched m idx (f e) count next k := by
  refine ⟨?_, fun x hlo hhi => (hdata x hlo).trans (h.live x hlo hhi)⟩
  rw [hdir, h.dir]
  refine Directory.ext rfl rfl rfl rfl ?_
  funext j
  show (if j = idx then _ else if j = idx then _ else _) = if j = idx then _ else _
  by_cases hj : j = idx
  · rw [if_pos hj, if_pos hj]
    show f (if idx = idx then e else _) = f e
    rw [if_pos rfl]
  · rw [if_neg hj, if_neg hj, if_neg hj]

variable (hidx : idx < cacheMaxEntries)
include hidx

theorem setLength (h : Patched m idx e count next s.mem) (v : Nat) :
    Patched m idx { e with length := v % 2 ^ 32 } count next (s.setLength idx v).mem :=
  h.modify (Mapping.setLength_directory hidx v) fun _ hx => Mapping.setLength_data hidx hx v

theorem setOffset (h : Patched m idx e count next s.mem) (v : Nat) :
    Patched m idx { e with offset := v % 2 ^ 32 } count next (s.setOffset idx v).mem :=
  h.modify (Mapping.setOffset_directory hidx v) fun _ hx => Mapping.setOffset_data hidx hx v

theorem setIsUsed (h : Patched m idx e count next s.mem) (b : Bool) :
    Patched m idx { e with used := b } count next (s.setIsUsed idx b).mem :=
  h.modify (Mapping.setIsUsed_directory hidx b) fun _ hx => Mapping.setIsUsed_data hidx hx b

theorem setChecksum (h : Patched m idx e count next s.mem) (v : Nat) :
    Patched m idx { e with checksum := v % 2 ^ 32 } count next (s.setChecksum idx v).mem :=
  h.modify (Mapping.setChecksum_directory hidx v) fun _ hx => Mapping.setChecksum_data hidx hx v

theorem copyKey (h : Patched m idx e count next s.mem) (key : List UInt8) :
    Patched m idx { e with key := keyField key } count next ((s.copyKey idx key).closeKey idx).mem :=
  h.modify (Mapping.copyKey_directory hidx key) fun _ hx => Mapping.copyKey_data hidx hx key

theorem clearKey (h : Patched m idx e count next s.mem) :
    Patched m idx { e with key := List.replicate sizeofKey 0 } count next
      (s.memset (entryAddr idx + 256) 0 sizeofKey).mem :=
  h.modify (Mapping.clearKey_directory hidx) fun _ hx => Mapping.clearKey_data hidx hx

/-- A write inside the key field leaves the other fields of the slot. -/
theorem key_write (h : Patched m idx e count next s.mem) {a n : Nat} (f : Nat → UInt8)
    (ha : entryAddr idx + 256 ≤ a) (hb : a + n ≤ entryAddr idx + 512) :
    ∃ key, Patched m idx { e with key := key } count next (blit s.mem a n f) := by
  have hbound := entryAddr_bounds hidx
  refine ⟨(slotAt (blit s.mem a n f) idx).key, h.modify (f := fun e =>
    { e with key := (slotAt (blit s.mem a n f) idx).key }) ?_ fun x hx => blit_out (by omega)⟩
  rw [directory_blit_entry hidx (by omega) (by omega)]
  show _ = (directory s.mem).setSlot idx { slotAt s.mem idx with key := _ }
  rw [slotAt_lt hidx, slotAt_lt hidx]
  unfold entryLength entryOffset entryIsUsed entryChecksum
  rw [readWord_blit_disjoint (by omega), readWord_blit_disjoint (by omega),
    readWord_blit_disjoint (by omega), blit_out (by omega)]

omit hidx

theorem setEntryCount (h : Patched m idx e count next s.mem) (v : Nat) :
    Patched m idx e (v % 2 ^ 32) next (s.setEntryCount v).mem := by
  refine ⟨?_, fun x hlo hhi => (Mapping.setEntryCount_data s v hlo).trans (h.live x hlo hhi)⟩
  rw [Mapping.setEntryCount_directory, h.dir]
  rfl

theorem countEntry (h : Patched m idx e count next s.mem) (hlt : count < cacheMaxEntries) :
    Patched m idx e (count + 1) next (countEntry s).mem := by
  have hcount : entryCount s.mem = count := congrArg Directory.count h.dir
  obtain ⟨hdir, hdata⟩ := countEntry_spec (s := s) (hcount ▸ hlt)
  refine ⟨?_, fun x hlo hhi => (hdata x hlo).trans (h.live x hlo hhi)⟩
  rw [hdir, h.dir]
  rfl

theorem setNextOffset (h : Patched m idx e count next s.mem) (v : Nat) :
    Patched m idx e count (v % 2 ^ 32) (s.setNextOffset v).mem := by
  refine ⟨?_, fun x hlo hhi => (Mapping.setNextOffset_data s v hlo).trans (h.live x hlo hhi)⟩
  rw [Mapping.setNextOffset_directory, h.dir]
  rfl

/-- A write behind the live data. -/
theorem data_write (h : Patched m idx e count next s.mem) {a n : Nat} (f : Nat → UInt8)
    (hlo : dataStart ≤ (directory m).next) (ha : (directory m).next ≤ a) :
    Patched m idx e count next (blit s.mem a n f) := by
  refine ⟨?_, fun x hx hhi => ?_⟩
  · rw [directory_blit_data (by omega), h.dir]
  · rw [blit_out (by omega), h.live x hx hhi]

end Patched

end CCache.Cache
