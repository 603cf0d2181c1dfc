/-
# CCache.Cache.Layout — the tables whose offsets and lengths the operations can be trusted with.

`InitMmap` looks at the magic number and the version and at nothing else, so the header words and the
slots of an accepted file are arbitrary: extents may overlap, lie behind `next_offset` or outside the
file, and two slots may have one name.  `Confined` is what they must satisfy for the operations to stay
inside the file.  It is weaker than the invariant of the cache's own files and is kept by what each
operation does to the table: a store, an erasure, a packing.
-/
import CCache.Cache.Compaction

namespace CCache.Cache

namespace Directory

/-- The slot is used and has bytes: compaction moves it. -/
def Live (d : Directory) (i : Nat) : Prop := (d.slot i).used = true ∧ 0 < (d.slot i).length

instance (d : Directory) (i : Nat) : Decidable (d.Live i) := inferInstanceAs (Decidable (_ ∧ _))

/-- Where the values end once they are packed. -/
def packedEnd (d : Directory) : Nat := d.packedStart cacheMaxEntries

/-- A `Put` may write to the slot: it is free, or the first used one of its name. -/
def Writable (d : Directory) (i : Nat) : Prop :=
  (d.slot i).used = true → ∀ j, j < i → (d.slot j).used = true → (d.slot j).name ≠ (d.slot i).name

/-- The header and the slots keep every operation inside the file. -/
structure Confined (d : Directory) : Prop where
  next_lo : dataStart ≤ d.next
  next_hi : d.next ≤ cacheFileSize
  extent : ∀ i, i < cacheMaxEntries → d.Live i →
    dataStart ≤ (d.slot i).offset ∧ (d.slot i).offset + (d.slot i).length ≤ cacheFileSize
  packed : d.packedEnd ≤ cacheFileSize
  room : ∀ i, i < cacheMaxEntries → d.Writable i → d.packedEnd ≤ d.next + d.liveLength i

section Change

variable {d d' : Directory} {idx : Nat}

theorem liveLength_of_free (h : (d.slot idx).used = false) : d.liveLength idx = 0 :=
  if_neg (by rw [h]; exact Bool.false_ne_true)

/-- A slot that compaction skips contributes nothing. -/
theorem liveLength_of_not_live (h : ¬ d.Live idx) : d.liveLength idx = 0 := by
  unfold liveLength
  split
  · rename_i hu
    by_contra hpos
    exact h ⟨hu, Nat.pos_of_ne_zero hpos⟩
  · rfl

theorem liveLength_congr (hslot : d'.slot idx = d.slot idx) : d'.liveLength idx = d.liveLength idx := by
  rw [liveLength, liveLength, hslot]

/-- Tables that agree in what their slots contribute pack alike. -/
theorem packedStart_congr (h : ∀ i, d'.liveLength i = d.liveLength i) (n : Nat) :
    d'.packedStart n = d.packedStart n := by
  rw [packedStart, packedStart]
  exact congrArg _ (Finset.sum_congr rfl fun i _ => h i)

/-- Changing one slot changes the packed end by what that slot contributes. -/
theorem packedEnd_change (hidx : idx < cacheMaxEntries)
    (hslot : ∀ j, j ≠ idx → d'.slot j = d.slot j) :
    d'.packedEnd + d.liveLength idx = d.packedEnd + d'.liveLength idx := by
  have hmem : idx ∈ Finset.range cacheMaxEntries := Finset.mem_range.mpr hidx
  have hrest : ∑ j ∈ (Finset.range cacheMaxEntries).erase idx, d'.liveLength j =
      ∑ j ∈ (Finset.range cacheMaxEntries).erase idx, d.liveLength j :=
    Finset.sum_congr rfl fun j hj => liveLength_congr (hslot j (Finset.ne_of_mem_erase hj))
  rw [packedEnd, packedEnd, packedStart, packedStart, ← Finset.add_sum_erase _ _ hmem,
    ← Finset.add_sum_erase _ _ hmem, hrest]
  omega

/-- **A store keeps the table confined**: the slot now points to the old `next_offset`. -/
theorem Confined.store (h : d.Confined) (hidx : idx < cacheMaxEntries) (hwritable : d.Writable idx)
    (hslot : ∀ j, j ≠ idx → d'.slot j = d.slot j) (hused : (d'.slot idx).used = true)
    (hoffset : (d'.slot idx).offset = d.next) (hnext : d'.next = d.next + (d'.slot idx).length)
    (hfit : d.next + (d'.slot idx).length ≤ cacheFileSize) : d'.Confined := by
  have hchange := packedEnd_change hidx hslot
  have hroom := h.room idx hidx hwritable
  have hlo := h.next_lo
  rw [liveLength_of_used hused] at hchange
  constructor
  case next_lo => omega
  case next_hi => omega
  case extent =>
    intro i hi hlive
    by_cases heq : i = idx
    · subst heq
      omega
    · rw [Live, hslot i heq] at hlive
      rw [hslot i heq]
      exact h.extent i hi hlive
  case packed => omega
  case room =>
    -- the packed end has grown by no more than `next_offset`
    intro i _ _
    omega

/-- **An erasure keeps the table confined.** -/
theorem Confined.erase (h : d.Confined) (hidx : idx < cacheMaxEntries) (hwritable : d.Writable idx)
    (hslot : ∀ j, j ≠ idx → d'.slot j = d.slot j) (hfree : (d'.slot idx).used = false)
    (hnext : d'.next = d.next) : d'.Confined := by
  have hchange := packedEnd_change hidx hslot
  have hroom := h.room idx hidx hwritable
  have hlo := h.next_lo
  have hhi := h.next_hi
  rw [liveLength_of_free hfree] at hchange
  constructor
  case next_lo => omega
  case next_hi => omega
  case extent =>
    intro i hi hlive
    have hne : i ≠ idx := by
      rintro rfl
      rw [Live, hfree] at hlive
      exact Bool.false_ne_true hlive.1
    rw [Live, hslot i hne] at hlive
    rw [hslot i hne]
    exact h.extent i hi hlive
  case packed => omega
  case room =>
    intro i _ _
    omega

/-- **A packing makes the table confined**, if the values fit the file. -/
theorem Confined.of_packed (hpacked : d.packedEnd ≤ cacheFileSize)
    (hused : ∀ i, (d'.slot i).used = (d.slot i).used)
    (hlength : ∀ i, (d'.slot i).length = (d.slot i).length)
    (hplace : ∀ i, i < cacheMaxEntries → d.Live i → (d'.slot i).offset = d.packedStart i)
    (hnext : d'.next = d.packedEnd) : d'.Confined := by
  have hsame : ∀ i, d'.liveLength i = d.liveLength i := by
    intro i
    rw [liveLength, liveLength, hused, hlength]
  have hend : d'.packedEnd = d.packedEnd := packedStart_congr hsame _
  have hlo : dataStart ≤ d.packedEnd := d.dataStart_le_packedStart _
  constructor
  case next_lo => omega
  case next_hi => omega
  case extent =>
    intro i hi hlive
    rw [Live, hused, hlength] at hlive
    have hstart := d.dataStart_le_packedStart i
    have hlast : d.packedStart i + (d.slot i).length ≤ d.packedEnd :=
      packedStart_add_length hlive.1 hi
    rw [hplace i hi hlive, hlength]
    omega
  case packed => omega
  case room =>
    intro i _ _
    omega

end Change

end Directory

/-- The files the cache leaves itself are confined. -/
theorem WellFormed.confined {d : Directory} (h : WellFormed d) : d.Confined where
  next_lo := h.next_lo
  next_hi := h.next_hi
  extent := fun i _ hlive => ⟨h.extent_lo i hlive.1, h.extent_file hlive.1⟩
  packed := (h.packedStart_le_next _ le_rfl).trans h.next_hi
  room := fun _ _ _ => Nat.le_add_right_of_le (h.packedStart_le_next _ le_rfl)

end CCache.Cache
