/-
# CCache.Cache.WellFormed — what every directory of a cache satisfies.

`WellFormed d` collects the facts about a directory that the operations keep: the header words, the
place of every used extent, that two used extents are disjoint, that two used slots hold different
keys, that a key field holds its string followed by NULs, that a free slot is zeroed, and that
`entry_count` counts the used slots.  The three changes an operation makes to a directory
(`store`, `erase`, and starting afresh) each keep it; compaction has a module of its own.
-/
import CCache.Cache.Directory
import CCache.Lib.Extents
import Mathlib.Data.Finset.Card

namespace CCache.Cache

open CCache.Lib.ByteMemory
open CCache.Lib.CString
open CCache.Lib.Extents

/-- The indices of the used slots. -/
def Directory.usedSet (d : Directory) : Finset Nat :=
  (Finset.range cacheMaxEntries).filter fun i => (d.slot i).used = true

/-- **The invariant of the slot table.** -/
structure WellFormed (d : Directory) : Prop where
  magic : d.magic = cacheMagic
  version : d.version = cacheVersion
  next_lo : dataStart ≤ d.next
  next_hi : d.next ≤ cacheFileSize
  table : ∀ i, (d.slot i).used = true → i < cacheMaxEntries
  length_pos : ∀ i, (d.slot i).used = true → 0 < (d.slot i).length
  extent_lo : ∀ i, (d.slot i).used = true → dataStart ≤ (d.slot i).offset
  extent_hi : ∀ i, (d.slot i).used = true → (d.slot i).offset + (d.slot i).length ≤ d.next
  disjoint : ∀ i j, (d.slot i).used = true → (d.slot j).used = true → i ≠ j →
    Disj (d.slot i).offset (d.slot i).length (d.slot j).offset (d.slot j).length
  names : ∀ i j, (d.slot i).used = true → (d.slot j).used = true →
    (d.slot i).name = (d.slot j).name → i = j
  key_field : ∀ i, (d.slot i).used = true → (d.slot i).key = keyField (d.slot i).key
  free : ∀ i, (d.slot i).used = false → d.slot i = .empty
  count : d.count = d.usedSet.card

namespace Directory

/-- What a successful `Put` makes of the directory: the slot points to the old `next_offset`. -/
def store (d : Directory) (idx : Nat) (key : List UInt8) (data : Blob) : Directory :=
  { d.setSlot idx (storedSlot key data d.next) with
    next := d.next + data.length
    count := if (d.slot idx).used then d.count else d.count + 1 }

/-- What a successful `Remove` makes of the directory. -/
def erase (d : Directory) (idx : Nat) : Directory :=
  { d.setSlot idx .empty with count := d.count - 1 }

theorem store_slot_self (d : Directory) (idx : Nat) (key : List UInt8) (data : Blob) :
    (d.store idx key data).slot idx = storedSlot key data d.next := if_pos rfl

theorem store_slot_ne (d : Directory) {idx j : Nat} (key : List UInt8) (data : Blob) (h : j ≠ idx) :
    (d.store idx key data).slot j = d.slot j := if_neg h

theorem erase_slot_self (d : Directory) (idx : Nat) : (d.erase idx).slot idx = .empty := if_pos rfl

theorem erase_slot_ne (d : Directory) {idx j : Nat} (h : j ≠ idx) :
    (d.erase idx).slot j = d.slot j := if_neg h

/-- The slot a successful `Put` writes to: the key's own, or the first free one when no slot has it. -/
def Target (d : Directory) (key : List UInt8) (idx : Nat) : Prop :=
  d.Holds key idx ∨ ((d.slot idx).used = false ∧ ∀ j, j < idx → (d.slot j).used = true) ∧
    ∀ j, ¬ d.Holds key j

end Directory

namespace WellFormed

variable {d : Directory}

theorem mem_usedSet (h : WellFormed d) {i : Nat} : i ∈ d.usedSet ↔ (d.slot i).used = true := by
  simp only [Directory.usedSet, Finset.mem_filter, Finset.mem_range]
  exact ⟨fun hi => hi.2, fun hi => ⟨h.table i hi, hi⟩⟩

theorem count_le (h : WellFormed d) : d.count ≤ cacheMaxEntries := by
  rw [h.count, Directory.usedSet]
  exact (Finset.card_filter_le _ _).trans_eq (Finset.card_range _)

/-- A free slot inside the table leaves room for one more entry. -/
theorem count_lt_of_free (h : WellFormed d) {idx : Nat} (hidx : idx < cacheMaxEntries)
    (hfree : (d.slot idx).used = false) : d.count < cacheMaxEntries := by
  have hsub : d.usedSet ⊆ (Finset.range cacheMaxEntries).erase idx := by
    intro i hi
    rw [h.mem_usedSet] at hi
    refine Finset.mem_erase.mpr ⟨?_, Finset.mem_range.mpr (h.table i hi)⟩
    rintro rfl
    rw [hfree] at hi
    exact Bool.false_ne_true hi
  have hcard := Finset.card_le_card hsub
  rw [Finset.card_erase_of_mem (Finset.mem_range.mpr hidx), Finset.card_range] at hcard
  rw [h.count]
  omega

theorem count_pos_of_used (h : WellFormed d) {idx : Nat} (hused : (d.slot idx).used = true) :
    0 < d.count := by
  rw [h.count]
  exact Finset.card_pos.mpr ⟨idx, h.mem_usedSet.mpr hused⟩

/-- A used extent lies inside the file. -/
theorem extent_file (h : WellFormed d) {i : Nat} (hi : (d.slot i).used = true) :
    (d.slot i).offset + (d.slot i).length ≤ cacheFileSize :=
  (h.extent_hi i hi).trans h.next_hi

/-- **A fresh cache is well formed.** -/
theorem fresh : WellFormed .fresh where
  magic := rfl
  version := rfl
  next_lo := le_refl _
  next_hi := by
    show dataStart ≤ cacheFileSize
    rw [dataStart_eq, cacheFileSize_eq]
    norm_num
  table := fun i hi => absurd hi Bool.false_ne_true
  length_pos := fun i hi => absurd hi Bool.false_ne_true
  extent_lo := fun i hi => absurd hi Bool.false_ne_true
  extent_hi := fun i hi => absurd hi Bool.false_ne_true
  disjoint := fun i j hi => absurd hi Bool.false_ne_true
  names := fun i j hi => absurd hi Bool.false_ne_true
  key_field := fun i hi => absurd hi Bool.false_ne_true
  free := fun i _ => rfl
  count := by
    have hempty : Directory.fresh.usedSet = ∅ := by
      refine Finset.filter_eq_empty_iff.mpr fun i _ => ?_
      exact Bool.false_ne_true
    rw [hempty]
    rfl

theorem usedSet_store {idx : Nat} (hidx : idx < cacheMaxEntries)
    (key : List UInt8) (data : Blob) :
    (d.store idx key data).usedSet = insert idx d.usedSet := by
  ext i
  by_cases hi : i = idx
  · subst hi
    simp [Directory.usedSet, Directory.store_slot_self, storedSlot, hidx]
  · rw [Finset.mem_insert, Directory.usedSet, Directory.usedSet, Finset.mem_filter,
      Finset.mem_filter, Directory.store_slot_ne d key data hi]
    simp [hi]

/-- No used slot but the target holds the key. -/
theorem name_ne_of_target (h : WellFormed d) {idx : Nat} {key : List UInt8}
    (ht : d.Target key idx) {j : Nat} (hj : (d.slot j).used = true) (hne : j ≠ idx) :
    (d.slot j).name ≠ keyName key := by
  intro hname
  rcases ht with ht | ht
  · exact hne (h.names j idx hj ht.1 (hname.trans ht.2.symm))
  · exact ht.2 j ⟨hj, hname⟩

/-- What holds of the stored slot and of every slot used before holds of every slot used after. -/
theorem forall_used_store {P : Nat → Slot → Prop} {idx : Nat} {key : List UInt8} {data : Blob}
    (hnew : P idx (storedSlot key data d.next)) (hold : ∀ i, (d.slot i).used = true → P i (d.slot i))
    (i : Nat) (hi : ((d.store idx key data).slot i).used = true) :
    P i ((d.store idx key data).slot i) := by
  by_cases heq : i = idx
  · rw [heq, Directory.store_slot_self]
    exact hnew
  · rw [Directory.store_slot_ne d key data heq] at hi ⊢
    exact hold i hi

/-- The same of two slots at a time: the stored one is compared with those used before. -/
theorem pairwise_used_store {R : Slot → Slot → Prop} {idx : Nat} {key : List UInt8} {data : Blob}
    (hsymm : ∀ e e', R e e' → R e' e)
    (hnew : ∀ j, (d.slot j).used = true → j ≠ idx → R (d.slot j) (storedSlot key data d.next))
    (hold : ∀ i j, (d.slot i).used = true → (d.slot j).used = true → i ≠ j → R (d.slot i) (d.slot j))
    (i j : Nat) (hi : ((d.store idx key data).slot i).used = true)
    (hj : ((d.store idx key data).slot j).used = true) (hij : i ≠ j) :
    R ((d.store idx key data).slot i) ((d.store idx key data).slot j) := by
  by_cases hi2 : i = idx
  · have hj2 : j ≠ idx := fun hj2 => hij (hi2.trans hj2.symm)
    rw [Directory.store_slot_ne d key data hj2] at hj ⊢
    rw [hi2, Directory.store_slot_self]
    exact hsymm _ _ (hnew j hj hj2)
  · rw [Directory.store_slot_ne d key data hi2] at hi ⊢
    by_cases hj2 : j = idx
    · rw [hj2, Directory.store_slot_self]
      exact hnew i hi hi2
    · rw [Directory.store_slot_ne d key data hj2] at hj ⊢
      exact hold i j hi hj hij

/-- **A store keeps the invariant.** -/
theorem store (h : WellFormed d) {idx : Nat} (hidx : idx < cacheMaxEntries) {key : List UInt8}
    {data : Blob} (hlen : 0 < data.length) (hfit : d.next + data.length ≤ cacheFileSize)
    (ht : d.Target key idx) : WellFormed (d.store idx key data) where
  magic := h.magic
  version := h.version
  next_lo := h.next_lo.trans (Nat.le_add_right _ _)
  next_hi := hfit
  table := by
    refine forall_used_store (P := fun i _ => i < cacheMaxEntries) ?_ h.table
    exact hidx
  length_pos := by
    refine forall_used_store (P := fun _ e => 0 < e.length) ?_ h.length_pos
    exact hlen
  extent_lo := by
    refine forall_used_store (P := fun _ e => dataStart ≤ e.offset) ?_ h.extent_lo
    exact h.next_lo
  extent_hi := by
    refine forall_used_store (P := fun _ e => e.offset + e.length ≤ d.next + data.length) ?_ ?_
    · exact le_refl _
    · exact fun i hi => (h.extent_hi i hi).trans (Nat.le_add_right _ _)
  disjoint := by
    -- the new extent begins at `next`, where every old one has ended
    refine pairwise_used_store (R := fun e e' => Disj e.offset e.length e'.offset e'.length) ?_ ?_ ?_
    · exact fun _ _ hdisj => hdisj.symm
    · exact fun j hj _ => Or.inl (h.extent_hi j hj)
    · exact h.disjoint
  names := by
    intro i j hi hj hname
    by_contra hij
    -- the target holds the key already, or nobody does
    refine pairwise_used_store (R := fun e e' => e.name ≠ e'.name) ?_ ?_ ?_ i j hi hj hij hname
    · exact fun _ _ hne => hne.symm
    · intro k hk hne
      rw [Slot.name, Slot.name, storedSlot, keyName_keyField]
      exact h.name_ne_of_target ht hk hne
    · exact fun k l hk hl hkl hsame => hkl (h.names k l hk hl hsame)
  key_field := by
    refine forall_used_store (P := fun _ e => e.key = keyField e.key) ?_ h.key_field
    show keyField key = keyField (keyField key)
    unfold keyField
    rw [strncpy_congr (trunc_strncpy_append _ _ _)]
  free := by
    intro i hi
    by_cases hidx2 : i = idx
    · rw [hidx2, Directory.store_slot_self] at hi
      exact absurd hi.symm Bool.false_ne_true
    · rw [Directory.store_slot_ne d key data hidx2] at hi ⊢
      exact h.free i hi
  count := by
    rw [usedSet_store hidx]
    show (if (d.slot idx).used then d.count else d.count + 1) = _
    by_cases hu : (d.slot idx).used = true
    · rw [if_pos hu, Finset.insert_eq_of_mem (h.mem_usedSet.mpr hu), h.count]
    · rw [if_neg hu, Finset.card_insert_of_notMem (fun hm => hu (h.mem_usedSet.mp hm)), h.count]

theorem usedSet_erase (idx : Nat) : (d.erase idx).usedSet = d.usedSet.erase idx := by
  ext i
  rw [Finset.mem_erase, Directory.usedSet, Directory.usedSet, Finset.mem_filter, Finset.mem_filter]
  by_cases hi : i = idx
  · rw [hi, Directory.erase_slot_self]
    simp [Slot.empty]
  · rw [Directory.erase_slot_ne d hi]
    simp [hi]

/-- A slot that is used after `erase` was used before, and is unchanged. -/
theorem of_erase_used {idx i : Nat} (hi : ((d.erase idx).slot i).used = true) :
    i ≠ idx ∧ (d.slot i).used = true := by
  have hne : i ≠ idx := by
    rintro rfl
    rw [Directory.erase_slot_self] at hi
    exact Bool.false_ne_true hi
  rw [Directory.erase_slot_ne d hne] at hi
  exact ⟨hne, hi⟩

theorem forall_used_erase {P : Nat → Slot → Prop} {idx : Nat}
    (hold : ∀ i, (d.slot i).used = true → P i (d.slot i)) (i : Nat)
    (hi : ((d.erase idx).slot i).used = true) : P i ((d.erase idx).slot i) := by
  obtain ⟨hne, hu⟩ := of_erase_used hi
  rw [Directory.erase_slot_ne d hne]
  exact hold i hu

/-- **Removing an entry keeps the invariant.** -/
theorem erase (h : WellFormed d) {idx : Nat} (hused : (d.slot idx).used = true) :
    WellFormed (d.erase idx) where
  magic := h.magic
  version := h.version
  next_lo := h.next_lo
  next_hi := h.next_hi
  table := forall_used_erase (P := fun i _ => i < cacheMaxEntries) h.table
  length_pos := forall_used_erase (P := fun _ e => 0 < e.length) h.length_pos
  extent_lo := forall_used_erase (P := fun _ e => dataStart ≤ e.offset) h.extent_lo
  extent_hi := forall_used_erase (P := fun _ e => e.offset + e.length ≤ d.next) h.extent_hi
  disjoint := by
    intro i j hi hj hij
    obtain ⟨hnei, hi⟩ := of_erase_used hi
    obtain ⟨hnej, hj⟩ := of_erase_used hj
    rw [Directory.erase_slot_ne d hnei, Directory.erase_slot_ne d hnej]
    exact h.disjoint i j hi hj hij
  names := by
    intro i j hi hj hname
    obtain ⟨hnei, hi⟩ := of_erase_used hi
    obtain ⟨hnej, hj⟩ := of_erase_used hj
    rw [Directory.erase_slot_ne d hnei, Directory.erase_slot_ne d hnej] at hname
    exact h.names i j hi hj hname
  key_field := forall_used_erase (P := fun _ e => e.key = keyField e.key) h.key_field
  free := by
    intro i hi
    by_cases hne : i = idx
    · rw [hne, Directory.erase_slot_self]
    · rw [Directory.erase_slot_ne d hne] at hi ⊢
      exact h.free i hi
  count := by
    rw [usedSet_erase, Finset.card_erase_of_mem (h.mem_usedSet.mpr hused), ← h.count]
    rfl

end WellFormed

end CCache.Cache
