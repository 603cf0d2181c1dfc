/-
# CCache.Cache.Lookup — what `Get` answers, and which changes it notices.

In a directory with distinct names at most one slot holds a key, so `Get` is a function of that slot:
it hands out the bytes of the slot's extent when their checksum is the stored one, else it answers false.
Two files in which a key has a slot with the same checksum and the same bytes (or has none in either)
therefore answer alike (`getBytes_frame`).  A store and a removal are checked against that rule once,
for the key they are about and for every other key.
-/
import CCache.Cache.Operations

namespace CCache.Cache

open CCache.Lib.ByteMemory
open CCache.Lib.CString
open CCache.Lib.Extents

/-- The bytes a slot points to. -/
def Slot.bytes (e : Slot) (m : Mem) : List UInt8 := read m e.offset e.length

/-- The stored checksum is that of the bytes the slot points to. -/
def Slot.Intact (e : Slot) (m : Mem) : Prop := calculateChecksum (e.bytes m) = e.checksum

@[simp] theorem Slot.bytes_length (e : Slot) (m : Mem) : (e.bytes m).length = e.length :=
  read_length _ _ _

theorem Directory.Holds.congr {d : Directory} {key key' : List UInt8} {i : Nat}
    (h : d.Holds key i) (hname : keyName key' = keyName key) : d.Holds key' i :=
  ⟨h.1, h.2.trans hname.symm⟩

/-- No two used slots have the same name. -/
def Directory.Distinct (d : Directory) : Prop :=
  ∀ i j, (d.slot i).used = true → (d.slot j).used = true → (d.slot i).name = (d.slot j).name → i = j

theorem findEntry_of_holds {m : Mem} (h : (directory m).Distinct) {key : List UInt8} {i : Nat}
    (hh : (directory m).Holds key i) : findEntry m key = some i := by
  refine findEntry_eq_some.mpr ⟨lt_of_used hh.1, hh, fun j hj hh' => ?_⟩
  have hij : j = i := h j i hh'.1 hh.1 (hh'.2.trans hh.2.symm)
  omega

/-! ## Keys with one name -/

section Names

variable {key same : List UInt8}

/-- The lookup compares no more of a key than its name. -/
theorem findEntry_congr (m : Mem) (h : keyName same = keyName key) :
    findEntry m same = findEntry m key := by
  have hcompare : ∀ i, strncmp (sizeofKey - 1) (entryKey m i) same = 0 ↔
      strncmp (sizeofKey - 1) (entryKey m i) key = 0 := by
    intro i
    rw [strncmp_eq_zero_iff, strncmp_eq_zero_iff]
    exact ⟨fun hs => hs.trans h, fun hk => hk.trans h.symm⟩
  unfold findEntry
  congr 1
  funext i
  rw [Bool.eq_iff_iff, Bool.and_eq_true, Bool.and_eq_true, beq_iff_eq, beq_iff_eq, hcompare]

theorem get_congr (m : Mem) (h : keyName same = keyName key) : get m same = get m key := by
  unfold get
  rw [findEntry_congr m h]

/-- The slot keeps no more of a key than its name. -/
theorem writeSlot_congr (s : Mapping) (idx : Nat) (data : Blob) (h : keyName same = keyName key) :
    writeSlot s idx same data = writeSlot s idx key data := by
  have hcopy : s.copyKey idx same = s.copyKey idx key :=
    congrArg (s.memcpy (entryAddr idx + 256)) (strncpy_congr h)
  rw [writeSlot, writeSlot, hcopy]

theorem put_congr (s : Mapping) (data : Option Blob) (h : keyName same = keyName key) :
    put s same data = put s key data := by
  have hchoose : ∀ s : Mapping, chooseEntry s same = chooseEntry s key := by
    intro s
    unfold chooseEntry
    rw [findEntry_congr s.mem h]
  have hwrite : ∀ (s : Mapping) (idx : Nat) (data : Blob),
      writeEntry s idx same data = writeEntry s idx key data := by
    intro s idx data
    unfold writeEntry
    rw [writeSlot_congr s idx data h]
  have hentry : ∀ (s : Mapping) (data : Blob), putEntry s same data = putEntry s key data := by
    intro s data
    unfold putEntry
    rw [hchoose]
    simp only [hwrite]
  unfold put
  simp only [hentry]

end Names

/-! ## The answer of `Get` -/

/-- `Get` on a key that slot `i` holds. -/
theorem get_of_holds {m : Mem} (h : (directory m).Distinct) {key : List UInt8} {i : Nat}
    (hh : (directory m).Holds key i) :
    (((directory m).slot i).Intact m →
        get m key = some ⟨((directory m).slot i).offset, ((directory m).slot i).length⟩) ∧
      (¬ ((directory m).slot i).Intact m → get m key = none) := by
  have hi : i < cacheMaxEntries := lt_of_used hh.1
  have hoff : dataPtr (entryOffset m i) = entryOffset m i := dataPtr_eq (readWord_lt _ _)
  have hused : entryIsUsed m i = true := by rw [entryIsUsed_eq hi, hh.1]
  unfold get Slot.Intact Slot.bytes
  rw [findEntry_of_holds h hh]
  simp only [hused, hoff, Bool.not_true]
  rw [entryOffset_eq hi, entryLength_eq hi, entryChecksum_eq hi]
  refine ⟨fun hsum => ?_, fun hsum => ?_⟩
  · rw [if_neg Bool.false_ne_true, if_neg (not_not_intro hsum)]
  · rw [if_neg Bool.false_ne_true, if_pos hsum]

/-- `Get` on a key that no slot holds. -/
theorem get_of_absent {m : Mem} {key : List UInt8} (h : ∀ j, ¬ (directory m).Holds key j) :
    get m key = none := by
  unfold get
  rw [findEntry_eq_none.mpr h]

theorem getBytes_of_absent {m : Mem} {key : List UInt8} (h : ∀ j, ¬ (directory m).Holds key j) :
    getBytes m key = none := by
  rw [getBytes, get_of_absent h, Option.map_none]

/-- The bytes `Get` answers with on a key that slot `i` holds. -/
theorem getBytes_of_holds {m : Mem} (h : (directory m).Distinct) {key : List UInt8} {i : Nat}
    (hh : (directory m).Holds key i) :
    (((directory m).slot i).Intact m → getBytes m key = some (((directory m).slot i).bytes m)) ∧
      (¬ ((directory m).slot i).Intact m → getBytes m key = none) := by
  obtain ⟨hintact, hbroken⟩ := get_of_holds h hh
  refine ⟨fun hsum => ?_, fun hsum => ?_⟩
  · rw [getBytes, hintact hsum]
    rfl
  · rw [getBytes, hbroken hsum, Option.map_none]

/-- A `Get` that succeeds found a slot, and answers with its intact bytes. -/
theorem holds_of_get {m : Mem} (h : (directory m).Distinct) {key : List UInt8} {v : View}
    (hg : get m key = some v) : ∃ i, (directory m).Holds key i ∧ ((directory m).slot i).Intact m ∧
      v = ⟨((directory m).slot i).offset, ((directory m).slot i).length⟩ := by
  by_cases hex : ∃ i, (directory m).Holds key i
  · obtain ⟨i, hh⟩ := hex
    obtain ⟨hintact, hbroken⟩ := get_of_holds h hh
    by_cases hsum : ((directory m).slot i).Intact m
    · rw [hintact hsum] at hg
      exact ⟨i, hh, hsum, (Option.some.inj hg).symm⟩
    · rw [hbroken hsum] at hg
      cases hg
  · rw [get_of_absent fun j hj => hex ⟨j, hj⟩] at hg
    cases hg

/-- **The frame rule of `Get`.** What the answer depends on is the slot that holds the key, its
checksum and the bytes it points to. -/
theorem getBytes_frame {m k : Mem} (hm : (directory m).Distinct) (hk : (directory k).Distinct)
    {key : List UInt8} (hholds : ∀ j, (directory k).Holds key j ↔ (directory m).Holds key j)
    (hslot : ∀ j, (directory m).Holds key j →
      ((directory k).slot j).checksum = ((directory m).slot j).checksum ∧
        ((directory k).slot j).bytes k = ((directory m).slot j).bytes m) :
    getBytes k key = getBytes m key := by
  by_cases hex : ∃ i, (directory m).Holds key i
  · obtain ⟨i, hh⟩ := hex
    obtain ⟨hsum, hbytes⟩ := hslot i hh
    have hintact : ((directory k).slot i).Intact k ↔ ((directory m).slot i).Intact m := by
      rw [Slot.Intact, Slot.Intact, hsum, hbytes]
    by_cases him : ((directory m).slot i).Intact m
    · rw [(getBytes_of_holds hm hh).1 him,
        (getBytes_of_holds hk ((hholds i).mpr hh)).1 (hintact.mpr him), hbytes]
    · rw [(getBytes_of_holds hm hh).2 him,
        (getBytes_of_holds hk ((hholds i).mpr hh)).2 fun hi => him (hintact.mp hi)]
  · have hnone : ∀ j, ¬ (directory m).Holds key j := fun j hj => hex ⟨j, hj⟩
    rw [getBytes_of_absent hnone, getBytes_of_absent fun j hj => hnone j ((hholds j).mp hj)]

/-- The frame rule for a change that leaves the key's slot and its bytes as they are. -/
theorem getBytes_frame_slot {m k : Mem} (hm : (directory m).Distinct)
    (hk : (directory k).Distinct) {key : List UInt8}
    (hholds : ∀ j, (directory k).Holds key j ↔ (directory m).Holds key j)
    (hslot : ∀ j, (directory m).Holds key j → (directory k).slot j = (directory m).slot j)
    (hdata : ∀ j, (directory m).Holds key j → ∀ x, ((directory m).slot j).offset ≤ x →
      x < ((directory m).slot j).offset + ((directory m).slot j).length → k x = m x) :
    getBytes k key = getBytes m key := by
  refine getBytes_frame hm hk hholds fun j hh => ?_
  rw [hslot j hh]
  refine ⟨rfl, read_congr fun i hi => hdata j hh _ (Nat.le_add_right _ _) ?_⟩
  omega

/-! ## After a store -/

section Stored

variable {b k : Mem} {key : List UInt8} {data : Blob} {idx : Nat}

/-- The slot that was written holds the key. -/
theorem StoredAt.holds_self (hs : StoredAt b key data idx k) : (directory k).Holds key idx := by
  rw [hs.dir]
  refine ⟨?_, ?_⟩
  · rw [Directory.store_slot_self]
    rfl
  · rw [Directory.store_slot_self, Slot.name]
    exact keyName_keyField key

theorem StoredAt.slot_ne (hs : StoredAt b key data idx k) {j : Nat} (hj : j ≠ idx) :
    (directory k).slot j = (directory b).slot j := by
  rw [hs.dir, Directory.store_slot_ne _ key data hj]

theorem StoredAt.slot_self (hs : StoredAt b key data idx k) :
    (directory k).slot idx = storedSlot key data (directory b).next := by
  rw [hs.dir, Directory.store_slot_self]

/-- The bytes written are the value. -/
theorem StoredAt.bytes_self (hb : WellFormed (directory b)) (hs : StoredAt b key data idx k) :
    ((directory k).slot idx).bytes k = data.bytes := by
  have hlo := hb.next_lo
  rw [hs.slot_self]
  show read k (directory b).next data.length = data.bytes
  rw [← read_blit_content b (directory b).next data.bytes]
  exact read_congr fun i _ => hs.data _ (by omega)

/-- A live extent lies below the old `next_offset`, so the copy misses it. -/
theorem StoredAt.bytes_ne (hb : WellFormed (directory b)) (hs : StoredAt b key data idx k) {j : Nat}
    (hj : ((directory b).slot j).used = true) :
    ((directory b).slot j).bytes k = ((directory b).slot j).bytes b := by
  have hlo := hb.extent_lo j hj
  have hhi := hb.extent_hi j hj
  refine read_congr fun i hi => ?_
  rw [hs.data _ (by omega), blit_out (by omega)]

/-- No other key name lives in the slot that was written. -/
theorem StoredAt.holds_ne (hs : StoredAt b key data idx k) {other : List UInt8}
    (hne : keyName other ≠ keyName key) (j : Nat) :
    (directory k).Holds other j ↔ (directory b).Holds other j ∧ j ≠ idx := by
  by_cases hj : j = idx
  · subst hj
    refine iff_of_false (fun hh => hne ?_) (fun hh => hh.2 rfl)
    exact hh.2.symm.trans hs.holds_self.2
  · rw [Directory.Holds, hs.slot_ne hj, ← Directory.Holds]
    exact (and_iff_left hj).symm

/-- The slot a store writes to holds no other key before. -/
theorem StoredAt.target_ne (hs : StoredAt b key data idx k) {other : List UInt8}
    (hne : keyName other ≠ keyName key) : ¬ (directory b).Holds other idx := by
  intro hh
  rcases hs.target with ht | ⟨⟨hfree, -⟩, -⟩
  · exact hne (hh.2.symm.trans ht.2)
  · rw [hh.1] at hfree
    exact Bool.false_ne_true hfree.symm

/-- **Get after Put, same key.** -/
theorem StoredAt.get_self (hb : WellFormed (directory b)) (hlen : 0 < data.length)
    (hs : StoredAt b key data idx k) {same : List UInt8} (hsame : keyName same = keyName key) :
    getBytes k same = some data.bytes := by
  have hh := hs.holds_self.congr hsame
  have hbytes := hs.bytes_self hb
  have hintact : ((directory k).slot idx).Intact k := by
    rw [Slot.Intact, hbytes, hs.slot_self]
    rfl
  rw [(getBytes_of_holds (hs.wellFormed hb hlen).names hh).1 hintact, hbytes]

/-- **Get after Put, other key.** -/
theorem StoredAt.get_ne (hb : WellFormed (directory b)) (hlen : 0 < data.length)
    (hs : StoredAt b key data idx k) {other : List UInt8} (hne : keyName other ≠ keyName key) :
    getBytes k other = getBytes b other := by
  have hidx : ∀ j, (directory b).Holds other j → j ≠ idx := by
    rintro j hh rfl
    exact hs.target_ne hne hh
  refine getBytes_frame hb.names (hs.wellFormed hb hlen).names (fun j => ?_) fun j hh => ?_
  · rw [hs.holds_ne hne]
    exact ⟨And.left, fun hh => ⟨hh, hidx j hh⟩⟩
  · rw [hs.slot_ne (hidx j hh)]
    exact ⟨rfl, hs.bytes_ne hb hh.1⟩

end Stored

/-! ## After a removal -/

section Erased

variable {m k : Mem} {key : List UInt8} {idx : Nat}

/-- `k` is the mapping after `Remove` emptied slot `idx`. -/
structure ErasedAt (m : Mem) (key : List UInt8) (idx : Nat) (k : Mem) : Prop where
  held : (directory m).Holds key idx
  dir : directory k = (directory m).erase idx
  data : ∀ x, dataStart ≤ x → k x = m x

theorem ErasedAt.wellFormed (h : WellFormed (directory m)) (he : ErasedAt m key idx k) :
    WellFormed (directory k) := by
  rw [he.dir]
  exact h.erase he.held.1

theorem ErasedAt.holds_iff (he : ErasedAt m key idx k) (other : List UInt8) (j : Nat) :
    (directory k).Holds other j ↔ (directory m).Holds other j ∧ j ≠ idx := by
  rw [he.dir]
  by_cases hj : j = idx
  · subst hj
    refine iff_of_false (fun hh => ?_) (fun hh => hh.2 rfl)
    rw [Directory.Holds, Directory.erase_slot_self] at hh
    exact Bool.false_ne_true hh.1
  · rw [Directory.Holds, Directory.erase_slot_ne _ hj, ← Directory.Holds]
    exact (and_iff_left hj).symm

/-- **Get after Remove, same key.** -/
theorem ErasedAt.get_self (h : WellFormed (directory m)) (he : ErasedAt m key idx k)
    {same : List UInt8} (hsame : keyName same = keyName key) : getBytes k same = none := by
  refine getBytes_of_absent fun j hh => ?_
  obtain ⟨hheld, hne⟩ := (he.holds_iff same j).mp hh
  exact hne (h.names j idx hheld.1 he.held.1 ((hheld.2.trans hsame).trans he.held.2.symm))

/-- **Get after Remove, other key.** -/
theorem ErasedAt.get_ne (h : WellFormed (directory m)) (he : ErasedAt m key idx k)
    {other : List UInt8} (hne : keyName other ≠ keyName key) : getBytes k other = getBytes m other := by
  have hidx : ∀ j, (directory m).Holds other j → j ≠ idx := by
    rintro j hh rfl
    exact hne (hh.2.symm.trans he.held.2)
  refine getBytes_frame_slot h.names (he.wellFormed h).names (fun j => ?_) (fun j hh => ?_) fun j hh x hx _ => ?_
  · rw [he.holds_iff]
    exact ⟨And.left, fun hh => ⟨hh, hidx j hh⟩⟩
  · rw [he.dir, Directory.erase_slot_ne _ (hidx j hh)]
  · exact he.data x ((h.extent_lo j hh.1).trans hx)

/-- A successful `Remove` erases the slot it finds. -/
theorem remove_erased (h : WellFormed (directory m)) (key : List UInt8) :
    (∀ j, ¬ (directory m).Holds key j) ∧ remove (.start m) key = (false, .start m) ∨
      ∃ idx, (remove (.start m) key).1 = true ∧
        ErasedAt m key idx (remove (.start m) key).2.mem := by
  rcases remove_cases (s := .start m) h key with hnone | ⟨idx, hholds, -, hrem, hdir, hdata, -⟩
  · exact Or.inl hnone
  · refine Or.inr ⟨idx, ?_, ?_⟩
    · rw [hrem]
    · rw [hrem]
      exact ⟨hholds, hdir, hdata⟩

/-- A stored key is removed from the slot that holds it. -/
theorem remove_held (h : WellFormed (directory m)) (hheld : (directory m).Holds key idx) :
    (remove (.start m) key).1 = true ∧ ErasedAt m key idx (remove (.start m) key).2.mem := by
  rcases remove_erased h key with ⟨hnone, -⟩ | ⟨i, hok, he⟩
  · exact absurd hheld (hnone idx)
  · obtain rfl : i = idx := h.names i idx he.held.1 hheld.1 (he.held.2.trans hheld.2.symm)
    exact ⟨hok, he⟩

end Erased

end CCache.Cache
