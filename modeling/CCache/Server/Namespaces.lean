/-
# CCache.Server.Namespaces — which stores a fetch can notice.

Graphs and bytecode share one table: the key of a graph is its hash, the key of bytecode its hash
behind `bytecode_`, and both are cut to the 255 bytes that a slot keeps.  A store that does not compact
leaves the answers for every other name alone, so a fetch notices it exactly when the two names are
equal.  Across the kinds that happens when one hash is the other behind the prefix; between two hashes of
bytecode, when they differ behind their 246th byte only.
-/
import CCache.Cache.CompactionBytes
import CCache.Server.RoundTrip

namespace CCache.Server

open CCache.Cache (Blob get getBytes put keyName Compacts)
open CCache.Ipc
open CCache.Lib.ByteMemory
open CCache.Lib.CString

/-! ## Function hashes -/

/-- A function hash that fits its 256-byte field with a NUL. -/
structure FunctionHash where
  bytes : List UInt8
  noNul : ∀ b ∈ bytes, b ≠ 0
  fits : bytes.length ≤ 255
deriving DecidableEq

/-- The field of a request with the hash. -/
def FunctionHash.field (h : FunctionHash) : List UInt8 := strncpy 255 h.bytes ++ [0]

@[simp] theorem FunctionHash.field_length (h : FunctionHash) : h.field.length = 256 := by
  simp [FunctionHash.field]

/-- The hash field of a payload holds the hash and its NUL. -/
def HashField (payload : List UInt8) (h : FunctionHash) : Prop :=
  0 ∈ payload.take 256 ∧ cstr (payload.take 256) = h.bytes

theorem FunctionHash.hashField (h : FunctionHash) (rest : List UInt8) : HashField (h.field ++ rest) h := by
  have htake : (h.field ++ rest).take 256 = h.field := List.take_left' h.field_length
  rw [HashField, htake]
  refine ⟨List.mem_append_right _ (List.mem_singleton.mpr rfl), ?_⟩
  rw [FunctionHash.field, cstr_strncpy_zero, trunc_of_ne_zero h.noNul, List.take_of_length_le h.fits]

/-- The name of a key is its first 255 bytes. -/
theorem Kind.keyName_hash (kind : Kind) (h : FunctionHash) :
    keyName (kind.keyPrefix ++ h.bytes) = (kind.keyPrefix ++ h.bytes).take 255 := by
  refine trunc_of_ne_zero fun b hb => ?_
  rcases List.mem_append.mp hb with hhead | hbytes
  · exact kind.keyPrefix_ne_zero b hhead
  · exact h.noNul b hbytes

/-! ## A store and a fetch -/

section Dispatch

variable {env : Env} {cache pad : Mem} {d : SharedData} {kind : Kind} {p : List UInt8}
  {h : FunctionHash}

/-- The handlers read the hash that the field holds. -/
theorem Delivered.readString_hash {route : Route} (hd : Delivered d route p) (hlong : 256 ≤ p.length)
    (hf : HashField p h) : readString (image pad d) payloadAddr = some h.bytes := by
  have hread : read (image pad d) payloadAddr 256 = p.take 256 :=
    hd.read_payload (show 0 + 256 ≤ p.length by omega)
  have hnul : 0 ∈ read (image pad d) payloadAddr 256 := by
    rw [hread]
    exact hf.1
  rw [readString_of_mem hnul (by decide), hread, hf.2]

/-- What a fetch answers. -/
theorem Delivered.fetch (hd : Delivered d kind.fetchRoute p) (hf : HashField p h) :
    (dispatchMessage env cache d).map Outcome.replies =
      some (if sizeofHashRequest ≤ p.length then
        [⟨d.currentMessageId, (Query.cached kind).response env.junk cache h.bytes⟩] else []) := by
  have hhandle : kind.fetchRoute.handle env.junk cache (image env.pad d) d.currentMessageId payloadAddr
      p.length = _ := (Query.cached kind).handle_eq
  rw [hd.dispatch env cache, hhandle]
  split
  · rename_i hlong
    rw [hd.readString_hash hlong hf]
    rfl
  · rfl

/-- What a store leaves of the cache. -/
theorem Delivered.store {out : Outcome} (hd : Delivered d kind.storeRoute p) (hf : HashField p h)
    (hout : dispatchMessage env cache d = some out) :
    out.cache = cache ∨ p.length = sizeofStoreRequest + storedSize p ∧
      ∃ data : Blob, data.length = storedSize p ∧
        out.cache = (put (.start cache) (kind.keyPrefix ++ h.bytes) (some data)).2.mem := by
  rw [hd.dispatch env cache] at hout
  rcases kind.store_cases hout with ⟨hsame, -⟩ | ⟨hash, a, length, hread, hcache, -⟩
  · exact .inl hsame
  · obtain ⟨hhash, -, hlength, hsize⟩ := readStoreRequest_valid hread
    have hsize' : p.length = 260 + length.toNat := hsize
    have hstored : storedSize p = length.toNat := by
      rw [hlength, readWord, hd.read_payload (by omega), storedSize]
    rw [hd.readString_hash (by omega) hf] at hhash
    cases hhash
    refine .inr ⟨by rw [hsize, hstored], blobAt (image env.pad d) a length, ?_, hcache⟩
    rw [hstored]
    exact read_length _ _ _

end Dispatch

/-! ## Which stores a fetch can notice -/

/-- On every reachable cache, a store of `h₁` that does not compact leaves what a fetch of `h₂` answers
unchanged, whatever else the two messages hold. -/
def Separate (stored : Kind) (h₁ : FunctionHash) (fetched : Kind) (h₂ : FunctionHash) : Prop :=
  ∀ (cache : Mem) (env₁ env₂ : Env) (d₁ d₂ : SharedData) (p₁ p₂ : List UInt8) (out : Outcome),
    Cache.Reachable cache →
    Delivered d₁ stored.storeRoute p₁ → HashField p₁ h₁ →
    (p₁.length = sizeofStoreRequest + storedSize p₁ → ¬ Compacts cache (storedSize p₁)) →
    dispatchMessage env₁ cache d₁ = some out →
    Delivered d₂ fetched.fetchRoute p₂ → HashField p₂ h₂ →
    (dispatchMessage env₂ out.cache d₂).map Outcome.replies =
      (dispatchMessage env₂ cache d₂).map Outcome.replies

section Separate

variable {stored fetched : Kind} {h₁ h₂ : FunctionHash}

theorem separate_of_ne
    (hne : keyName (stored.keyPrefix ++ h₁.bytes) ≠ keyName (fetched.keyPrefix ++ h₂.bytes)) :
    Separate stored h₁ fetched h₂ := by
  intro cache env₁ env₂ d₁ d₂ p₁ p₂ out hc hd₁ hf₁ hquiet hout hd₂ hf₂
  have hsame : getBytes out.cache (fetched.keyPrefix ++ h₂.bytes) =
      getBytes cache (fetched.keyPrefix ++ h₂.bytes) := by
    rcases hd₁.store hf₁ hout with hcache | ⟨hsize, data, hlength, hcache⟩
    · rw [hcache]
    · rw [hcache]
      exact Cache.put_quiet_other hc.wellFormed (hlength ▸ hquiet hsize) (Ne.symm hne)
  rw [hd₂.fetch hf₂, hd₂.fetch hf₂, Query.response_congr hsame]

/-- A miss on a fresh cache is a hit after the store. -/
theorem not_separate_of_eq
    (heq : keyName (stored.keyPrefix ++ h₁.bytes) = keyName (fetched.keyPrefix ++ h₂.bytes)) :
    ¬ Separate stored h₁ fetched h₂ := by
  intro hseparate
  have hrun := Cache.runFrom_zeros []
  have hfresh := Cache.initMmap_fresh hrun.1
  generalize hcache : (Cache.initMmap (.start fun _ => 0)).mem = cache at hfresh
  have hreach : Cache.Reachable cache := ⟨_, _, hcache ▸ hrun⟩
  -- a store of one byte and a fetch; only the two fields and the lengths of their payloads matter
  have hf₁ := h₁.hashField (toLE 4 1 ++ [7])
  have hf₂ := h₂.hashField []
  have hsize : storedSize (h₁.field ++ (toLE 4 1 ++ [7])) = 1 := by
    rw [storedSize, List.drop_left' h₁.field_length]
    rfl
  have hlength : (h₁.field ++ (toLE 4 1 ++ [7])).length = 261 := by simp
  generalize h₁.field ++ (toLE 4 1 ++ [7]) = p₁ at hf₁ hsize hlength
  have hlength₂ : (h₂.field ++ []).length = 256 := by simp
  generalize h₂.field ++ [] = p₂ at hf₂ hlength₂
  have hd₁ := sendMessage_delivered .created stored.storeRoute 1 (hlength.trans_le (by decide))
  have hd₂ := sendMessage_delivered .created fetched.fetchRoute 2 (hlength₂.trans_le (by decide))
  generalize sendMessage .created ⟨hashRoute stored.storeRoute.path, p₁⟩ 1 = d₁ at hd₁
  generalize sendMessage .created ⟨hashRoute fetched.fetchRoute.path, p₂⟩ 2 = d₂ at hd₂
  obtain ⟨env⟩ : Nonempty Env := ⟨⟨fun _ => 0, fun _ => 0⟩⟩
  have hhash₁ : readString (image env.pad d₁) payloadAddr = some h₁.bytes :=
    hd₁.readString_hash (by omega) hf₁
  obtain ⟨out, hout, hstored⟩ := stored.stored_of_fresh hfresh hd₁
    (Option.isSome_iff_exists.mpr ⟨_, hhash₁⟩) (by rw [hlength, hsize]; rfl) (by omega)
  have hquiet : ¬ Compacts cache (storedSize p₁) := by
    refine Cache.not_compacts hreach.wellFormed ?_
    rw [hfresh, hsize]
    decide
  -- the two answers would have to be one
  have hsame := hseparate cache env env d₁ d₂ p₁ p₂ out hreach hd₁ hf₁ (fun _ => hquiet) hout hd₂ hf₂
  have hlong : sizeofHashRequest ≤ p₂.length := hlength₂.ge
  rw [hd₂.fetch hf₂, hd₂.fetch hf₂, if_pos hlong, if_pos hlong] at hsame
  have hresponse : (Query.cached fetched).response env.junk out.cache h₂.bytes =
      (Query.cached fetched).response env.junk cache h₂.bytes := by
    have hinj : ∀ x y : List UInt8,
        some [(⟨d₂.currentMessageId, x⟩ : Reply)] = some [⟨d₂.currentMessageId, y⟩] → x = y := by
      rintro x y ⟨⟩
      rfl
    exact hinj _ _ hsame
  have hfound : responseSuccess ((Query.cached fetched).response env.junk out.cache h₂.bytes) =
      true := by
    obtain ⟨hash, length, hhash, -, -, hput, hstore⟩ :=
      stored.handle_store ((hd₁.dispatch env cache).symm.trans hout) hstored
    cases hhash₁.symm.trans hhash
    obtain ⟨view, hget, -, -⟩ := get_of_put hreach hput heq.symm
    rw [Query.response, hstore, hget, lookupResponse, dataResponse_success]
  have hmissed : responseSuccess ((Query.cached fetched).response env.junk cache h₂.bytes) =
      false := by
    have hnone : getBytes cache (fetched.keyPrefix ++ h₂.bytes) = none := by
      refine Cache.getBytes_of_absent fun j hholds => ?_
      rw [hfresh] at hholds
      exact Bool.false_ne_true hholds.1
    rw [Query.response, Option.map_eq_none_iff.mp hnone, lookupResponse, dataResponse_success]
  rw [hresponse, hmissed] at hfound
  exact Bool.false_ne_true hfound

/-- **A fetch notices a store exactly when their keys have one name.** -/
theorem separate_iff : Separate stored h₁ fetched h₂ ↔
    keyName (stored.keyPrefix ++ h₁.bytes) ≠ keyName (fetched.keyPrefix ++ h₂.bytes) :=
  ⟨fun h heq => not_separate_of_eq heq h, separate_of_ne⟩

end Separate

/-! ## Across the kinds -/

/-- **Separate namespaces.** A store of bytecode is noticed by a fetch of the graph whose hash is the
prefixed key, as far as a slot keeps it, and by no other; a store of a graph is noticed by a fetch of
bytecode whose prefixed key is that hash, and by no other. -/
theorem namespaces_separate_iff (h₁ h₂ : FunctionHash) :
    (Separate .bytecode h₁ .irGraph h₂ ↔ (bytecodePrefix ++ h₁.bytes).take 255 ≠ h₂.bytes) ∧
      (Separate .irGraph h₁ .bytecode h₂ ↔ (bytecodePrefix ++ h₂.bytes).take 255 ≠ h₁.bytes) := by
  have hgraph : ∀ h : FunctionHash, keyName (Kind.irGraph.keyPrefix ++ h.bytes) = h.bytes := fun h => by
    rw [Kind.keyName_hash]
    exact List.take_of_length_le h.fits
  constructor
  · rw [separate_iff, hgraph, Kind.keyName_hash]
    rfl
  · rw [separate_iff, hgraph, Kind.keyName_hash]
    exact ne_comm

/-- The hash of a graph that looks like the key of bytecode. -/
theorem namespaces_overlap :
    ¬ Separate .bytecode ⟨text "f", by decide +kernel, by decide +kernel⟩
        .irGraph ⟨text "bytecode_f", by decide +kernel, by decide +kernel⟩ ∧
      ¬ Separate .irGraph ⟨text "bytecode_f", by decide +kernel, by decide +kernel⟩
        .bytecode ⟨text "f", by decide +kernel, by decide +kernel⟩ := by
  constructor
  · refine not_separate_of_eq ?_
    decide +kernel
  · refine not_separate_of_eq ?_
    decide +kernel

/-! ## Between hashes of bytecode -/

/-- **Separate entries.** A store of bytecode is noticed by a fetch for another hash exactly when the
two agree on the 246 bytes that a slot keeps behind the prefix. -/
theorem bytecode_separate_iff (h₁ h₂ : FunctionHash) :
    Separate .bytecode h₁ .bytecode h₂ ↔ h₁.bytes.take 246 ≠ h₂.bytes.take 246 := by
  have hname : ∀ h : FunctionHash,
      keyName (Kind.bytecode.keyPrefix ++ h.bytes) = bytecodePrefix ++ h.bytes.take 246 := fun h => by
    have hnine : bytecodePrefix.length = 9 := by decide +kernel
    rw [Kind.keyName_hash]
    show (bytecodePrefix ++ h.bytes).take 255 = _
    rw [List.take_append, hnine, List.take_of_length_le (hnine.trans_le (by decide))]
  rw [separate_iff, hname, hname]
  exact not_congr (List.append_right_inj bytecodePrefix)

/-- Two hashes of 247 bytes whose last bytes are pushed out of the slot. -/
theorem bytecode_entry_shared : ∃ h₁ h₂ : FunctionHash, h₁ ≠ h₂ ∧
    h₁.bytes = List.replicate 246 65 ++ [66] ∧ h₂.bytes = List.replicate 246 65 ++ [67] ∧
      ¬ Separate .bytecode h₁ .bytecode h₂ := by
  refine ⟨⟨List.replicate 246 65 ++ [66], by decide +kernel, by decide +kernel⟩,
    ⟨List.replicate 246 65 ++ [67], by decide +kernel, by decide +kernel⟩, ?_, rfl, rfl, ?_⟩
  · decide +kernel
  · refine not_separate_of_eq ?_
    decide +kernel

end CCache.Server
