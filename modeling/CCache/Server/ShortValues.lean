/-
# CCache.Server.ShortValues — cache files whose values all fit a response.

A cached value that is longer than a response can carry makes `send_response` refuse its fetch, and the
cache takes values of any size.  But what reaches `Put` through the mailbox came in a message buffer of
the same size, behind a longer header: a dispatch on a slot that announces no more than the buffer
holds keeps a file short, compactions included, and its response fits.
-/
import CCache.Server.RoundTrip

namespace CCache.Server

open CCache.Cache (Blob View WellFormed Room StoredAt put get put_cases)
open CCache.Ipc
open CCache.Lib.ByteMemory

/-! ## Files without long values -/

/-- The longest value that a response can carry. -/
def maxValue : Nat := maxMessageSize - sizeofDataResponse

/-- A file whose values are all short enough for a response. -/
structure ShortValues (cache : Mem) : Prop where
  wellFormed : WellFormed (Cache.directory cache)
  short : ∀ i, ((Cache.directory cache).slot i).used = true →
    ((Cache.directory cache).slot i).length ≤ maxValue

namespace ShortValues

variable {cache b : Mem} {key : List UInt8} {data : Blob}

theorem of_fresh (h : Cache.directory cache = .fresh) : ShortValues cache where
  wellFormed := h ▸ .fresh
  short := by
    intro i hi
    rw [h] at hi
    exact absurd hi Bool.false_ne_true

/-- A compaction moves the values and leaves their lengths. -/
theorem room {length : Nat} (h : ShortValues cache) (hr : Room cache length b) : ShortValues b := by
  refine ⟨hr.wellFormed h.wellFormed, fun i hi => ?_⟩
  rcases hr with ⟨-, rfl⟩ | ⟨-, hc⟩
  · exact h.short i hi
  · rw [hc.dir, Cache.Directory.compacted_used] at hi
    rw [hc.dir, Cache.Directory.compacted_length]
    exact h.short i hi

theorem stored {idx : Nat} {k : Mem} (h : ShortValues b) (hs : StoredAt b key data idx k)
    (hpos : 0 < data.length) (hlen : data.length ≤ maxValue) : ShortValues k := by
  refine ⟨hs.wellFormed h.wellFormed hpos, ?_⟩
  rw [hs.dir]
  exact Cache.WellFormed.forall_used_store (P := fun _ e => e.length ≤ maxValue) hlen h.short

/-- A `Put` of a short value, whatever it answers. -/
theorem put (h : ShortValues cache) (key : List UInt8) (hlen : data.length ≤ maxValue) :
    ShortValues (Cache.put (.start cache) key (some data)).2.mem := by
  rcases Nat.eq_zero_or_pos data.length with hzero | hpos
  · rw [Cache.put_rejects key fun b hb => by rw [← Option.some.inj hb, hzero]]
    exact h
  · obtain ⟨-, b, hroom, -, ⟨-, hmem, -⟩ | ⟨-, idx, hstored⟩⟩ :=
      put_cases (s := .start cache) h.wellFormed (Cache.Mapping.safe_start cache) key hpos
    · rw [hmem]
      exact h.room hroom
    · exact (h.room hroom).stored hstored hpos hlen

/-- What `Get` hands out of such a file is short. -/
theorem get_le (h : ShortValues cache) {view : View} (hget : get cache key = some view) :
    view.length ≤ maxValue := by
  obtain ⟨i, hh, -, rfl⟩ := Cache.holds_of_get h.wellFormed.names hget
  exact h.short i hh.1

end ShortValues

/-! ## One dispatch -/

/-- The outcome of a handler on such a file: it stays so, and every response fits. -/
structure Outcome.Short (out : Outcome) : Prop where
  cache : ShortValues out.cache
  replies : ∀ reply ∈ out.replies, reply.response.length ≤ maxMessageSize

section Dispatch

variable {junk cache m : Mem} {messageId : UInt32} {data size : Nat} {out : Outcome}

theorem Outcome.Short.quiet (h : ShortValues cache) : (Outcome.quiet cache).Short :=
  ⟨h, fun _ hr => absurd hr List.not_mem_nil⟩

theorem Outcome.Short.reply {stored : Option Bool} {response : List UInt8} (h : ShortValues cache)
    (hfits : response.length ≤ maxMessageSize) :
    (⟨cache, [⟨messageId, response⟩], stored⟩ : Outcome).Short :=
  ⟨h, fun _ hr => by rw [List.mem_singleton.mp hr]; exact hfits⟩

/-- Every response to a query fits. -/
theorem Query.response_le (h : ShortValues cache) (q : Query) (hash : List UInt8) :
    (q.response junk cache hash).length ≤ maxMessageSize := by
  cases q with
  | functionIr =>
    rw [Query.response]
    split
    · rw [dataResponse_length]
      decide
    · rw [dataResponse_length]
      decide
  | cached kind =>
    rw [Query.response]
    cases hget : get cache (kind.keyPrefix ++ hash) with
    | none =>
      rw [lookupResponse, dataResponse_length]
      decide
    | some view =>
      have hview : (view.bytes cache).length ≤ maxValue := by
        rw [View.bytes, read_length]
        exact h.get_le hget
      have hroom : sizeofDataResponse + maxValue ≤ maxMessageSize := by decide
      rw [lookupResponse, dataResponse_length]
      omega

/-- What the checks of a store let through is shorter than its payload by the struct. -/
theorem Kind.storeOutcome_short (h : ShortValues cache) (kind : Kind) {request : StoreRequest}
    (hsize : size ≤ maxPayload) (hread : readStoreRequest m data size = some request) :
    (kind.storeOutcome junk cache m messageId request).Short := by
  have hack : ∀ {k : Mem} {success : Bool} {errorMessage : List UInt8} {stored : Option Bool},
      ShortValues k → (⟨k, kind.acknowledge messageId
        (saveBytecodeResponse junk success errorMessage), stored⟩ : Outcome).Short := by
    intro k success errorMessage stored hk
    cases kind with
    | irGraph => exact ⟨hk, fun _ hr => absurd hr List.not_mem_nil⟩
    | bytecode =>
      refine .reply hk ?_
      rw [saveBytecodeResponse, read_length]
      decide
  cases request with
  | short => exact .quiet h
  | mismatch => exact hack h
  | valid hash a length =>
    obtain ⟨-, -, -, hvalid⟩ := readStoreRequest_valid hread
    have hlen : (blobAt m a length).length ≤ maxValue := by
      show (read _ _ _).length ≤ _
      have hvalid' : size = 260 + length.toNat := hvalid
      have hmax : size ≤ 20216 := hsize
      have hvalue : maxValue = 20344 := rfl
      rw [read_length]
      omega
    unfold Kind.storeOutcome
    dsimp only
    split
    · exact hack (h.put _ hlen)
    · exact hack (h.put _ hlen)

/-- **What any handler leaves is short**, on a payload that the message buffer can hold. -/
theorem Route.handle_short_values (h : ShortValues cache) {route : Route} (hsize : size ≤ maxPayload)
    (hout : route.handle junk cache m messageId data size = some out) : out.Short := by
  rcases route.groups with hu | ⟨q, rfl⟩ | ⟨kind, rfl⟩
  · rw [hu.handle_eq hout]
    exact .quiet h
  · rw [q.handle_eq] at hout
    split at hout
    · obtain ⟨hash, -, rfl⟩ := Option.map_eq_some_iff.mp hout
      exact .reply h (Query.response_le h q hash)
    · cases hout
      exact .quiet h
  · rw [kind.store_eq] at hout
    obtain ⟨request, hread, rfl⟩ := Option.map_eq_some_iff.mp hout
    exact Kind.storeOutcome_short h kind hsize hread

/-- One dispatch on a slot that announces no more than the buffer holds. -/
theorem serverHandle_short (env : Env) {d : SharedData} (h : ShortValues cache)
    (hsize : d.message.payloadSize ≤ maxPayload) :
    ShortValues (serverHandle env cache d).1 ∧
      ∀ response, (serverHandle env cache d).2 = some response → response.length ≤ maxMessageSize := by
  rw [serverHandle_eq]
  cases hd : dispatchMessage env cache d with
  | none => exact ⟨h, fun _ hr => by cases hr⟩
  | some out =>
    have hshort : out.Short := by
      unfold dispatchMessage at hd
      obtain ⟨hash, -, hd⟩ := Option.bind_eq_some_iff.mp hd
      cases hroute : findRoute hash with
      | none =>
        rw [hroute] at hd
        cases hd
        exact .quiet h
      | some route =>
        rw [hroute] at hd
        refine Route.handle_short_values h ?_ hd
        rw [image_payloadSize]
        exact (Nat.mod_le _ _).trans hsize
    rw [Option.elim_some]
    refine ⟨hshort.cache, fun response hresponse => ?_⟩
    obtain ⟨reply, hreply, rfl⟩ := Option.map_eq_some_iff.mp hresponse
    exact hshort.replies reply (List.mem_of_mem_head? hreply)

end Dispatch

end CCache.Server
