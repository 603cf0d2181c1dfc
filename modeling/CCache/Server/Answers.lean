/-
# CCache.Server.Answers — one equation for every route.

The eight routes fall into three groups: the user routes, which only log; the queries, which look a hash
string up and answer; and the stores, which check their sizes and call `Put`.  A store and all queries but
one belong to a kind of entry, with one key prefix.  Each group has one equation for what its handler does
on a payload.  The later modules cite these and no longer unfold a handler.
-/
import CCache.Cache.Lookup
import CCache.Server.Handlers

namespace CCache.Server

open CCache.Cache (View put get getBytes keyName)
open CCache.Ipc
open CCache.Lib.ByteMemory
open CCache.Lib.CString

/-! ## The two kinds of entries -/

/-- What the server keeps for a function. -/
inductive Kind where
  | irGraph
  | bytecode
deriving DecidableEq, Repr

namespace Kind

def storeRoute : Kind → Route
  | .irGraph => .addFunctionIrGraph
  | .bytecode => .saveBytecode

def fetchRoute : Kind → Route
  | .irGraph => .getFunctionIrGraph
  | .bytecode => .getBytecode

/-- What stands before the hash in a key. -/
def keyPrefix : Kind → List UInt8
  | .irGraph => []
  | .bytecode => bytecodePrefix

theorem keyPrefix_ne_zero (kind : Kind) : ∀ b ∈ kind.keyPrefix, b ≠ 0 := by
  cases kind <;> decide +kernel

/-- The key of a hash string depends on no more of it than the 255 bytes `FindEntry` compares. -/
theorem keyName_congr (kind : Kind) {hash hash' : List UInt8} (h : trunc 255 hash = trunc 255 hash') :
    keyName (kind.keyPrefix ++ hash) = keyName (kind.keyPrefix ++ hash') :=
  trunc_append_congr kind.keyPrefix_ne_zero h

end Kind

/-! ## Queries -/

/-- What a query asks for. -/
inductive Query where
  | functionIr
  | cached (kind : Kind)
deriving DecidableEq, Repr

def Query.route : Query → Route
  | .functionIr => .getFunctionIr
  | .cached kind => kind.fetchRoute

theorem Query.route_injective {q q' : Query} (h : q.route = q'.route) : q = q' := by
  rcases q with _ | _ | _ <;> rcases q' with _ | _ | _ <;> first | rfl | cases h

/-- The message of a fetch that misses. -/
def Kind.notFound : Kind → List UInt8
  | .irGraph => text "Fonction non trouvée dans le cache"
  | .bytecode => text "Bytecode non trouvé dans le cache"

/-- The response to what a lookup in the cache found. -/
def lookupResponse (junk cache : Mem) (notFound : List UInt8) : Option View → List UInt8
  | some view => dataResponse junk true view.length [] (view.bytes cache)
  | none => dataResponse junk false 0 notFound []

/-- The response to a query for a hash string. -/
def Query.response (junk cache : Mem) (hash : List UInt8) : Query → List UInt8
  | .functionIr =>
    if hash = text "EXISTING_FUNCTION" then
      dataResponse junk true 80 [] [0x48, 0x89, 0xe5, 0x48, 0x83, 0xec, 0x10, 0xc7, 0x45, 0xfc]
    else dataResponse junk false 0 (text "Fonction non trouvée") []
  | .cached kind => lookupResponse junk cache kind.notFound (get cache (kind.keyPrefix ++ hash))

section Handle

variable {junk cache m : Mem} {messageId : UInt32} {data size : Nat}

/-- **A query** of at least a hash field is answered once; a shorter one is only logged. -/
theorem Query.handle_eq (q : Query) : q.route.handle junk cache m messageId data size =
    if sizeofHashRequest ≤ size then
      (readString m data).map fun hash => ⟨cache, [⟨messageId, q.response junk cache hash⟩], none⟩
    else some (.quiet cache) := by
  have hmap : ∀ f : List UInt8 → Outcome,
      (readString m data >>= fun hash => some (f hash)) = (readString m data).map f := by
    intro f
    cases readString m data <;> rfl
  cases q with
  | functionIr =>
    show registerRoute sizeofHashRequest cache (handleGetFunctionIr junk cache m messageId) data size = _
    rw [registerRoute, handleGetFunctionIr, hmap]
    rfl
  | cached kind =>
    have hcached : kind.fetchRoute.handle junk cache m messageId data size =
        registerRoute sizeofHashRequest cache
          (handleGetCached kind.keyPrefix kind.notFound junk cache m messageId) data size := by
      cases kind <;> rfl
    show kind.fetchRoute.handle junk cache m messageId data size = _
    rw [hcached, registerRoute, handleGetCached, hmap]
    refine congrArg (fun answer => if sizeofHashRequest ≤ size then answer else _) ?_
    refine Option.map_congr fun hash _ => ?_
    rw [Query.response]
    generalize get cache (kind.keyPrefix ++ hash) = found
    cases found <;> rfl

end Handle

/-- The response depends on the cache through the bytes `Get` answers with. -/
theorem Query.response_congr {junk cache cache' : Mem} {kind : Kind} {hash : List UInt8}
    (h : getBytes cache' (kind.keyPrefix ++ hash) = getBytes cache (kind.keyPrefix ++ hash)) :
    (Query.cached kind).response junk cache' hash = (Query.cached kind).response junk cache hash := by
  have hlookup : ∀ (found found' : Option View),
      (found'.map fun v => v.bytes cache') = (found.map fun v => v.bytes cache) →
      lookupResponse junk cache' kind.notFound found' = lookupResponse junk cache kind.notFound found := by
    intro found found' hbytes
    cases found with
    | none =>
      rw [Option.map_eq_none_iff.mp hbytes]
      rfl
    | some view =>
      obtain ⟨view', rfl, hview⟩ := Option.map_eq_some_iff.mp hbytes
      have hlength : view'.length = view.length := by
        have hread := congrArg List.length hview
        simpa only [View.bytes, read_length] using hread
      rw [lookupResponse, lookupResponse, hview, hlength]
  rw [Query.response, Query.response]
  exact hlookup _ _ h

/-! ## Stores -/

/-- What a store answers: nothing for a graph, the response for bytecode. -/
def Kind.acknowledge (messageId : UInt32) (response : List UInt8) : Kind → List Reply
  | .irGraph => []
  | .bytecode => [⟨messageId, response⟩]

/-- What a storing handler makes of its payload once it is checked. -/
def Kind.storeOutcome (kind : Kind) (junk cache m : Mem) (messageId : UInt32) :
    StoreRequest → Outcome
  | .short => .quiet cache
  | .mismatch =>
    ⟨cache, kind.acknowledge messageId
      (saveBytecodeResponse junk false (text "Taille des données incorrecte")), none⟩
  | .valid hash data length =>
    let r := put (.start cache) (kind.keyPrefix ++ hash) (some (blobAt m data length))
    ⟨r.2.mem, kind.acknowledge messageId
      (if r.1 then saveBytecodeResponse junk true []
        else saveBytecodeResponse junk false (text "Impossible de stocker dans le cache")), some r.1⟩

section Handle

variable {junk cache m : Mem} {messageId : UInt32} {data size : Nat}

/-- What the checks of a storing handler establish. -/
theorem readStoreRequest_valid {hash : List UInt8} {a : Nat} {length : UInt32}
    (h : readStoreRequest m data size = some (.valid hash a length)) :
    readString m data = some hash ∧ a = data + sizeofStoreRequest ∧
      length.toNat = readWord m (data + 256) ∧ size = sizeofStoreRequest + length.toNat := by
  unfold readStoreRequest at h
  split at h
  · cases h
  · obtain ⟨read, hread, h⟩ := Option.bind_eq_some_iff.mp h
    dsimp only at h
    split at h
    · cases h
    · rename_i hsize
      cases h
      have hword : (UInt32.ofNat (readWord m (data + 256))).toNat = readWord m (data + 256) :=
        UInt32.toNat_ofNat_of_lt' (readWord_lt m _)
      exact ⟨hread, rfl, hword, not_not.mp hsize⟩

/-- What the checks make of a payload that is not too short, by its announced size alone. -/
theorem readStoreRequest_long {hash : List UInt8} (hlong : sizeofStoreRequest ≤ size)
    (hhash : readString m data = some hash) : readStoreRequest m data size =
      some (if size = sizeofStoreRequest + readWord m (data + 256) then
        .valid hash (data + sizeofStoreRequest) (UInt32.ofNat (readWord m (data + 256)))
      else .mismatch) := by
  have hword : (UInt32.ofNat (readWord m (data + 256))).toNat = readWord m (data + 256) :=
    UInt32.toNat_ofNat_of_lt' (readWord_lt m _)
  unfold readStoreRequest
  rw [if_neg (Nat.not_lt.mpr hlong), hhash, Option.bind_eq_bind, Option.bind_some]
  dsimp only
  rw [hword]
  by_cases hsize : size = sizeofStoreRequest + readWord m (data + 256)
  · rw [if_neg (not_not_intro hsize), if_pos hsize]
  · rw [if_pos hsize, if_neg hsize]

/-- The checks pass a payload that is the struct and the data it announces. -/
theorem readStoreRequest_eq {hash : List UInt8} (hhash : readString m data = some hash)
    (hsize : size = sizeofStoreRequest + readWord m (data + 256)) :
    readStoreRequest m data size =
      some (.valid hash (data + sizeofStoreRequest) (UInt32.ofNat (readWord m (data + 256)))) := by
  rw [readStoreRequest_long (by omega) hhash, if_pos hsize]

/-- **A store** follows what its checks make of the payload. -/
theorem Kind.store_eq (kind : Kind) : kind.storeRoute.handle junk cache m messageId data size =
    (readStoreRequest m data size).map (kind.storeOutcome junk cache m messageId) := by
  cases kind with
  | irGraph =>
    show handleAddFunctionIrGraph cache m data size = _
    unfold handleAddFunctionIrGraph
    cases readStoreRequest m data size with
    | none => rfl
    | some request => cases request <;> rfl
  | bytecode =>
    show handleSaveBytecode junk cache m messageId data size = _
    unfold handleSaveBytecode
    cases readStoreRequest m data size with
    | none => rfl
    | some request => cases request <;> rfl

/-- **What a store can do**: nothing to the cache, or one `Put` for a valid request. -/
theorem Kind.store_cases (kind : Kind) {out : Outcome}
    (h : kind.storeRoute.handle junk cache m messageId data size = some out) :
    out.cache = cache ∧ out.stored = none ∨
      ∃ hash a length, readStoreRequest m data size = some (.valid hash a length) ∧
        out.cache = (put (.start cache) (kind.keyPrefix ++ hash) (some (blobAt m a length))).2.mem ∧
        out.stored =
          some (put (.start cache) (kind.keyPrefix ++ hash) (some (blobAt m a length))).1 := by
  rw [kind.store_eq] at h
  obtain ⟨request, hread, rfl⟩ := Option.map_eq_some_iff.mp h
  cases request with
  | short => exact .inl ⟨rfl, rfl⟩
  | mismatch => exact .inl ⟨rfl, rfl⟩
  | valid hash a length => exact .inr ⟨hash, a, length, hread, rfl, rfl⟩

/-! ## The user routes -/

/-- The routes whose handlers only log. -/
def Route.IsUser (route : Route) : Prop :=
  route = .createUser ∨ route = .getUser ∨ route = .deleteUser

/-- **A user route** leaves nothing behind. -/
theorem Route.IsUser.handle_eq {route : Route} (hr : route.IsUser) {out : Outcome}
    (h : route.handle junk cache m messageId data size = some out) : out = .quiet cache := by
  have hquiet : ∀ {n : Nat} {handler : Nat → Option Outcome},
      (∀ o, handler data = some o → o = .quiet cache) →
      registerRoute n cache handler data size = some out → out = .quiet cache := by
    intro n handler hh hreg
    rw [registerRoute] at hreg
    split at hreg
    · exact hh out hreg
    · exact (Option.some.inj hreg).symm
  rcases hr with rfl | rfl | rfl
  · have h : registerRoute sizeofCreateUserRequest cache (handleCreateUser cache m) data size =
      some out := h
    refine hquiet (fun o ho => ?_) h
    obtain ⟨_, -, ho⟩ := Option.bind_eq_some_iff.mp ho
    obtain ⟨_, -, ho⟩ := Option.bind_eq_some_iff.mp ho
    exact (Option.some.inj ho).symm
  · have h : registerRoute sizeofUserIdRequest cache (fun _ => handleGetUser cache) data size =
      some out := h
    exact hquiet (fun o ho => (Option.some.inj ho).symm) h
  · have h : registerRoute sizeofUserIdRequest cache (fun _ => handleDeleteUser cache) data size =
      some out := h
    exact hquiet (fun o ho => (Option.some.inj ho).symm) h

end Handle

/-- Every route is of one of the three groups. -/
theorem Route.groups (route : Route) :
    route.IsUser ∨ (∃ q : Query, route = q.route) ∨ ∃ kind : Kind, route = kind.storeRoute := by
  cases route with
  | createUser => exact .inl (.inl rfl)
  | getUser => exact .inl (.inr (.inl rfl))
  | deleteUser => exact .inl (.inr (.inr rfl))
  | addFunctionIrGraph => exact .inr (.inr ⟨.irGraph, rfl⟩)
  | getFunctionIr => exact .inr (.inl ⟨.functionIr, rfl⟩)
  | getFunctionIrGraph => exact .inr (.inl ⟨.cached .irGraph, rfl⟩)
  | saveBytecode => exact .inr (.inr ⟨.bytecode, rfl⟩)
  | getBytecode => exact .inr (.inl ⟨.cached .bytecode, rfl⟩)

/-! ## Short payloads -/

/-- The size of the struct that the handler of a route reads. -/
def Route.requestSize : Route → Nat
  | .createUser => sizeofCreateUserRequest
  | .getUser | .deleteUser => sizeofUserIdRequest
  | .addFunctionIrGraph | .saveBytecode => sizeofStoreRequest
  | .getFunctionIr | .getFunctionIrGraph | .getBytecode => sizeofHashRequest

theorem Query.requestSize_eq (q : Query) : q.route.requestSize = sizeofHashRequest := by
  rcases q with _ | _ | _ <;> rfl

/-- **A payload shorter than its struct is only logged**, whatever the route. -/
theorem Route.handle_short {junk cache m : Mem} {messageId : UInt32} {data size : Nat} {route : Route}
    (h : size < route.requestSize) :
    route.handle junk cache m messageId data size = some (.quiet cache) := by
  have hlogged : ∀ {n : Nat} (handler : Nat → Option Outcome), size < n →
      registerRoute n cache handler data size = some (.quiet cache) :=
    fun _ hn => if_neg (Nat.not_le.mpr hn)
  have hquery : ∀ q : Query, size < sizeofHashRequest →
      q.route.handle junk cache m messageId data size = some (.quiet cache) := by
    intro q hn
    rw [q.handle_eq, if_neg (Nat.not_le.mpr hn)]
  have hstore : ∀ kind : Kind, size < sizeofStoreRequest →
      kind.storeRoute.handle junk cache m messageId data size = some (.quiet cache) := by
    intro kind hn
    rw [kind.store_eq, readStoreRequest, if_pos hn]
    rfl
  cases route with
  | createUser => exact hlogged (handleCreateUser cache m) h
  | getUser => exact hlogged (fun _ => handleGetUser cache) h
  | deleteUser => exact hlogged (fun _ => handleDeleteUser cache) h
  | addFunctionIrGraph => exact hstore .irGraph h
  | getFunctionIr => exact hquery .functionIr h
  | getFunctionIrGraph => exact hquery (.cached .irGraph) h
  | saveBytecode => exact hstore .bytecode h
  | getBytecode => exact hquery (.cached .bytecode) h

end CCache.Server
