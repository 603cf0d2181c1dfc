/-
# CCache.Server.Handlers — the handlers of the eight routes, and the dispatch of one message.

A handler works on the cache file and on the bytes of the mapped segment.  What it leaves is an
`Outcome`: the file, the `send_response` calls it made, in order, and the answer of `Put` where it
called it.  Of `printf` and `cout` only the scan that a `%s` makes is kept: without a NUL inside the
mapping the handler has no outcome.  The storage of a response holds the bytes of `junk` until a field
is stored there.
-/
import CCache.Cache.SharedCache
import CCache.Server.Router
import CCache.Server.Segment

namespace CCache.Server

open CCache.Cache (Blob View put get)
open CCache.Ipc
open CCache.Lib.ByteMemory

/-! ## Structs -/

/-- `sizeof(CreateUserRequest)`: `username` at 0, `email` at 64. -/
def sizeofCreateUserRequest : Nat := 192

/-- `sizeof(GetUserRequest)` and `sizeof(DeleteUserRequest)`. -/
def sizeofUserIdRequest : Nat := 4

/-- `sizeof(AddFunctionIRRequest)` and `sizeof(SaveBytecodeRequest)`: the hash at 0, the size of the
data at 256, then the data. -/
def sizeofStoreRequest : Nat := 260

/-- `sizeof` of `GetFunctionIRRequest`, `GetFunctionIRGraphRequest` and `GetBytecodeRequest`: the
hash. -/
def sizeofHashRequest : Nat := 256

/-- `sizeof(SaveBytecodeResponse)`: `success` at 0, `error_message` at 1. -/
def sizeofSaveBytecodeResponse : Nat := 129

/-- `sizeof` of `GetFunctionIRResponse`, `GetFunctionIRGraphResponse` and `GetBytecodeResponse`:
`success` at 0, the size of the data at 4, `error_message` at 8, then the data. -/
def sizeofDataResponse : Nat := 136

/-! ## Responses -/

/-- `strcpy`, with its NUL. -/
def strcpy (m : Mem) (a : Nat) (s : List UInt8) : Mem := blit m a (s.length + 1) (content (s ++ [0]))

/-- The bytes of a `SaveBytecodeResponse`. -/
def saveBytecodeResponse (junk : Mem) (success : Bool) (errorMessage : List UInt8) : List UInt8 :=
  let r := blit junk 0 1 fun _ => boolByte success
  let r := strcpy r 1 errorMessage
  read r 0 sizeofSaveBytecodeResponse

/-- The bytes of a response with data. -/
def dataResponse (junk : Mem) (success : Bool) (size : Nat) (errorMessage data : List UInt8) :
    List UInt8 :=
  let r := blit junk 0 1 fun _ => boolByte success
  let r := blit r 4 4 (content (toLE 4 size))
  let r := strcpy r 8 errorMessage
  let r := blit r sizeofDataResponse data.length (content data)
  read r 0 (sizeofDataResponse + data.length)

/-- One call of `send_response`: the message id and the `response_size` bytes. -/
structure Reply where
  messageId : UInt32
  response : List UInt8
deriving DecidableEq, Repr

/-- `IPCServer::send_response`: its answer and the segment it leaves. -/
def sendResponse (d : SharedData) (r : Reply) : Bool × SharedData :=
  if r.response.length > maxMessageSize then (false, d)
  else (true, { d with
    response := memcpy d.response r.response, responseSize := r.response.length,
    responseMessageId := r.messageId, hasResponse := true, responseReady := d.responseReady + 1 })

/-- What a dispatch leaves behind: the cache file, the calls of `send_response`, the answer of `Put`. -/
structure Outcome where
  cache : Mem
  replies : List Reply
  stored : Option Bool

/-- Nothing but log output. -/
def Outcome.quiet (cache : Mem) : Outcome := ⟨cache, [], none⟩

/-! ## Handlers of the user routes -/

/-- `IPCServer::handle_create_user`. -/
def handleCreateUser (cache m : Mem) (request : Nat) : Option Outcome := do
  let _username ← readString m request
  let _email ← readString m (request + 64)
  some (.quiet cache)

/-- `IPCServer::handle_get_user`. -/
def handleGetUser (cache : Mem) : Option Outcome := some (.quiet cache)

/-- `IPCServer::handle_delete_user`. -/
def handleDeleteUser (cache : Mem) : Option Outcome := some (.quiet cache)

/-! ## Handlers that store -/

/-- What the two storing handlers make of their payload before they call `Put`. -/
inductive StoreRequest where
  /-- The payload is shorter than the struct. -/
  | short
  /-- The payload is not the struct and the announced data. -/
  | mismatch
  /-- The hash string, and the address and length of the data. -/
  | valid (hash : List UInt8) (data : Nat) (length : UInt32)
deriving DecidableEq, Repr

/-- The checks that the two storing handlers share, on the `size` bytes at `data`. -/
def readStoreRequest (m : Mem) (data size : Nat) : Option StoreRequest :=
  if size < sizeofStoreRequest then some .short
  else do
    let hash ← readString m data
    let length := UInt32.ofNat (readWord m (data + 256))
    -- the sum is in `size_t`: it does not wrap
    if size ≠ sizeofStoreRequest + length.toNat then some .mismatch
    else some (.valid hash (data + sizeofStoreRequest) length)

/-- The bytes that `Put` is handed by address and length. -/
def blobAt (m : Mem) (data : Nat) (length : UInt32) : Blob :=
  ⟨read m data length.toNat, by rw [read_length]; exact length.toNat_lt⟩

/-- `IPCServer::handle_add_function_ir_graph`. -/
def handleAddFunctionIrGraph (cache m : Mem) (data size : Nat) : Option Outcome := do
  match ← readStoreRequest m data size with
  | .short => some (.quiet cache)
  | .mismatch => some (.quiet cache)
  | .valid hash data length =>
    let (ok, s) := put (.start cache) hash (some (blobAt m data length))
    some ⟨s.mem, [], some ok⟩

/-- `"bytecode_"`. -/
def bytecodePrefix : List UInt8 := text "bytecode_"

/-- `IPCServer::handle_save_bytecode`. -/
def handleSaveBytecode (junk cache m : Mem) (messageId : UInt32) (data size : Nat) :
    Option Outcome := do
  match ← readStoreRequest m data size with
  | .short => some (.quiet cache)
  | .mismatch =>
    let response := saveBytecodeResponse junk false (text "Taille des données incorrecte")
    some ⟨cache, [⟨messageId, response⟩], none⟩
  | .valid hash data length =>
    let (ok, s) := put (.start cache) (bytecodePrefix ++ hash) (some (blobAt m data length))
    let response :=
      if ok then saveBytecodeResponse junk true []
      else saveBytecodeResponse junk false (text "Impossible de stocker dans le cache")
    some ⟨s.mem, [⟨messageId, response⟩], some ok⟩

/-! ## Handlers that fetch -/

/-- `IPCServer::handle_get_function_ir`; `strcmp` answers 0 on equal strings. -/
def handleGetFunctionIr (junk cache m : Mem) (messageId : UInt32) (request : Nat) :
    Option Outcome := do
  let hash ← readString m request
  let response :=
    if hash = text "EXISTING_FUNCTION" then
      dataResponse junk true 80 [] [0x48, 0x89, 0xe5, 0x48, 0x83, 0xec, 0x10, 0xc7, 0x45, 0xfc]
    else dataResponse junk false 0 (text "Fonction non trouvée") []
  some ⟨cache, [⟨messageId, response⟩], none⟩

/-- What `handle_get_function_ir_graph` and `handle_get_bytecode` share: the lookup of the hash string
behind `keyPrefix`, and the response with the cached bytes or with `notFound`. -/
def handleGetCached (keyPrefix notFound : List UInt8) (junk cache m : Mem) (messageId : UInt32)
    (request : Nat) : Option Outcome := do
  let hash ← readString m request
  let response :=
    match get cache (keyPrefix ++ hash) with
    | some view => dataResponse junk true view.length [] (view.bytes cache)
    | none => dataResponse junk false 0 notFound []
  some ⟨cache, [⟨messageId, response⟩], none⟩

/-- `IPCServer::handle_get_function_ir_graph`. -/
def handleGetFunctionIrGraph (junk cache m : Mem) (messageId : UInt32) (request : Nat) :
    Option Outcome :=
  handleGetCached [] (text "Fonction non trouvée dans le cache") junk cache m messageId request

/-- `IPCServer::handle_get_bytecode`. -/
def handleGetBytecode (junk cache m : Mem) (messageId : UInt32) (request : Nat) : Option Outcome :=
  handleGetCached bytecodePrefix (text "Bytecode non trouvé dans le cache") junk cache m messageId
    request

/-! ## Dispatch -/

/-- What `register_route` puts around a handler of a fixed struct; a shorter payload is only logged. -/
def registerRoute (sizeofRequest : Nat) (cache : Mem) (handler : Nat → Option Outcome)
    (data size : Nat) : Option Outcome :=
  if size ≥ sizeofRequest then handler data else some (.quiet cache)

/-- The handlers that `initialize_routes` registers, on the payload of `size` bytes at `data`. -/
def Route.handle (junk cache m : Mem) (messageId : UInt32) (data size : Nat) :
    Route → Option Outcome
  | .createUser => registerRoute sizeofCreateUserRequest cache (handleCreateUser cache m) data size
  | .getUser => registerRoute sizeofUserIdRequest cache (fun _ => handleGetUser cache) data size
  | .deleteUser => registerRoute sizeofUserIdRequest cache (fun _ => handleDeleteUser cache) data size
  | .addFunctionIrGraph => handleAddFunctionIrGraph cache m data size
  | .getFunctionIr =>
    registerRoute sizeofHashRequest cache (handleGetFunctionIr junk cache m messageId) data size
  | .getFunctionIrGraph =>
    registerRoute sizeofHashRequest cache (handleGetFunctionIrGraph junk cache m messageId) data size
  | .saveBytecode => handleSaveBytecode junk cache m messageId data size
  | .getBytecode =>
    registerRoute sizeofHashRequest cache (handleGetBytecode junk cache m messageId) data size

/-- Bytes that the code does not determine: those of the mapping outside the fields of `SharedData`,
and what the storage of a response holds at first. -/
structure Env where
  pad : Mem
  junk : Mem

/-- `IPCRouter::dispatch_message` on the message in the slot. -/
def dispatchMessage (env : Env) (cache : Mem) (d : SharedData) : Option Outcome := do
  let m := image env.pad d
  let routeHash ← readString m (messageAddr + 4)
  match findRoute routeHash with
  | some route =>
    route.handle env.junk cache m d.currentMessageId payloadAddr (payloadSize m)
  | none => some (.quiet cache)

/-- The dispatch as the handler of the mailbox's server loop: the file and the response it passes to
`send_response`. -/
def serverHandle (env : Env) (cache : Mem) (d : SharedData) : Mem × Option (List UInt8) :=
  match dispatchMessage env cache d with
  | some out => (out.cache, out.replies.head?.map Reply.response)
  | none => (cache, none)

end CCache.Server
