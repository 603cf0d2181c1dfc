/-
# CCache.Server.Router — the routes of the server and the map that finds their handlers.

`initialize_routes` registers eight routes under the hash strings of their paths; `dispatch_message`
looks the hash string of a message up.  The eight hash strings differ, so every route is found under
its own.
-/
import CCache.Server.Sha256
import CCache.Lib.CString

namespace CCache.Server

open CCache.Lib.CString

/-- The bytes of a string literal of the source. -/
def text (s : String) : List UInt8 := s.toUTF8.toList

/-- The routes that `initialize_routes` registers, by their handlers. -/
inductive Route where
  | createUser
  | getUser
  | deleteUser
  | addFunctionIrGraph
  | getFunctionIr
  | getFunctionIrGraph
  | saveBytecode
  | getBytecode
deriving DecidableEq, Repr

/-- The path of a route. -/
def Route.path : Route → List UInt8
  | .createUser => text "user/create"
  | .getUser => text "user/get"
  | .deleteUser => text "user/delete"
  | .addFunctionIrGraph => text "function/add_ir_graph"
  | .getFunctionIr => text "function/get_ir"
  | .getFunctionIrGraph => text "function/get_ir_graph"
  | .saveBytecode => text "bytecode/save"
  | .getBytecode => text "bytecode/get"

/-- `hash_route`. -/
def hashRoute (route : List UInt8) : List UInt8 := hash256HexString route

/-- `IPCRouter::routes` after `initialize_routes`, in the order of the registrations. -/
def routes : List (List UInt8 × Route) :=
  [.createUser, .getUser, .deleteUser, .addFunctionIrGraph, .getFunctionIr, .getFunctionIrGraph,
    .saveBytecode, .getBytecode].map fun r => (hashRoute r.path, r)

/-- `routes.find`: of two registrations under one hash the later stands. -/
def findRoute (hash : List UInt8) : Option Route :=
  (routes.reverse.find? fun entry => entry.1 = hash).map Prod.snd

/-- **No two routes collide.** A message with the hash of a route's path reaches that route. -/
theorem findRoute_hashRoute (r : Route) : findRoute (hashRoute r.path) = some r := by
  cases r <;> decide +kernel

/-- Only the hash string of its path finds a route. -/
theorem findRoute_eq_some {hash : List UInt8} {r : Route} (h : findRoute hash = some r) :
    hash = hashRoute r.path := by
  obtain ⟨entry, hfind, rfl⟩ := Option.map_eq_some_iff.mp h
  obtain ⟨route, -, hentry⟩ := List.mem_map.mp (List.mem_reverse.mp (List.mem_of_find?_eq_some hfind))
  have hhash := List.find?_some hfind
  rw [decide_eq_true_eq] at hhash
  rw [← hhash, ← hentry]

/-- The hash string of a path fits the 256-byte field of the header, whole and with its NUL. -/
theorem trunc_hashRoute (path : List UInt8) : trunc 255 (hashRoute path) = hashRoute path := by
  have hne : ∀ c ∈ hashRoute path, c ≠ 0 := fun c hc => hash256HexString_ne_zero hc
  have hlen : (hashRoute path).length = 64 := hash256HexString_length path
  rw [trunc, cstr, List.takeWhile_eq_self_iff.mpr (by simpa using hne),
    List.take_of_length_le (by omega)]

end CCache.Server
