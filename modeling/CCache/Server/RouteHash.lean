/-
# CCache.Server.RouteHash — what it takes to reach a route under another name.

The router knows a route by the hash string of its path only.  The string loses nothing of the digest,
and the digest of the iteration collides only where `hash256_block` does: a path that finds a route
is that route's path, or the two messages hold a collision of the block function, at a place that
hashing them shows.
-/
import CCache.Server.Sha256Refinement
import CCache.Server.Router

namespace CCache.Server

namespace Sha256

open CCache.Lib
open CCache.Lib.BlockHash (Collide)

theorem hexDigit_inj {m n : Nat} (hm : m < 16) (hn : n < 16) (h : hexDigit m = hexDigit n) : m = n := by
  have hval := congrArg UInt8.toNat h
  unfold hexDigit at hval
  rw [Sha2.toNat_toUInt8, Sha2.toNat_toUInt8] at hval
  split at hval
  all_goals
    split at hval
    all_goals omega

/-- The two characters of each byte give the byte back. -/
theorem outputHex_inj {bytes bytes' : List UInt8} (h : outputHex bytes = outputHex bytes') :
    bytes = bytes' := by
  induction bytes generalizing bytes' with
  | nil =>
    obtain - | ⟨b, bytes'⟩ := bytes'
    · rfl
    · cases h
  | cons b bytes ih =>
    obtain - | ⟨b', bytes'⟩ := bytes'
    · cases h
    · obtain ⟨hhigh, h⟩ := List.cons.inj h
      obtain ⟨hlow, h⟩ := List.cons.inj h
      have hb := b.toNat_lt
      have hb' := b'.toNat_lt
      have h1 := hexDigit_inj (by omega) (by omega) hhigh
      have h2 := hexDigit_inj (by omega) (by omega) hlow
      have heq : b = b' := UInt8.toNat_inj.mp (by omega)
      rw [heq, ih h]

/-- Equal digests are equal final chaining values of the header's own block function. -/
theorem foldl_of_hash256 {m m' : List UInt8} (h : hash256 m = hash256 m') :
    (Sha2.paddedBlocks m).foldl hash256Block initialMessageDigest
      = (Sha2.paddedBlocks m').foldl hash256Block initialMessageDigest := by
  have hfold : ∀ m : List UInt8, (Sha2.paddedBlocks m).foldl hash256Block initialMessageDigest
      = Words.ofVars ((Sha2.paddedBlocks m).foldl Sha2.compress Sha2.initial) := fun m => by
    rw [← chain_eq, BlockHash.absorb, BlockHash.absorbBlocks_eq_foldl, Sha2.paddedBlocks]
  rw [hash256_eq, hash256_eq] at h
  rw [hfold, hfold, Sha2.digest_inj h]

/-- **One hash string, two messages: a collision of the block function**, between a block of the one
and a block of the other. -/
theorem collision_of_hashString {m m' : List UInt8} (hm : 8 * m.length < 2 ^ 64)
    (hm' : 8 * m'.length < 2 ^ 64) (h : hash256HexString m = hash256HexString m') :
    m = m' ∨ Collide hash256Block initialMessageDigest (Sha2.paddedBlocks m)
      initialMessageDigest (Sha2.paddedBlocks m') := by
  by_cases heq : m = m'
  · exact Or.inl heq
  · exact Or.inr (Sha2.chain_collision hm hm' heq (foldl_of_hash256 (outputHex_inj h)))

end Sha256

open Sha256
open CCache.Lib
open CCache.Lib.BlockHash (Collide)

theorem Route.path_length_le (r : Route) : r.path.length ≤ 22 := by
  cases r <;> decide +kernel

/-- **A route is reached under its own path only**, short of a collision of `hash256_block` between a
block of the path that was hashed and a block of the route's. -/
theorem findRoute_path {path : List UInt8} (hlen : 8 * path.length < 2 ^ 64) {r : Route}
    (h : findRoute (hashRoute path) = some r) :
    path = r.path ∨ Collide hash256Block initialMessageDigest (Sha2.paddedBlocks path)
      initialMessageDigest (Sha2.paddedBlocks r.path) := by
  have hr := r.path_length_le
  exact collision_of_hashString hlen (by omega) (findRoute_eq_some h)

/-- A route is reached under its own path. -/
theorem findRoute_path_getBytecode :
    8 * Route.getBytecode.path.length < 2 ^ 64 ∧
      findRoute (hashRoute Route.getBytecode.path) = some .getBytecode ∧
      (Route.getBytecode.path = Route.getBytecode.path ∨
        Collide hash256Block initialMessageDigest (Sha2.paddedBlocks Route.getBytecode.path)
          initialMessageDigest (Sha2.paddedBlocks Route.getBytecode.path)) := by
  have hlen : 8 * Route.getBytecode.path.length < 2 ^ 64 := by decide +kernel
  have hroute := findRoute_hashRoute .getBytecode
  exact ⟨hlen, hroute, findRoute_path hlen hroute⟩

end CCache.Server
