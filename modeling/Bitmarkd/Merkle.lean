import Bitmarkd.Account

/-!
# Merkle tree

`merkle/merkle.go`: all levels of the tree over the transaction ids, from the ids to the root. A
level of odd length pairs its last digest with itself.
-/

namespace Bitmarkd

open Lib

/-- The level above a level. -/
def merkleLevel (env : Env) : List Digest → List Digest
  | [] => []
  | [d] => [env.newDigest (d.bytes ++ d.bytes)]
  | d :: e :: rest => env.newDigest (d.bytes ++ e.bytes) :: merkleLevel env rest

/-- The levels from this one up, with at most `fuel` levels above it. -/
def fullMerkleTreeLoop (env : Env) : Nat → List Digest → List Digest
  | 0, level => level
  | fuel + 1, level =>
    if level.length > 1 then level ++ fullMerkleTreeLoop env fuel (merkleLevel env level)
    else level

/-- `FullMerkleTree`. -/
def fullMerkleTree (env : Env) (txIds : List Digest) : List Digest :=
  match txIds with
  | [] => [.zero 32]
  | _ :: _ => fullMerkleTreeLoop env txIds.length txIds

/-- The last digest of the tree. -/
def merkleRoot (env : Env) (txIds : List Digest) : Digest :=
  (fullMerkleTree env txIds).getLastD (.zero 32)

end Bitmarkd
