import Bitmarkd.Lib.Table
import Bitmarkd.Storage
import Bitmarkd.TransactionRecord.Unpack

/-!
# The cache of unconfirmed assets

`asset/asset.go`. An asset waits in the cache until a block confirms it. The reservoir asks whether
an asset is known, and counts the issues that use a cached one.
-/

namespace Bitmarkd

open Lib

/-- `time.Time`, in nanoseconds from its zero. -/
abbrev Time := Nat

/-- `constants.ReservoirTimeout`: 45 minutes. -/
def reservoirTimeout : Nat := 45 * 60 * 1000000000

/-- `cacheData`: the use count. -/
structure CacheData where
  ttl : UInt64
deriving DecidableEq

/-- `globalData`: the cached assets. -/
structure AssetCache where
  cache : Table AssetIdentifier CacheData

namespace AssetCache

/-- `Exists`. -/
def exists? (v : View) (c : AssetCache) (assetId : AssetIdentifier) : Bool :=
  v.has .assets assetId.bytes || (c.cache.lookup assetId).isSome

/-- `IncrementTTL`. -/
def incrementTTL (c : AssetCache) (assetId : AssetIdentifier) : AssetCache :=
  match c.cache.lookup assetId with
  | none => c
  | some r => { c with cache := c.cache.insert assetId { r with ttl := r.ttl + 1 } }

end AssetCache

end Bitmarkd
