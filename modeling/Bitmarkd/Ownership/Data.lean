import Bitmarkd.Account
import Bitmarkd.Storage

/-!
# Owner data

`ownership/data.go`: the record that pool `OwnerData` keeps for the head of each provenance chain.
The three record types of the source share their first three fields; what differs is the owned
item.
-/

namespace Bitmarkd

open Lib

/-- `OwnedItem`, with the asset it belongs to. -/
inductive OwnedItem
  | asset (assetId : AssetIdentifier)
  | block
  | share (assetId : AssetIdentifier)
deriving DecidableEq

/-- `AssetOwnerData`, `BlockOwnerData` and `ShareOwnerData`. -/
@[ext] structure OwnerData where
  transferBlockNumber : UInt64
  issueTxId : Digest
  issueBlockNumber : UInt64
  item : OwnedItem
deriving DecidableEq

namespace OwnedItem

/-- The number of an item. -/
def code : OwnedItem → UInt8
  | .asset _ => 0
  | .block => 1
  | .share _ => 2

/-- The bytes after the issue block number. -/
def tail : OwnedItem → Bytes
  | .asset assetId => assetId.bytes
  | .block => []
  | .share assetId => assetId.bytes

end OwnedItem

namespace OwnerData

/-- `blockPackLength`. -/
def blockPackLength : Nat := 1 + 8 + 32 + 8

/-- `assetPackLength` and `sharePackLength`. -/
def assetPackLength : Nat := blockPackLength + 64

/-- `Pack`. -/
def pack (d : OwnerData) : Bytes :=
  d.item.code :: (be64 d.transferBlockNumber ++
    (d.issueTxId.bytes ++ (be64 d.issueBlockNumber ++ d.item.tail)))

/-- The three fields after the item code, with an item. -/
def unpackFields (rest : Bytes) (item : OwnedItem) : OwnerData :=
  ⟨ofBE64 rest, .ofSlice 32 (rest.drop 8), ofBE64 (rest.drop 40), item⟩

/-- `PackedOwnerData.Unpack`. -/
def unpack (packed : Bytes) : Except Stop OwnerData :=
  match packed with
  | [] => fault .notOwnerDataPack
  | item :: rest =>
    if item = 0 then
      if packed.length ≠ assetPackLength then fault .notOwnerDataPack
      else .ok (unpackFields rest (.asset (.ofSlice 64 (rest.drop 48))))
    else if item = 1 then
      if packed.length ≠ blockPackLength then fault .notOwnerDataPack
      else .ok (unpackFields rest .block)
    else if item = 2 then
      if packed.length ≠ assetPackLength then fault .notOwnerDataPack
      else .ok (unpackFields rest (.share (.ofSlice 64 (rest.drop 48))))
    else fault .notOwnerDataPack

/-- Owner data reads back as it was packed. -/
@[simp] theorem unpack_pack (d : OwnerData) : unpack d.pack = .ok d := by
  obtain ⟨tbn, issue, ibn, item⟩ := d
  have h8 (n : UInt64) (b : Bytes) : (be64 n ++ b).drop 8 = b := List.drop_left' (length_be64 n)
  have h40 (b : Bytes) : (be64 tbn ++ (issue.bytes ++ b)).drop 40 = b := by
    rw [← List.append_assoc]
    exact List.drop_left' (by simp)
  have h48 (b : Bytes) : (be64 tbn ++ (issue.bytes ++ (be64 ibn ++ b))).drop 48 = b := by
    rw [← List.append_assoc, ← List.append_assoc]
    exact List.drop_left' (by simp)
  cases item <;>
    simp [pack, unpack, OwnedItem.code, OwnedItem.tail, unpackFields, assetPackLength,
      blockPackLength, h8, h40, h48]

/-- The fields cover the bytes after the item code without gaps. -/
theorem pack_unpackFields {rest : Bytes} (h : 48 ≤ rest.length) (item : OwnedItem) :
    (unpackFields rest item).pack = item.code :: (rest.take 48 ++ item.tail) := by
  have hsplit : rest.take 48 =
      rest.take 8 ++ ((rest.drop 8).take 32 ++ (rest.drop 40).take 8) := by
    rw [show 48 = 8 + (32 + 8) from rfl, List.take_add, List.take_add, List.drop_drop]
  have hissue : 32 ≤ (rest.drop 8).length := by
    rw [List.length_drop]
    omega
  have hnumber : 8 ≤ (rest.drop 40).length := by
    rw [List.length_drop]
    omega
  rw [pack, unpackFields, be64_ofBE64_of_le (by omega), be64_ofBE64_of_le hnumber,
    bytes_ofSlice hissue, hsplit]
  simp only [List.append_assoc]

/-- The asset id is the rest of the bytes. -/
theorem take_append_assetId {rest : Bytes} (h : rest.length = 112) :
    rest.take 48 ++ (FixedBytes.ofSlice 64 (rest.drop 48)).bytes = rest := by
  have hlength : (rest.drop 48).length = 64 := by rw [List.length_drop, h]
  rw [bytes_ofSlice hlength.ge, List.take_of_length_le hlength.le, List.take_append_drop]

/-- What `Unpack` accepts is the packed form of the result. -/
theorem pack_of_unpack {b : Bytes} {d : OwnerData} (h : unpack b = .ok d) : d.pack = b := by
  cases b with
  | nil => cases h
  | cons item rest =>
    rw [unpack] at h
    split_ifs at h with hasset hlength hblock hlength hshare hlength
    · cases h
    · cases h
      have hrest : rest.length = 112 := by
        simpa [assetPackLength, blockPackLength] using hlength
      rw [pack_unpackFields (by omega), OwnedItem.tail, take_append_assetId hrest, hasset]
      rfl
    · cases h
    · cases h
      have hrest : rest.length = 48 := by simpa [blockPackLength] using hlength
      rw [pack_unpackFields (by omega), OwnedItem.tail, List.append_nil,
        List.take_of_length_le hrest.le, hblock]
      rfl
    · cases h
    · cases h
      have hrest : rest.length = 112 := by
        simpa [assetPackLength, blockPackLength] using hlength
      rw [pack_unpackFields (by omega), OwnedItem.tail, take_append_assetId hrest, hshare]
      rfl
    · cases h

/-- **The owner data codec.** Owner data of the three kinds reads back as it was packed, and bytes
that are read are the packed form of what they are read as. -/
theorem owner_data_codec :
    (∀ d : OwnerData, unpack d.pack = .ok d) ∧
      ∀ (b : Bytes) (d : OwnerData), unpack b = .ok d → d.pack = b :=
  ⟨unpack_pack, fun _ _ => pack_of_unpack⟩

end OwnerData

/-- `GetOwnerData`. -/
def getOwnerData (v : View) (txId : Digest) : Except Stop OwnerData :=
  match v.get .ownerData txId.bytes with
  | none => fault .missingOwnerData
  | some packed => OwnerData.unpack packed

/-- `GetOwnerDataB`: the tx id is bytes read from the database. -/
def getOwnerDataB (v : View) (txId : Bytes) : Except Stop OwnerData :=
  match v.get .ownerData txId with
  | none => fault .missingOwnerData
  | some packed => OwnerData.unpack packed

end Bitmarkd
