import Bitmarkd.Ledger.Reachable
import Bitmarkd.Lib.Table
import Bitmarkd.Rpc.Owner

/-!
# The provenance of a bitmark

The RPC `Bitmark.FullProvenance`. It looks through pool `OwnerData` for the head of a bitmark, goes
from there along the links to the issue, and adds the asset with its metadata as a map.

**The chain.** The ledger invariant has the head lead back to its issue over ever earlier blocks, so
the loop ends there (`provenanceLoop_spec`), and only the head is marked as owned.

**The metadata.** It is a list of keys and values with NUL between them. Empty metadata are accepted
with every asset; split at NUL they are one key without a value, and the RPC panics
(`Sample.fullProvenance_panics`). A key may come twice, and then only its last value is in the map.
These, and an asset that is no longer in the database, are the only ways to fail
(`full_provenance_iff`).
-/

namespace Bitmarkd

open Lib Lib.Provenance

/-! ## The code -/

/-- `FullProvenanceRecord`. -/
structure FullProvenanceRecord where
  record : String
  isOwner : Bool
  txId : Option Digest
  inBlock : UInt64
  assetId : Option AssetIdentifier
  data : Transaction
  metadata : Option (Table Bytes Bytes)

/-- The elements that the iterator of `Map` goes through. -/
def FetchCursor.elements (db : Database) (cursor : FetchCursor) : List Element :=
  let keys := db.range cursor.start cursor.pool.limit
  iterating db keys.card keys

/-- `Map`, with a function that may end the iteration with a result. -/
def mapElements {α : Type} (f : Element → Except Stop (Option α)) :
    List Element → Except Stop (Option α)
  | [] => .ok none
  | item :: items => do
    match ← f item with
    | some x => return some x
    | none => mapElements f items

/-- The function that `FullProvenance` maps over the owner data. -/
def ofBitmark (bitmarkId : Digest) (item : Element) : Except Stop (Option Digest) :=
  if item.value.length < 9 + 32 then panicAt .indexOutOfRange
  else if bitmarkId.bytes = (item.value.drop 9).take 32 then .ok (some (.ofSlice 32 item.key))
  else .ok none

/-- The loop over the parts of the metadata. -/
def metamapLoop : List Bytes → Table Bytes Bytes → Except Stop (Table Bytes Bytes)
  | [], metamap => .ok metamap
  | [_], _ => panicAt .indexOutOfRange
  | key :: value :: parts, metamap => metamapLoop parts (metamap.insert key value)

/-- What follows an issue: its asset. -/
def assetProvenance (env : Env) (v : View) (assetId : AssetIdentifier) :
    Except Stop (List FullProvenanceRecord) := do
  match ← v.getNB .assets assetId.bytes with
  | none => return []
  | some (inBlock, packedAsset) =>
    match unpack env packedAsset env.isTesting with
    | .error _ => return []
    | .ok (.assetData asset, _) =>
      let metamap ← metamapLoop (asset.metadata.splitOn 0) ∅
      return [⟨recordName (.assetData asset), false, none, inBlock, some assetId, .assetData asset,
        some metamap⟩]
    | .ok _ => panicAt .interfaceConversion

/-- The switch of `FullProvenance` on a record; `isFirst` is `i == 0`, and `rest` is the loop from
the next tx id on. -/
def provenanceStep (env : Env) (v : View) (rest : Digest → Except Stop (List FullProvenanceRecord))
    (isFirst : Bool) (id : Digest) (inBlock : UInt64) (transaction : Transaction) :
    Except Stop (List FullProvenanceRecord) := do
  let h (isOwner : Bool) : FullProvenanceRecord :=
    ⟨recordName transaction, isOwner, some id, inBlock, none, transaction, none⟩
  let owned (owner : Account) : Bool := isFirst && currentlyOwns v owner id
  match transaction with
  | .oldBaseData tx => return [h (owned tx.owner)]
  | .blockFoundation tx => return [h (owned tx.owner)]
  | .bitmarkIssue tx => return h (owned tx.owner) :: (← assetProvenance env v tx.assetId)
  | .bitmarkTransferUnratified tx => return h (owned tx.owner) :: (← rest tx.link)
  | .bitmarkTransferCountersigned tx => return h (owned tx.owner) :: (← rest tx.link)
  | .blockOwnerTransfer tx => return h (owned tx.owner) :: (← rest tx.link)
  -- a share terminates a provenance chain, so it is always the owner
  | .bitmarkShare tx => return h true :: (← rest tx.link)
  | .assetData _ | .shareGrant _ | .shareSwap _ => return []

/-- The loop of `FullProvenance`. -/
def provenanceLoop (env : Env) (v : View) :
    ℕ → Bool → Digest → Except Stop (List FullProvenanceRecord)
  | 0, _, _ => .error .outOfSteps
  | turns + 1, isFirst, id => do
    match ← v.getNB .transactions id.bytes with
    | none => return []
    | some (inBlock, packed) =>
      match unpack env packed env.isTesting with
      | .error _ => return []
      | .ok (transaction, _) =>
        provenanceStep env v (provenanceLoop env v turns false) isFirst id inBlock transaction

/-- `Bitmark.FullProvenance`, with at most `turns` turns of its loop. -/
def fullProvenance (env : Env) (db : Database) (bitmarkId : Digest) (turns : ℕ) :
    Except Stop (List FullProvenanceRecord) := do
  limitN 1 1
  match ← mapElements (ofBitmark bitmarkId) ((newFetchCursor .ownerData).elements db) with
  | none => fault .transactionIsNotAnIssue
  | some id => provenanceLoop env db.view turns true id

/-! ## What should be returned -/

/-- The records from a tx id along the links back to the issue `b`, with their block numbers. -/
inductive ChainTo (env : Env) (v : View) (b : Digest) :
    Digest → List (Digest × ℕ × Transaction) → Prop
  | issue {n : ℕ} {tx : BitmarkIssue} : v.record env b = some (n, .bitmarkIssue tx) →
      ChainTo env v b b [(b, n, .bitmarkIssue tx)]
  | link {t l : Digest} {n : ℕ} {r : Transaction} {rest : List (Digest × ℕ × Transaction)} :
      v.record env t = some (n, r) → r.link? = some l → ChainTo env v b l rest →
      ChainTo env v b t ((t, n, r) :: rest)

/-- The record of the reply for a record of the chain. -/
def ShowsRecord (isOwner : Bool) (x : Digest × ℕ × Transaction) (r : FullProvenanceRecord) : Prop :=
  ∃ inBlock : UInt64, x.2.1 = inBlock.toNat ∧
    r = ⟨recordName x.2.2, isOwner, some x.1, inBlock, none, x.2.2, none⟩

/-- The keys and values of metadata. -/
def keyValues {α : Type} : List α → List (α × α)
  | key :: value :: rest => (key, value) :: keyValues rest
  | _ => []

/-- The keys and values of an asset; there are none if the metadata are empty. -/
def AssetData.keyValues (asset : AssetData) : List (Bytes × Bytes) :=
  if asset.metadata = [] then [] else Bitmarkd.keyValues (asset.metadata.splitOn 0)

/-- The asset stored under an id. -/
def View.assetRecord (env : Env) (v : View) (assetId : AssetIdentifier) :
    Option (UInt64 × AssetData) :=
  match v.getNB .assets assetId.bytes with
  | .ok (some (inBlock, packed)) =>
    match unpack env packed env.isTesting with
    | .ok (.assetData asset, _) => some (inBlock, asset)
    | _ => none
  | _ => none

/-- The record of the reply for an asset, with all keys and values. -/
def ShowsAsset (env : Env) (v : View) (assetId : AssetIdentifier)
    (r : FullProvenanceRecord) : Prop :=
  ∃ inBlock asset metamap, v.assetRecord env assetId = some (inBlock, asset) ∧
    r = ⟨recordName (.assetData asset), false, none, inBlock, some assetId, .assetData asset,
      some metamap⟩ ∧
    ∀ key value, metamap.lookup key = some value ↔ (key, value) ∈ asset.keyValues

/-- The reply is the provenance of the bitmark, from a head of it back to its issue, and its asset.
-/
def IsFullProvenance (env : Env) (v : View) (b : Digest) (assetId : AssetIdentifier)
    (reply : List FullProvenanceRecord) : Prop :=
  ∃ h d x chain r rs ra, getOwnerData v h = .ok d ∧ d.issueTxId = b ∧
    ChainTo env v b h (x :: chain) ∧ reply = r :: rs ++ [ra] ∧
    ShowsRecord true x r ∧ List.Forall₂ (ShowsRecord false) chain rs ∧ ShowsAsset env v assetId ra

/-! ## Looking for the head -/

section

variable {env : Env} {K : Set Bytes} {db : Database} {v : View} {p : Pool} {b t : Digest}

theorem elements_newFetchCursor (db : Database) (p : Pool) :
    ∃ l, Lists db p ([] ≤ ·) l ∧ (newFetchCursor p).elements db = l := by
  obtain ⟨l, hl⟩ := exists_lists db p []
  refine ⟨l, hl, ?_⟩
  have hstart : (newFetchCursor p).start = prefixKey p [] := rfl
  have hpool : (newFetchCursor p).pool = p := rfl
  rw [FetchCursor.elements, hstart, hpool, hl.iterating]
  -- the keys of the elements are among the keys of the range
  have hnodup : (l.map fun e => prefixKey p e.key).Nodup :=
    List.pairwise_map.mpr (hl.ascending.imp fun hlt heq =>
      (ne_of_lt hlt) (prefixKey_inj.mp heq).2)
  have hsub : (l.map fun e => prefixKey p e.key).toFinset ⊆ db.range (prefixKey p []) p.limit := by
    intro k hk
    obtain ⟨e, he, rfl⟩ := List.mem_map.mp (List.mem_toFinset.mp hk)
    obtain ⟨hvalue, hle⟩ := (hl.mem e).mp he
    exact mem_range.mpr ⟨e.key, rfl, by rw [hvalue]; rfl, hle⟩
  have hcard := Finset.card_le_card hsub
  rw [List.toFinset_card_of_nodup hnodup, List.length_map] at hcard
  exact List.take_of_length_le hcard

theorem mapElements_eq {α : Type} {f : Element → Except Stop (Option α)} {g : Element → Option α}
    {l : List Element} (h : ∀ e ∈ l, f e = .ok (g e)) : mapElements f l = .ok (l.findSome? g) := by
  induction l with
  | nil => rfl
  | cons e l ih =>
    have hl := ih fun x hx => h x (List.mem_cons_of_mem _ hx)
    rw [mapElements, h e List.mem_cons_self, List.findSome?_cons]
    cases hg : g e with
    | none => exact hl
    | some x => rfl

/-- The issue of owner data stands behind the item code and a block number. -/
theorem OwnerData.issueTxId_pack (d : OwnerData) :
    9 + 32 ≤ d.pack.length ∧ (d.pack.drop 9).take 32 = d.issueTxId.bytes := by
  have hdrop : d.pack.drop 9 =
      d.issueTxId.bytes ++ (be64 d.issueBlockNumber ++ d.item.tail) := by
    rw [pack, List.drop_succ_cons]
    exact List.drop_left' (length_be64 _)
  refine ⟨?_, ?_⟩
  · simp only [pack, List.length_cons, List.length_append, length_be64, FixedBytes.length_bytes]
    omega
  · rw [hdrop]
    exact List.take_left' d.issueTxId.length_eq

/-- The owner data under a tx id, in a well-formed database. -/
theorem WellFormed.getOwnerData_eq_ok (hwf : WellFormed env K v) {d : OwnerData} :
    getOwnerData v t = .ok d ↔ v.get .ownerData t.bytes = some d.pack := by
  unfold getOwnerData
  constructor
  · intro h
    split at h
    · cases h
    next packed hget =>
      obtain ⟨t', d', -, rfl⟩ := hwf hget
      rw [OwnerData.unpack_pack] at h
      cases h
      exact hget
  · intro hget
    rw [hget]
    exact OwnerData.unpack_pack d

/-- **The scan** finds a head of the bitmark if it has one. -/
theorem mapElements_ofBitmark (hwf : WellFormed env K db.view) {h : Digest} {d : OwnerData}
    (hhead : getOwnerData db.view h = .ok d) (hd : d.issueTxId = b) :
    ∃ t d', mapElements (ofBitmark b) ((newFetchCursor .ownerData).elements db) = .ok (some t) ∧
      getOwnerData db.view t = .ok d' ∧ d'.issueTxId = b := by
  obtain ⟨l, hl, helements⟩ := elements_newFetchCursor db .ownerData
  let found (e : Element) : Option Digest :=
    if b.bytes = (e.value.drop 9).take 32 then some (.ofSlice 32 e.key) else none
  have hvalid : ∀ e ∈ l, ∃ t d', e.key = t.bytes ∧ e.value = d'.pack ∧
      getOwnerData db.view t = .ok d' := by
    intro e he
    have hget : db.view.get .ownerData e.key = some e.value := ((hl.mem e).mp he).1
    obtain ⟨t, d', hkey, hvalue⟩ := hwf hget
    rw [hkey, hvalue] at hget
    exact ⟨t, d', hkey, hvalue, hwf.getOwnerData_eq_ok.mpr hget⟩
  have hfound : ∀ e ∈ l, ofBitmark b e = .ok (found e) := by
    intro e he
    obtain ⟨t, d', -, hvalue, -⟩ := hvalid e he
    have hlength := d'.issueTxId_pack.1
    rw [ofBitmark, if_neg (by rw [hvalue]; omega)]
    exact (apply_ite Except.ok _ _ _).symm
  rw [helements, mapElements_eq hfound]
  have hmem : (⟨h.bytes, d.pack⟩ : Element) ∈ l :=
    (hl.mem _).mpr ⟨hwf.getOwnerData_eq_ok.mp hhead, not_lt.mp (List.not_lt_nil _)⟩
  have hsome : (l.findSome? found).isSome := by
    rw [List.findSome?_isSome_iff]
    refine ⟨_, hmem, ?_⟩
    dsimp only [found]
    rw [d.issueTxId_pack.2, hd, if_pos rfl]
    rfl
  obtain ⟨t, ht⟩ := Option.isSome_iff_exists.mp hsome
  obtain ⟨e, he, hte⟩ := List.exists_of_findSome?_eq_some ht
  obtain ⟨t', d', hkey, hvalue, hdata⟩ := hvalid e he
  obtain ⟨hb, htt⟩ := Option.ite_none_right_eq_some.mp hte
  rw [hkey, FixedBytes.ofSlice_bytes] at htt
  obtain rfl := Option.some.inj htt
  rw [hvalue, d'.issueTxId_pack.2] at hb
  exact ⟨t', d', by rw [ht], hdata, (FixedBytes.bytes_inj.mp hb).symm⟩

/-! ## The metadata -/

theorem metamapLoop_even {parts : List Bytes} (h : parts.length % 2 = 0)
    (metamap : Table Bytes Bytes) :
    metamapLoop parts metamap =
      .ok ((keyValues parts).foldl (fun m x => m.insert x.1 x.2) metamap) := by
  induction parts, metamap using metamapLoop.induct with
  | case1 metamap => rfl
  | case2 part metamap => exact absurd h Nat.one_ne_zero
  | case3 key value parts metamap ih =>
    rw [List.length_cons, List.length_cons] at h
    rw [metamapLoop, ih (by omega), keyValues, List.foldl_cons]

theorem lookup_foldl_insert {ps : List (Bytes × Bytes)} {m : Table Bytes Bytes} {k w : Bytes} :
    (ps.foldl (fun m x => m.insert x.1 x.2) m).lookup k = some w →
      (k, w) ∈ ps ∨ (∀ x ∈ ps, x.1 ≠ k) ∧ m.lookup k = some w := by
  induction ps generalizing m with
  | nil => exact fun h => Or.inr ⟨fun x hx => (nomatch hx), h⟩
  | cons x ps ih =>
    intro h
    rcases ih h with hmem | ⟨hne, hlookup⟩
    · exact Or.inl (List.mem_cons_of_mem _ hmem)
    rw [Table.lookup_insert] at hlookup
    by_cases hk : k = x.1
    · rw [if_pos hk] at hlookup
      obtain rfl := Option.some.inj hlookup
      rw [hk]
      exact Or.inl List.mem_cons_self
    · rw [if_neg hk] at hlookup
      refine Or.inr ⟨fun y hy => ?_, hlookup⟩
      rcases List.mem_cons.mp hy with rfl | hy
      · exact fun heq => hk heq.symm
      · exact hne y hy

theorem isSome_lookup_foldl_insert {ps : List (Bytes × Bytes)} {m : Table Bytes Bytes} {k : Bytes}
    (h : (∃ w, (k, w) ∈ ps) ∨ (m.lookup k).isSome) :
    ((ps.foldl (fun m x => m.insert x.1 x.2) m).lookup k).isSome := by
  induction ps generalizing m with
  | nil => exact h.resolve_left fun ⟨w, hw⟩ => (nomatch hw)
  | cons x ps ih =>
    refine ih ?_
    rw [Table.lookup_insert]
    rcases h with ⟨w, hw⟩ | h
    · rcases List.mem_cons.mp hw with rfl | hw
      · exact Or.inr (by simp)
      · exact Or.inl ⟨w, hw⟩
    · refine Or.inr ?_
      split
      · rfl
      · exact h

/-- The map has all values just when no key has two. -/
theorem lookup_metamap_iff (ps : List (Bytes × Bytes)) :
    (∀ k w, (ps.foldl (fun m x => m.insert x.1 x.2) ∅ : Table Bytes Bytes).lookup k = some w ↔
        (k, w) ∈ ps) ↔
      ∀ k w w', (k, w) ∈ ps → (k, w') ∈ ps → w = w' := by
  constructor
  · intro h k w w' hw hw'
    exact Option.some.inj (((h k w).mpr hw).symm.trans ((h k w').mpr hw'))
  · intro h k w
    have hmem {u : Bytes} (hu : (ps.foldl (fun m x => m.insert x.1 x.2) ∅ :
        Table Bytes Bytes).lookup k = some u) : (k, u) ∈ ps :=
      (lookup_foldl_insert hu).resolve_right fun ⟨_, hempty⟩ => (nomatch hempty)
    refine ⟨hmem, fun hw => ?_⟩
    obtain ⟨u, hu⟩ := Option.isSome_iff_exists.mp
      (isSome_lookup_foldl_insert (m := ∅) (Or.inl ⟨w, hw⟩))
    rw [hu, h k u w (hmem hu) hw]

/-! ## What the decoder accepts -/

/-- A record of an asset has passed the check of its metadata. -/
def Transaction.MetadataChecked : Transaction → Prop
  | .assetData asset => checkMetadata asset.metadata = .ok ()
  | _ => True

theorem unpackFields_metadataChecked (env : Env) (testnet : Bool) (tag : Tag) :
    Reader.Yields Transaction.MetadataChecked (unpackFields env testnet tag) := by
  cases tag with
  | assetData =>
    refine .bind fun _ => .bind fun _ => .bind fun _ => .bind fun _ => .bind fun _ =>
      .checked fun a ha => ?_
    -- the check of the metadata is the last one
    obtain ⟨⟨⟩, -, h⟩ := bind_eq_ok.mp ha
    obtain ⟨⟨⟩, -, h⟩ := bind_eq_ok.mp h
    obtain ⟨⟨⟩, -, h⟩ := bind_eq_ok.mp h
    obtain ⟨⟨⟩, -, h⟩ := bind_eq_ok.mp h
    obtain ⟨⟨⟩, -, h⟩ := bind_eq_ok.mp h
    obtain ⟨⟨⟩, -, h⟩ := bind_eq_ok.mp h
    exact h
  | _ => repeat' first | exact Reader.Yields.pure trivial | refine Reader.Yields.bind fun _ => ?_

/-- The metadata of an asset that can be unpacked are empty, or keys and values. -/
theorem even_of_unpack {packed : Bytes} {asset : AssetData} {n : ℕ}
    (h : unpack env packed env.isTesting = .ok (.assetData asset, n)) (hne : asset.metadata ≠ []) :
    (asset.metadata.splitOn 0).length % 2 = 0 := by
  unfold unpack at h
  split at h
  next tx rest hbody =>
    cases h
    obtain ⟨recordType, mid, -, hfields⟩ := Reader.bind_eq_ok.mp hbody
    have hcheck : checkMetadata asset.metadata = .ok () := by
      cases htag : Tag.ofValue? recordType with
      | none =>
        rw [htag] at hfields
        cases hfields
      | some tag =>
        rw [htag] at hfields
        exact unpackFields_metadataChecked env _ tag hfields
    rw [checkMetadata, if_neg hne] at hcheck
    dsimp only at hcheck
    split at hcheck
    · cases hcheck
    · omega
  all_goals cases h

/-! ## The asset -/

variable {assetId : AssetIdentifier}

theorem assetProvenance_of_none (h : v.assetRecord env assetId = none)
    {rs : List FullProvenanceRecord} (hrs : assetProvenance env v assetId = .ok rs) : rs = [] := by
  obtain ⟨stored, hget, hrs⟩ := bind_eq_ok.mp hrs
  rw [View.assetRecord, hget] at h
  cases stored with
  | none =>
    cases hrs
    rfl
  | some x =>
    obtain ⟨inBlock, packed⟩ := x
    dsimp only at h hrs
    split at hrs
    · cases hrs
      rfl
    next asset n hu =>
      rw [hu] at h
      cases h
    · cases hrs

theorem assetProvenance_of_some {inBlock : UInt64} {asset : AssetData}
    (h : v.assetRecord env assetId = some (inBlock, asset)) :
    assetProvenance env v assetId = (do
      let metamap ← metamapLoop (asset.metadata.splitOn 0) ∅
      return [⟨recordName (.assetData asset), false, none, inBlock, some assetId,
        .assetData asset, some metamap⟩]) ∧
    (asset.metadata ≠ [] → (asset.metadata.splitOn 0).length % 2 = 0) := by
  unfold View.assetRecord at h
  split at h
  next inBlock' packed hget =>
    split at h
    next asset' n hu =>
      cases h
      refine ⟨?_, even_of_unpack hu⟩
      rw [assetProvenance, hget]
      change (match unpack env packed env.isTesting with
        | .error _ => _
        | .ok (.assetData asset, _) => _
        | .ok _ => _) = _
      rw [hu]
    · cases h
  · cases h

/-- Empty metadata are a panic. -/
theorem assetProvenance_of_metadata_nil {inBlock : UInt64} {asset : AssetData}
    (h : v.assetRecord env assetId = some (inBlock, asset)) (hnil : asset.metadata = []) :
    assetProvenance env v assetId = panicAt .indexOutOfRange := by
  rw [(assetProvenance_of_some h).1, hnil]
  rfl

/-- **The asset is shown** just when it is there, its metadata are not empty, and no key has two
values. -/
theorem assetProvenance_iff (env : Env) (v : View) (assetId : AssetIdentifier) :
    (∃ ra, assetProvenance env v assetId = .ok [ra] ∧ ShowsAsset env v assetId ra) ↔
      ∃ inBlock asset, v.assetRecord env assetId = some (inBlock, asset) ∧ asset.metadata ≠ [] ∧
        ∀ key value value', (key, value) ∈ asset.keyValues → (key, value') ∈ asset.keyValues →
          value = value' := by
  constructor
  · rintro ⟨ra, hrun, inBlock, asset, metamap, hasset, rfl, hmap⟩
    obtain ⟨heq, heven⟩ := assetProvenance_of_some hasset
    rw [heq] at hrun
    obtain ⟨metamap', hloop, hra⟩ := bind_eq_ok.mp hrun
    cases hra
    have hne : asset.metadata ≠ [] := by
      intro hnil
      rw [hnil] at hloop
      cases hloop
    refine ⟨inBlock, asset, hasset, hne, ?_⟩
    rw [metamapLoop_even (heven hne)] at hloop
    rw [← Except.ok.inj hloop] at hmap
    rw [AssetData.keyValues, if_neg hne] at hmap ⊢
    exact (lookup_metamap_iff _).mp hmap
  · rintro ⟨inBlock, asset, hasset, hne, hkeys⟩
    obtain ⟨heq, heven⟩ := assetProvenance_of_some hasset
    rw [heq, metamapLoop_even (heven hne)]
    refine ⟨_, rfl, inBlock, asset, _, hasset, rfl, ?_⟩
    rw [AssetData.keyValues, if_neg hne] at hkeys ⊢
    exact (lookup_metamap_iff _).mpr hkeys

/-- What is returned for the asset, if anything. -/
theorem assetProvenance_eq_ok {rs : List FullProvenanceRecord}
    (h : assetProvenance env v assetId = .ok rs) : rs = [] ∨ ∃ ra, rs = [ra] := by
  cases hasset : v.assetRecord env assetId with
  | none => exact Or.inl (assetProvenance_of_none hasset h)
  | some x =>
    rw [(assetProvenance_of_some hasset).1] at h
    obtain ⟨metamap, -, hrs⟩ := bind_eq_ok.mp h
    cases hrs
    exact Or.inr ⟨_, rfl⟩

/-! ## The chain -/

/-- The flag of a record that the loop appends. -/
def ownerFlag (v : View) (isFirst : Bool) (id : Digest) (r : Transaction) : Bool :=
  match r.holder? with
  | none => true
  | some owner => isFirst && currentlyOwns v owner id

theorem provenanceStep_link {rest : Digest → Except Stop (List FullProvenanceRecord)}
    {isFirst : Bool} {inBlock : UInt64} {r : Transaction} {l : Digest} (hl : r.link? = some l) :
    provenanceStep env v rest isFirst t inBlock r = (do
      let rs ← rest l
      return ⟨recordName r, ownerFlag v isFirst t r, some t, inBlock, none, r, none⟩ :: rs) := by
  cases r <;> cases hl <;> rfl

theorem provenanceStep_issue {rest : Digest → Except Stop (List FullProvenanceRecord)}
    {isFirst : Bool} {inBlock : UInt64} {tx : BitmarkIssue} :
    provenanceStep env v rest isFirst t inBlock (.bitmarkIssue tx) = (do
      let asset ← assetProvenance env v tx.assetId
      return ⟨recordName (.bitmarkIssue tx), ownerFlag v isFirst t (.bitmarkIssue tx), some t,
        inBlock, none, .bitmarkIssue tx, none⟩ :: asset) := rfl

theorem provenanceLoop_succ (hwf : WellFormed env K v) {n : ℕ} {r : Transaction}
    (hrecord : v.record env t = some (n, r)) : ∃ inBlock : UInt64, n = inBlock.toNat ∧
      ∀ turns isFirst, provenanceLoop env v (turns + 1) isFirst t =
        provenanceStep env v (provenanceLoop env v turns false) isFirst t inBlock r := by
  obtain ⟨inBlock, packed, hget, rfl, hstored⟩ := hwf.record_eq_some.mp hrecord
  obtain ⟨len, hu⟩ := hstored.unpack_eq
  refine ⟨inBlock, rfl, fun turns isFirst => ?_⟩
  rw [provenanceLoop, hwf.getNB_transactions hget]
  change (match unpack env packed env.isTesting with | .error _ => _ | .ok (_, _) => _) = _
  rw [hu]

/-- **The loop** returns the records of the chain and what follows its issue. -/
theorem provenanceLoop_spec (hwf : WellFormed env K v) {m : ℕ}
    (hinv : ownershipScheme.Inv (v.ledger env) m) {n : ℕ} {tx : BitmarkIssue}
    (hissue : v.record env b = some (n, .bitmarkIssue tx))
    {chain : List (Digest × ℕ × Transaction)} (hchain : ChainTo env v b t chain)
    (isFirst : Bool) :
    ∃ x xs r rs, chain = x :: xs ∧ v.record env t = some x.2 ∧
      ShowsRecord (ownerFlag v isFirst t x.2.2) x r ∧ List.Forall₂ (ShowsRecord false) xs rs ∧
      ∀ turns reply, provenanceLoop env v turns isFirst t = .ok reply ↔
        chain.length ≤ turns ∧ ∃ asset, assetProvenance env v tx.assetId = .ok asset ∧
          reply = r :: rs ++ asset := by
  induction hchain generalizing isFirst with
  | issue hrecord =>
    obtain ⟨rfl, htx⟩ := Prod.mk.inj (Option.some.inj (hissue.symm.trans hrecord))
    cases htx
    obtain ⟨inBlock, hn, hloop⟩ := provenanceLoop_succ hwf hrecord
    refine ⟨_, [], _, [], rfl, hrecord, ⟨inBlock, hn, rfl⟩, .nil, fun turns reply => ?_⟩
    cases turns with
    | zero => simp [provenanceLoop]
    | succ turns =>
      rw [hloop, provenanceStep_issue, bind_eq_ok]
      constructor
      · rintro ⟨asset, hasset, hreply⟩
        cases hreply
        exact ⟨Nat.succ_le_succ (Nat.zero_le _), asset, hasset, rfl⟩
      · rintro ⟨-, asset, hasset, rfl⟩
        exact ⟨asset, hasset, rfl⟩
  | @link t l n r rest hrecord hl hrest ih =>
    obtain ⟨x, xs, r', rs, rfl, hx, hshows, hrs, hih⟩ := ih false
    obtain ⟨inBlock, hn, hloop⟩ := provenanceLoop_succ hwf hrecord
    -- a record that is linked to names an owner, so it is not marked
    have hflag : ownerFlag v false l x.2.2 = false := by
      have hfollows := (hinv.linked_lt hrecord hl hx).2
      obtain ⟨o, ho⟩ := Option.ne_none_iff_exists'.mp (ownershipScheme.holder_of_follows hfollows)
      rw [ownerFlag, show x.2.2.holder? = some o from ho]
      rfl
    rw [hflag] at hshows
    refine ⟨_, _, _, r' :: rs, rfl, hrecord, ⟨inBlock, hn, rfl⟩, .cons hshows hrs,
      fun turns reply => ?_⟩
    cases turns with
    | zero => simp [provenanceLoop]
    | succ turns =>
      rw [hloop, provenanceStep_link hl, bind_eq_ok]
      constructor
      · rintro ⟨reply', hrun, hreply⟩
        cases hreply
        obtain ⟨hle, asset, hasset, rfl⟩ := (hih turns reply').mp hrun
        exact ⟨Nat.succ_le_succ hle, asset, hasset, rfl⟩
      · rintro ⟨hle, asset, hasset, rfl⟩
        exact ⟨_, (hih turns _).mpr ⟨Nat.le_of_succ_le_succ hle, asset, hasset, rfl⟩, rfl⟩

/-- A head leads back to its issue. -/
theorem exists_chainTo {n : ℕ} {tx : BitmarkIssue}
    (hissue : v.record env b = some (n, .bitmarkIssue tx))
    (hroot : ownershipScheme.Root (v.ledger env) t b) : ∃ chain, ChainTo env v b t chain := by
  induction hroot with
  | base hentry hlink => exact ⟨_, .issue hissue⟩
  | step hentry hlink _ ih =>
    obtain ⟨chain, hchain⟩ := ih hissue
    exact ⟨_, .link hentry hlink hchain⟩

/-- The head is marked as owned. -/
theorem ownerFlag_head {m n : ℕ} {r : Transaction} {d : OwnerData}
    (hinv : ownershipScheme.Inv (v.ledger env) m) (hhead : getOwnerData v t = .ok d)
    (hrecord : v.record env t = some (n, r)) (hn : n < m) : ownerFlag v true t r = true := by
  obtain ⟨o, howner, howns⟩ := hinv.head_owned (View.head_eq_some.mpr hhead) hrecord hn
  have howns : currentlyOwns v o t = true := howns
  rw [ownerFlag]
  rcases howner with hholder | ⟨hholder, -⟩
  · rw [show r.holder? = some o from hholder]
    exact howns
  · rw [show r.holder? = none from hholder]

theorem ShowsRecord.txId_ne_none {flag : Bool} {x : Digest × ℕ × Transaction}
    {r : FullProvenanceRecord} (h : ShowsRecord flag x r) : r.txId ≠ none := by
  obtain ⟨inBlock, -, rfl⟩ := h
  exact Option.some_ne_none _

theorem txId_ne_none_of_forall₂ {flag : Bool} {xs : List (Digest × ℕ × Transaction)}
    {rs : List FullProvenanceRecord} (h : List.Forall₂ (ShowsRecord flag) xs rs) :
    ∀ r ∈ rs, r.txId ≠ none := by
  induction h with
  | nil => exact fun r hr => (nomatch hr)
  | cons hr _ ih => exact List.forall_mem_cons.mpr ⟨hr.txId_ne_none, ih⟩

/-- The reply ends with the asset. -/
theorem IsFullProvenance.asset {x : Digest × ℕ × Transaction} {xs : List (Digest × ℕ × Transaction)}
    {r : FullProvenanceRecord} {rs asset : List FullProvenanceRecord} {flag : Bool}
    (h : IsFullProvenance env v b assetId (r :: rs ++ asset)) (hr : ShowsRecord flag x r)
    (hrs : List.Forall₂ (ShowsRecord false) xs rs) (hasset : asset = [] ∨ ∃ ra, asset = [ra]) :
    ∃ ra, asset = [ra] ∧ ShowsAsset env v assetId ra := by
  obtain ⟨-, -, -, -, r', rs', ra, -, -, -, heq, -, -, hra⟩ := h
  rcases hasset with rfl | ⟨ra', rfl⟩
  · -- the last record would be one of the chain, which has a tx id
    rw [List.append_nil] at heq
    have hmem : ra ∈ r :: rs := by
      rw [heq]
      exact List.mem_append_right _ List.mem_cons_self
    obtain ⟨inBlock, asset, metamap, -, rfl, -⟩ := hra
    rcases List.mem_cons.mp hmem with rfl | hmem
    · exact absurd rfl hr.txId_ne_none
    · exact absurd rfl (txId_ne_none_of_forall₂ hrs _ hmem)
  · obtain ⟨-, hlast⟩ := List.append_inj' heq rfl
    cases hlast
    exact ⟨ra, rfl, hra⟩

/-- **Full provenance.** A bitmark that is issued and has a head gets its full provenance just when
its asset is in the database with metadata that are not empty, in which no key has two values. -/
theorem full_provenance_iff {trace : List (Node × Op)} {node : Node} (hr : NodeRun env trace node)
    (hfree : CollisionFree env trace) {n : ℕ} {tx : BitmarkIssue}
    (hissue : node.access.committed.record env b = some (n, .bitmarkIssue tx)) {h : Digest}
    {d : OwnerData} (hhead : getOwnerData node.access.committed h = .ok d)
    (hd : d.issueTxId = b) :
    (∃ turns reply, fullProvenance env node.access.db b turns = .ok reply ∧
        IsFullProvenance env node.access.committed b tx.assetId reply) ↔
      ∃ inBlock asset, node.access.committed.assetRecord env tx.assetId = some (inBlock, asset) ∧
        asset.metadata ≠ [] ∧ ∀ key value value', (key, value) ∈ asset.keyValues →
          (key, value') ∈ asset.keyValues → value = value' := by
  have hsound := (hr.consistent_of_collisionFree hfree).sound
  have hwf : WellFormed env _ (Database.view node.access.db) := hsound.wf
  obtain ⟨t, d', hscan, hhead', rfl⟩ := mapElements_ofBitmark hwf hhead hd
  obtain ⟨m, r₀, hentry, -⟩ := hsound.inv.head_entry (View.head_eq_some.mpr hhead')
  have hbound := Nat.lt_succ_of_le (hsound.bound hentry)
  obtain ⟨s, bs, rs, hroot, -, hfits⟩ :=
    hsound.inv.origin (View.head_eq_some.mpr hhead') hentry hbound
  obtain rfl := hfits.1
  obtain ⟨chain, hchain⟩ := exists_chainTo hissue hroot
  obtain ⟨⟨t', m', r'⟩, xs, r, rs, rfl, hx, hshows, hrs, hloop⟩ :=
    provenanceLoop_spec hwf hsound.inv hissue hchain true
  obtain ⟨rfl, rfl⟩ := Prod.mk.inj (Option.some.inj (hentry.symm.trans hx))
  have hflag : ownerFlag (Database.view node.access.db) true t r₀ = true :=
    ownerFlag_head hsound.inv hhead' hentry hbound
  dsimp only at hshows
  rw [hflag] at hshows
  have hrun (turns : ℕ) : fullProvenance env node.access.db d'.issueTxId turns =
      provenanceLoop env (Database.view node.access.db) turns true t := by
    rw [fullProvenance, hscan]
    rfl
  rw [← assetProvenance_iff]
  constructor
  · rintro ⟨turns, reply, hreply, hfull⟩
    rw [hrun, hloop] at hreply
    obtain ⟨-, asset, hasset, rfl⟩ := hreply
    obtain ⟨ra, rfl, hra⟩ := hfull.asset hshows hrs (assetProvenance_eq_ok hasset)
    exact ⟨ra, hasset, hra⟩
  · rintro ⟨ra, hasset, hra⟩
    refine ⟨((t', m, r₀) :: xs).length, r :: rs ++ [ra], ?_, t, d', _, xs, r, rs, ra, hhead', rfl,
      hchain, rfl, hshows, hrs, hra⟩
    rw [hrun, hloop]
    exact ⟨Nat.le_refl _, [ra], hasset, rfl⟩

end

namespace Sample

/-- An asset with one key and its value, and a bitmark of it that is transferred. -/
def labelledOps : List Op :=
  storeAll 2 [[.assetData ⟨[], [1], [0x61, 0, 0x62], account 1, signature 0xa1⟩, issue 1 0x11 1],
    [transfer (id 0x11) 0x12 2]]

theorem labelledOps_facts :
    (runOps env labelledOps (Node.fresh env)).isSome = true ∧
      CollisionFree env (traceOps env labelledOps (Node.fresh env)) ∧
      (after labelledOps).access.committed.record env (id 0x11) =
        some (2, .bitmarkIssue ⟨env.sha3Sum512 [1], account 1, 0, signature 0x11⟩) ∧
      ((after labelledOps).access.committed.head (id 0x12)).map OwnerData.issueTxId =
        some (id 0x11) ∧
      (after labelledOps).access.committed.assetRecord env (env.sha3Sum512 [1]) =
        some (2, ⟨[], [1], [0x61, 0, 0x62], account 1, signature 0xa1⟩) := by
  decide +kernel

/-- The provenance of the bitmark and its asset are returned. -/
theorem full_provenance_labelled :
    ∃ turns reply, fullProvenance env (after labelledOps).access.db (id 0x11) turns = .ok reply ∧
      IsFullProvenance env (after labelledOps).access.committed (id 0x11) (env.sha3Sum512 [1])
        reply := by
  obtain ⟨hrun, hfree, hrecord, hhead, hasset⟩ := labelledOps_facts
  obtain ⟨d, hhead, hd⟩ := Option.map_eq_some_iff.mp hhead
  refine (full_provenance_iff (nodeRun_after hrun) hfree hrecord (View.head_eq_some.mp hhead)
    hd).mpr ⟨_, _, hasset, by decide, ?_⟩
  intro key value value' hvalue hvalue'
  have hone : (⟨[], [1], [0x61, 0, 0x62], account 1, signature 0xa1⟩ : AssetData).keyValues =
      [([0x61], [0x62])] := by decide
  rw [hone, List.mem_singleton] at hvalue hvalue'
  exact (Prod.mk.inj (hvalue.trans hvalue'.symm)).2

/-- An asset without metadata, and a bitmark of it. -/
def unlabelledOps : List Op := storeAll 2 [[asset 1, issue 1 0x11 1]]

theorem unlabelledOps_facts :
    (runOps env unlabelledOps (Node.fresh env)).isSome = true ∧
      CollisionFree env (traceOps env unlabelledOps (Node.fresh env)) ∧
      (after unlabelledOps).access.committed.record env (id 0x11) =
        some (2, .bitmarkIssue ⟨env.sha3Sum512 [1], account 1, 0, signature 0x11⟩) ∧
      ((after unlabelledOps).access.committed.head (id 0x11)).map OwnerData.issueTxId =
        some (id 0x11) ∧
      (after unlabelledOps).access.committed.assetRecord env (env.sha3Sum512 [1]) =
        some (2, ⟨[], [1], [], account 1, signature 0xa1⟩) ∧
      mapElements (ofBitmark (id 0x11))
        ((newFetchCursor .ownerData).elements (after unlabelledOps).access.db) =
          .ok (some (id 0x11)) := by
  decide +kernel

/-- The bitmark is issued and has a head, but its full provenance is a panic. -/
theorem fullProvenance_panics :
    NodeRun env (traceOps env unlabelledOps (Node.fresh env)) (after unlabelledOps) ∧
      CollisionFree env (traceOps env unlabelledOps (Node.fresh env)) ∧
      (after unlabelledOps).access.committed.record env (id 0x11) =
        some (2, .bitmarkIssue ⟨env.sha3Sum512 [1], account 1, 0, signature 0x11⟩) ∧
      ((after unlabelledOps).access.committed.head (id 0x11)).map OwnerData.issueTxId =
        some (id 0x11) ∧
      ∀ turns, fullProvenance env (after unlabelledOps).access.db (id 0x11) (turns + 1) =
        panicAt .indexOutOfRange := by
  obtain ⟨hrun, hfree, hrecord, hhead, hasset, hscan⟩ := unlabelledOps_facts
  have hr := nodeRun_after hrun
  refine ⟨hr, hfree, hrecord, hhead, ?_⟩
  generalize after unlabelledOps = node at hr hrecord hasset hscan ⊢
  have hwf := (hr.consistent_of_collisionFree hfree).sound.wf
  obtain ⟨inBlock, -, hloop⟩ := provenanceLoop_succ hwf hrecord
  intro turns
  rw [fullProvenance, hscan]
  refine (hloop turns true).trans ?_
  rw [provenanceStep_issue, assetProvenance_of_metadata_nil hasset rfl]
  rfl

end Sample

end Bitmarkd
