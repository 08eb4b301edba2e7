import Bitmarkd.Block.Transactions
import Bitmarkd.Chain.Shape
import Bitmarkd.Ledger.View
import Bitmarkd.Sample

/-!
# Replayed grants and swaps

A grant or a swap is a signed record that moves shares when a block with it is stored. Storing a
block checks its balances, but not whether the record has been stored before. Here a run of stored
blocks is brought to the list of grants and swaps it applied (`movesIn`), and pool `Transactions`
to the strings that were hashed (`Known`).
-/

namespace Bitmarkd

open Lib

theorem Transaction.rewritten_of_movesShares {tx : Transaction} (h : tx.movesShares = true) :
    tx.Rewritten := by
  cases tx <;> simp_all [movesShares, Rewritten]

/-- The packed grants and swaps that a call applies, in order. -/
def Op.moves (env : Env) (node : Node) (op : Op) : List Bytes :=
  ((op.items env node).filter fun item => item.unpacked.movesShares).map Txn.packed

/-- The packed grants and swaps that a run applies, in order. -/
def movesIn (env : Env) (trace : List (Node × Op)) : List Bytes :=
  trace.flatMap fun x => x.2.moves env x.1

/-- The call is a `StoreIncoming`. -/
def Op.isStore : Op → Bool
  | .storeIncoming _ _ _ => true
  | .deleteDownToBlock _ _ => false

/-- The grants and swaps of a call have different tx ids, none of which is in `Transactions`. -/
def Op.FreshMoves (env : Env) (node : Node) (op : Op) : Prop :=
  ((op.moves env node).map env.newDigest).Nodup ∧
    ∀ packed ∈ op.moves env node,
      node.access.committed.get .transactions (env.newDigest packed).bytes = none

/-! ## Runs of stored blocks -/

section Runs

variable {env : Env} {now : UInt64} {packedBlock : Bytes} {packedNextBlock : Option Bytes}
  {node : Node} {i : Incoming} {a : Access} {trace : List (Node × Op)}

/-- Every key of `Transactions` is the hash of a string that was hashed in the run: the string of a
foundation, or a record, which has been applied if it is a grant or a swap. -/
def Known (env : Env) (trace : List (Node × Op)) (v : View) : Prop :=
  ∀ ⦃k b⦄, v.get .transactions k = some b → ∃ s ∈ hashedIn env trace,
    k = (env.newDigest s).bytes ∧ (s.length = 40 ∨ ∃ tx, IsRecord env s tx ∧
      (tx.movesShares = true → s ∈ movesIn env trace))

theorem length_foundationBytes (n : UInt64) (d : BlockDigest) :
    (foundationBytes n d).length = 40 := by
  simp [foundationBytes]

theorem mem_moves {op : Op} {packed : Bytes} : packed ∈ op.moves env node ↔
    ∃ item ∈ op.items env node, item.unpacked.movesShares = true ∧ item.packed = packed := by
  simp [Op.moves, and_assoc]

theorem movesIn_snoc {op : Op} :
    movesIn env (trace ++ [(node, op)]) = movesIn env trace ++ op.moves env node := by
  simp [movesIn]

theorem hashedIn_snoc {op : Op} :
    hashedIn env (trace ++ [(node, op)]) = hashedIn env trace ++ op.hashed env := by
  simp [hashedIn]

/-- Storing a block keeps `Known`. -/
theorem Known.store (hk : Known env trace node.access.committed) (hn : node.OnChain env)
    (hacc : Accepted env now packedBlock packedNextBlock node i)
    (hupdate : updateBlock env node.header.height node.rebuild packedBlock i.header i.digest i.txs
      i.foundation node.access.begin = .ok a) :
    Known env (trace ++ [(node, .storeIncoming now packedBlock packedNextBlock)])
      (node.stored i a).access.committed := by
  obtain ⟨v, hadded, hfoundation⟩ := updateBlock_recordsAdded hn.clean hupdate
  have hnumber := (hn.store hacc hupdate).1
  intro k b hb
  rw [hashedIn_snoc, movesIn_snoc]
  rw [hfoundation] at hb
  split at hb
  next hkey =>
    exact ⟨_, List.mem_append_right _ (hacc.foundation_mem_hashed hn hnumber), hkey.symm,
      Or.inl (length_foundationBytes _ _)⟩
  next =>
    rcases hadded.new hb with hb | ⟨item, hitem, -, hkey, -⟩
    · obtain ⟨s, hs, hkey, hcases⟩ := hk hb
      refine ⟨s, List.mem_append_left _ hs, hkey, hcases.imp_right ?_⟩
      rintro ⟨tx, hr, hmoves⟩
      exact ⟨tx, hr, fun hm => List.mem_append_left _ (hmoves hm)⟩
    · obtain ⟨la, hvalid⟩ := hacc.validItem (Incoming.mem_txs hitem)
      refine ⟨item.packed, List.mem_append_right _
        (hacc.packed_mem_hashed (Incoming.mem_txs hitem)), ?_, Or.inr ⟨item.unpacked,
        hvalid.isRecord, fun hm => List.mem_append_right _ (mem_moves.mpr ⟨item, ?_, hm, rfl⟩)⟩⟩
      · rw [hkey, hvalid.txId_eq]
      · rwa [hacc.items_eq]

/-- Everything that was applied is in `Transactions`. -/
def AllStored (env : Env) (trace : List (Node × Op)) (v : View) : Prop :=
  ∀ packed ∈ movesIn env trace, (v.get .transactions (env.newDigest packed).bytes).isSome

theorem AllStored.store (hk : AllStored env trace node.access.committed) (hn : node.OnChain env)
    (hacc : Accepted env now packedBlock packedNextBlock node i)
    (hupdate : updateBlock env node.header.height node.rebuild packedBlock i.header i.digest i.txs
      i.foundation node.access.begin = .ok a) :
    AllStored env (trace ++ [(node, .storeIncoming now packedBlock packedNextBlock)])
      (node.stored i a).access.committed := by
  obtain ⟨v, hadded, hfoundation⟩ := updateBlock_recordsAdded hn.clean hupdate
  intro packed hpacked
  rw [hfoundation]
  split
  · rfl
  rw [movesIn_snoc, List.mem_append] at hpacked
  rcases hpacked with hpacked | hpacked
  · exact hadded.keep (hk packed hpacked)
  · obtain ⟨item, hitem, hmoves, rfl⟩ := mem_moves.mp hpacked
    rw [hacc.items_eq] at hitem
    obtain ⟨la, hvalid⟩ := hacc.validItem (Incoming.mem_txs hitem)
    rw [← hvalid.txId_eq]
    exact hadded.rewritten item hitem (Transaction.rewritten_of_movesShares hmoves)

/-- Both hold over every run of stored blocks. -/
theorem known_and_allStored (hr : NodeRun env trace node)
    (hstore : Guarded (fun _ op => op.isStore = true) trace) :
    Known env trace node.access.committed ∧ AllStored env trace node.access.committed := by
  refine hr.history_invariant (P := fun trace node => Known env trace node.access.committed ∧
    AllStored env trace node.access.committed) hstore ⟨?_, ?_⟩ ?_
  · intro k b hb
    cases hb
  · simp [AllStored, movesIn]
  · intro trace node op node' hr _ hk hop hstep
    cases op with
    | storeIncoming now packedBlock packedNextBlock =>
      obtain ⟨i, a, hacc, -, hupdate, rfl⟩ := storeIncoming_eq_ok.mp hstep
      have hn := NodeRun.onChain hr
      exact ⟨hk.1.store hn hacc hupdate, hk.2.store hn hacc hupdate⟩
    | deleteDownToBlock now finalBlockNumber => cases hop

/-- What a call adds to the list is new exactly when its grants and swaps are fresh. -/
theorem freshMoves_iff (hr : NodeRun env trace node)
    (hstore : Guarded (fun _ op => op.isStore = true) trace)
    (hacc : Accepted env now packedBlock packedNextBlock node i)
    (hfree : CollisionFree env
      (trace ++ [(node, .storeIncoming now packedBlock packedNextBlock)])) :
    (Op.storeIncoming now packedBlock packedNextBlock).FreshMoves env node ↔
      ((Op.storeIncoming now packedBlock packedNextBlock).moves env node).Nodup ∧
        (movesIn env trace).Disjoint
          ((Op.storeIncoming now packedBlock packedNextBlock).moves env node) := by
  obtain ⟨hknown, hall⟩ := known_and_allStored hr hstore
  -- a grant or swap of the block is a string that is hashed, and not that of a foundation
  have hmoves {packed : Bytes}
      (hp : packed ∈ (Op.storeIncoming now packedBlock packedNextBlock).moves env node) :
      packed ∈ hashedIn env (trace ++ [(node, .storeIncoming now packedBlock packedNextBlock)]) ∧
        64 ≤ packed.length ∧ ∃ tx, IsRecord env packed tx ∧ tx.movesShares = true := by
    obtain ⟨item, hitem, hm, rfl⟩ := mem_moves.mp hp
    rw [hacc.items_eq] at hitem
    obtain ⟨la, hvalid⟩ := hacc.validItem (Incoming.mem_txs hitem)
    refine ⟨?_, hvalid.length_le, item.unpacked, hvalid.isRecord, hm⟩
    rw [hashedIn_snoc]
    exact List.mem_append_right _ (hacc.packed_mem_hashed (Incoming.mem_txs hitem))
  constructor
  · rintro ⟨hnodup, hnew⟩
    refine ⟨hnodup.of_map, fun packed hold hp => ?_⟩
    have := hall packed hold
    rw [hnew packed hp] at this
    cases this
  · rintro ⟨hnodup, hdisjoint⟩
    refine ⟨hnodup.map_on fun s hs t ht heq => hfree s (hmoves hs).1 t (hmoves ht).1 heq, ?_⟩
    intro packed hp
    by_contra hne
    obtain ⟨b, hb⟩ := Option.ne_none_iff_exists'.mp hne
    obtain ⟨s, hs, hkey, hcases⟩ := hknown hb
    obtain ⟨hin, hlen, tx, hr, hm⟩ := hmoves hp
    have hs' : s ∈ hashedIn env
        (trace ++ [(node, .storeIncoming now packedBlock packedNextBlock)]) := by
      rw [hashedIn_snoc]
      exact List.mem_append_left _ hs
    obtain rfl := hfree packed hin s hs' (FixedBytes.bytes_inj.mp hkey)
    rcases hcases with hshort | ⟨tx', hr', happlied⟩
    · omega
    · obtain rfl := hr.unique hr'
      exact hdisjoint (happlied hm) hp

/-- **Each grant and each swap is applied at most once** over a run of stored blocks, exactly when
no block has one that is already in `Transactions`, or has one twice. -/
theorem moves_applied_once_iff (hr : NodeRun env trace node)
    (hstore : Guarded (fun _ op => op.isStore = true) trace) (hfree : CollisionFree env trace) :
    (∀ packed, (movesIn env trace).count packed ≤ 1) ↔ ∀ x ∈ trace, x.2.FreshMoves env x.1 := by
  rw [← List.nodup_iff_count_le_one]
  induction hr with
  | nil => simp [movesIn]
  | @snoc trace node node' op hr hstep ih =>
    obtain ⟨hstore₀, hop⟩ := guarded_snoc.mp hstore
    have hfree' : CollisionFree env trace := fun s hs t ht =>
      hfree s (by rw [hashedIn_snoc]; exact List.mem_append_left _ hs) t
        (by rw [hashedIn_snoc]; exact List.mem_append_left _ ht)
    have hlast : op.FreshMoves env node ↔
        (op.moves env node).Nodup ∧ (movesIn env trace).Disjoint (op.moves env node) := by
      cases op with
      | storeIncoming now packedBlock packedNextBlock =>
        obtain ⟨i, a, hacc, -⟩ := storeIncoming_eq_ok.mp hstep
        exact freshMoves_iff hr hstore₀ hacc hfree
      | deleteDownToBlock now finalBlockNumber => cases hop
    rw [movesIn_snoc, List.nodup_append', ih hstore₀ hfree']
    constructor
    · rintro ⟨hold, hnew⟩ x hx
      rcases List.mem_append.mp hx with hx | hx
      · exact hold x hx
      · rw [List.mem_singleton.mp hx]
        exact hlast.mpr hnew
    · intro h
      exact ⟨fun x hx => h x (List.mem_append_left _ hx),
        hlast.mp (h (node, op) (List.mem_append_right _ (List.mem_singleton_self _)))⟩

end Runs

namespace Sample

/-- An asset is issued and converted to ten shares; three of them are granted, twice with the same
record. -/
def replayOps : List Op :=
  storeAll 2 [[asset 1, issue 1 0x11 1], [share (id 0x11) 0x12 10],
    [grant (id 0x11) 0x13 1 2 3], [grant (id 0x11) 0x13 1 2 3]]

theorem replayOps_facts : CollisionFree env (traceOps env replayOps (Node.fresh env)) ∧
    (movesIn env (traceOps env replayOps (Node.fresh env))).count
      (packed (grant (id 0x11) 0x13 1 2 3)) = 2 ∧
    (runOps env replayOps (Node.fresh env)).any (fun node =>
      decide (node.access.committed.get .shareQuantity (ownerKey (account 2) (id 0x11)) =
        some (be64 6))) = true := by
  decide +kernel

/-- The grant is applied twice: the second account ends with six shares. -/
theorem replayed_grant : ∃ trace node, NodeRun env trace node ∧ CollisionFree env trace ∧
    (∀ x ∈ trace, x.2.isStore = true) ∧
    (movesIn env trace).count (packed (grant (id 0x11) 0x13 1 2 3)) = 2 ∧
    node.access.committed.get .shareQuantity (ownerKey (account 2) (id 0x11)) = some (be64 6) := by
  obtain ⟨hfree, hcount, hany⟩ := replayOps_facts
  obtain ⟨node, hrun, hP⟩ := exists_nodeRun env replayOps hany
  exact ⟨_, node, hrun, hfree, by decide, hcount, of_decide_eq_true hP⟩

/-- The block with the grant again is the one that has no fresh grant. -/
theorem replayOps_not_fresh : ¬ ∀ x ∈ traceOps env replayOps (Node.fresh env),
    x.2.FreshMoves env x.1 := by
  obtain ⟨hfree, hcount, hany⟩ := replayOps_facts
  obtain ⟨node, hrun, -⟩ := exists_nodeRun env replayOps hany
  have hstore : ∀ x ∈ traceOps env replayOps (Node.fresh env), x.2.isStore = true := by decide
  intro hfresh
  have honce := (moves_applied_once_iff hrun hstore hfree).mpr hfresh
  have htwice := honce (packed (grant (id 0x11) 0x13 1 2 3))
  rw [hcount] at htwice
  omega

end Sample

end Bitmarkd
