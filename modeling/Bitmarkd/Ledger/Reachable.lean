import Bitmarkd.Ledger.Delete

/-!
# Reachable nodes

After every run of successful calls the node is on a chain, its ledger is sound, and the stored
blocks and records agree (`Node.Consistent`), provided the hash has no collision on the strings
`K` that the run hashes. Nothing is asked of the blocks: this holds whatever they contain.
-/

namespace Bitmarkd

open Lib Lib.Provenance

/-- What holds of a node between calls. -/
structure Node.Consistent (env : Env) (K : Set Bytes) (node : Node) : Prop where
  onChain : node.OnChain env
  sound : Sound env K node.access.committed node.header.height.toNat
  contents : Contents env K node.access.committed (node.header.height.toNat + 1)

/-- The call hashes strings of `K` only. -/
def Op.HashesIn (env : Env) (K : Set Bytes) (op : Op) : Prop := ∀ s ∈ op.hashed env, s ∈ K

section Reachable

variable {env : Env} {K : Set Bytes} {node node' : Node} {op : Op} {trace : List (Node × Op)}

theorem ledger_empty (env : Env) : View.ledger env (fun _ => none) =
    ⟨fun _ => none, fun _ => none, fun _ _ => False⟩ := by
  apply Ledger.ext
  · rfl
  · rfl
  · funext o t
    simp [View.ledger, currentlyOwns, View.has, View.get]

theorem consistent_fresh (env : Env) (K : Set Bytes) : (Node.fresh env).Consistent env K where
  onChain := onChain_fresh env
  sound := by
    have hinv : ownershipScheme.Inv (View.ledger env fun _ => none) 2 := by
      rw [ledger_empty]
      exact .empty 2
    exact ⟨wellFormed_empty, hinv, fun hr => (nomatch hr), fun _ ht => (nomatch ht)⟩
  contents := contents_empty env K _

/-- A block that a consistent node stores. -/
theorem Node.Consistent.stores (hn : node.Consistent env K) (hK : Set.InjOn env.newDigest K)
    {now : UInt64} {packedBlock : Bytes} {packedNextBlock : Option Bytes} {i : Incoming}
    {a : Access} (hmem : (Op.storeIncoming now packedBlock packedNextBlock).HashesIn env K)
    (hacc : Accepted env now packedBlock packedNextBlock node i)
    (hupdate : updateBlock env node.header.height node.rebuild packedBlock i.header i.digest i.txs
      i.foundation node.access.begin = .ok a) :
    StoresBlock env K now packedBlock packedNextBlock node i a :=
  ⟨hK, hn.onChain, hn.sound, hmem, hacc, hupdate⟩

/-- **Every call** that returns without error keeps the node consistent. -/
theorem Node.Consistent.step (hn : node.Consistent env K) (hK : Set.InjOn env.newDigest K)
    (hmem : op.HashesIn env K) (h : Step env node op node') : node'.Consistent env K := by
  cases op with
  | storeIncoming now packedBlock packedNextBlock =>
    obtain ⟨i, a, hacc, -, hupdate, rfl⟩ := storeIncoming_eq_ok.mp h
    have hstores := hn.stores hK hmem hacc hupdate
    refine ⟨(hn.onChain.store hacc hupdate).2.2.2, ?_, hn.contents.store hstores⟩
    rw [show (node.stored i a).access.committed = a.pending from committed_commit a]
    exact hstores.updating.sound
  | deleteDownToBlock now finalBlockNumber =>
    obtain ⟨⟨hsound, hcontents⟩, hchain, -⟩ := hn.onChain.delete
      (P := fun a m => Sound env K a.committed m.toNat ∧ Contents env K a.committed (m.toNat + 1)) h
      (fun hclean _ h2 hblock hnum _ hextract hdelete hpops hP =>
        hP.1.deleteBlock hP.2 hK hclean h2 hblock hextract hnum hdelete hpops)
      ⟨hn.sound, hn.contents⟩
    exact ⟨hchain, hsound, hcontents⟩

/-- **Every reachable node** is consistent. -/
theorem NodeRun.consistent (hr : NodeRun env trace node) (hK : Set.InjOn env.newDigest K)
    (hmem : Guarded (fun _ op => op.HashesIn env K) trace) : node.Consistent env K :=
  hr.invariant hmem (consistent_fresh env K) fun hn hop hs => hn.step hK hop hs

/-- The strings that a run hashes. -/
theorem CollisionFree.injOn (h : CollisionFree env trace) :
    Set.InjOn env.newDigest {s | s ∈ hashedIn env trace} :=
  fun s hs t ht heq => h s hs t ht heq

theorem hashesIn_trace (env : Env) (trace : List (Node × Op)) :
    Guarded (fun _ op => op.HashesIn env {s | s ∈ hashedIn env trace}) trace :=
  fun x hx _ hs => List.mem_flatMap.mpr ⟨x, hx, hs⟩

theorem NodeRun.consistent_of_collisionFree (hr : NodeRun env trace node)
    (hfree : CollisionFree env trace) :
    node.Consistent env {s | s ∈ hashedIn env trace} :=
  hr.consistent hfree.injOn (hashesIn_trace env trace)

/-- Before one more call. -/
theorem NodeRun.consistent_snoc (hr : NodeRun env trace node)
    (hfree : CollisionFree env (trace ++ [(node, op)])) :
    node.Consistent env {s | s ∈ hashedIn env (trace ++ [(node, op)])} ∧
      op.HashesIn env {s | s ∈ hashedIn env (trace ++ [(node, op)])} := by
  have hhashes := hashesIn_trace env (trace ++ [(node, op)])
  exact ⟨hr.consistent hfree.injOn fun x hx => hhashes x (List.mem_append_left _ hx),
    hhashes _ (List.mem_append_right _ (List.mem_singleton_self _))⟩

/-! ## Properties of the stored blocks -/

/-- The records of the block that a call stores. -/
def Op.listed (env : Env) (node : Node) : Op → List (Bytes × Transaction)
  | .storeIncoming now packedBlock packedNextBlock =>
    match extractIncoming env now node packedBlock packedNextBlock with
    | .error _ => []
    | .ok (header, _, data) =>
      match validateBlock env node header data with
      | .error _ => []
      | .ok (txs, _) => txs.map Txn.record
  | .deleteDownToBlock _ _ => []

theorem Accepted.listed_eq {now : UInt64} {packedBlock : Bytes} {packedNextBlock : Option Bytes}
    {i : Incoming} (h : Accepted env now packedBlock packedNextBlock node i) :
    (Op.storeIncoming now packedBlock packedNextBlock).listed env node = i.txs.map Txn.record := by
  simp only [Op.listed, h.extract, h.validate]

/-- What holds of the records of every block that a run stores holds of the stored blocks. -/
theorem NodeRun.blocks {Q : List (Bytes × Transaction) → Prop} (hr : NodeRun env trace node)
    (hg : Guarded (fun node op => Q (op.listed env node)) trace) {n : UInt64} {d : BlockDigest}
    {rs : List (Bytes × Transaction)} (hat : BlockAt env node.access.committed n d rs) : Q rs := by
  have hall : ∀ n d rs, BlockAt env node.access.committed n d rs → Q rs := by
    refine hr.history_invariant
      (P := fun _ node => ∀ n d rs, BlockAt env node.access.committed n d rs → Q rs) hg
      (fun _ _ _ hat => nomatch hat.hash) fun {trace node op node'} hr _ hP hop hstep => ?_
    have hn := NodeRun.onChain hr
    cases op with
    | storeIncoming now packedBlock packedNextBlock =>
      obtain ⟨i, a, hacc, -, hupdate, rfl⟩ := storeIncoming_eq_ok.mp hstep
      obtain ⟨-, -, hpush, -⟩ := hn.store hacc hupdate
      intro n d rs hat
      by_cases hne : n = i.header.number
      · subst hne
        obtain ⟨-, rfl⟩ := hat.unique (hacc.blockAt hpush)
        rwa [hacc.listed_eq] at hop
      · exact hP n d rs ((BlockAt.pushes hpush hne).mp hat)
    | deleteDownToBlock now finalBlockNumber =>
      refine (hn.delete (P := fun a _ => ∀ n d rs, BlockAt env a.committed n d rs → Q rs) hstep
        (fun _ _ _ _ _ _ _ _ hpops hP n d rs hat => ?_) hP).1
      refine hP n d rs ((BlockAt.pops hpops ?_).mp hat)
      rintro rfl
      obtain ⟨b, hb, -⟩ := hat.block
      rw [hpops.blocks, if_pos rfl] at hb
      cases hb
  exact hall n d rs hat

/-- A stored record that is no foundation is listed by the block that its number names. -/
theorem Node.Consistent.listed_of_record (hn : node.Consistent env K)
    (hK : Set.InjOn env.newDigest K) {t : Digest} {b : ℕ} {r : Transaction}
    (hr : node.access.committed.record env t = some (b, r)) (hf : ¬ r.IsFoundation) :
    ∃ n d rs packed, b = n.toNat ∧ BlockAt env node.access.committed n d rs ∧ (packed, r) ∈ rs ∧
      t = env.newDigest packed := by
  obtain ⟨n, d, rs, rfl, hat, hcases⟩ := hn.contents.entry hr
  obtain ⟨b, hb, -⟩ := hat.block
  obtain ⟨d', rs', hat', -, -, hmem, -⟩ := hn.contents.block hb
  obtain ⟨rfl, rfl⟩ := hat.unique hat'
  rcases hcases with ⟨⟨packed, tx⟩, hx, rfl⟩ | rfl
  · have hlisted := (hn.contents.mono (Nat.le_succ_of_le (hn.sound.bound hr))).listed hat rfl hx
    obtain ⟨rfl, -⟩ := hlisted.same hK hn.sound.wf hr
    exact ⟨n, d, rs, packed, rfl, hat, hx, rfl⟩
  · obtain ⟨m, packed, -, -, hstored⟩ := hn.sound.wf.record_eq_some.mp hr
    exact absurd (hstored.of_foundationTxId hK hmem rfl).2 hf

end Reachable

end Bitmarkd
