import Bitmarkd.Block.Reject
import Bitmarkd.Peer.Connector

/-!
# Synchronising with a client

* Whatever the clients answer, and whatever blocks arrive in between, the node keeps a chain, unless
  a deletion was left halfway or the database could not be written (`connector_keeps_chain`).
* The fork search finds the highest common block (`fork_search_exact`).
* If the client does not answer, or the common block is 60 or more blocks down, the machine goes
  back and forth between two states **without ever pausing** (`refused_fork_never_pauses`).
* Otherwise, if the client's blocks are accepted, the node has its chain from the highest common
  block on, after a number of turns that is known beforehand (`follows_client`).
-/

namespace Bitmarkd

open Lib

/-! ## The blocks below a height -/

/-- Two views have the same blocks up to a height. -/
def SameUpTo (h : UInt64) (v v' : View) : Prop :=
  ∀ k ≤ h, v'.get .blocks (be64 k) = v.get .blocks (be64 k) ∧
    v'.get .blockHeaderHash (be64 k) = v.get .blockHeaderHash (be64 k)

section Chain

variable {env : Env} {now h n : UInt64} {v v' v'' : View} {node node' : Node}

theorem SameUpTo.refl (h : UInt64) (v : View) : SameUpTo h v v := fun _ _ => ⟨rfl, rfl⟩

theorem SameUpTo.trans (hv : SameUpTo h v v') (hv' : SameUpTo h v' v'') : SameUpTo h v v'' :=
  fun k hk => ⟨(hv' k hk).1.trans (hv k hk).1, (hv' k hk).2.trans (hv k hk).2⟩

theorem SameUpTo.mono {h' : UInt64} (hv : SameUpTo h' v v') (hh : h ≤ h') : SameUpTo h v v' :=
  fun k hk => hv k (UInt64.le_trans hk hh)

theorem SameUpTo.of_ne (hv : ∀ k, be64 n ≠ k → v'.get .blocks k = v.get .blocks k ∧
    v'.get .blockHeaderHash k = v.get .blockHeaderHash k) (hn : h < n) : SameUpTo h v v' :=
  fun _ hk => hv _ fun heq => UInt64.not_lt.mpr hk (be64_inj.mp heq ▸ hn)

theorem Pushes.sameUpTo {b : Bytes} {d : BlockDigest} (hp : Pushes v v' n b d) (hn : h < n) :
    SameUpTo h v v' :=
  .of_ne (fun _ hk => by simp [hp.blocks, hp.hashes, hk]) hn

theorem Pops.sameUpTo (hp : Pops v v' n) (hn : h < n) : SameUpTo h v v' :=
  .of_ne (fun _ hk => by simp [hp.blocks, hp.hashes, hk]) hn

/-- A block that is stored is the next one. -/
theorem Node.OnChain.stores {b : Bytes} {next : Option Bytes} {writeFails : Bool}
    (hn : node.OnChain env)
    (h : storeIncoming env now writeFails b next node = (.ok (), node')) :
    node'.OnChain env ∧ node'.header.height.toNat = node.header.height.toNat + 1 ∧
      ∃ d, Pushes node.access.committed node'.access.committed node'.header.height b d := by
  obtain rfl := storeIncoming_writes hn.rebuild h
  obtain ⟨i, a, hacc, -, hupdate, rfl⟩ := storeIncoming_eq_ok.mp h
  obtain ⟨hnumber, hwrap, hpush, hchain⟩ := hn.store hacc hupdate
  refine ⟨hchain, ?_, i.digest, hpush⟩
  rw [← hwrap, ← hnumber]
  rfl

theorem toNat_succ (hwrap : h.toNat + 1 < 2 ^ 64) : (h + 1).toNat = h.toNat + 1 := by
  rw [UInt64.toNat_add]
  exact Nat.mod_eq_of_lt hwrap

/-- A deletion down to above a block of the chain ends at this block. -/
theorem Node.OnChain.deletes (hn : node.OnChain env) (h1 : 1 ≤ h) (hh : h ≤ node.header.height)
    (hwrap : h.toNat + 1 < 2 ^ 64)
    (hdelete : deleteDownToBlock env now (h + 1) node = (.ok (), node')) :
    node'.OnChain env ∧ node'.header.height = h ∧
      SameUpTo h node.access.committed node'.access.committed := by
  have hsucc := toNat_succ hwrap
  obtain ⟨⟨hle, hsame⟩, hchain, hend⟩ := hn.delete (P := fun a m =>
    h ≤ m ∧ SameUpTo h node.access.committed a.committed) hdelete (by
      intro a a' m b hd digest data previous _ _ h2 _ _ hm _ _ hpops hP
      have hpred := toNat_pred h2
      rw [UInt64.le_iff_toNat_le, hsucc] at hm
      refine ⟨?_, hP.2.trans (hpops.sameUpTo (UInt64.lt_iff_toNat_lt.mpr hm))⟩
      rw [UInt64.le_iff_toNat_le]
      omega) ⟨hh, .refl _ _⟩
  refine ⟨hchain, UInt64.toNat_inj.mp ?_, hsame⟩
  rw [UInt64.le_iff_toNat_le] at hle h1
  have h1' : (1 : UInt64).toNat = 1 := rfl
  rcases hend with ⟨rfl, hone⟩ | ⟨hone, -⟩ | ⟨hlt, -⟩
  · rw [hone] at hle ⊢
    omega
  · rw [hone] at hle ⊢
    omega
  · rw [UInt64.lt_iff_toNat_lt, hsucc] at hlt
    omega

end Chain

theorem CachingNode.digestForBlock_snd (env : Env) (now number : UInt64) (s : CachingNode) :
    (s.digestForBlock env now number).2 = ⟨s.node, (s.digestForBlock env now number).2.cache⟩ := by
  unfold CachingNode.digestForBlock
  dsimp only
  split_ifs
  · rfl
  · rfl
  · rfl
  · split <;> rfl

namespace Sample

open Peer

/-- The two blocks of the node. -/
def ownOps : List Op :=
  [.storeIncoming 1000 firstBlock none,
    .storeIncoming 1000 (block 2 3 (id 0xa1) 20 [foundation, asset 2]) none]

/-- The node with its two blocks. -/
@[irreducible] def ownNode : Node := after ownOps

/-- The chain of the clients, which parts from that of the node after block 2. -/
def clientChain : UInt64 → Option (BlockDigest × Bytes)
  | 2 => some (id 0xa1, firstBlock)
  | 3 => some (id 0xa3, block 2 3 (id 0xa1) 20 [foundation, asset 3])
  | 4 => some (id 0xa4, block 2 4 (id 0xa3) 30 [foundation, asset 4])
  | _ => none

/-- Clients that answer, at some time. -/
def world (now : UInt64) : Outside where
  now := now
  clientCount := 5
  elected := some (0, 4)
  upstream _ := ⟨4, id 0xa4⟩
  remoteDigestOfHeight _ n := (clientChain n).map Prod.fst
  getBlockData _ n := (clientChain n).map Prod.snd
  intn _ := 0
  writeFails _ := false

/-- The clients answer no query for a digest, at any time. -/
def silent : List Outside :=
  [1000, 1001, 1002].map fun now => { world now with remoteDigestOfHeight := fun _ _ => none }

def waiting : Peer.Connector :=
  { Connector.initialise env false with state := .highestBlock, node := ⟨ownNode, .empty⟩ }

def detecting : Peer.Connector :=
  { waiting with state := .forkDetect, theClient := some 0, height := 4 }

theorem onChain_ownNode : ownNode.OnChain env := by
  unfold ownNode
  exact (nodeRun_after (by decide +kernel)).onChain

theorem height_ownNode : ownNode.header.height = 3 := by decide +kernel

theorem readable_ownNode (now k : UInt64) :
    Readable env now ownNode.access.committed k := by
  have hdigests : digestFromHashPool ownNode.access.committed 2 ≠ .zero 32 ∧
      digestFromHashPool ownNode.access.committed 3 ≠ .zero 32 := by
    decide +kernel
  obtain ⟨h2, h3⟩ := hdigests
  intro hzero hd hat
  obtain ⟨hle, hge⟩ := HeaderAt.le onChain_ownNode.chain hat
  rw [height_ownNode] at hge
  rcases UInt64.le_iff_lt_or_eq.mp hge with hlt | rfl
  · obtain rfl : k = 2 := UInt64.toNat_inj.mp (by
      rw [UInt64.le_iff_toNat_le] at hle
      rw [UInt64.lt_iff_toNat_lt] at hlt
      exact Nat.le_antisymm (Nat.le_of_lt_succ hlt) hle)
    exact absurd hzero h2
  · exact absurd hzero h3

end Sample

namespace Peer.Connector

variable {env : Env} {o : Outside} {conn conn' : Connector} {client n i : ℕ} {more : Bool}
  {next : Option Bytes}

/-- What a deletion leaves, if it was not left halfway. -/
theorem deleteDownToBlock_eq_some {final : UInt64}
    (h : conn.deleteDownToBlock env o final = some conn') :
    conn'.halfDone = true ∨ ∃ node, conn' = { conn with node } ∧
      Bitmarkd.deleteDownToBlock env o.now final conn.node.node = (.ok (), node.node) := by
  unfold deleteDownToBlock at h
  split at h
  next node hdelete =>
    cases h
    refine .inr ⟨node, rfl, ?_⟩
    rw [← deleteDownToBlock_node, hdelete]
  next =>
    cases h
    exact .inl rfl
  next => cases h

theorem deleteDownToBlock_of_ok {final : UInt64} {node : Node}
    (h : Bitmarkd.deleteDownToBlock env o.now final conn.node.node = (.ok (), node)) :
    ∃ cache, conn.deleteDownToBlock env o final = some { conn with node := ⟨node, cache⟩ } := by
  rw [← deleteDownToBlock_node] at h
  unfold deleteDownToBlock
  rcases hdelete : conn.node.deleteDownToBlock env o.now final with ⟨r, s⟩
  rw [hdelete] at h
  cases h
  exact ⟨s.cache, rfl⟩

/-! ### The fork detection -/

/-- The search without the cache. -/
def search (env : Env) (o : Outside) (client : ℕ) (node : Node) : ℕ → Search
  | 0 => .exhausted
  | h + 1 =>
    match currentDigest env node.access.committed (.ofNat (h + 1)),
      o.remoteDigestOfHeight client (.ofNat (h + 1)) with
    | .ok digest, some d =>
      if d = digest then .found (.ofNat (h + 1)) else search env o client node h
    | _, _ => .retry

/-- **The search agrees with the one without the cache**, if the digests can be read. -/
theorem checkDigests_eq (o : Outside) (client : ℕ) {node : Node} {cache : DigestCache}
    (hs : (⟨node, cache⟩ : CachingNode).Coherent env)
    (hread : ∀ k, Readable env o.now node.access.committed k) (n : ℕ) :
    (checkDigests env o client node n cache).1 = search env o client node n := by
  induction n generalizing cache with
  | zero => rfl
  | succ n ih =>
    -- the query fills the cache, but keeps it coherent
    have hcoherent := hs.digestForBlock o.now (.ofNat (n + 1))
    have hdigest := hs.digestForBlock_eq (hread (.ofNat (n + 1)))
    rw [CachingNode.digestForBlock_snd] at hcoherent
    unfold checkDigests search
    rcases hquery : (⟨node, cache⟩ : CachingNode).digestForBlock env o.now (.ofNat (n + 1)) with
      ⟨e | d, s⟩
    all_goals rw [hquery] at hcoherent hdigest
    · rw [← hdigest]
    · rw [← hdigest]
      rcases o.remoteDigestOfHeight client (.ofNat (n + 1)) with _ | d'
      · rfl
      · dsimp only
        split_ifs
        · rfl
        · exact ih hcoherent

/-- A fork detection begins with a cleared cache. -/
theorem checkDigests_clearCache (o : Outside) (client : ℕ) {node : Node} (hn : node.OnChain env)
    (hread : ∀ k, Readable env o.now node.access.committed k) (cache : DigestCache) (n : ℕ) :
    (checkDigests env o client node n cache.clearCache).1 = search env o client node n :=
  checkDigests_eq o client ⟨hn, fun _ he hd => absurd (eq_of_mem_replicate rfl he) hd⟩ hread n

/-- The client has the digest of the node at `f`, and others above. -/
def ForkAt (env : Env) (o : Outside) (client : ℕ) (node : Node) (n : ℕ) (f : UInt64) : Prop :=
  (1 ≤ f ∧ f.toNat ≤ n) ∧
    (∃ d, currentDigest env node.access.committed f = .ok d ∧
      o.remoteDigestOfHeight client f = some d) ∧
    ∀ k, f < k → k.toNat ≤ n → ∃ d d', currentDigest env node.access.committed k = .ok d ∧
      o.remoteDigestOfHeight client k = some d' ∧ d' ≠ d

/-- What is found is the highest block that both have. -/
theorem forkAt_of_search {node : Node} {f : UInt64} (hn : n < 2 ^ 64)
    (h : search env o client node n = .found f) : ForkAt env o client node n f := by
  induction n with
  | zero => cases h
  | succ n ih =>
    have hnum : (UInt64.ofNat (n + 1)).toNat = n + 1 := UInt64.toNat_ofNat_of_lt' hn
    unfold search at h
    split at h
    next digest d hlocal hremote =>
      split_ifs at h with heq
      · cases h
        refine ⟨⟨?_, hnum.le⟩, ⟨d, heq ▸ hlocal, hremote⟩, fun k hk hle => ?_⟩
        · rw [UInt64.le_iff_toNat_le, hnum]
          exact Nat.le_add_left 1 n
        · rw [UInt64.lt_iff_toNat_lt, hnum] at hk
          exact absurd hle (Nat.not_le.mpr hk)
      · obtain ⟨hrange, hagrees, habove⟩ := ih (Nat.lt_of_succ_lt hn) h
        refine ⟨⟨hrange.1, Nat.le_succ_of_le hrange.2⟩, hagrees, fun k hk hle => ?_⟩
        rcases Nat.lt_or_eq_of_le hle with hlt | hlast
        · exact habove k hk (Nat.le_of_lt_succ hlt)
        · rw [← UInt64.toNat_inj.mp (hnum.trans hlast.symm)]
          exact ⟨_, _, hlocal, hremote, heq⟩
    next => cases h

theorem search_of_forkAt {node : Node} {f : UInt64} (hn : n < 2 ^ 64)
    (h : ForkAt env o client node n f) : search env o client node n = .found f := by
  obtain ⟨⟨h1, hle⟩, ⟨d, hlocal, hremote⟩, habove⟩ := h
  induction n with
  | zero => exact absurd (UInt64.le_iff_toNat_le.mp h1) (Nat.not_le.mpr (Nat.lt_succ_of_le hle))
  | succ n ih =>
    have hnum : (UInt64.ofNat (n + 1)).toNat = n + 1 := UInt64.toNat_ofNat_of_lt' hn
    unfold search
    rcases Nat.lt_or_eq_of_le hle with hlt | hlast
    · have hk : f < .ofNat (n + 1) := by rwa [UInt64.lt_iff_toNat_lt, hnum]
      obtain ⟨d, d', hl, hr, hne⟩ := habove _ hk hnum.le
      rw [hl, hr]
      dsimp only
      rw [if_neg hne]
      exact ih (Nat.lt_of_succ_lt hn) (Nat.le_of_lt_succ hlt) fun k hk hk' =>
        habove k hk (Nat.le_succ_of_le hk')
    · rw [UInt64.toNat_inj.mp (hnum.trans hlast.symm), hlocal, hremote]
      exact if_pos rfl

/-- **The fork search is exact**, although it goes through the cache. -/
theorem fork_search_exact {node : Node} {f : UInt64} (hn : node.OnChain env)
    (hread : ∀ k, Readable env o.now node.access.committed k) (cache : DigestCache)
    (hlt : n < 2 ^ 64) : (checkDigests env o client node n cache.clearCache).1 = .found f ↔
      ForkAt env o client node n f := by
  rw [checkDigests_clearCache o client hn hread]
  exact ⟨forkAt_of_search hlt, search_of_forkAt hlt⟩

/-- The chains have parted below the top of the node. -/
theorem fork_search_parted :
    ForkAt Sample.env (Sample.world 1000) 0 Sample.ownNode 3 2 :=
  (fork_search_exact Sample.onChain_ownNode (Sample.readable_ownNode _) .empty (by decide)).mp
    (by decide +kernel)

theorem forkProtection_le_iff {h f : UInt64} (hle : f.toNat ≤ h.toNat) :
    h - f ≥ forkProtection ↔ f.toNat + 60 ≤ h.toNat := by
  have h60 : forkProtection.toNat = 60 := rfl
  rw [ge_iff_le, UInt64.le_iff_toNat_le,
    UInt64.toNat_sub_of_le _ _ (UInt64.le_iff_toNat_le.mpr hle)]
  omega

/-- A fork detection changes the chain by a deletion only. -/
theorem resolve_node {r : Search} (h : conn.resolve env o r = some conn') :
    conn'.halfDone = true ∨ conn'.node.node = conn.node.node ∨
      ∃ n, Bitmarkd.Step env conn.node.node (.deleteDownToBlock o.now n) conn'.node.node := by
  cases r with
  | retry | exhausted =>
    cases h
    exact .inr (.inl rfl)
  | found f =>
    rw [resolve] at h
    split_ifs at h
    · cases h
      exact .inr (.inl rfl)
    · rcases deleteDownToBlock_eq_some h with hhalf | ⟨node, rfl, hdelete⟩
      · exact .inl hhalf
      · exact .inr (.inr ⟨f + 1, hdelete⟩)

/-! ### The fetch loop -/

/-- A call of `StoreIncoming` keeps a chain, whether it accepts the block or not, if the database
can be written. -/
theorem onChain_of_storeIncoming {now : UInt64} {b : Bytes} {node node' : Node}
    {r : Except Stop Unit} (hn : node.OnChain env)
    (h : storeIncoming env now false b next node = (r, node')) : node'.OnChain env := by
  cases r with
  | error e =>
    obtain ⟨current, rfl⟩ := storeIncoming_error h
    exact ⟨hn.clean, hn.rebuild, hn.chain, hn.tip⟩
  | ok u => exact (hn.stores h).1

theorem fetchLoop_onChain (h : conn.fetchLoop env o client n i next = some (more, conn'))
    (hn : conn.node.node.OnChain env) (hwhole : conn'.halfDone = false) :
    conn'.node.node.OnChain env := by
  induction n generalizing i next conn with
  | zero =>
    cases h
    exact hn
  | succ n ih =>
    unfold fetchLoop at h
    split at h
    · cases h
      exact hn
    split at h
    · cases h
      exact hn
    next b _ =>
      dsimp only at h
      split at h
      · cases h
        exact hn
      next cache _ =>
        obtain ⟨conn₁, hdelete, hpair⟩ := Option.map_eq_some_iff.mp h
        cases hpair
        rcases deleteDownToBlock_eq_some hdelete with hhalf | ⟨node, rfl, hdone⟩
        · cases hwhole.symm.trans hhalf
        · have hstep : Bitmarkd.Step env _ (.deleteDownToBlock o.now _) node.node := hdone
          exact hn.step hstep
      next cache _ =>
        split at h
        next node hstore => exact ih h (hn.stores hstore).1
        next node hstore =>
          cases h
          rw [(Bool.or_eq_false_iff.mp hwhole).2] at hstore
          exact onChain_of_storeIncoming hn hstore
        next => cases h

/-! ### Runs -/

theorem compared_node (env : Env) (o : Outside) (conn : Connector) :
    (conn.compared env o).node.node = conn.node.node := by
  unfold compared
  split <;> rfl

/-- A turn that does not fetch changes the chain by a deletion only. -/
theorem runStateMachine_node (h : conn.runStateMachine env o = some (more, conn'))
    (hfetch : conn.state ≠ .fetchBlocks) :
    conn'.halfDone = true ∨ conn'.node.node = conn.node.node ∨
      ∃ n, Bitmarkd.Step env conn.node.node (.deleteDownToBlock o.now n) conn'.node.node := by
  have hnode := compared_node env o conn
  unfold runStateMachine at h
  split at h
  · cases h
    exact .inr (.inl rfl)
  · split at h
    · cases h
      exact .inr (.inl rfl)
    · dsimp only at h
      split_ifs at h <;> cases h <;> exact .inr (.inl (compared_node env o _))
  · split at h
    · obtain ⟨conn₁, hfork, hpair⟩ := Option.map_eq_some_iff.mp h
      cases hpair
      have hdone := resolve_node hfork
      rwa [← hnode]
    · cases h
      exact .inr (.inl hnode)
  next hs => exact absurd hs hfetch
  · cases h
    exact .inr (.inl rfl)
  · split at h
    · cases h
      exact .inr (.inl rfl)
    · split at h <;> dsimp only at h <;> split_ifs at h <;> cases h
      · exact .inr (.inl (compared_node env o _))
      · exact .inr (.inl (compared_node env o _))
      · exact .inr (.inl rfl)
      · exact .inr (.inl rfl)

/-- What happens to a connector and its node: a turn, or a block that arrives. -/
inductive Event
  | turn (o : Outside)
  | incoming (now : UInt64) (writeFails : Bool) (packedBlock : Bytes)

/-- A turn, paused or not. -/
def turn (env : Env) (conn : Connector) (o : Outside) : Option Connector :=
  (conn.runStateMachine env o).map Prod.snd

/-- What an event does, up to the first call that is left halfway. -/
def handle (env : Env) (conn : Connector) (e : Event) : Option Connector :=
  if conn.halfDone then none
  else
    match e with
    | .turn o => conn.turn env o
    | .incoming now writeFails packedBlock => some { conn with
        node := ⟨(storeIncoming env now writeFails packedBlock none conn.node.node).2,
          conn.node.cache⟩
        halfDone := writeFails }

/-- A run of the connector of a fresh node. -/
abbrev ConnectorRun (env : Env) (fastSync : Bool) (trace : List (Connector × Event))
    (conn : Connector) : Prop :=
  Run (fun conn e conn' => conn.handle env e = some conn') (initialise env fastSync) trace conn

theorem handle_onChain {e : Event} (h : conn.handle env e = some conn')
    (hn : conn.halfDone = false → conn.node.node.OnChain env)
    (hwhole : conn'.halfDone = false) : conn'.node.node.OnChain env := by
  unfold handle at h
  split_ifs at h with hhalf
  have hn := hn (Bool.not_eq_true _ ▸ hhalf)
  cases e with
  | turn o =>
    obtain ⟨⟨more, conn₁⟩, hturn, rfl⟩ := Option.map_eq_some_iff.mp h
    by_cases hfetch : conn.state = .fetchBlocks
    · unfold runStateMachine at hturn
      rw [hfetch] at hturn
      dsimp only at hturn
      split at hturn
      · cases hturn
      · exact fetchLoop_onChain hturn hn hwhole
    · obtain hhalf | hsame | ⟨n, hdelete⟩ := runStateMachine_node hturn hfetch
      · cases hwhole.symm.trans hhalf
      · exact hsame ▸ hn
      · exact hn.step hdelete
  | incoming now writeFails b =>
    cases h
    cases (show writeFails = false from hwhole)
    exact onChain_of_storeIncoming hn rfl

/-- **The connector keeps a chain.** Whatever the clients answer and whatever blocks arrive, the
node has the blocks from 2 to its height, and no others. -/
theorem connector_keeps_chain {fastSync : Bool} {trace : List (Connector × Event)}
    (hr : ConnectorRun env fastSync trace conn) (hwhole : conn.halfDone = false) :
    conn.node.node.OnChain env :=
  hr.invariant (P := fun conn => conn.halfDone = false → conn.node.node.OnChain env)
    (guarded_true trace) (fun _ => onChain_fresh env) (fun ih _ hstep => handle_onChain hstep ih)
    hwhole

/-- The two blocks of the node arrive, and then there are turns until those of a client are
fetched. -/
def parting : List Event :=
  [.incoming 1000 false Sample.firstBlock,
    .incoming 1000 false (Sample.block 2 3 (Sample.id 0xa1) 20 [Sample.foundation, Sample.asset 2]),
    .turn (Sample.world 1000), .turn (Sample.world 1001), .turn (Sample.world 1002),
    .turn (Sample.world 1003)]

/-- Two blocks arrive, and the connector gives up the second one for two blocks of a client. -/
theorem keeps_chain_parted : ∃ conn, execute (handle Sample.env) parting
      (initialise Sample.env false) = some conn ∧ conn.localHeight = 4 ∧
    conn.node.node.access.committed.get .blocks (be64 3) =
      (Sample.clientChain 3).map Prod.snd ∧ conn.node.node.OnChain Sample.env := by
  have hfacts : ((execute (handle Sample.env) parting
      (initialise Sample.env false)).map fun conn => (conn.halfDone, conn.localHeight,
        conn.node.node.access.committed.get .blocks (be64 3))) =
      some (false, 4, (Sample.clientChain 3).map Prod.snd) := by
    decide +kernel
  obtain ⟨conn, hexec, hend⟩ := Option.map_eq_some_iff.mp hfacts
  obtain ⟨hwhole, hend⟩ := Prod.mk.inj hend
  obtain ⟨hheight, hblock⟩ := Prod.mk.inj hend
  exact ⟨conn, hexec, hheight, hblock,
    connector_keeps_chain (run_of_execute (fun h => h) hexec) hwhole⟩

/-! ### A client with a longer chain -/

theorem hasBetterChain_of_lt (env : Env) (o : Outside) (conn : Connector)
    (hc : conn.theClient = some client) (hlt : conn.localHeight < conn.height) :
    conn.hasBetterChain env o = true ∧ conn.compared env o = conn := by
  have hne : conn.height ≠ conn.localHeight := (UInt64.ne_of_lt hlt).symm
  have hle := UInt64.not_lt.mpr (UInt64.le_of_lt hlt)
  exact ⟨by simp [hasBetterChain, Bitmarkd.Connector.hasBetterChain, choice, hc, hne, hle],
    if_neg fun h => hne h.1⟩

/-- On the way to the chain of a client. -/
def toward (client : ℕ) (height : UInt64) (conn : Connector) : Connector :=
  { conn with theClient := some client, height, state := .forkDetect }

theorem runStateMachine_highestBlock {height : UInt64} (hs : conn.state = .highestBlock)
    (he : o.elected = some (client, height)) (hlt : conn.localHeight < height) :
    conn.runStateMachine env o = some (true, conn.toward client height) := by
  have hne : height ≠ 0 := fun hzero => UInt64.not_lt_zero (hzero ▸ hlt)
  have hupdate : updateHeightAndClient o = some (client, height) := by
    simp [updateHeightAndClient, he, hne]
  obtain ⟨hbetter, hsame⟩ :=
    hasBetterChain_of_lt env o { conn with theClient := some client, height } rfl hlt
  unfold runStateMachine
  rw [hs] at hbetter hsame ⊢
  rw [hupdate]
  dsimp only
  rw [if_pos hbetter, hsame, toward]

theorem runStateMachine_resolve (hn : conn.node.node.OnChain env)
    (hread : ∀ k, Readable env o.now conn.node.node.access.committed k)
    (hs : conn.state = .forkDetect) (hc : conn.theClient = some client)
    (hlt : conn.localHeight < conn.height) :
    ∃ cache, conn.runStateMachine env o = ((conn.detecting cache).resolve env o
      (search env o client conn.node.node conn.localHeight.toNat)).map (true, ·) := by
  obtain ⟨hbetter, hsame⟩ := hasBetterChain_of_lt env o conn hc hlt
  unfold runStateMachine
  rw [hs, hbetter, hc, hsame, ← checkDigests_clearCache o client hn hread conn.node.cache]
  exact ⟨_, rfl⟩

/-- The search gives up, or finds a block that is too far down. -/
def Refused (height : UInt64) : Search → Prop
  | .retry => True
  | .exhausted => False
  | .found f => height - f ≥ forkProtection

theorem resolve_refused {r : Search} (h : Refused conn.localHeight r) :
    conn.resolve env o r = some { conn with state := .highestBlock } := by
  cases r with
  | retry => rfl
  | exhausted => exact h.elim
  | found f => exact if_pos h

/-- What the worlds of some turns have in common: each has an elected client with a longer chain,
and no such client gets its fork accepted in any of them. -/
structure Refusing (env : Env) (node : Node) (os : List Outside) : Prop where
  readable : ∀ o ∈ os, ∀ k, Readable env o.now node.access.committed k
  elected : ∀ o ∈ os, ∃ client height, o.elected = some (client, height)
  refused : ∀ o ∈ os, ∀ client height, o.elected = some (client, height) →
    node.header.height < height ∧
      ∀ o' ∈ os, Refused node.header.height (search env o' client node node.header.height.toNat)

/-- The state after a number of turns. -/
def phase (n : ℕ) : ConnectorState := if n % 2 = 0 then .highestBlock else .forkDetect

/-- The connector during the turns: a fork detection is about a client that was elected. -/
structure Circling (os : List Outside) (node : Node) (n : ℕ) (conn : Connector) : Prop where
  node_eq : conn.node.node = node
  state : conn.state = phase n
  elected : n % 2 = 1 → ∃ o ∈ os, ∃ client, conn.theClient = some client ∧
    o.elected = some (client, conn.height)

theorem Circling.turn {os : List Outside} {node : Node} (hn : node.OnChain env)
    (hos : Refusing env node os) (ho : o ∈ os) (h : Circling os node n conn) :
    ∃ conn', conn.runStateMachine env o = some (true, conn') ∧
      Circling os node (n + 1) conn' := by
  obtain ⟨rfl, hstate, helected⟩ := h
  rcases Nat.mod_two_eq_zero_or_one n with heven | hodd
  · -- to the fork detection
    obtain ⟨client, height, he⟩ := hos.elected o ho
    have hs : conn.state = .highestBlock := hstate.trans (if_pos heven)
    have hfirst := @runStateMachine_highestBlock env o conn client height hs he
      (hos.refused o ho client height he).1
    refine ⟨_, hfirst, rfl, ?_, fun _ => ⟨o, ho, client, rfl, he⟩⟩
    rw [phase, if_neg (by omega)]
    rfl
  · -- and back
    obtain ⟨o', ho', client, hc, he⟩ := helected hodd
    obtain ⟨hlt, hrefused⟩ := hos.refused o' ho' client conn.height he
    have hs : conn.state = .forkDetect := hstate.trans (if_neg (by omega))
    obtain ⟨cache, hsecond⟩ := runStateMachine_resolve hn (hos.readable o ho) hs hc hlt
    have hback := @resolve_refused env o (conn.detecting cache) _ (hrefused o ho)
    refine ⟨_, hsecond.trans (congrArg (Option.map _) hback), rfl, ?_, fun h => ?_⟩
    · rw [phase, if_pos (by omega)]
    · omega

theorem search_of_none {node : Node}
    (h : o.remoteDigestOfHeight client (.ofNat (n + 1)) = none) :
    search env o client node (n + 1) = .retry := by
  unfold search
  rw [h]
  cases currentDigest env node.access.committed (.ofNat (n + 1)) <;> rfl

/-- The client's blocks from a number on, stored one after the other, each in the world in which it
is fetched. -/
def follow (env : Env) (client : ℕ) : List Outside → UInt64 → Node → Option Node
  | [], _, node => some node
  | o :: os, start, node =>
    match o.getBlockData client start with
    | none => none
    | some packedBlock =>
      match storeIncoming env o.now (o.writeFails start) packedBlock none node with
      | (.ok (), node) => follow env client os (start + 1) node
      | (.error _, _) => none

/-- The worlds in which a number of blocks are fetched, if each turn fetches 200. -/
def fetched (m : ℕ) (os : List Outside) : List Outside := (os.flatMap (List.replicate 200)).take m

section Follow

variable {os os' : List Outside} {start : UInt64} {node node' : Node} {m : ℕ}

theorem length_fetched (h : m ≤ 200 * os.length) : (fetched m os).length = m := by
  have hlength : (os.flatMap (List.replicate 200)).length = 200 * os.length := by
    simp only [List.length_flatMap, List.length_replicate, List.map_const', List.sum_replicate,
      smul_eq_mul, Nat.mul_comm]
  rw [fetched, List.length_take, hlength, Nat.min_eq_left h]

theorem fetched_of_lt (hm : m < 200) : fetched m (o :: os) = List.replicate m o := by
  rw [fetched, List.flatMap_cons, List.take_append_of_le_length (by
    rw [List.length_replicate]
    exact hm.le), List.take_replicate, Nat.min_eq_left hm.le]

theorem fetched_add : fetched (200 + m) (o :: os) = List.replicate 200 o ++ fetched m os := by
  have htake (l l' : List Outside) : (l ++ l').take (l.length + m) = l ++ l'.take m :=
    List.take_length_add_append ..
  have h := htake (List.replicate 200 o) (os.flatMap (List.replicate 200))
  rwa [List.length_replicate] at h

theorem follow_cons (h : follow env client (o :: os) start node = some node') :
    ∃ b node₁, o.getBlockData client start = some b ∧
      storeIncoming env o.now (o.writeFails start) b none node = (.ok (), node₁) ∧
      follow env client os (start + 1) node₁ = some node' := by
  unfold follow at h
  split at h
  · cases h
  next b hb =>
    split at h
    next node₁ hstore => exact ⟨b, node₁, hb, hstore, h⟩
    next => cases h

theorem add_ofNat_succ (m : ℕ) : start + .ofNat (m + 1) = start + 1 + .ofNat m := by
  rw [UInt64.ofNat_add, UInt64.add_comm (.ofNat m), ← UInt64.add_assoc]
  rfl

theorem follow_append (h : follow env client (os ++ os') start node = some node') :
    ∃ node₁, follow env client os start node = some node₁ ∧
      follow env client os' (start + .ofNat os.length) node₁ = some node' := by
  induction os generalizing start node with
  | nil => exact ⟨node, rfl, (UInt64.add_zero start).symm ▸ h⟩
  | cons o os ih =>
    obtain ⟨b, node₁, hb, hstore, hrest⟩ := follow_cons h
    obtain ⟨node₂, hfirst, hlast⟩ := ih hrest
    refine ⟨node₂, ?_, by rwa [List.length_cons, add_ofNat_succ]⟩
    rw [follow, hb]
    dsimp only
    rw [hstore]
    exact hfirst

/-- Following a client puts its blocks on top of the chain. -/
theorem follow_spec (hn : node.OnChain env) (hstart : start.toNat = node.header.height.toNat + 1)
    (hroom : start.toNat + os.length < 2 ^ 64) (h : follow env client os start node = some node') :
    node'.OnChain env ∧ node'.header.height.toNat = node.header.height.toNat + os.length ∧
      SameUpTo node.header.height node.access.committed node'.access.committed ∧
      ∀ j o, os[j]? = some o → node'.access.committed.get .blocks (be64 (start + .ofNat j)) =
        o.getBlockData client (start + .ofNat j) := by
  induction os generalizing start node with
  | nil =>
    cases h
    exact ⟨hn, rfl, .refl _ _, fun j o hj => nomatch hj⟩
  | cons o os ih =>
    rw [List.length_cons] at hroom ⊢
    obtain ⟨b, node₁, hb, hstore, hrest⟩ := follow_cons h
    obtain ⟨hn₁, hheight, d, hpush⟩ := hn.stores hstore
    have hsucc := toNat_succ (h := start) (by omega)
    obtain ⟨hn', hheight', hsame, hblocks⟩ := ih hn₁ (by omega) (by omega) hrest
    have hlt : node.header.height < node₁.header.height := by
      rw [UInt64.lt_iff_toNat_lt]
      omega
    have hfirst : start = node₁.header.height := UInt64.toNat_inj.mp (by omega)
    refine ⟨hn', by omega, (hpush.sameUpTo hlt).trans (hsame.mono (UInt64.le_of_lt hlt)),
      fun j o' hj => ?_⟩
    cases j with
    | zero =>
      cases hj
      have hzero : start + .ofNat 0 = start := UInt64.add_zero start
      rw [hzero, (hsame start (UInt64.le_of_eq hfirst)).1, hb, hpush.blocks, hfirst]
      simp
    | succ j =>
      rw [add_ofNat_succ]
      exact hblocks j o' hj

/-- The fetch loop without fast sync, over blocks that are accepted. -/
theorem fetchLoop_follow (hfast : conn.fastSyncEnabled = false)
    (hend : conn.startBlockNumber.toNat + m ≤ conn.height.toNat + 1)
    (hroom : conn.height.toNat + 1 < 2 ^ 64)
    (h : follow env client (List.replicate m o) conn.startBlockNumber conn.node.node =
      some node') :
    conn.fetchLoop env o client (m + n) i none = { conn with
      node := ⟨node', conn.node.cache⟩
      startBlockNumber := conn.startBlockNumber + UInt64.ofNat m }.fetchLoop env o client n
        (i + m) none := by
  induction m generalizing conn i with
  | zero =>
    cases h
    simp
  | succ m ih =>
    obtain ⟨b, node₁, hget, hstore, hrest⟩ := follow_cons h
    have hsucc := toNat_succ (h := conn.startBlockNumber) (by omega)
    have hle : ¬ conn.startBlockNumber > conn.height := by
      rw [gt_iff_lt, UInt64.lt_iff_toNat_lt]
      omega
    have hih := @ih { conn with
      node := ⟨node₁, conn.node.cache⟩
      startBlockNumber := conn.startBlockNumber + 1 } (i + 1) hfast (by
        dsimp only
        omega) hroom hrest
    have hdata : (none <|> o.getBlockData client conn.startBlockNumber) = some b := hget
    have hprobe : conn.probe env o client i = (some true, conn.node.cache) := by simp [probe, hfast]
    have hnext : (if conn.fastSyncEnabled then o.getBlockData client (conn.startBlockNumber + 1)
      else none) = none := by simp [hfast]
    rw [Nat.add_right_comm, fetchLoop, if_neg hle, hdata]
    dsimp only
    rw [hprobe]
    dsimp only
    rw [hnext, hstore]
    dsimp only
    rw [hih]
    dsimp only
    rw [add_ofNat_succ, Nat.add_assoc, Nat.add_comm 1]

theorem turn_fetchBlocks (hs : conn.state = .fetchBlocks) (hc : conn.theClient = some client)
    (hfast : conn.fastSyncEnabled = false) :
    turn env conn o = (conn.fetchLoop env o client 200 0 none).map Prod.snd := by
  have hcycle : conn.blocksPerCycle = 200 := by simp [blocksPerCycle, hfast, fetchBlocksPerCycle]
  unfold turn runStateMachine
  rw [hs]
  dsimp only
  rw [hc]
  dsimp only
  rw [hcycle]

/-- The turns that fetch the blocks up to the client's height. -/
theorem execute_fetchBlocks (hs : conn.state = .fetchBlocks)
    (hc : conn.theClient = some client) (hfast : conn.fastSyncEnabled = false)
    (hend : conn.startBlockNumber.toNat + m = conn.height.toNat + 1)
    (hroom : conn.height.toNat + 1 < 2 ^ 64) (hturns : os.length = m / 200 + 1)
    (h : follow env client (fetched m os) conn.startBlockNumber conn.node.node = some node') :
    ∃ conn', execute (turn env) os conn = some conn' ∧
      conn'.state = .highestBlock ∧ conn'.node.node = node' := by
  induction os generalizing m conn with
  | nil => cases hturns
  | cons o os ih =>
    have hrun := @turn_fetchBlocks env o conn client hs hc hfast
    rw [List.length_cons] at hturns
    rcases Nat.lt_or_ge m 200 with hm | hm
    · -- the loop gets past the client's height within one turn
      obtain ⟨n, hn⟩ : ∃ n, 200 = m + (n + 1) := ⟨199 - m, by omega⟩
      obtain rfl : os = [] := List.length_eq_zero_iff.mp (by omega)
      have hlast : (conn.startBlockNumber + .ofNat m).toNat = conn.height.toNat + 1 := by
        rw [UInt64.toNat_add, UInt64.toNat_ofNat', Nat.add_mod_mod, hend]
        exact Nat.mod_eq_of_lt hroom
      have hpast : conn.startBlockNumber + .ofNat m > conn.height := by
        rw [gt_iff_lt, UInt64.lt_iff_toNat_lt, hlast]
        exact Nat.lt_succ_self _
      rw [fetched_of_lt hm] at h
      rw [hn, fetchLoop_follow hfast hend.le hroom h, fetchLoop, if_pos hpast] at hrun
      exact ⟨_, execute_cons_eq_some.mpr ⟨_, hrun, rfl⟩, rfl, rfl⟩
    · -- a whole turn stores 200 blocks
      obtain ⟨m, rfl⟩ : ∃ m', m = 200 + m' := ⟨m - 200, by omega⟩
      rw [fetched_add] at h
      obtain ⟨node₁, hfirst, hrest⟩ := follow_append h
      rw [List.length_replicate] at hrest
      have hnum : (conn.startBlockNumber + .ofNat 200).toNat =
          conn.startBlockNumber.toNat + 200 := by
        rw [UInt64.toNat_add]
        exact Nat.mod_eq_of_lt (show _ + 200 < 2 ^ 64 by omega)
      rw [← Nat.add_zero 200, fetchLoop_follow hfast (by omega) hroom hfirst] at hrun
      obtain ⟨conn', hexec, hlast⟩ := @ih { conn with
        node := ⟨node₁, conn.node.cache⟩
        startBlockNumber := conn.startBlockNumber + .ofNat 200 } m hs hc hfast
          (by dsimp only; omega) hroom (by omega) hrest
      exact ⟨conn', execute_cons_eq_some.mpr ⟨_, hrun, hexec⟩, hlast⟩

/-- The node has the client's chain above the highest common block, and its own up to there. -/
structure Follows (env : Env) (o : Outside) (os : List Outside) (client : ℕ) (f : UInt64)
    (conn conn' : Connector) : Prop where
  fork : ForkAt env o client conn.node.node conn.localHeight.toNat f
  state : conn'.state = .highestBlock
  onChain : conn'.node.node.OnChain env
  height : conn'.localHeight = conn.height
  below : SameUpTo f conn.node.node.access.committed conn'.node.node.access.committed
  above : ∀ j o, (fetched (conn.height.toNat - f.toNat) os)[j]? = some o →
    conn'.node.node.access.committed.get .blocks (be64 (f + 1 + .ofNat j)) =
      o.getBlockData client (f + 1 + .ofNat j)

/-- **Following a client.** If the blocks of an elected client are accepted in the turns in which
they are fetched, the node has its chain after a number of turns that is known beforehand. -/
theorem follows_client {f : UInt64} {deleted : Node} (hn : conn.node.node.OnChain env)
    (hread : ∀ k, Readable env o.now conn.node.node.access.committed k)
    (hs : conn.state = .forkDetect) (hc : conn.theClient = some client)
    (hfast : conn.fastSyncEnabled = false) (hlt : conn.localHeight < conn.height)
    (hroom : conn.height.toNat + 1 < 2 ^ 64)
    (hsearch : search env o client conn.node.node conn.localHeight.toNat = .found f)
    (hnear : conn.localHeight.toNat < f.toNat + 60)
    (hdelete : Bitmarkd.deleteDownToBlock env o.now (f + 1) conn.node.node = (.ok (), deleted))
    (hturns : os.length = (conn.height.toNat - f.toNat) / 200 + 1)
    (hfollow : (follow env client (fetched (conn.height.toNat - f.toNat) os) (f + 1)
      deleted).isSome) :
    ∃ conn', execute (turn env) (o :: os) conn = some conn' ∧
      Follows env o os client f conn conn' := by
  obtain ⟨node', hfollow⟩ := Option.isSome_iff_exists.mp hfollow
  have hfork := forkAt_of_search conn.localHeight.toNat_lt hsearch
  have hrange : f.toNat ≤ conn.localHeight.toNat := hfork.1.2
  have hhigher := UInt64.lt_iff_toNat_lt.mp hlt
  have hsucc := toNat_succ (h := f) (by omega)
  obtain ⟨hchain, hheight, hsame⟩ := hn.deletes hfork.1.1 (UInt64.le_iff_toNat_le.mpr hrange)
    (by omega) hdelete
  have hnear : ¬ conn.localHeight - f ≥ forkProtection := by
    rw [forkProtection_le_iff hrange]
    omega
  -- the turn that finds the fork
  obtain ⟨cache, hfound⟩ := runStateMachine_resolve hn hread hs hc hlt
  obtain ⟨cache', hdeleted⟩ := @deleteDownToBlock_of_ok env o
    { conn.detecting cache with startBlockNumber := f + 1 } (f + 1) deleted hdelete
  rw [hsearch, resolve, if_neg (show ¬ (conn.detecting cache).localHeight - f ≥ _ from hnear),
    hdeleted] at hfound
  -- the turns that fetch
  obtain ⟨conn', hexec, hstate, rfl⟩ := @execute_fetchBlocks env { conn.detecting cache with
    startBlockNumber := f + 1, node := ⟨deleted, cache'⟩ } client os node' _ rfl hc hfast
    (show (f + 1).toNat + _ = conn.height.toNat + 1 by omega) hroom hturns hfollow
  have hlength : (fetched (conn.height.toNat - f.toNat) os).length =
    conn.height.toNat - f.toNat := length_fetched (by omega)
  obtain ⟨hchain', hheight', hsame', hblocks⟩ :=
    follow_spec hchain (by rw [hheight, hsucc]) (by omega) hfollow
  rw [hheight] at hheight' hsame'
  have htop : conn'.node.node.header.height = conn.height := UInt64.toNat_inj.mp (by omega)
  exact ⟨conn', execute_cons_eq_some.mpr ⟨_, by rw [turn, hfound]; rfl, hexec⟩, hfork, hstate,
    hchain', htop, hsame.trans hsame', hblocks⟩

/-- The node gives up its block 3, and fetches blocks 3 and 4. -/
theorem follows_client_parted : ∃ conn',
    execute (turn Sample.env) [Sample.world 1000, Sample.world 1001] Sample.detecting =
      some conn' ∧
      Follows Sample.env (Sample.world 1000) [Sample.world 1001] 0 2 Sample.detecting conn' := by
  have hheight : Sample.detecting.localHeight = 3 := Sample.height_ownNode
  have hsearch : search Sample.env (Sample.world 1000) 0 Sample.ownNode 3 =
      .found 2 := by
    decide +kernel
  have hdeleted : (Bitmarkd.deleteDownToBlock Sample.env 1000 (2 + 1)
      Sample.ownNode).1.isOk = true := by
    decide +kernel
  have hfollow : (follow Sample.env 0 (fetched 2 [Sample.world 1001]) (2 + 1)
      (Bitmarkd.deleteDownToBlock Sample.env 1000 (2 + 1)
        Sample.ownNode).2).isSome = true := by
    decide +kernel
  refine @follows_client Sample.env (Sample.world 1000) Sample.detecting 0 [Sample.world 1001] 2 _
    Sample.onChain_ownNode (Sample.readable_ownNode _) rfl rfl rfl ?_ (by decide) ?_ ?_
    (@Sample.step_of_isOk (.deleteDownToBlock 1000 (2 + 1)) Sample.ownNode hdeleted) rfl hfollow
  · rw [hheight]
    decide
  · rw [hheight]
    exact hsearch
  · rw [hheight]
    decide

end Follow

end Peer.Connector

end Bitmarkd
