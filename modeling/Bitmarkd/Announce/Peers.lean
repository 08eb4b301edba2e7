import Bitmarkd.Announce.Receptor
import Bitmarkd.Lib.Run

/-!
# The peers of a receptor

What the calls of `receptor.go` do, in terms of the list of the peers in the order of their keys. In
every state that the calls reach, the tree is in order, every entry has the public key of its
entity, and the own node, once there is one, is a node of the tree with the own key
(`ReceptorRun.holds`). **`Expire` visits every entry once and removes exactly the stale ones**
(`expire_exact`).
-/

namespace Bitmarkd.Announce

open Lib Avl

/-! ## Peers in the tree -/

/-- An entry of the tree: the node and its entity. -/
structure Peer where
  addr : Addr
  entity : Entity
deriving DecidableEq

/-- The entry in the tree, whose key is the public key of the entity. -/
def Peer.entry (p : Peer) : Entry Bytes Entity := ⟨p.addr, p.entity.publicKey, some p.entity⟩

/-- The tree is a valid one, of these peers in the order of their keys. -/
def Contains (m : Connectable) (l : List Peer) : Prop :=
  ∃ t frees, Valid compareId m t frees ∧ t.entries = l.map Peer.entry

theorem compareId_eq_neg_one {a b : Bytes} : compareId a b = -1 ↔ a < b := by
  unfold compareId
  by_cases h : a < b
  · simp [h]
  · by_cases h' : a = b <;> simp [h, h']

theorem totalOrder_compareId : TotalOrder compareId where
  values a b := by
    unfold compareId
    split_ifs <;> simp
  eq_zero a b := by
    unfold compareId
    by_cases h : a < b
    · simp [h, h.ne]
    · by_cases h' : a = b <;> simp [h, h']
  swap a b := by
    unfold compareId
    rcases lt_trichotomy a b with h | h | h
    · simp [h, h.not_gt, h.ne']
    · simp [h]
    · simp [h, h.not_gt, h.ne']
  trans a b c := by
    rw [compareId_eq_neg_one, compareId_eq_neg_one, compareId_eq_neg_one]
    exact lt_trans

namespace Contains

variable {m : Connectable} {l l₁ l₂ : List Peer} {p : Peer} {depth : ℕ}

theorem sorted (h : Contains m l) :
    l.Pairwise fun p q => p.entity.publicKey < q.entity.publicKey := by
  obtain ⟨t, frees, hvalid, hentries⟩ := h
  have hsorted := hvalid.sorted
  rw [hentries, Sorted, List.pairwise_map] at hsorted
  exact hsorted.imp compareId_eq_neg_one.mp

theorem count (h : Contains m l) : m.count = l.length := by
  obtain ⟨t, frees, hvalid, hentries⟩ := h
  rw [hvalid.count, ← Shape.length_entries, hentries, List.length_map]

theorem depthOf_eq (h : Contains m l) : depthOf m = l.length + 1 := by
  rw [depthOf, h.count, Int.toNat_natCast]

theorem size {t : Shape Bytes Entity} (h : t.entries = l.map Peer.entry) : t.size = l.length := by
  rw [← Shape.length_entries, h, List.length_map]

theorem height_lt {t : Shape Bytes Entity} (h : t.entries = l.map Peer.entry)
    (hdepth : l.length < depth) : t.height < depth :=
  (size h ▸ Shape.height_le_size t).trans_lt hdepth

theorem statistics (h : Contains m l) (hdepth : l.length < depth) :
    OrderStatistics compareId depth m (l.map Peer.entry) := by
  obtain ⟨t, frees, hvalid, hentries⟩ := h
  rw [← hentries]
  exact hvalid.orderStatistics totalOrder_compareId (by rwa [size hentries])

theorem nodup (h : Contains m l) : (l.map Peer.addr).Nodup := by
  obtain ⟨t, frees, hvalid, hentries⟩ := h
  have hnodup := hvalid.nodup
  rw [Shape.addrs, hentries, List.map_map] at hnodup
  exact hnodup

theorem node (h : Contains m l) (hp : p ∈ l) :
    (m.heap p.addr).key = some p.entity.publicKey ∧ (m.heap p.addr).value = some p.entity := by
  obtain ⟨t, frees, hvalid, hentries⟩ := h
  exact hvalid.rep.node (e := p.entry) (by rw [hentries]; exact List.mem_map_of_mem hp)

theorem entityOf (h : Contains m l) (hp : p ∈ l) :
    Announce.entityOf (some p.addr) m = some (p.entity, m) := by
  rw [Announce.entityOf, bind_run, deref_run]
  dsimp only [Option.bind_some]
  rw [(h.node hp).2]
  rfl

theorem keyOf (h : Contains m l) (hp : p ∈ l) :
    Announce.keyOf (some p.addr) m = some (p.entity.publicKey, m) := by
  rw [Announce.keyOf, bind_run, deref_run]
  dsimp only [Option.bind_some]
  rw [(h.node hp).1]
  rfl

theorem search {i : ℕ} (h : Contains m l) (hdepth : l.length < depth) (hp : l[i]? = some p) :
    treeSearch compareId depth p.entity.publicKey m = some ((some p.addr, (i : ℤ)), m) :=
  (h.statistics hdepth).search i p.entry (by rw [List.getElem?_map, hp]; rfl)

theorem search_none {key : Bytes} (h : Contains m l) (hdepth : l.length < depth)
    (hkey : ∀ p ∈ l, p.entity.publicKey ≠ key) :
    treeSearch compareId depth key m = some ((none, -1), m) := by
  apply (h.statistics hdepth).search_none
  intro e he
  obtain ⟨p, hp, rfl⟩ := List.mem_map.mp he
  exact hkey p hp

theorem get (h : Contains m l) (hdepth : l.length < depth) (i : ℕ) :
    treeGet depth i m = some (l[i]?.map Peer.addr, m) := by
  rw [(h.statistics hdepth).get i, if_neg (by omega), Int.toNat_natCast, List.getElem?_map,
    Option.map_map]
  rfl

/-- The tree has one list of peers. -/
theorem unique {l' : List Peer} (h : Contains m l) (h' : Contains m l') : l = l' := by
  have hlength : l.length = l'.length := by
    have hcount := h.count
    rw [h'.count] at hcount
    exact_mod_cast hcount.symm
  apply List.ext_getElem?
  intro i
  have hget := h.get (Nat.lt_succ_self _) i
  rw [hlength, h'.get (Nat.lt_succ_self _) i] at hget
  have haddr : l'[i]?.map Peer.addr = l[i]?.map Peer.addr := (Prod.mk.inj (Option.some.inj hget)).1
  cases hp : l[i]? with
  | none =>
    rw [hp] at haddr
    exact (Option.map_eq_none_iff.mp haddr).symm
  | some p =>
    rw [hp] at haddr
    obtain ⟨p', hp', heq⟩ := Option.map_eq_some_iff.mp haddr
    have hentity := h.entityOf (List.mem_of_getElem? hp)
    rw [← heq, h'.entityOf (List.mem_of_getElem? hp')] at hentity
    rw [hp']
    cases p
    cases p'
    cases heq
    cases hentity
    rfl

theorem first (h : Contains m l) (hdepth : l.length < depth) :
    treeFirst depth m = some (l.head?.map Peer.addr, m) := by
  obtain ⟨t, frees, hvalid, hentries⟩ := h
  have hload : m.load .root = t.addr := hvalid.root
  rw [treeFirst, bind_run, load_run, hload]
  dsimp only [Option.bind_some]
  have hrun := outermost_spec (s := .right) hvalid.rep
    (height_lt hentries hdepth).le
  rw [Shape.walk, hentries, List.head?_map, Option.map_map] at hrun
  exact hrun

theorem last (h : Contains m l) (hdepth : l.length < depth) :
    treeLast depth m = some (l.getLast?.map Peer.addr, m) := by
  obtain ⟨t, frees, hvalid, hentries⟩ := h
  have hload : m.load .root = t.addr := hvalid.root
  rw [treeLast, bind_run, load_run, hload]
  dsimp only [Option.bind_some]
  have hrun := outermost_spec (s := .left) hvalid.rep
    (height_lt hentries hdepth).le
  rw [Shape.walk, hentries, List.head?_reverse, List.getLast?_map, Option.map_map] at hrun
  exact hrun

theorem next (h : Contains m (l₁ ++ p :: l₂)) (hdepth : (l₁ ++ p :: l₂).length < depth) :
    Avl.next compareId depth (some p.addr) m = some (l₂.head?.map Peer.addr, m) := by
  obtain ⟨t, frees, hvalid, hentries⟩ := h
  have hsplit : t.walk .right = l₁.map Peer.entry ++ p.entry :: l₂.map Peer.entry := by
    rw [Shape.walk, hentries, List.map_append, List.map_cons]
  have hrun := neighbour_spec totalOrder_compareId hvalid.rep hvalid.sorted
    (height_lt hentries hdepth) hsplit
  rw [List.head?_map, Option.map_map] at hrun
  exact hrun

theorem delete (h : Contains m (l₁ ++ p :: l₂)) (hdepth : (l₁ ++ p :: l₂).length < depth) :
    ∃ value m', treeDelete compareId depth p.entity.publicKey m = some (value, m') ∧
      Contains m' (l₁ ++ l₂) := by
  obtain ⟨t, frees, hvalid, hentries⟩ := h
  obtain ⟨t', frees', m', hrun, hvalid', hentries'⟩ :=
    treeDelete_spec totalOrder_compareId hvalid (height_lt hentries hdepth) p.entity.publicKey
  refine ⟨_, m', hrun, t', frees', hvalid', ?_⟩
  have hsorted := hvalid.sorted
  rw [hentries, List.map_append, List.map_cons] at hsorted
  rw [hentries', hentries, List.map_append, List.map_cons, List.map_append]
  exact deleteEntry_append totalOrder_compareId hsorted

/-- The entity replaces the one of its key, or it goes to a new place. -/
inductive Put (e : Entity) : List Peer → List Peer → Prop
  | replace (l₁ : List Peer) (p : Peer) (l₂ : List Peer) (h : p.entity.publicKey = e.publicKey) :
    Put e (l₁ ++ p :: l₂) (l₁ ++ ⟨p.addr, e⟩ :: l₂)
  | new (l₁ : List Peer) (a : Addr) (l₂ : List Peer) : Put e (l₁ ++ l₂) (l₁ ++ ⟨a, e⟩ :: l₂)

theorem Put.cons {e : Entity} {l' : List Peer} (h : Put e l l') (p : Peer) :
    Put e (p :: l) (p :: l') := by
  cases h with
  | replace l₁ q l₂ hq => exact .replace (p :: l₁) q l₂ hq
  | new l₁ a l₂ => exact .new (p :: l₁) a l₂

/-- Every peer was there, or has the entity. -/
theorem Put.mem {e : Entity} {l' : List Peer} (h : Put e l l') (hp : p ∈ l') :
    (∃ q ∈ l, p.entity = q.entity) ∨ p.entity = e := by
  cases h with
  | replace l₁ q l₂ _ =>
    simp only [List.mem_append, List.mem_cons] at hp ⊢
    rcases hp with hp | rfl | hp
    · exact .inl ⟨p, .inl hp, rfl⟩
    · exact .inr rfl
    · exact .inl ⟨p, .inr (.inr hp), rfl⟩
  | new l₁ a l₂ =>
    simp only [List.mem_append, List.mem_cons] at hp ⊢
    rcases hp with hp | rfl | hp
    · exact .inl ⟨p, .inl hp, rfl⟩
    · exact .inr rfl
    · exact .inl ⟨p, .inr hp, rfl⟩

/-- An entity whose key is behind all others goes to the end. -/
theorem Put.last {e : Entity} {l' : List Peer} (h : Put e l l')
    (hbefore : ∀ p ∈ l, p.entity.publicKey < e.publicKey) (htree : Contains m l') :
    ∃ a, l' = l ++ [⟨a, e⟩] := by
  cases h with
  | replace l₁ q l₂ hq => exact ((hbefore q (by simp)).ne hq).elim
  | new l₁ a l₂ =>
    refine ⟨a, ?_⟩
    cases l₂ with
    | nil => rw [List.append_nil]
    | cons q l₂ =>
      have hright := (List.pairwise_append.mp htree.sorted).2.1
      have hlt := (List.pairwise_cons.mp hright).1 q List.mem_cons_self
      exact (lt_asymm hlt (hbefore q (by simp))).elim

theorem put_insertEntry (a : Addr) (e : Entity) (l : List Peer) :
    ∃ l', insertEntry compareId ⟨a, e.publicKey, some e⟩ (l.map Peer.entry) = l'.map Peer.entry ∧
      Put e l l' := by
  induction l with
  | nil => exact ⟨[⟨a, e⟩], rfl, .new [] a []⟩
  | cons p l ih =>
    rw [List.map_cons, insertEntry]
    by_cases hgt : compareId p.entry.key e.publicKey = 1
    · rw [if_pos hgt]
      exact ⟨⟨a, e⟩ :: p :: l, rfl, .new [] a (p :: l)⟩
    · rw [if_neg hgt]
      by_cases hlt : compareId p.entry.key e.publicKey = -1
      · rw [if_pos hlt]
        obtain ⟨l', hl', hput⟩ := ih
        exact ⟨p :: l', by rw [hl', List.map_cons], hput.cons p⟩
      · rw [if_neg hlt]
        have hkey : p.entity.publicKey = e.publicKey := totalOrder_compareId.eq_of_not hgt hlt
        refine ⟨⟨p.addr, e⟩ :: l, ?_, .replace [] p l hkey⟩
        rw [List.map_cons, Peer.entry, Peer.entry, hkey]

theorem insert (h : Contains m l) (hdepth : l.length < depth) (e : Entity) :
    ∃ added m' l', treeInsert compareId depth e.publicKey (some e) m = some (added, m') ∧
      Contains m' l' ∧ Put e l l' := by
  obtain ⟨t, frees, hvalid, hentries⟩ := h
  obtain ⟨a, t', frees', m', hrun, hvalid', hentries'⟩ :=
    treeInsert_spec totalOrder_compareId hvalid (height_lt hentries hdepth) e.publicKey (some e)
  obtain ⟨l', hl', hput⟩ := put_insertEntry a e l
  refine ⟨_, m', l', hrun, ⟨t', frees', hvalid', ?_⟩, hput⟩
  rw [hentries', hentries, hl']

theorem setEntity (h : Contains m (l₁ ++ p :: l₂)) {e : Entity}
    (hkey : e.publicKey = p.entity.publicKey) :
    ∃ m', assign (some p.addr) ({ · with value := some e }) m = some ((), m') ∧
      Contains m' (l₁ ++ ⟨p.addr, e⟩ :: l₂) := by
  obtain ⟨t, frees, hvalid, hentries⟩ := h
  have haddrs : t.addrs = (l₁ ++ p :: l₂).map Peer.addr := by
    rw [Shape.addrs, hentries, List.map_map]
    rfl
  refine ⟨_, rfl, t.setValue p.addr (some e), frees, hvalid.setValue ?_, ?_⟩
  · rw [haddrs]
    exact List.mem_map_of_mem (by simp)
  · have hnodup := hvalid.nodup
    rw [haddrs, List.map_append, List.map_cons] at hnodup
    -- the address is that of one node only
    have hother (q : Peer) (hq : q ∈ l₁ ∨ q ∈ l₂) :
        q.entry.setValue p.addr (some e) = q.entry := by
      apply if_neg
      intro haddr
      have hdisjoint := (List.nodup_middle.mp hnodup).notMem
      apply hdisjoint
      rw [← List.map_append, ← haddr]
      exact List.mem_map_of_mem (List.mem_append.mpr hq)
    have hself : p.entry.setValue p.addr (some e) = Peer.entry ⟨p.addr, e⟩ := by
      show (if p.addr = p.addr then (⟨p.addr, p.entity.publicKey, some e⟩ : Entry _ _) else _) = _
      rw [if_pos rfl, Peer.entry, hkey]
    rw [entries_setValue, hentries, List.map_map, List.map_append, List.map_cons, List.map_append,
      List.map_cons, Function.comp_apply, hself]
    congr 1
    · exact List.map_congr_left fun q hq => hother q (.inl hq)
    · congr 1
      exact List.map_congr_left fun q hq => hother q (.inr hq)

end Contains

/-! ## Calls -/

section Calls

variable {α β : Type} {r r' : Receptor} {x : α} {m : Connectable}

theorem bind_of {c : Call α} {f : α → Call β} (h : c r = some (x, r')) :
    (c >>= f) r = f x r' := by
  show (c r).bind _ = _
  rw [h]
  rfl

theorem onTree_of {code : Code Bytes Entity α} (h : code r.connectable = some (x, m)) :
    onTree code r = some (x, { r with connectable := m }) := by
  rw [onTree, h]
  rfl

/-- What only reads the tree. -/
theorem onTree_read {code : Code Bytes Entity α}
    (h : code r.connectable = some (x, r.connectable)) : onTree code r = some (x, r) := onTree_of h

theorem get_bind {f : Receptor → Call β} : (get >>= f) r = f r r := rfl

theorem modify_bind {g : Receptor → Receptor} {f : Unit → Call β} :
    (modify g >>= f) r = f () (g r) := rfl

end Calls

namespace Receptor

/-- The receptor knows these peers: they are in its tree, and its own node is one of them, with its
own key. -/
structure Holds (r : Receptor) (l : List Peer) : Prop where
  tree : Contains r.connectable l
  self : ∀ a, r.self = some a → ∃ p ∈ l, p.addr = a ∧ p.entity.publicKey = r.id
  initialised : r.self ≠ none → r.initialised = true

variable {r r' : Receptor} {l l' l₁ l₂ : List Peer} {p : Peer} {now : ℤ} {depth : ℕ}

theorem holds_new : new.Holds [] where
  tree := ⟨.nil, [], ⟨rfl, trivial, trivial, List.Pairwise.nil, rfl, rfl, rfl, List.nodup_nil,
    fun _ h => nomatch h⟩, rfl⟩
  self _ h := nomatch h
  initialised h := (h rfl).elim

/-- What is not in the tree. -/
structure SameSelf (r r' : Receptor) : Prop where
  self : r'.self = r.self
  id : r'.id = r.id
  initialised : r'.initialised = r.initialised

theorem SameSelf.refl (r : Receptor) : SameSelf r r := ⟨rfl, rfl, rfl⟩

/-- The own node stays, if every peer with its key does. -/
theorem Holds.change (h : r.Holds l) (hsame : SameSelf r r') (htree : Contains r'.connectable l')
    (hself : ∀ p ∈ l, p.entity.publicKey = r.id →
      ∃ p' ∈ l', p'.addr = p.addr ∧ p'.entity.publicKey = p.entity.publicKey) : r'.Holds l' where
  tree := htree
  self a ha := by
    rw [hsame.self] at ha
    obtain ⟨p, hp, haddr, hkey⟩ := h.self a ha
    obtain ⟨p', hp', haddr', hkey'⟩ := hself p hp hkey
    exact ⟨p', hp', haddr'.trans haddr, hkey'.trans (hkey.trans hsame.id.symm)⟩
  initialised hne := by
    rw [hsame.self] at hne
    exact hsame.initialised.trans (h.initialised hne)

theorem exists_of_put {e : Entity} (h : Contains.Put e l l') (hp : p ∈ l) :
    ∃ p' ∈ l', p'.addr = p.addr ∧ p'.entity.publicKey = p.entity.publicKey := by
  cases h with
  | new l₁ a l₂ =>
    refine ⟨p, ?_, rfl, rfl⟩
    simp only [List.mem_append, List.mem_cons] at hp ⊢
    tauto
  | replace l₁ q l₂ hq =>
    rcases List.mem_append.mp hp with hp | hp
    · exact ⟨p, List.mem_append_left _ hp, rfl, rfl⟩
    · rcases List.mem_cons.mp hp with rfl | hp
      · exact ⟨⟨p.addr, e⟩, by simp, rfl, hq.symm⟩
      · exact ⟨p, by simp [hp], rfl, rfl⟩

/-! ### `Add` -/

/-- `Search` finds the node of a key, or none. -/
theorem Holds.search (h : r.Holds l) (hdepth : l.length < depth) (key : Bytes) :
    (∃ p ∈ l, ∃ i : ℤ, p.entity.publicKey = key ∧
      onTree (treeSearch compareId depth key) r = some ((some p.addr, i), r)) ∨
    (∀ p ∈ l, p.entity.publicKey ≠ key) ∧
      onTree (treeSearch compareId depth key) r = some ((none, -1), r) := by
  by_cases hkey : ∃ p ∈ l, p.entity.publicKey = key
  · obtain ⟨p, hp, rfl⟩ := hkey
    obtain ⟨i, hi⟩ := List.getElem?_of_mem hp
    exact .inl ⟨p, hp, i, rfl, onTree_read (h.tree.search hdepth hi)⟩
  · push Not at hkey
    exact .inr ⟨hkey, onTree_read (h.tree.search_none hdepth hkey)⟩

theorem insertEntity_spec (h : r.Holds l) (hdepth : l.length < depth) (e : Entity) :
    ∃ added r' l', insertEntity depth e r = some (added, r') ∧ r'.Holds l' ∧ SameSelf r r' ∧
      Contains.Put e l l' := by
  obtain ⟨recordAdded, m', l', hrun, htree, hput⟩ := h.tree.insert hdepth e
  rw [insertEntity, bind_of (onTree_of hrun), get_bind]
  have hholds {r' : Receptor} (hsame : SameSelf r r') (hm : r'.connectable = m') : r'.Holds l' :=
    h.change hsame (hm ▸ htree) fun p hp _ => exists_of_put hput hp
  by_cases hid : r.id = e.publicKey
  · rw [if_pos hid]
    exact ⟨false, _, l', rfl, hholds ⟨rfl, rfl, rfl⟩ rfl, ⟨rfl, rfl, rfl⟩, hput⟩
  · rw [if_neg hid, modify_bind]
    exact ⟨true, _, l', rfl, hholds ⟨rfl, rfl, rfl⟩ rfl, ⟨rfl, rfl, rfl⟩, hput⟩

/-- `Add` leaves the peers as they are, if the new one is expired or its key is there already, or it
puts the new one in its place. -/
theorem add_spec (h : r.Holds l) (now : ℤ) (publicKey listeners : Bytes) (timestamp : UInt64) :
    ∃ added r' l', add now publicKey listeners timestamp r = some (added, r') ∧ r'.Holds l' ∧
      SameSelf r r' ∧
      ((l' = l ∧ (isExpiredAfterDuration now (resetFutureTimestampToNow now timestamp)
          expiryInterval ∨ ∃ p ∈ l, p.entity.publicKey = publicKey)) ∨
        ¬ isExpiredAfterDuration now (resetFutureTimestampToNow now timestamp) expiryInterval ∧
          Contains.Put ⟨publicKey, listeners, resetFutureTimestampToNow now timestamp⟩ l l') := by
  unfold add
  dsimp only
  generalize resetFutureTimestampToNow now timestamp = ts
  by_cases hexpired : isExpiredAfterDuration now ts expiryInterval
  · rw [if_pos hexpired]
    exact ⟨false, r, l, rfl, h, .refl r, .inl ⟨rfl, .inl hexpired⟩⟩
  rw [if_neg hexpired, get_bind, h.tree.depthOf_eq]
  obtain ⟨added, r', l', hrun, hholds, hsame, hput⟩ :=
    insertEntity_spec h (Nat.lt_succ_self _) ⟨publicKey, listeners, ts⟩
  rcases h.search (Nat.lt_succ_self _) publicKey with ⟨p, hp, i, hkey, hsearch⟩ | ⟨-, hsearch⟩
  · rw [bind_of hsearch]
    dsimp only
    have hrecent : isRecent ts (some p.addr) r =
        some (decide (ts - p.entity.timestamp < rebroadcastInterval), r) := by
      rw [isRecent, bind_of (onTree_read (h.tree.entityOf hp))]
      rfl
    rw [bind_of hrecent]
    by_cases hlt : ts - p.entity.timestamp < rebroadcastInterval
    · rw [if_pos (decide_eq_true hlt)]
      exact ⟨false, r, l, rfl, h, .refl r, .inl ⟨rfl, .inr ⟨p, hp, hkey⟩⟩⟩
    · rw [if_neg (by rwa [decide_eq_true_iff]), hrun]
      exact ⟨added, r', l', rfl, hholds, hsame, .inr ⟨hexpired, hput⟩⟩
  · rw [bind_of hsearch]
    dsimp only
    rw [bind_of (show isRecent ts none r = some (false, r) from rfl), if_neg (by decide), hrun]
    exact ⟨added, r', l', rfl, hholds, hsame, .inr ⟨hexpired, hput⟩⟩

/-! ### `UpdateTime` -/

theorem updateTime_spec (h : r.Holds l) (publicKey : Bytes) (timestamp : ℤ) :
    ∃ r' l', updateTime publicKey timestamp r = some ((), r') ∧ r'.Holds l' ∧ SameSelf r r' := by
  rw [updateTime, get_bind, h.tree.depthOf_eq]
  rcases h.search (Nat.lt_succ_self _) publicKey with ⟨p, hp, i, hkey, hsearch⟩ | ⟨-, hsearch⟩
  · rw [bind_of hsearch]
    dsimp only
    rw [bind_of (onTree_read (h.tree.entityOf hp))]
    obtain ⟨l₁, l₂, rfl⟩ := List.append_of_mem hp
    let e : Entity := { p.entity with timestamp }
    obtain ⟨m', hrun, htree⟩ := h.tree.setEntity (e := e) rfl
    refine ⟨_, _, onTree_of hrun, h.change ⟨rfl, rfl, rfl⟩ htree ?_, ⟨rfl, rfl, rfl⟩⟩
    intro q hq _
    exact exists_of_put (.replace l₁ p l₂ rfl) hq
  · rw [bind_of hsearch]
    exact ⟨r, l, rfl, h, .refl r⟩

/-! ### `Expire` -/

/-- The peer is removed. -/
def Stale (id : Bytes) (now : ℤ) (p : Peer) : Prop :=
  id ≠ p.entity.publicKey ∧ p.entity.timestamp + expiryInterval < now

instance (id : Bytes) (now : ℤ) : DecidablePred (Stale id now) := fun _ =>
  inferInstanceAs (Decidable (_ ∧ _))

/-- What is sent about a peer that is removed. -/
def deleteMessage (p : Peer) : Message := ⟨.delete, p.entity.publicKey, p.entity.listeners⟩

/-- The loop from a node on: those before it stay, and of those from it on the stale ones go. -/
theorem expireLoop_spec {turns : ℕ} (h : r.Holds (l₁ ++ l₂))
    (hdepth : (l₁ ++ l₂).length < depth) (hturns : l₂.length < turns) :
    ∃ r', expireLoop depth now turns (l₂.head?.map Peer.addr) r =
        some ((l₂.map Peer.addr, (l₂.filter (Stale r.id now)).map deleteMessage), r') ∧
      r'.Holds (l₁ ++ l₂.filter (¬ Stale r.id now ·)) ∧ SameSelf r r' := by
  induction l₂ generalizing r l₁ turns with
  | nil =>
    obtain ⟨turns, rfl⟩ : ∃ n, turns = n + 1 := ⟨turns - 1, by simp at hturns; omega⟩
    exact ⟨r, rfl, h, .refl r⟩
  | cons p l₂ ih =>
    rw [List.length_cons] at hturns
    obtain ⟨turns, rfl⟩ : ∃ n, turns = n + 1 := ⟨turns - 1, by omega⟩
    have hp : p ∈ l₁ ++ p :: l₂ := by simp
    rw [List.head?_cons, Option.map_some, expireLoop,
      bind_of (onTree_read (h.tree.entityOf hp)), bind_of (onTree_read (h.tree.keyOf hp)),
      bind_of (onTree_read (h.tree.next hdepth)), get_bind]
    by_cases hstale : Stale r.id now p
    · have hcondition : r.id ≠ p.entity.publicKey ∧ p.entity.timestamp + expiryInterval < now :=
        hstale
      rw [if_pos hcondition]
      obtain ⟨value, m', hdelete, htree⟩ := h.tree.delete hdepth
      have hholds :
          ({ r with connectable := m', changed := true } : Receptor).Holds (l₁ ++ l₂) := by
        refine h.change ⟨rfl, rfl, rfl⟩ htree fun q hq hid => ⟨q, ?_, rfl, rfl⟩
        -- the own peer is not the one that goes
        have hne : q ≠ p := fun hqp => hstale.1 (hqp ▸ hid.symm)
        simp only [List.mem_append, List.mem_cons] at hq ⊢
        tauto
      rw [bind_of (onTree_of hdelete), modify_bind]
      obtain ⟨r', hrun, hholds', hsame⟩ :=
        ih hholds (by simp at hdepth ⊢; omega) (show l₂.length < turns by omega)
      rw [bind_of hrun, List.filter_cons_of_pos (by simpa using hstale),
        List.filter_cons_of_neg (by simpa using hstale)]
      exact ⟨r', rfl, hholds', ⟨hsame.self, hsame.id, hsame.initialised⟩⟩
    · have hcondition :
          ¬ (r.id ≠ p.entity.publicKey ∧ p.entity.timestamp + expiryInterval < now) := hstale
      rw [if_neg hcondition]
      rw [List.append_cons] at h hdepth
      obtain ⟨r', hrun, hholds', hsame⟩ := 
        ih h hdepth (show l₂.length < turns by omega)
      rw [bind_of hrun, List.filter_cons_of_neg (by simpa using hstale),
        List.filter_cons_of_pos (by simpa using hstale), List.append_cons]
      exact ⟨r', rfl, hholds', hsame⟩

theorem expire_spec (h : r.Holds l) (now : ℤ) : ∃ r', expire now r =
      some ((l.map Peer.addr, (l.filter (Stale r.id now)).map deleteMessage), r') ∧
    r'.Holds (l.filter (¬ Stale r.id now ·)) ∧ SameSelf r r' := by
  rw [expire, get_bind, h.tree.depthOf_eq,
    bind_of (onTree_read (h.tree.first (Nat.lt_succ_self _)))]
  have hdepth : ([] ++ l).length < l.length + 1 := by simp
  exact expireLoop_spec (show r.Holds ([] ++ l) from h) hdepth (Nat.lt_succ_self _)

/-! ### `ReBalance` -/

/-- The offsets that `ReBalance` uses: not that of the node itself, and none twice in a row. -/
def chosen (index : ℤ) : ℤ → List (Command × ℤ) → List (Command × ℤ)
  | _, [] => []
  | u, x :: n =>
    if x.2 = index ∨ x.2 = u then chosen index u n else x :: chosen index x.2 n

/-- The message about the peer at an offset, if there is one. -/
def connection (l : List Peer) (count : ℤ) (x : Command × ℤ) : List Message :=
  let v := if x.2 ≥ count then x.2 - count else x.2
  if v < 0 then []
  else (l[v.toNat]?.map fun p => ⟨x.1, p.entity.publicKey, p.entity.listeners⟩).toList

theorem connectTo_spec {m : Connectable} (h : Contains m l) (hdepth : l.length < depth)
    (command : Command) (v : ℤ) :
    connectTo depth command v m = some (if v < 0 then [] else (l[v.toNat]?.map fun p =>
      (⟨command, p.entity.publicKey, p.entity.listeners⟩ : Message)).toList, m) := by
  rw [connectTo, bind_run, (h.statistics hdepth).get v]
  dsimp only [Option.bind_some]
  by_cases hv : v < 0
  · rw [if_pos hv, if_pos hv]
    rfl
  rw [if_neg hv, if_neg hv, List.getElem?_map]
  cases hp : l[v.toNat]? with
  | none => rfl
  | some p =>
    show ((entityOf (some p.addr) >>= _) : Code _ _ _) m = _
    rw [bind_run, h.entityOf (List.mem_of_getElem? hp)]
    rfl

theorem deduplicate_spec {m : Connectable} (h : Contains m l) (hdepth : l.length < depth)
    (index count u : ℤ) (n : List (Command × ℤ)) :
    deduplicate depth index count u n m =
      some ((chosen index u n).flatMap (connection l count), m) := by
  induction n generalizing u with
  | nil => rfl
  | cons x n ih =>
    obtain ⟨command, v⟩ := x
    rw [deduplicate, chosen]
    by_cases hskip : v = index ∨ v = u
    · rw [if_pos hskip, if_pos hskip, ih]
    · rw [if_neg hskip, if_neg hskip, bind_run, connectTo_spec h hdepth]
      dsimp only [Option.bind_some]
      rw [bind_run, ih]
      rfl

/-- `ReBalance` finds the own node, and sends a message for each offset. -/
theorem reBalance_spec (h : r.Holds l) :
    (r.self = none ∧ reBalance r = some ([], r)) ∨
    ∃ (i : ℕ) (p : Peer), r.self = some p.addr ∧ l[i]? = some p ∧ p.entity.publicKey = r.id ∧
      reBalance r = some ((chosen i (-1) (offsets i l.length)).flatMap (connection l l.length),
        r) := by
  rw [reBalance, get_bind]
  cases hself : r.self with
  | none => exact .inl ⟨rfl, rfl⟩
  | some a =>
    obtain ⟨p, hp, rfl, hid⟩ := h.self a hself
    obtain ⟨i, hi⟩ := List.getElem?_of_mem hp
    refine .inr ⟨i, p, rfl, hi, hid, ?_⟩
    have hdepth := Nat.lt_succ_self l.length
    dsimp only
    rw [h.tree.depthOf_eq, h.tree.count, bind_of (onTree_read (h.tree.keyOf hp)),
      bind_of (onTree_read (h.tree.search hdepth hi))]
    exact onTree_read (deduplicate_spec h.tree hdepth _ _ _ _)

/-! ### `SetSelf` -/

/-- `ReBalance` on a receptor that knows some peers. -/
theorem reBalance_returns (h : r.Holds l) : ∃ messages, reBalance r = some (messages, r) := by
  rcases reBalance_spec h with ⟨-, hrun⟩ | ⟨i, p, -, -, -, hrun⟩
  · exact ⟨_, hrun⟩
  · exact ⟨_, hrun⟩

theorem findSelf_spec (h : r.Holds l) (hinit : r.initialised = true) :
    ∃ messages r', findSelf r.id r = some (messages, r') ∧ r'.Holds l := by
  rw [findSelf, get_bind, h.tree.depthOf_eq]
  rcases h.search (Nat.lt_succ_self _) r.id with ⟨p, hp, i, hkey, hsearch⟩ | ⟨-, hsearch⟩
  · rw [bind_of hsearch]
    have h' : ({ r with self := some p.addr } : Receptor).Holds l := by
      refine ⟨h.tree, ?_, fun _ => hinit⟩
      rintro a ⟨⟩
      exact ⟨p, hp, rfl, hkey⟩
    obtain ⟨messages, hrun⟩ := reBalance_returns h'
    exact ⟨messages, _, hrun, h'⟩
  · rw [bind_of hsearch]
    have h' : ({ r with self := none } : Receptor).Holds l := by
      refine ⟨h.tree, ?_, fun _ => hinit⟩
      rintro a ⟨⟩
    obtain ⟨messages, hrun⟩ := reBalance_returns h'
    exact ⟨messages, _, hrun, h'⟩

theorem setSelf_spec (h : r.Holds l) (now : ℤ) (publicKey listeners : Bytes) :
    ∃ result r' l', setSelf now publicKey listeners r = some (result, r') ∧ r'.Holds l' := by
  rw [setSelf, get_bind]
  by_cases hinit : r.initialised = true
  · rw [if_pos hinit]
    exact ⟨_, r, l, rfl, h⟩
  rw [if_neg hinit, modify_bind]
  have hnone : r.self = none := by
    by_contra hne
    exact hinit (h.initialised hne)
  have h₁ : ({ r with id := publicKey, listeners, initialised := true } : Receptor).Holds l :=
    ⟨h.tree, fun a ha => (Option.some_ne_none a (ha.symm.trans hnone)).elim, fun _ => rfl⟩
  obtain ⟨added, r₂, l₂, hadd, h₂, hsame, -⟩ :=
    add_spec h₁ now publicKey listeners (unixSeconds now)
  obtain ⟨messages, r₃, hfind, h₃⟩ := findSelf_spec h₂ hsame.initialised
  rw [hsame.id] at hfind
  rw [bind_of hadd, bind_of hfind]
  exact ⟨_, r₃, l₂, rfl, h₃⟩

/-! ### Runs -/

/-- The calls. -/
inductive Op
  | add (publicKey listeners : Bytes) (timestamp : UInt64)
  | setSelf (publicKey listeners : Bytes)
  | updateTime (publicKey : Bytes) (timestamp : ℤ)
  | change (changed : Bool)
  | reBalance
  | expire

/-- A call at a time, without what it returns. -/
def Op.call (now : ℤ) : Op → Call Unit
  | .add publicKey listeners timestamp => discard (Receptor.add now publicKey listeners timestamp)
  | .setSelf publicKey listeners => discard (Receptor.setSelf now publicKey listeners)
  | .updateTime publicKey timestamp => Receptor.updateTime publicKey timestamp
  | .change changed => Receptor.change changed
  | .reBalance => discard Receptor.reBalance
  | .expire => discard (Receptor.expire now)

/-- A call with the time it is made at. -/
abbrev Label := ℤ × Op

def Step (r : Receptor) (a : Label) (r' : Receptor) : Prop := a.2.call a.1 r = some ((), r')

/-- The calls one after the other. -/
def ReceptorRun (trace : List (Receptor × Label)) (r : Receptor) : Prop := Run Step new trace r

variable {trace : List (Receptor × Label)}

theorem discard_of {α : Type} {c : Call α} {x : α} (h : c r = some (x, r')) :
    (discard c) r = some ((), r') := by
  show (c r).bind _ = _
  rw [h]
  rfl

/-- No call panics. -/
theorem call_spec (h : r.Holds l) (now : ℤ) (op : Op) :
    ∃ r' l', op.call now r = some ((), r') ∧ r'.Holds l' := by
  cases op with
  | add publicKey listeners timestamp =>
    obtain ⟨added, r', l', hrun, hholds, -⟩ := add_spec h now publicKey listeners timestamp
    exact ⟨r', l', discard_of hrun, hholds⟩
  | setSelf publicKey listeners =>
    obtain ⟨result, r', l', hrun, hholds⟩ := setSelf_spec h now publicKey listeners
    exact ⟨r', l', discard_of hrun, hholds⟩
  | updateTime publicKey timestamp =>
    obtain ⟨r', l', hrun, hholds, -⟩ := updateTime_spec h publicKey timestamp
    exact ⟨r', l', hrun, hholds⟩
  | change changed => exact ⟨_, l, rfl, h.tree, h.self, h.initialised⟩
  | reBalance =>
    obtain ⟨messages, hrun⟩ := reBalance_returns h
    exact ⟨r, l, discard_of hrun, h⟩
  | expire =>
    obtain ⟨r', hrun, hholds, -⟩ := expire_spec h now
    exact ⟨r', _, discard_of hrun, hholds⟩

/-- In every state that is reached, the receptor knows some peers. -/
theorem ReceptorRun.holds (hrun : ReceptorRun trace r) : ∃ l, r.Holds l := by
  refine hrun.invariant (P := fun r => ∃ l, r.Holds l) (guarded_true trace) ⟨[], holds_new⟩ ?_
  rintro t a u ⟨l, h⟩ - hstep
  obtain ⟨r', l', hcall, hholds⟩ := call_spec h a.1 a.2
  rw [Step, hcall] at hstep
  cases hstep
  exact ⟨l', hholds⟩

/-- **Expiry.** For every receptor that knows some peers, which every reachable one does, and every
time, `Expire` visits each node once. The peers that are left are those with the own key and those
that are not too old; each of the others is reported once. The own node stays where it is. -/
theorem expire_exact :
    (∀ trace r, ReceptorRun trace r → ∃ l, r.Holds l) ∧
    ∀ r l now, r.Holds l → ∃ visited messages r', expire now r = some ((visited, messages), r') ∧
      visited = l.map Peer.addr ∧ visited.Nodup ∧
      messages = (l.filter (Stale r.id now)).map deleteMessage ∧
      r'.Holds (l.filter (¬ Stale r.id now ·)) ∧ r'.id = r.id ∧ r'.self = r.self ∧
      ∀ a, r'.self = some a → ∃ p ∈ l.filter (¬ Stale r.id now ·), p.addr = a := by
  refine ⟨fun trace r => ReceptorRun.holds, ?_⟩
  intro r l now h
  obtain ⟨r', hrun, hholds, hsame⟩ := expire_spec h now
  refine ⟨_, _, r', hrun, rfl, ?_, rfl, hholds, hsame.id, hsame.self, ?_⟩
  · exact h.tree.nodup
  · intro a ha
    obtain ⟨p, hp, haddr, -⟩ := hholds.self a ha
    exact ⟨p, hp, haddr⟩

end Receptor

end Bitmarkd.Announce
