import Bitmarkd.Avl.Entries
import Bitmarkd.Avl.Last

/-!
# The AVL tree: delete

`intdelete` on a branch that the memory holds makes a balanced branch of it without the entry of the
key, and gives the node of that entry back to the allocator (`intdelete_spec`).
-/

namespace Bitmarkd.Avl

open Shape

variable {κ ν : Type}

/-- The allocator's variables after a node was given back to it. -/
def Memory.released (m : Memory κ ν) : Option Addr → Memory κ ν
  | none => m
  | some q => { m with pool := some q, freeNodes := m.freeNodes + 1 }

/-- What `intdelete` has done to the branch `t` at `pp`, below `up`: the branch `t'` is without the
entry of the key, `value` was its value, `removed` says whether there was one, and `h` whether the
branch is lower. -/
structure Deleted (compare : κ → κ → ℤ) (m : Memory κ ν) (pp : Ref) (key : κ) (up : Pointer)
    (t t' : Shape κ ν) (value : Option ν) (removed h : Bool) (m' : Memory κ ν) : Prop where
  rep : Rep m'.heap up t'
  balanced : t'.Balanced
  entries : t'.entries = deleteEntry compare key t.entries
  height : t'.height + h.toNat = t.height
  found : value = (valueOf compare key t.entries).join
  isOld : removed = (valueOf compare key t.entries).isSome
  frame : ∃ freed : Option Addr, removed = freed.isSome ∧
    t.addrs.Perm (freed.toList ++ t'.addrs) ∧ (∀ q, freed = some q → (m'.heap q).up = m.pool) ∧
    SameBut t.addrs ((m.store pp t'.addr).released freed) m'

section

variable {m m₁ m₂ : Memory κ ν} {pp : Ref} {s : Side} {x x' y t t' : Shape κ ν} {e : Entry κ ν}
  {up u : Pointer} {b : ℤ} {freed : Option Addr} {removed h : Bool}

theorem store_released {p : Pointer} :
    (m.released freed).store pp p = (m.store pp p).released freed := by
  cases freed <;> cases pp <;> rfl

theorem heap_released : (m.released freed).heap = m.heap := by cases freed <;> rfl

/-! ## A branch has lost a node -/

/-- The node with the new count. -/
theorem record_deleted (s : Side) (e : Entry κ ν) (y : Shape κ ν) (up : Pointer) (b : ℤ)
    (hsize : x.size = x'.size + removed.toNat) :
    (if removed then ((record s x e y up b).setChild s x'.addr).setNodes s
        (((record s x e y up b).setChild s x'.addr).nodes s - 1)
      else (record s x e y up b).setChild s x'.addr) = record s x' e y up b := by
  cases s <;> cases removed <;>
    simp [record, Node.setChild, Node.setNodes, Node.nodes, hsize]

/-- `intdelete` after its call for a branch: the node is counted and balanced. -/
theorem deleted_run (value : Option ν) (hpp : m₁.load pp = some e.addr)
    (he : m₁.heap e.addr = (record s x e y up b).setChild s x'.addr)
    (hsize : x.size = x'.size + removed.toNat) :
    ∃ heap, deleted s pp (value, removed, h) m₁ =
        (if h then do return (value, removed, ← shrunk s pp) else return (value, removed, h) :
          Code κ ν _) { m₁ with heap } ∧
      heap e.addr = record s x' e y up b ∧ ∀ c ≠ e.addr, heap c = m₁.heap c := by
  have hnode := record_deleted s e y up b hsize
  cases removed with
  | false =>
    rw [if_neg (by simp), ← he] at hnode
    exact ⟨m₁.heap, rfl, hnode, fun _ _ => rfl⟩
  | true =>
    rw [if_pos rfl, ← he] at hnode
    refine ⟨Function.update m₁.heap e.addr ((m₁.heap e.addr).setNodes s
      ((m₁.heap e.addr).nodes s - 1)), ?_, ?_, fun c hc => Function.update_of_ne hc _ _⟩
    · simp only [deleted, if_true, bind_run, load_run, hpp, Option.bind_some, assign_run]
    · rw [Function.update_self, hnode]

theorem load_released : (m.released freed).load pp = m.load pp := by
  cases freed <;> cases pp <;> rfl

theorem load_store_child {a : Addr} {p : Pointer} (h : ∀ s, pp ≠ .child a s) :
    (m.store (.child a s) p).load pp = m.load pp := by
  cases pp with
  | root => rfl
  | child c s' =>
    have hne : c ≠ a := fun heq => h s' (heq ▸ rfl)
    simp [Memory.load, Memory.store, hne]

theorem sameBut_store_child {a : Addr} {p : Pointer} {as : List Addr} (ha : a ∈ as) :
    SameBut as m (m.store (.child a s) p) :=
  .of_heap fun _ hc => Function.update_of_ne (ne_of_mem_of_not_mem ha hc).symm _ _

theorem SameBut.released {as : List Addr} (h : SameBut as m m₁) :
    SameBut as (m.released freed) (m₁.released freed) := by
  cases freed with
  | none => exact h
  | some q => exact { h with pool := rfl, freeNodes := congrArg (· + 1) h.freeNodes }

variable {compare : κ → κ → ℤ} {key : κ} {value : Option ν}

/-- `intdelete` in the branch on the side of the key. -/
theorem Deleted.branch (horder : TotalOrder compare) (hcompare : compare e.key key = -s.sign)
    (hpp : m.load pp = some e.addr) (hout : pp.Outside (join s x e y))
    (hrep : Rep m.heap up (join s x e y)) (hbal : (join s x e y).Balanced)
    (hsorted : Sorted compare (join s x e y).entries) (hnodup : (join s x e y).addrs.Nodup)
    (hx : Deleted compare m (.child e.addr s) key (some e.addr) x x' value removed h m₁) :
    ∃ t' h' m', deleted s pp (value, removed, h) m₁ = some ((value, removed, h'), m') ∧
      Deleted compare m pp key up (join s x e y) t' value removed h' m' := by
  obtain ⟨hp, hxr, hy⟩ := rep_join.mp hrep
  obtain ⟨hbx, hby, hxy, hyx⟩ := balanced_join.mp hbal
  obtain ⟨hxd, hyd, hex, hey, hdisjoint⟩ := nodup_addrs_join.mp hnodup
  obtain ⟨freed, hfreed, hperm, hup, hframe⟩ := hx.frame
  have he : e.addr ∈ (join s x e y).addrs := mem_addrs_join.mpr (.inr (.inl rfl))
  have hppe : ∀ s', pp ≠ .child e.addr s' := fun s' heq => hout _ _ heq he
  have hx'd : (freed.toList ++ x'.addrs).Nodup := hperm.nodup_iff.mp hxd
  have hx'mem : ∀ a ∈ x'.addrs, a ∈ x.addrs := fun a ha =>
    hperm.mem_iff.mpr (List.mem_append_right _ ha)
  have hnodup' : (join s x' e y).addrs.Nodup :=
    nodup_addrs_join.mpr ⟨(List.nodup_append'.mp hx'd).2.1, hyd, fun h => hex (hx'mem _ h), hey,
      fun a ha => hdisjoint a (hx'mem a ha)⟩
  have hsub : ∀ a ∈ (join s x' e y).addrs, a ∈ (join s x e y).addrs := by
    intro a ha
    rw [mem_addrs_join] at ha ⊢
    exact ha.imp_left (hx'mem a)
  have hsize : x.size = x'.size + removed.toNat := by
    have hlength := hperm.length_eq
    rw [hfreed]
    cases freed <;> simpa [addrs, length_entries, Nat.add_comm] using hlength
  -- The memory after the call for the branch.
  have hbranch : ∀ a ∉ x.addrs, m₁.heap a = (m.store (.child e.addr s) x'.addr).heap a := by
    intro a ha
    rw [hframe.heap a ha, heap_released]
  have hpp₁ : m₁.load pp = some e.addr := by
    have houtx : ∀ a s', pp = .child a s' → a ∉ x.addrs := fun a s' heq ha =>
      hout a s' heq (mem_addrs_join.mpr (.inl ha))
    rw [hframe.load houtx, load_released, load_store_child hppe, hpp]
  have hsame₁ : SameBut (join s x e y).addrs (m.released freed) m₁ :=
    (sameBut_store_child he).released.trans
      (hframe.mono fun a ha => mem_addrs_join.mpr (.inl ha))
  have he₁ : m₁.heap e.addr = (record s x e y up (tilt s x y)).setChild s x'.addr := by
    rw [hbranch _ hex, ← hp]
    simp [Memory.store]
  obtain ⟨heap, hrun, hp', hother⟩ := deleted_run (h := h) value hpp₁ he₁ hsize
  have hx' : Rep heap (some e.addr) x' :=
    hx.rep.congr fun a ha => hother a (ne_of_mem_of_not_mem (hx'mem a ha) hex)
  have hy' : Rep heap (some e.addr) y := by
    refine hy.congr fun a ha => ?_
    have hne := ne_of_mem_of_not_mem ha hey
    rw [hother a hne, hbranch a fun hax => hdisjoint a hax ha]
    exact Function.update_of_ne hne _ _
  have hsame : SameBut (join s x e y).addrs (m.released freed) { m₁ with heap } :=
    hsame₁.trans (.of_heap fun a ha => hother a (ne_of_mem_of_not_mem he ha).symm)
  have hperm' : (join s x e y).addrs.Perm (freed.toList ++ (join s x' e y).addrs) := by
    refine perm_addrs_join.trans (((hperm.append_right _).trans ?_).trans
      (perm_addrs_join.symm.append_left _))
    rw [List.append_assoc]
  have hfreed' : ∀ q, freed = some q → q ∈ x.addrs ∧ q ∉ (join s x' e y).addrs := by
    rintro q rfl
    have hqx : q ∈ x.addrs := hperm.mem_iff.mpr (by simp)
    have hqx' : q ∉ x'.addrs := fun h => (List.nodup_cons.mp hx'd).1 h
    refine ⟨hqx, fun h => ?_⟩
    rcases mem_addrs_join.mp h with h | h | h
    · exact hqx' h
    · exact hex (h ▸ hqx)
    · exact hdisjoint q hqx h
  have hvalue : valueOf compare key (join s x e y).entries = valueOf compare key x.entries :=
    valueOf_join horder hcompare hsorted
  have hentries : (join s x' e y).entries = deleteEntry compare key (join s x e y).entries :=
    entries_deleteEntry_join horder hcompare hsorted hx.entries
  rw [hrun]
  cases h with
  | false =>
    have hheight : x'.height = x.height := hx.height
    refine ⟨join s x' e y, false, _, rfl, rep_join.mpr ⟨?_, hx', hy'⟩, ?_, hentries, ?_,
      by rw [hvalue, hx.found], by rw [hvalue, hx.isOld], freed, hfreed, hperm', ?_, ?_⟩
    · rw [tilt, hheight]
      exact hp'
    · exact balanced_join.mpr ⟨hx.balanced, hby, by omega, by omega⟩
    · simp [hheight]
    · intro q hq
      have hne := ne_of_mem_of_not_mem (hfreed' q hq).1 hex
      exact (congrArg Node.up (hother q hne)).trans (hup q hq)
    · rw [addr_join, store_load hpp]
      exact hsame
  | true =>
    have hheight : x'.height + 1 = x.height := hx.height
    have hout' : pp.Outside (join s x' e y) := hout.mono hsub
    have hpp₂ : ({ m₁ with heap } : Memory κ ν).load pp = some e.addr := by
      rw [hsame.load hout, load_released, hpp]
    obtain ⟨t', h', m', hshrunk, hrep', hbal', hentries', hheight', hframe'⟩ :=
      shrunk_spec (m := { m₁ with heap }) hnodup' hpp₂ hout'
        (hp'.trans (by rw [tilt, ← hheight]; congr 2)) hx' hy' hx.balanced hby (by omega) (by omega)
    have haddrs : t'.addrs = (join s x' e y).addrs := by rw [addrs, hentries']; rfl
    refine ⟨t', h', m', ?_, hrep', hbal', by rw [hentries', hentries], ?_,
      by rw [hvalue, hx.found], by rw [hvalue, hx.isOld], freed, hfreed, haddrs ▸ hperm', ?_, ?_⟩
    · simp only [if_true, bind_run, hshrunk, Option.bind_some, pure_run]
    · rw [hheight', height_join]
      omega
    · intro q hq
      obtain ⟨hqx, hqt⟩ := hfreed' q hq
      rw [hframe'.heap q hqt, heap_store hout (mem_addrs_join.mpr (.inl hqx))]
      exact (congrArg Node.up (hother q (ne_of_mem_of_not_mem hqx hex))).trans (hup q hq)
    · rw [← store_released]
      exact (hsame.store hout).trans (hframe'.mono hsub)

/-! ## The key is found -/

variable {l r : Shape κ ν} {depth : ℕ}

/-- What `unlink` has done to the branch `node l e r` at `pp`, below `up`. -/
structure Unlinked (m : Memory κ ν) (pp : Ref) (up : Pointer) (l : Shape κ ν) (e : Entry κ ν)
    (r t' : Shape κ ν) (h : Bool) (m' : Memory κ ν) : Prop where
  rep : Rep m'.heap up t'
  balanced : t'.Balanced
  entries : t'.entries = l.entries ++ r.entries
  height : t'.height + h.toNat = (Shape.node l e r).height
  frame : SameBut (Shape.node l e r).addrs (m.store pp t'.addr) m'

/-- A branch takes the place of the node above it. -/
theorem unlink_one {as : List Addr} (up : Pointer) (hx : Rep m.heap u x) (hnodup : x.addrs.Nodup)
    (hsub : ∀ a ∈ x.addrs, a ∈ as) (hout : ∀ a s, pp = .child a s → a ∉ as) :
    let m' := ({ m with heap := setUp m.heap x.addr up } : Memory κ ν).store pp x.addr
    Rep m'.heap up x ∧ SameBut as (m.store pp x.addr) m' := by
  refine ⟨(hx.setUp hnodup up).store fun a s heq ha => hout a s heq (hsub a ha), ?_⟩
  refine SameBut.store (.of_heap fun a ha => ?_) hout
  exact setUp_apply_of_notMem fun hmem => ha (hsub a hmem)

/-- `unlink` of a node with two branches, after the call of `del`. -/
theorem Taken.unlinked {l' : Shape κ ν} {z : Entry κ ν}
    (hout : pp.Outside (Shape.node l e r)) (hrep : Rep m.heap up (.node l e r))
    (hbal : (Shape.node l e r).Balanced) (hnodup : (Shape.node l e r).addrs.Nodup)
    (htaken : Taken m pp (.child e.addr .left) (m.heap e.addr) (some e.addr) l l' z h m₁) :
    ∃ t' h' m', (do
        assign (← load pp) (·.setChild .left (← deref e.addr).left)
        if h then balanceLeft pp else return h : Code κ ν Bool) m₁ = some (h', m') ∧
      Unlinked m pp up l e r t' h' m' := by
  obtain ⟨hnode, hl, hr⟩ := hrep
  obtain ⟨hld, hrd, hel, her, hlr⟩ := (nodup_addrs_join (s := .left)).mp hnodup
  obtain ⟨hl'd, hzl, hzl', hl'mem⟩ := addrs_last hld htaken.entries
  obtain ⟨hbl, hbr, hlr', hrl'⟩ := hbal
  have hmem (c : Addr) :
      c ∈ (Shape.node l e r).addrs ↔ c ∈ l.addrs ∨ c = e.addr ∨ c ∈ r.addrs :=
    mem_addrs_join (s := .left)
  have he : e.addr ∈ (Shape.node l e r).addrs := (hmem _).mpr (.inr (.inl rfl))
  have hz : z.addr ∈ (Shape.node l e r).addrs := (hmem _).mpr (.inl hzl)
  have hsize : l.size = l'.size + 1 := by
    rw [← length_entries, htaken.entries, List.length_append, length_entries, List.length_singleton]
  have hnodup' : (join .left l' z r).addrs.Nodup :=
    nodup_addrs_join.mpr ⟨hl'd, hrd, hzl', hlr _ hzl, fun a ha => hlr a (hl'mem a ha)⟩
  have hsub : ∀ a ∈ (join .left l' z r).addrs, a ∈ (Shape.node l e r).addrs := by
    intro a ha
    rcases mem_addrs_join.mp ha with ha | rfl | ha
    · exact (hmem a).mpr (.inl (hl'mem a ha))
    · exact hz
    · exact (hmem a).mpr (.inr (.inr ha))
  have hnl : (m.heap e.addr).left = l.addr := by rw [hnode]
  have hnr : (m.heap e.addr).right = r.addr := by rw [hnode]
  -- The memory after the call of `del`.
  have hsame₁ : SameBut (Shape.node l e r).addrs (m.store pp (some z.addr)) m₁ := by
    have hlinks : SameBut (Shape.node l e r).addrs m { m with
        heap := setUp (setUp m.heap r.addr (some z.addr)) l.addr (some z.addr) } :=
      .of_heap fun a ha => by
        have hout := not_or.mp (mt (hmem a).mpr ha)
        rw [setUp_apply_of_notMem hout.1, setUp_apply_of_notMem (not_or.mp hout.2).2]
    rw [← hnl, ← hnr] at hlinks
    exact (hlinks.store hout).trans ((sameBut_store_child he).trans
      (htaken.frame.mono fun a ha => (hmem a).mpr (.inl ha)))
  have hpp₁ : m₁.load pp = some z.addr := by rw [hsame₁.load hout, load_store]
  have he₁ : (m₁.heap e.addr).left = l'.addr := by
    rw [htaken.frame.heap _ hel]
    simp [Memory.store, Node.setChild]
  have hr₁ : Rep m₁.heap (some z.addr) r := by
    refine (hr.setUp hrd (some z.addr)).congr fun a ha => ?_
    have hal : a ∉ l.addrs := fun hal => hlr a hal ha
    have hat := (hmem a).mpr (.inr (.inr ha))
    rw [htaken.frame.heap a hal]
    refine (Function.update_of_ne (ne_of_mem_of_not_mem ha her) _ _).trans ?_
    rw [Memory.taken, heap_store hout hat, hnl, hnr]
    exact setUp_apply_of_notMem hal
  have hl₁ : Rep m₁.heap (some z.addr) l' := by
    have hrep := htaken.rep
    rwa [if_pos hnl.symm] at hrep
  obtain ⟨left, hz₁⟩ := htaken.node
  -- The node in its new place, with its left branch.
  obtain ⟨heap, hheap, hother⟩ : ∃ heap : Addr → Node κ ν,
      heap = Function.update m₁.heap z.addr ((m₁.heap z.addr).setChild .left l'.addr) ∧
      ∀ a ≠ z.addr, heap a = m₁.heap a :=
    ⟨_, rfl, fun a ha => Function.update_of_ne ha _ _⟩
  have hp : heap z.addr = record .left l' z r up (tilt .left l r) := by
    have hcount : (if some z.addr = l.addr then (l'.size : ℤ) else l.size - 1) = l'.size := by
      rw [hsize]
      split_ifs <;> simp
    rw [hheap, Function.update_self, hz₁, hnode, tilt_left]
    simp only [Node.setChild, record, hcount]
  replace hl₁ : Rep heap (some z.addr) l' := hl₁.congr fun a ha =>
    hother a (ne_of_mem_of_not_mem ha hzl')
  replace hr₁ : Rep heap (some z.addr) r := hr₁.congr fun a ha =>
    hother a (ne_of_mem_of_not_mem ha (hlr _ hzl))
  have hsame : SameBut (Shape.node l e r).addrs (m.store pp (some z.addr)) { m₁ with heap } :=
    hsame₁.trans (.of_heap fun a ha => hother a (ne_of_mem_of_not_mem hz ha).symm)
  have hentries : (join .left l' z r).entries = l.entries ++ r.entries := by
    rw [htaken.entries]
    simp [join, Shape.entries]
  have hrun : (do
      assign (← load pp) (·.setChild .left (← deref e.addr).left)
      if h then balanceLeft pp else return h : Code κ ν Bool) m₁ =
      (if h then balanceLeft pp else return h : Code κ ν Bool) { m₁ with heap } := by
    simp only [bind_run, load_run, hpp₁, deref_run, he₁, Option.bind_some, assign_run, ← hheap]
  rw [hrun]
  cases h with
  | false =>
    have hheight : l'.height = l.height := htaken.height
    refine ⟨join .left l' z r, false, _, rfl, rep_join.mpr ⟨?_, hl₁, hr₁⟩, ?_, hentries, ?_, ?_⟩
    · rw [tilt, hheight]
      exact hp
    · exact balanced_join.mpr ⟨htaken.balanced, hbr, by omega, by omega⟩
    · rw [height_join, hheight]
      rfl
    · rw [addr_join]
      exact hsame
  | true =>
    have hheight : l'.height + 1 = l.height := htaken.height
    obtain ⟨t', h', m', hshrunk, hrep', hbal', hentries', hheight', hframe'⟩ :=
      shrunk_spec (m := { m₁ with heap }) hnodup' ((hsame.load hout).trans load_store)
        (hout.mono hsub) (hp.trans (by rw [tilt, ← hheight]; congr 2)) hl₁ hr₁ htaken.balanced hbr
        (by omega) (by omega)
    refine ⟨t', h', m', hshrunk, hrep', hbal', hentries'.trans hentries, ?_, ?_⟩
    · rw [hheight', Shape.height]
      omega
    · have hstore := hsame.store (p := t'.addr) hout
      rw [store_store] at hstore
      exact hstore.trans (hframe'.mono hsub)

/-- **`unlink`** of a node. -/
theorem unlink_spec (hdepth : (Shape.node l e r).height ≤ depth) (hpp : m.load pp = some e.addr)
    (hout : pp.Outside (Shape.node l e r)) (hrep : Rep m.heap up (.node l e r))
    (hbal : (Shape.node l e r).Balanced) (hnodup : (Shape.node l e r).addrs.Nodup) :
    ∃ t' h m', unlink depth pp e.addr m = some (h, m') ∧ Unlinked m pp up l e r t' h m' := by
  obtain ⟨hld, hrd, hel, her, hlr⟩ := (nodup_addrs_join (s := .left)).mp hnodup
  have hmem (c : Addr) :
      c ∈ (Shape.node l e r).addrs ↔ c ∈ l.addrs ∨ c = e.addr ∨ c ∈ r.addrs :=
    mem_addrs_join (s := .left)
  obtain ⟨hnode, hl, hr⟩ := hrep
  rw [Shape.height] at hdepth
  unfold unlink
  rw [bind_run, deref_run, hnode]
  dsimp only [Option.bind_some]
  by_cases hrn : r = .nil
  · subst hrn
    obtain ⟨hrep', hframe⟩ := unlink_one (m := m) up hl hld
      (fun a ha => (hmem a).mpr (.inl ha)) hout
    refine ⟨l, true, _, ?_, hrep', hbal.1, by simp [entries], by simp [height], hframe⟩
    rw [addr_nil, if_pos rfl]
    simp only [bind_run, assignUp_run, Option.bind_some, store_run, pure_run]
  rw [if_neg (mt addr_eq_none.mp hrn)]
  by_cases hln : l = .nil
  · subst hln
    obtain ⟨hrep', hframe⟩ := unlink_one (m := m) up hr hrd
      (fun a ha => (hmem a).mpr (.inr (.inr ha))) hout
    refine ⟨r, true, _, ?_, hrep', hbal.2.1, by simp [entries], by simp [height], hframe⟩
    rw [addr_nil, if_pos rfl]
    simp only [bind_run, assignUp_run, Option.bind_some, store_run, pure_run]
  rw [if_neg (mt addr_eq_none.mp hln)]
  obtain ⟨l', z, h, m₁, hdel, htaken⟩ := del_spec (c := e.addr) (s := .left)
    (show l.height < depth by omega) hln hpp (by rw [Memory.load, hnode]; rfl) hl hbal.1 hld hel
    (hout.mono fun a ha => (hmem a).mpr (.inl ha)) hel
    (fun s heq => hout _ s heq ((hmem _).mpr (.inr (.inl rfl))))
    (fun c hc hcl => hlr c hcl (mem_addrs_of_addr (by rw [← hc, hnode])))
    (fun c hc _ => by rw [← hc, hnode])
  obtain ⟨t', h', m', hrun, hunlinked⟩ := htaken.unlinked hout ⟨hnode, hl, hr⟩ hbal hnodup
  refine ⟨t', h', m', ?_, hunlinked⟩
  rw [bind_run, hdel]
  exact hrun

/-! ## The whole -/

theorem intdelete_node_run (hpp : m.load pp = some e.addr) (hrep : Rep m.heap up (.node l e r)) :
    intdelete compare key (depth + 1) pp m =
      (if compare e.key key = 1 then do
          deleted .left pp (← intdelete compare key depth (.child e.addr .left))
        else if compare e.key key = -1 then do
          deleted .right pp (← intdelete compare key depth (.child e.addr .right))
        else do
          let h ← unlink depth pp e.addr
          freeNode e.addr
          return (e.value, true, h) : Code κ ν _) m := by
  rw [intdelete, bind_run, load_run, hpp]
  dsimp only [Option.bind_some]
  rw [bind_run, deref_run, hrep.1]
  rfl

/-- The node that was found is given back. -/
theorem Unlinked.deleted (horder : TotalOrder compare) (hkey : e.key = key)
    (hsorted : Sorted compare (Shape.node l e r).entries)
    (hnodup : (Shape.node l e r).addrs.Nodup)
    (hunlinked : Unlinked m pp up l e r t' h m₁) :
    ∃ m', freeNode (some e.addr) m₁ = some ((), m') ∧
      Deleted compare m pp key up (.node l e r) t' e.value true h m' := by
  subst hkey
  obtain ⟨hld, hrd, hel, her, hlr⟩ := (nodup_addrs_join (s := .left)).mp hnodup
  have he : e.addr ∈ (Shape.node l e r).addrs := mem_addrs_of_addr rfl
  have haddrs : t'.addrs = l.addrs ++ r.addrs := by
    rw [addrs, hunlinked.entries, List.map_append]
    rfl
  have het : e.addr ∉ t'.addrs := by
    rw [haddrs, List.mem_append]
    exact not_or.mpr ⟨hel, her⟩
  have hzero : compare e.key e.key = 0 := (horder.eq_zero _ _).mpr rfl
  obtain ⟨-, hright, hleft⟩ := List.pairwise_append.mp hsorted
  have hl : ∀ x ∈ l.entries, compare x.key e.key ≠ 0 := fun x hx => by
    rw [hleft x hx e List.mem_cons_self]
    decide
  have hr : ∀ x ∈ r.entries, compare x.key e.key ≠ 0 := fun x hx => by
    rw [horder.swap, (List.pairwise_cons.mp hright).1 x hx]
    decide
  have hvalue : valueOf compare e.key (Shape.node l e r).entries = some e.value := by
    rw [Shape.entries, valueOf_append, valueOf_eq_none.mpr hl, valueOf_cons, if_pos hzero]
    rfl
  have hpool : m₁.pool = m.pool := by
    rw [hunlinked.frame.pool]
    cases pp <;> rfl
  refine ⟨_, rfl, hunlinked.rep.update het, hunlinked.balanced, ?_, hunlinked.height,
    by rw [hvalue]; rfl, by rw [hvalue]; rfl, some e.addr, rfl, ?_, ?_, ?_⟩
  · rw [hunlinked.entries, Shape.entries, deleteEntry, List.filter_append,
      List.filter_cons_of_neg (by simpa using hzero)]
    congr 1
    · exact (deleteEntry_eq_self hl).symm
    · exact (deleteEntry_eq_self hr).symm
  · rw [haddrs]
    exact (perm_addrs_join (s := .left)).trans List.perm_middle
  · rintro q ⟨⟩
    dsimp only
    rw [Function.update_self, hpool]
  · have hframe := hunlinked.frame
    exact { heap := fun a ha => by
              rw [heap_released, ← hframe.heap a ha]
              exact Function.update_of_ne (ne_of_mem_of_not_mem he ha).symm _ _
            root := hframe.root, count := hframe.count, pool := rfl
            totalNodes := hframe.totalNodes, freeNodes := congrArg (· + 1) hframe.freeNodes }

/-- **`intdelete`** on a branch. -/
theorem intdelete_spec (horder : TotalOrder compare) (key : κ) (hdepth : t.height < depth)
    (hpp : m.load pp = t.addr) (hout : pp.Outside t) (hrep : Rep m.heap up t) (hbal : t.Balanced)
    (hsorted : Sorted compare t.entries) (hnodup : t.addrs.Nodup) :
    ∃ t' value removed h m', intdelete compare key depth pp m = some ((value, removed, h), m') ∧
      Deleted compare m pp key up t t' value removed h m' := by
  induction t generalizing depth up pp with
  | nil =>
    obtain ⟨depth, rfl⟩ : ∃ d, depth = d + 1 := ⟨depth - 1, by omega⟩
    refine ⟨.nil, none, false, false, m, ?_, trivial, trivial, rfl, rfl, rfl, rfl, none, rfl,
      .refl _, by simp, ?_⟩
    · rw [intdelete, bind_run, load_run, hpp]
      rfl
    · rw [store_load hpp]
      exact .refl _ _
  | node l e r ihl ihr =>
    obtain ⟨depth, rfl⟩ : ∃ d, depth = d + 1 := ⟨depth - 1, by omega⟩
    obtain ⟨hld, hrd, hel, her, hlr⟩ := (nodup_addrs_join (s := .left)).mp hnodup
    rw [intdelete_node_run hpp hrep]
    by_cases hgt : compare e.key key = 1
    · obtain ⟨x', value, removed, h, m₁, hrun, hx⟩ := ihl
        (show l.height < depth by rw [height] at hdepth; omega)
        (show m.load (.child e.addr .left) = _ by rw [Memory.load, hrep.1]; rfl)
        (by rintro a s ⟨⟩; exact hel) hrep.2.1 hbal.1
        (hsorted.side (s := .left)) hld
      obtain ⟨t', h', m', hrun', ht⟩ := Deleted.branch (s := .left) horder hgt hpp hout hrep hbal
        hsorted hnodup hx
      refine ⟨t', value, removed, h', m', ?_, ht⟩
      rw [if_pos hgt, bind_run, hrun]
      exact hrun'
    rw [if_neg hgt]
    by_cases hlt : compare e.key key = -1
    · obtain ⟨x', value, removed, h, m₁, hrun, hx⟩ := ihr
        (show r.height < depth by rw [height] at hdepth; omega)
        (show m.load (.child e.addr .right) = _ by rw [Memory.load, hrep.1]; rfl)
        (by rintro a s ⟨⟩; exact her) hrep.2.2 hbal.2.1
        (hsorted.side (s := .right)) hrd
      obtain ⟨t', h', m', hrun', ht⟩ := Deleted.branch (s := .right) (x := r) (y := l) horder hlt
        hpp hout hrep hbal hsorted hnodup hx
      refine ⟨t', value, removed, h', m', ?_, ht⟩
      rw [if_pos hlt, bind_run, hrun]
      exact hrun'
    rw [if_neg hlt]
    obtain ⟨t', h, m₁, hrun, hunlinked⟩ :=
      unlink_spec (show _ ≤ depth by omega) hpp hout hrep hbal hnodup
    obtain ⟨m', hfree, ht⟩ :=
      hunlinked.deleted horder (horder.eq_of_not hgt hlt) hsorted hnodup
    refine ⟨t', e.value, true, h, m', ?_, ht⟩
    rw [bind_run, hrun]
    dsimp only [Option.bind_some]
    rw [bind_run, hfree]
    rfl

end

end Bitmarkd.Avl
