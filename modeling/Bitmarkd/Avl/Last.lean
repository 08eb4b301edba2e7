import Bitmarkd.Avl.Rotate

/-!
# The AVL tree: the last node of a branch

A node with two branches is deleted by putting the last node of its left branch in its place. `del`
takes that node out of the branch, and gives it the fields of the node that it replaces
(`del_spec`).
-/

namespace Bitmarkd.Avl

open Shape

variable {κ ν : Type}

/-- The memory after the node at `r` has taken the place of the node `nq` at `qq`, apart from the
branch that it is taken from: its children have it as parent. -/
def Memory.taken (m : Memory κ ν) (qq : Ref) (nq : Node κ ν) (r : Addr) : Memory κ ν :=
  ({ m with heap := setUp (setUp m.heap nq.right (some r)) nq.left (some r) }).store qq (some r)

section

variable {m : Memory κ ν} {qq rr : Ref} {nq : Node κ ν} {r c : Addr} {s : Side}

theorem setUp_child {heap : Addr → Node κ ν} {p up : Pointer} :
    (setUp heap p up c).child s = (heap c).child s := by
  cases p with
  | none => rfl
  | some a =>
    by_cases h : c = a
    · subst h
      cases s <;> simp [setUp, Node.setUp, Node.child]
    · simp [setUp, h]

theorem load_taken (h : ∀ s, qq ≠ .child c s) :
    (m.taken qq nq r).load (.child c s) = m.load (.child c s) := by
  have hstore : ∀ m : Memory κ ν, (m.store qq (some r)).heap c = m.heap c := by
    intro m
    cases qq with
    | root => rfl
    | child a s' =>
      have hne : c ≠ a := fun heq => h s' (heq ▸ rfl)
      exact Function.update_of_ne hne _ _
  rw [Memory.load, Memory.load, Memory.taken, hstore]
  simp only [setUp_child]

theorem heap_taken {t : Shape κ ν} (hout : qq.Outside t) (hc : c ∈ t.addrs)
    (hright : nq.right ≠ some c) : (m.taken qq nq r).heap c =
      if nq.left = some c then (m.heap c).setUp (some r) else m.heap c := by
  rw [Memory.taken, heap_store hout hc]
  dsimp only
  split_ifs with hleft
  · rw [hleft, setUp]
    simp [setUp_of_ne hright]
  · rw [setUp_of_ne hleft, setUp_of_ne hright]

end

/-- What `del` has done to the branch `t` at `rr`, below `up`: the entry `r` is taken out of it, and
is at `qq` with the fields of the node `nq`. -/
structure Taken (m : Memory κ ν) (qq rr : Ref) (nq : Node κ ν) (up : Pointer) (t t' : Shape κ ν)
    (r : Entry κ ν) (h : Bool) (m' : Memory κ ν) : Prop where
  entries : t.entries = t'.entries ++ [r]
  balanced : t'.Balanced
  height : t'.height + h.toNat = t.height
  rep : Rep m'.heap (if t.addr = nq.left then some r.addr else up) t'
  node : ∃ left, m'.heap r.addr = ⟨left, nq.right, nq.up, some r.key, r.value,
    if some r.addr = nq.left then t'.size else nq.leftNodes - 1, nq.rightNodes, nq.balance⟩
  frame : SameBut t.addrs ((m.taken qq nq r.addr).store rr t'.addr) m'

section

variable {m : Memory κ ν} {qq rr : Ref} {q : Addr} {up : Pointer} {l t : Shape κ ν} {e : Entry κ ν}
  {depth : ℕ} {b : ℤ}

/-- `delLast`: what it writes before the references are stored. -/
theorem delLast_run (rr : Ref) (hqq : m.load qq = some q) (hql : q ∉ l.addrs)
    (hel : e.addr ∉ l.addrs) (hnode : m.heap e.addr = ⟨l.addr, none, up, some e.key, e.value,
      l.size, 0, b⟩)
    (hright : (m.heap q).right ≠ some e.addr) :
    ∃ heap, delLast qq rr (some e.addr) m =
        some ((), (({ m with heap } : Memory κ ν).store qq (some e.addr)).store rr l.addr) ∧
      (∃ left, heap e.addr = ⟨left, (m.heap q).right, (m.heap q).up, some e.key, e.value,
        if some e.addr = (m.heap q).left then l.size else (m.heap q).leftNodes - 1,
        (m.heap q).rightNodes, (m.heap q).balance⟩) ∧
      ∀ c ≠ e.addr, heap c =
        if some e.addr = (m.heap q).left then
          setUp (setUp (setUp m.heap l.addr up) (m.heap q).right (some e.addr)) l.addr
            (some e.addr) c
        else
          setUp (setUp (setUp m.heap l.addr up) (m.heap q).right (some e.addr)) (m.heap q).left
            (some e.addr) c := by
  have hq : setUp m.heap l.addr up q = m.heap q := setUp_apply_of_notMem hql
  have he : setUp m.heap l.addr up e.addr = m.heap e.addr := setUp_apply_of_notMem hel
  have hl : l.addr ≠ some e.addr := fun h => hel (mem_addrs_of_addr h)
  by_cases htop : some e.addr = (m.heap q).left
  · simp only [delLast, bind_run, load_run, deref_run, assignUp_run, Option.bind_some, hqq, hnode,
      hq, ne_eq, htop.symm, not_true_eq_false, if_false, assign_run, store_run,
      Function.update_self, he]
    refine ⟨_, rfl, ⟨l.addr, ?_⟩, fun c hc => ?_⟩
    · simp [setUp_of_ne, hl, hright]
    · rw [if_pos trivial, setUp_of_ne hright, Function.update_self]
      exact setUp_congr (setUp_congr (Function.update_of_ne hc _ _))
  · simp only [delLast, bind_run, load_run, deref_run, assignUp_run, Option.bind_some, hqq, hnode,
      hq, ne_eq, htop, not_false_eq_true, if_true, assign_run, store_run, Function.update_self, he,
      if_false]
    refine ⟨_, rfl, ⟨(m.heap q).left, ?_⟩, fun c hc => ?_⟩
    · simp [setUp_of_ne, hright, Ne.symm htop]
    · rw [setUp_of_ne hright, Function.update_self]
      refine setUp_congr (setUp_congr ?_)
      rw [Function.update_of_ne hc, Function.update_of_ne hc]

/-- `del` at the last node. -/
theorem del_last (depth : ℕ) (hqq : m.load qq = some q) (hrr : m.load rr = some e.addr)
    (hrep : Rep m.heap up (.node l e .nil)) (hbal : (Shape.node l e .nil).Balanced)
    (hnodup : (Shape.node l e .nil).addrs.Nodup) (hq : q ∉ (Shape.node l e .nil).addrs)
    (houtq : qq.Outside (Shape.node l e .nil)) (houtr : rr.Outside (Shape.node l e .nil))
    (hright : ∀ c, (m.heap q).right = some c → c ∉ (Shape.node l e .nil).addrs)
    (hleft : ∀ c, (m.heap q).left = some c → c ∈ (Shape.node l e .nil).addrs → c = e.addr) :
    ∃ m', del qq (depth + 1) rr m = some (true, m') ∧
      Taken m qq rr (m.heap q) up (.node l e .nil) l e true m' := by
  obtain ⟨hnode, hl, -⟩ := hrep
  obtain ⟨hld, -, hel, -, -⟩ := (nodup_addrs_join (s := .left)).mp hnodup
  have hmem (c : Addr) : c ∈ (Shape.node l e .nil).addrs ↔ c ∈ l.addrs ∨ c = e.addr := by
    rw [show Shape.node l e .nil = join .left l e .nil from rfl, mem_addrs_join]
    simp [addrs, entries]
  have hrightOut : ∀ c ∈ (Shape.node l e .nil).addrs, (m.heap q).right ≠ some c :=
    fun c hc heq => hright c heq hc
  have hlOut : qq.Outside l ∧ rr.Outside l :=
    ⟨houtq.mono fun c hc => (hmem c).mpr (.inl hc), houtr.mono fun c hc => (hmem c).mpr (.inl hc)⟩
  have he : e.addr ∈ (Shape.node l e .nil).addrs := (hmem _).mpr (.inr rfl)
  obtain ⟨heap, hrun, ⟨left, hheap⟩, hother⟩ := delLast_run rr hqq (by grind) hel hnode
    (hrightOut _ he)
  refine ⟨((({ m with heap } : Memory κ ν).store qq (some e.addr)).store rr l.addr), ?_, ?_⟩
  · have hn : (m.heap e.addr).right = none := by rw [hnode]; rfl
    simp only [del, bind_run, load_run, hrr, Option.bind_some, deref_run, hn, ne_eq,
      not_true_eq_false, if_false, hrun, pure_run]
  -- The branch that is left, before the references are stored.
  have hl' : Rep heap (if some e.addr = (m.heap q).left then some e.addr else up) l := by
    have hup : Rep (setUp (setUp m.heap l.addr up) (m.heap q).right (some e.addr)) up l :=
      (hl.setUp hld up).congr fun c hc => setUp_of_ne (hrightOut c ((hmem c).mpr (.inl hc)))
    split_ifs with htop
    · refine (hup.setUp hld (some e.addr)).congr fun c hc => ?_
      rw [hother c (ne_of_mem_of_not_mem hc hel), if_pos htop]
    · refine hup.congr fun c hc => ?_
      rw [hother c (ne_of_mem_of_not_mem hc hel), if_neg htop]
      refine setUp_of_ne fun heq => hel ?_
      rwa [← hleft c heq ((hmem c).mpr (.inl hc))]
  refine ⟨by simp [entries], hbal.1, by simp [height], (hl'.store hlOut.1).store hlOut.2,
    ⟨left, ?_⟩, SameBut.store (SameBut.store ?_ houtq) houtr⟩
  · rw [heap_store houtr he, heap_store houtq he]
    exact hheap
  · refine ⟨fun c hc => ?_, rfl, rfl, rfl, rfl, rfl⟩
    obtain ⟨hcl, hce⟩ := not_or.mp (mt (hmem c).mpr hc)
    dsimp only
    rw [hother c hce]
    split_ifs with htop
    · rw [setUp_apply_of_notMem hcl, ← htop,
        setUp_of_ne (p := some e.addr) (by simpa using Ne.symm hce)]
      exact setUp_congr (setUp_apply_of_notMem hcl)
    · exact setUp_congr (setUp_congr (setUp_apply_of_notMem hcl))

section

variable {nq : Node κ ν} {c : Addr} {s : Side} {r r' : Shape κ ν} {z : Entry κ ν} {h : Bool}
  {m₁ : Memory κ ν}

/-- What is left of a branch without its last node. -/
theorem addrs_last (hnodup : r.addrs.Nodup) (hentries : r.entries = r'.entries ++ [z]) :
    r'.addrs.Nodup ∧ z.addr ∈ r.addrs ∧ z.addr ∉ r'.addrs ∧ ∀ a ∈ r'.addrs, a ∈ r.addrs := by
  have haddrs : r.addrs = r'.addrs ++ [z.addr] := by
    rw [addrs, addrs, hentries, List.map_append, List.map_singleton]
  rw [haddrs, List.nodup_append'] at hnodup
  refine ⟨hnodup.1, ?_, fun hz => hnodup.2.2 hz (List.mem_singleton.mpr rfl), fun a ha => ?_⟩
  · rw [haddrs]
    exact List.mem_append_right _ (List.mem_singleton.mpr rfl)
  · rw [haddrs]
    exact List.mem_append_left _ ha

theorem entries_last (hentries : r.entries = r'.entries ++ [z]) :
    (Shape.node l e r).entries = (join .right r' e l).entries ++ [z] := by
  simp [join, entries, hentries]

/-- The memory above the branch that the last node was taken from: nothing has changed but the
links. -/
theorem Taken.above (hrr : m.load (.child c s) = some e.addr)
    (hrep : Rep m.heap up (.node l e r))
    (hnodup : (Shape.node l e r).addrs.Nodup) (houtq : qq.Outside (Shape.node l e r))
    (hc : c ∉ (Shape.node l e r).addrs) (hqc : ∀ s, qq ≠ .child c s)
    (hright : ∀ c, nq.right = some c → c ∉ (Shape.node l e r).addrs)
    (hleft : ∀ c, nq.left = some c → c ∈ (Shape.node l e r).addrs → c = e.addr)
    (htaken : Taken m qq (.child e.addr .right) nq (some e.addr) r r' z h m₁) :
    m₁.load (.child c s) = some e.addr ∧
      m₁.heap e.addr = ⟨l.addr, r'.addr, if some e.addr = nq.left then some z.addr else up,
        some e.key, e.value, l.size, r.size, (r.height : ℤ) - l.height⟩ ∧
      Rep m₁.heap (some e.addr) l ∧ Rep m₁.heap (some e.addr) r' ∧ some z.addr ≠ nq.left ∧
      ∀ a ∉ (Shape.node l e r).addrs, m₁.heap a = (m.taken qq nq z.addr).heap a := by
  obtain ⟨hnode, hl, -⟩ := hrep
  obtain ⟨-, hrd, hel, her, hlr⟩ := (nodup_addrs_join (s := .left)).mp hnodup
  have hmem (c : Addr) :
      c ∈ (Shape.node l e r).addrs ↔ c ∈ l.addrs ∨ c = e.addr ∨ c ∈ r.addrs :=
    mem_addrs_join (s := .left)
  have he : e.addr ∈ (Shape.node l e r).addrs := (hmem _).mpr (.inr (.inl rfl))
  have hrightOut : ∀ c ∈ (Shape.node l e r).addrs, nq.right ≠ some c :=
    fun c hc heq => hright c heq hc
  have htop : ∀ a ∈ r.addrs, nq.left ≠ some a := fun a ha heq =>
    her (hleft a heq ((hmem a).mpr (.inr (.inr ha))) ▸ ha)
  have hz : z.addr ∈ r.addrs := (addrs_last hrd htaken.entries).2.1
  have hframe : ∀ a ∉ r.addrs, a ≠ e.addr → m₁.heap a = (m.taken qq nq z.addr).heap a := by
    intro a ha hae
    rw [htaken.frame.heap a ha]
    exact Function.update_of_ne hae _ _
  have hout : ∀ a ∉ (Shape.node l e r).addrs, a ≠ e.addr ∧ a ∉ r.addrs := fun a ha =>
    not_or.mp (not_or.mp (mt (hmem a).mpr ha)).2
  refine ⟨?_, ?_, hl.congr fun a ha => ?_, ?_, Ne.symm (htop _ hz), fun a ha => ?_⟩
  · have hload : (m.taken qq nq z.addr).load (.child c s) = _ := load_taken hqc
    rw [← hrr, ← hload, Memory.load, Memory.load, hframe c (hout c hc).2 (hout c hc).1]
  · rw [htaken.frame.heap _ her]
    simp only [Memory.store, Function.update_self]
    rw [heap_taken houtq he (hrightOut _ he), hnode]
    by_cases htop : nq.left = some e.addr
    · rw [if_pos htop, if_pos htop.symm]
      rfl
    · rw [if_neg htop, if_neg (Ne.symm htop)]
      rfl
  · have hat := (hmem a).mpr (.inl ha)
    rw [hframe a (hlr a ha) (ne_of_mem_of_not_mem ha hel), heap_taken houtq hat (hrightOut a hat),
      if_neg fun heq => hel (hleft a heq hat ▸ ha)]
  · have hrep := htaken.rep
    rwa [if_neg] at hrep
    cases hra : r.addr with
    | none => exact absurd hz (by rw [addr_eq_none.mp hra]; exact List.not_mem_nil)
    | some a => exact Ne.symm (htop a (mem_addrs_of_addr hra))
  · exact hframe a (hout a ha).2 (hout a ha).1

/-- The node above a branch that the last node was taken from is counted and balanced. -/
theorem Taken.parent (hrr : m.load (.child c s) = some e.addr)
    (hrep : Rep m.heap up (.node l e r)) (hbal : (Shape.node l e r).Balanced)
    (hnodup : (Shape.node l e r).addrs.Nodup) (houtq : qq.Outside (Shape.node l e r))
    (hc : c ∉ (Shape.node l e r).addrs) (hqc : ∀ s, qq ≠ .child c s)
    (hright : ∀ c, nq.right = some c → c ∉ (Shape.node l e r).addrs)
    (hleft : ∀ c, nq.left = some c → c ∈ (Shape.node l e r).addrs → c = e.addr)
    (htaken : Taken m qq (.child e.addr .right) nq (some e.addr) r r' z h m₁) :
    ∃ t' h' m', delAbove (.child c s) h m₁ = some (h', m') ∧
      Taken m qq (.child c s) nq up (.node l e r) t' z h' m' := by
  obtain ⟨hload, he₁, hl₁, hr₁, hztop, hframe⟩ :=
    htaken.above hrr hrep hnodup houtq hc hqc hright hleft
  obtain ⟨hld, hrd, hel, her, hlr⟩ := (nodup_addrs_join (s := .left)).mp hnodup
  obtain ⟨hr'd, hzr, hzr', hr'mem⟩ := addrs_last hrd htaken.entries
  have hmem (c : Addr) :
      c ∈ (Shape.node l e r).addrs ↔ c ∈ l.addrs ∨ c = e.addr ∨ c ∈ r.addrs :=
    mem_addrs_join (s := .left)
  have he : e.addr ∈ (Shape.node l e r).addrs := (hmem _).mpr (.inr (.inl rfl))
  have hze : z.addr ≠ e.addr := ne_of_mem_of_not_mem hzr her
  have hsize : r.size = r'.size + 1 := by
    rw [← length_entries, htaken.entries, List.length_append, length_entries, List.length_singleton]
  have hsub : ∀ a ∈ (join .right r' e l).addrs, a ∈ (Shape.node l e r).addrs := by
    intro a ha
    rw [mem_addrs_join] at ha
    rw [hmem]
    have := hr'mem a
    tauto
  have hnodup' : (join .right r' e l).addrs.Nodup :=
    nodup_addrs_join.mpr ⟨hr'd, hld, fun he => her (hr'mem _ he), hel,
      fun a ha hal => hlr a hal (hr'mem a ha)⟩
  have hout : Ref.Outside (.child c s) (join .right r' e l) := by
    rintro a s' ⟨⟩ ha
    exact hc (hsub _ ha)
  have hout' : Ref.Outside (.child c s) (Shape.node l e r) := by
    rintro a s' ⟨⟩
    exact hc
  -- The node with the count of what is left.
  obtain ⟨heap, hheap, hother⟩ : ∃ heap : Addr → Node κ ν,
      heap = Function.update m₁.heap e.addr
        { m₁.heap e.addr with rightNodes := (m₁.heap e.addr).rightNodes - 1 } ∧
      ∀ a ≠ e.addr, heap a = m₁.heap a :=
    ⟨_, rfl, fun a ha => Function.update_of_ne ha _ _⟩
  have hp : heap e.addr = record .right r' e l (if some e.addr = nq.left then some z.addr else up)
      ((r.height : ℤ) - l.height) := by
    rw [hheap, Function.update_self, he₁, record, hsize]
    simp
  replace hl₁ : Rep heap (some e.addr) l := hl₁.congr fun a ha =>
    hother a (ne_of_mem_of_not_mem ha hel)
  replace hr₁ : Rep heap (some e.addr) r' := hr₁.congr fun a ha =>
    hother a (ne_of_mem_of_not_mem (hr'mem a ha) her)
  have hsame : SameBut (Shape.node l e r).addrs (m.taken qq nq z.addr) { m₁ with heap } :=
    ⟨fun a ha => (hother a fun heq => ha (heq ▸ he)).trans (hframe a ha), htaken.frame.root,
      htaken.frame.count, htaken.frame.pool, htaken.frame.totalNodes, htaken.frame.freeNodes⟩
  have hrun : delAbove (.child c s) h m₁ =
      (if h then balanceRight (.child c s) else return h : Code κ ν Bool) { m₁ with heap } := by
    simp only [delAbove, bind_run, load_run, hload, Option.bind_some, assign_run, ← hheap]
  obtain ⟨left, hz⟩ := htaken.node
  rw [if_neg hztop] at hz
  obtain ⟨hbl, hbr, hlr', hrl'⟩ := hbal
  rw [hrun]
  cases h with
  | false =>
    have hheight : r'.height = r.height := htaken.height
    refine ⟨join .right r' e l, false, _, rfl, entries_last htaken.entries, ?_, ?_,
      rep_join.mpr ⟨?_, hr₁, hl₁⟩, ⟨left, ?_⟩, ?_⟩
    · exact balanced_join.mpr ⟨htaken.balanced, hbl, by omega, by omega⟩
    · rw [height_join, hheight, Nat.max_comm]
      rfl
    · rw [tilt_right, hheight]
      exact hp
    · rw [if_neg hztop]
      exact (hother _ hze).trans hz
    · rw [addr_join, store_load ((load_taken hqc).trans hrr)]
      exact hsame
  | true =>
    have hheight : r'.height + 1 = r.height := htaken.height
    have hload' : ({ m₁ with heap } : Memory κ ν).load (.child c s) = some e.addr := by
      rw [← hload, Memory.load, Memory.load, ← hother c fun heq => hc (heq ▸ he)]
    obtain ⟨t', h', m', hshrunk, hrep', hbal', hentries', hheight', hframe'⟩ :=
      shrunk_spec hnodup' hload' hout
        (hp.trans (by congr 1; simp only [Side.sign]; omega)) hr₁ hl₁ htaken.balanced hbl (by omega)
        (by omega)
    refine ⟨t', h', m', hshrunk, ?_, hbal', ?_, hrep', ⟨left, ?_⟩, ?_⟩
    · rw [hentries', entries_last htaken.entries]
    · rw [hheight', Shape.height]
      omega
    · rw [if_neg hztop, hframe'.heap _ ?_, heap_store hout' ((hmem _).mpr (.inr (.inr hzr)))]
      · exact (hother _ hze).trans hz
      · rw [mem_addrs_join]
        have := hlr z.addr
        tauto
    · exact (hsame.store hout').trans (hframe'.mono hsub)

end

/-- **`del`** on a branch takes its last node. -/
theorem del_spec {c : Addr} {s : Side} (hdepth : t.height < depth) (ht : t ≠ .nil)
    (hqq : m.load qq = some q) (hrr : m.load (.child c s) = t.addr)
    (hrep : Rep m.heap up t) (hbal : t.Balanced) (hnodup : t.addrs.Nodup) (hq : q ∉ t.addrs)
    (houtq : qq.Outside t) (hc : c ∉ t.addrs) (hqc : ∀ s, qq ≠ .child c s)
    (hright : ∀ c, (m.heap q).right = some c → c ∉ t.addrs)
    (hleft : ∀ c, (m.heap q).left = some c → c ∈ t.addrs → t.addr = some c) :
    ∃ t' r h m', del qq depth (.child c s) m = some (h, m') ∧
      Taken m qq (.child c s) (m.heap q) up t t' r h m' := by
  induction t generalizing depth up c s with
  | nil => exact absurd rfl ht
  | node l e r _ ih =>
    obtain ⟨depth, rfl⟩ : ∃ d, depth = d + 1 := ⟨depth - 1, by omega⟩
    have houtr : Ref.Outside (.child c s) (Shape.node l e r) := by
      rintro a s' ⟨⟩
      exact hc
    by_cases hr : r = .nil
    · subst hr
      obtain ⟨m', hrun, htaken⟩ := del_last depth hqq hrr hrep hbal hnodup hq houtq houtr hright
        fun c hc hmem => (Option.some.inj (hleft c hc hmem)).symm
      exact ⟨l, e, true, m', hrun, htaken⟩
    · obtain ⟨hld, hrd, hel, her, hlr⟩ := (nodup_addrs_join (s := .left)).mp hnodup
      have hmem {c : Addr} (hc : c ∈ r.addrs) : c ∈ (Shape.node l e r).addrs :=
        (mem_addrs_join (s := .left)).mpr (.inr (.inr hc))
      have he : e.addr ∈ (Shape.node l e r).addrs := mem_addrs_of_addr rfl
      have hleft' : ∀ c, (m.heap q).left = some c → c ∈ (Shape.node l e r).addrs → c = e.addr :=
        fun c hc hmem => (Option.some.inj (hleft c hc hmem)).symm
      rw [Shape.height] at hdepth
      obtain ⟨r', z, h, m₁, hrun, htaken⟩ := ih (c := e.addr) (s := .right)
        (show r.height < depth by omega) hr (by rw [Memory.load, hrep.1]; rfl) hrep.2.2 hbal.2.1 hrd
        (fun h => hq (hmem h)) (houtq.mono fun _ => hmem) her (fun s' heq => houtq _ _ heq he)
        (fun c hc h => hright c hc (hmem h))
        (fun c hc h => absurd (hleft' c hc (hmem h) ▸ h) her)
      obtain ⟨t', h', m', hrun', htaken'⟩ :=
        htaken.parent hrr hrep hbal hnodup houtq hc hqc hright hleft'
      refine ⟨t', z, h', m', ?_, htaken'⟩
      have hn : (m.heap e.addr).right ≠ none := by
        rw [hrep.1]
        exact mt addr_eq_none.mp hr
      simp only [del, bind_run, load_run, hrr, addr, Option.bind_some, deref_run, ne_eq, hn,
        not_false_eq_true, if_true, hrun]
      exact hrun'

end

end Bitmarkd.Avl
