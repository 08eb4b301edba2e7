import Bitmarkd.Avl.Entries
import Bitmarkd.Avl.Rotate

/-!
# The AVL tree: insert

`insert` on a branch that the memory holds makes a balanced branch of it that has the new entry in
its place (`insert_spec`).
-/

namespace Bitmarkd.Avl

open Shape

variable {κ ν : Type}

section

variable {m m₁ : Memory κ ν} {s : Side} {x x' y : Shape κ ν} {e : Entry κ ν} {up u : Pointer}
  {added h : Bool} {a : Addr} {b : ℤ}

/-- The node with the new branch and its count. -/
theorem record_inserted (hsize : x'.size = x.size + added.toNat) :
    (if added then ((record s x e y up b).setChild s x'.addr).setNodes s
        (((record s x e y up b).setChild s x'.addr).nodes s + 1)
      else (record s x e y up b).setChild s x'.addr) = record s x' e y up b := by
  cases s <;> cases added <;>
    simp [record, Node.setChild, Node.setNodes, Node.nodes, hsize]

theorem inserted_spec (hrep : Rep m.heap up (join s x e y)) (hbal : (join s x e y).Balanced)
    (hnodup : (join s x' e y).addrs.Nodup) (hx' : Rep m₁.heap u x') (hbx' : x'.Balanced)
    (hheight : x'.height = x.height + h.toNat) (hsize : x'.size = x.size + added.toNat)
    (hlean : h → x'.height = 1 ∨ x'.Leaning) (hup : h = false → u = some e.addr)
    (hsame : ∀ c, c = e.addr ∨ c ∈ y.addrs → m₁.heap c = m.heap c) :
    ∃ t' h' m', inserted s (some e.addr) (x'.addr, added, h) m₁ =
        some ((t'.addr, added, h'), m') ∧
      Rep m'.heap up t' ∧ t'.Balanced ∧ t'.entries = (join s x' e y).entries ∧
      t'.height = (join s x e y).height + h'.toNat ∧ (h' → t'.Leaning) ∧
      SameBut (join s x' e y).addrs m₁ m' := by
  obtain ⟨hp, hx, hy⟩ := rep_join.mp hrep
  obtain ⟨hbx, hby, hxy, hyx⟩ := balanced_join.mp hbal
  obtain ⟨hxd, hyd, hex, hey, hdisjoint⟩ := nodup_addrs_join.mp hnodup
  rw [← hsame _ (.inl rfl)] at hp
  replace hy := hy.congr fun c hc => hsame c (.inr hc)
  have hassigned : ∃ heap, inserted s (some e.addr) (x'.addr, added, h) m₁ =
      (if h then do
          let top ← grown s (some e.addr)
          return (top.1, added, top.2)
        else return (some e.addr, added, h) : Code κ ν _) { m₁ with heap } ∧
      heap e.addr = record s x' e y up (tilt s x y) ∧ ∀ c ≠ e.addr, heap c = m₁.heap c := by
    cases added with
    | false =>
      refine ⟨_, rfl, ?_, fun c hc => Function.update_of_ne hc _ _⟩
      rw [Function.update_self]
      rw [hp]
      exact record_inserted hsize
    | true =>
      refine ⟨_, rfl, ?_, fun c hc => ?_⟩
      · simp only [Function.update_self]
        rw [hp]
        exact record_inserted hsize
      · exact (Function.update_of_ne hc _ _).trans (Function.update_of_ne hc _ _)
  obtain ⟨heap, hrun, hheap, hother⟩ := hassigned
  have hsame' : ∀ c ∉ (join s x' e y).addrs, heap c = m₁.heap c := fun c hc =>
    hother c fun heq => hc (heq ▸ mem_addrs_join.mpr (.inr (.inl rfl)))
  replace hx' : Rep heap u x' := hx'.congr fun c hc => hother c (ne_of_mem_of_not_mem hc hex)
  replace hy : Rep heap (some e.addr) y :=
    hy.congr fun c hc => hother c (ne_of_mem_of_not_mem hc hey)
  rw [hrun]
  cases h with
  | false =>
    rw [Bool.toNat_false, Nat.add_zero] at hheight
    rw [hup rfl] at hx'
    refine ⟨join s x' e y, false, _, by rw [addr_join]; rfl, rep_join.mpr ⟨?_, hx', hy⟩, ?_, rfl,
      ?_, by simp, .of_heap hsame'⟩
    · exact hheap.trans (by rw [tilt, tilt, hheight])
    · exact balanced_join.mpr ⟨hbx', hby, by omega, by omega⟩
    · simp [hheight]
  | true =>
    rw [Bool.toNat_true] at hheight
    have hp' : heap e.addr = record s x' e y up (s.sign * ((x'.height : ℤ) - 1 - y.height)) :=
      hheap.trans (by rw [tilt, hheight]; congr 2; omega)
    obtain ⟨t', h', m', hgrown, hrep', hbal', hentries, hheight', hlean', hsame''⟩ :=
      grown_spec (m := { m₁ with heap }) hnodup hp' hx' hy hbx' hby (by omega) (by omega)
        (by omega) fun hhigh => (hlean rfl).resolve_left (by omega)
    refine ⟨t', h', m', ?_, hrep', hbal', hentries, ?_, hlean',
      (SameBut.of_heap hsame').trans hsame''⟩
    · simp only [if_pos, bind_run, hgrown, Option.bind_some]
      rfl
    · rw [hheight', height_join]
      omega

end

section

variable {compare : κ → κ → ℤ} {m m₁ : Memory κ ν} {a : Addr} {key : κ} {value : Option ν}

/-- The allocator hands out a node at `a`. -/
structure Allocates (m : Memory κ ν) (key : κ) (value : Option ν) (a : Addr) (m₁ : Memory κ ν) :
    Prop where
  run : newNode key value m = some (some a, m₁)
  heap : m₁.heap = Function.update m.heap a ⟨none, none, none, some key, value, 0, 0, 0⟩

/-- What `insert` has done to a branch `t` below `up`, with `new` the entry of the node that the
allocator had ready: the branch `t'` has the entry, `added` says whether the node was taken, and `h`
whether the branch is higher. -/
structure Inserted (compare : κ → κ → ℤ) (m m₁ : Memory κ ν) (new : Entry κ ν) (up : Pointer)
    (t t' : Shape κ ν) (added h : Bool) (m' : Memory κ ν) : Prop where
  -- A new node has no parent yet.
  rep : Rep m'.heap (if t.addr = none then none else up) t'
  balanced : t'.Balanced
  entries : t'.entries = insertEntry compare new t.entries
  height : t'.height = t.height + h.toNat
  leaning : h → t'.height = 1 ∨ t'.Leaning
  linked : h = false → t.addr ≠ none
  isNew : added = (valueOf compare new.key t.entries).isNone
  frame : SameBut t'.addrs (if added then m₁ else m) m'

theorem insert_node_run {l r : Shape κ ν} {e : Entry κ ν} {up : Pointer} {depth : ℕ}
    (hrep : Rep m.heap up (.node l e r)) :
    insert compare key value (depth + 1) (some e.addr) m =
      (if compare e.key key = 1 then do
          inserted .left (some e.addr) (← insert compare key value depth l.addr)
        else if compare e.key key = -1 then do
          inserted .right (some e.addr) (← insert compare key value depth r.addr)
        else do
          assign (some e.addr) ({ · with value })
          return (some e.addr, false, false) : Code κ ν _) m := by
  rw [insert, if_neg (by simp), bind_run, deref_run, Option.bind_some, hrep.1]
  rfl

theorem Inserted.perm_addrs {t t' : Shape κ ν} {new : Entry κ ν} {up : Pointer} {added h : Bool}
    {m' : Memory κ ν} (horder : TotalOrder compare) (hsorted : Sorted compare t.entries)
    (hins : Inserted compare m m₁ new up t t' added h m') :
    t'.addrs.Perm (if added then new.addr :: t.addrs else t.addrs) := by
  have hperm := addrs_insertEntry horder (e := new) hsorted
  rw [← hins.entries] at hperm
  rw [hins.isNew]
  simp only [Option.isNone_iff_eq_none]
  exact hperm

/-- `insert` into the branch on the side of the key. -/
theorem Inserted.branch (horder : TotalOrder compare) {s : Side} {x y : Shape κ ν} {e : Entry κ ν}
    {up : Pointer} {new : Entry κ ν} {x' : Shape κ ν} {added h : Bool} {m₂ : Memory κ ν}
    (hcompare : compare e.key new.key = -s.sign)
    (hrep : Rep m.heap up (join s x e y)) (hbal : (join s x e y).Balanced)
    (hsorted : Sorted compare (join s x e y).entries)
    (hnodup : (new.addr :: (join s x e y).addrs).Nodup)
    (halloc : ∀ c ≠ new.addr, m₁.heap c = m.heap c)
    (hx : Inserted compare m m₁ new (some e.addr) x x' added h m₂) :
    ∃ t' h' m', inserted s (some e.addr) (x'.addr, added, h) m₂ =
        some ((t'.addr, added, h'), m') ∧
      Inserted compare m m₁ new up (join s x e y) t' added h' m' := by
  obtain ⟨hnew, hnodup⟩ := List.nodup_cons.mp hnodup
  obtain ⟨hxd, hyd, hex, hey, hdisjoint⟩ := nodup_addrs_join.mp hnodup
  simp only [mem_addrs_join, not_or] at hnew
  have hperm := hx.perm_addrs horder hsorted.side
  have hmem : ∀ c ∈ x'.addrs, c = new.addr ∨ c ∈ x.addrs := by
    intro c hc
    have hc := hperm.mem_iff.mp hc
    split_ifs at hc
    · exact List.mem_cons.mp hc
    · exact .inr hc
  have hxd' : x'.addrs.Nodup := by
    refine hperm.nodup_iff.mpr ?_
    split_ifs
    · exact List.nodup_cons.mpr ⟨hnew.1, hxd⟩
    · exact hxd
  have hnodup' : (join s x' e y).addrs.Nodup := by
    refine nodup_addrs_join.mpr ⟨hxd', hyd, fun hc => ?_, hey, fun c hc => ?_⟩
    · exact (hmem _ hc).elim (Ne.symm hnew.2.1) hex
    · rcases hmem c hc with rfl | hc
      · exact hnew.2.2
      · exact hdisjoint c hc
  have hsize : x'.size = x.size + added.toNat := by
    have hlength := hperm.length_eq
    cases added <;> simpa [addrs, length_entries] using hlength
  have hsame : ∀ c, c = e.addr ∨ c ∈ y.addrs → m₂.heap c = m.heap c := by
    intro c hc
    have hne : c ≠ new.addr := by rintro rfl; tauto
    have hcx : c ∉ x.addrs := by rcases hc with rfl | hc <;> grind
    rw [hx.frame.heap c fun hcx' => (hmem c hcx').elim hne hcx]
    split_ifs
    · exact halloc c hne
    · rfl
  obtain ⟨t', h', m', hrun, hrep', hbal', hentries, hheight, hlean, hframe⟩ :=
    inserted_spec hrep hbal hnodup' hx.rep hx.balanced hx.height hsize hx.leaning
      (fun hh => if_neg (hx.linked hh)) hsame
  refine ⟨t', h', m', hrun, by simpa using hrep', hbal', ?_, hheight, fun hh => .inr (hlean hh),
    by simp, ?_, ?_⟩
  · rw [hentries]
    exact entries_insertEntry_join horder hcompare hsorted hx.entries
  · rw [valueOf_join horder hcompare hsorted]
    exact hx.isNew
  · rw [addrs, hentries]
    exact (hx.frame.mono fun c hc => mem_addrs_join.mpr (.inl hc)).trans hframe

/-- **`insert`** on a branch. -/
theorem insert_spec (horder : TotalOrder compare) (halloc : Allocates m key value a m₁)
    {t : Shape κ ν} {depth : ℕ} {up : Pointer} (hdepth : t.height < depth) (hrep : Rep m.heap up t)
    (hbal : t.Balanced) (hsorted : Sorted compare t.entries) (hnodup : (a :: t.addrs).Nodup) :
    ∃ t' added h m', insert compare key value depth t.addr m = some ((t'.addr, added, h), m') ∧
      Inserted compare m m₁ ⟨a, key, value⟩ up t t' added h m' := by
  have hother : ∀ c ≠ a, m₁.heap c = m.heap c := fun c hc => by
    rw [halloc.heap, Function.update_of_ne hc]
  induction t generalizing depth up with
  | nil =>
    obtain ⟨depth, rfl⟩ : ∃ d, depth = d + 1 := ⟨depth - 1, by omega⟩
    refine ⟨.node .nil ⟨a, key, value⟩ .nil, true, true, m₁, ?_, ?_, by simp [Shape.Balanced],
      rfl, rfl,
      by simp [height], by simp, by simp [valueOf, entries], .refl _ _⟩
    · rw [insert, addr_nil, if_pos rfl, bind_run, halloc.run]
      rfl
    · rw [addr_nil, if_pos rfl, Rep, halloc.heap, Function.update_self]
      simp
  | node l e r ihl ihr =>
    obtain ⟨depth, rfl⟩ : ∃ d, depth = d + 1 := ⟨depth - 1, by omega⟩
    rw [addr, insert_node_run hrep]
    obtain ⟨hnode, hl, hr⟩ := hrep
    obtain ⟨hnew, htree⟩ := List.nodup_cons.mp hnodup
    obtain ⟨hld, hrd, hel, her, -⟩ := (nodup_addrs_join (s := .left)).mp htree
    replace hnew := mt (mem_addrs_join (s := .left)).mpr hnew
    rw [height] at hdepth
    by_cases hgt : compare e.key key = 1
    · obtain ⟨x', added, h, m₂, hrun, hx⟩ := ihl (show l.height < depth by omega) hl hbal.1
        (hsorted.side (s := .left)) (List.nodup_cons.mpr ⟨by tauto, hld⟩)
      obtain ⟨t', h', m', hrun', ht⟩ := Inserted.branch (s := .left) horder hgt
        ⟨hnode, hl, hr⟩ hbal hsorted hnodup hother hx
      refine ⟨t', added, h', m', ?_, ht⟩
      rw [if_pos hgt, bind_run, hrun]
      exact hrun'
    rw [if_neg hgt]
    by_cases hlt : compare e.key key = -1
    · obtain ⟨x', added, h, m₂, hrun, hx⟩ := ihr (show r.height < depth by omega) hr hbal.2.1
        (hsorted.side (s := .right)) (List.nodup_cons.mpr ⟨by tauto, hrd⟩)
      obtain ⟨t', h', m', hrun', ht⟩ := Inserted.branch (s := .right) (x := r) (y := l) horder hlt
        ⟨hnode, hl, hr⟩ hbal hsorted hnodup hother hx
      refine ⟨t', added, h', m', ?_, ht⟩
      rw [if_pos hlt, bind_run, hrun]
      exact hrun'
    rw [if_neg hlt]
    obtain rfl := horder.eq_of_not hgt hlt
    have hzero : compare e.key e.key = 0 := (horder.eq_zero _ _).mpr rfl
    refine ⟨.node l { e with value } r, false, false, _, rfl, ⟨?_, hl.update hel, hr.update her⟩,
      hbal, ?_, rfl, by simp, by simp [addr], ?_, sameBut_update ?_ fun _ _ => rfl⟩
    · simp [hnode, addr]
    · simp only [entries]
      rw [insertEntry_append_right, insertEntry, if_neg hgt, if_neg hlt]
      intro y hy
      exact (List.pairwise_append.mp hsorted).2.2 y hy e List.mem_cons_self
    · rw [eq_comm, Option.isNone_eq_false_iff, Option.isSome_iff_ne_none, ne_eq, valueOf_eq_none]
      intro hne
      exact hne e (by simp [entries]) hzero
    · simp [addrs, entries]

end

end Bitmarkd.Avl
