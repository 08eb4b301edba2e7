import Bitmarkd.Avl.Shape

/-!
# The AVL tree: rotations and balancing

A rotation changes the shape and keeps the entries in their order. `grown` and `shrunk` make a node
balanced again one of whose branches has become higher or lower by one.
-/

namespace Bitmarkd.Avl

open Shape

variable {κ ν α β : Type}

/-! ## Running code -/

section Run

variable {m : Memory κ ν}

theorem bind_run (c : Code κ ν α) (f : α → Code κ ν β) :
    (c >>= f) m = (c m).bind fun x => f x.1 x.2 := rfl

theorem pure_run (x : α) : (pure x : Code κ ν α) m = some (x, m) := rfl

theorem deref_run (a : Addr) : deref (some a) m = some (m.heap a, m) := rfl

theorem assign_run (a : Addr) (f : Node κ ν → Node κ ν) : assign (some a) f m =
    some ((), { m with heap := Function.update m.heap a (f (m.heap a)) }) := rfl

theorem assignUp_run (p up : Pointer) :
    assignUp p up m = some ((), { m with heap := setUp m.heap p up }) := by
  cases p <;> rfl

theorem load_run (pp : Ref) : load pp m = some (m.load pp, m) := rfl

theorem store_run (pp : Ref) (p : Pointer) : store pp p m = some ((), m.store pp p) := rfl

theorem ite_run {p : Prop} [Decidable p] (c c' : Code κ ν α) :
    (if p then c else c') m = if p then c m else c' m := by
  split_ifs <;> rfl

end Run

section Rotate

variable {m : Memory κ ν} {s : Side} {w x y z : Shape κ ν} {e e1 e2 : Entry κ ν} {up : Pointer}
  {b b1 b2 : ℤ}

theorem rotateSingle_run (hne : e.addr ≠ e1.addr) (hew : e.addr ∉ w.addrs)
    (he1w : e1.addr ∉ w.addrs)
    (hp : m.heap e.addr = record s (join s z e1 w) e y up b)
    (hp1 : m.heap e1.addr = record s z e1 w (some e.addr) b1) :
    ∃ heap, rotateSingle s (some e.addr) (some e1.addr) m = some ((), { m with heap }) ∧
      heap e.addr = record s w e y (some e1.addr) b ∧
      heap e1.addr = record s z e1 (join s w e y) up b1 ∧
      ∀ a, a ≠ e.addr → a ≠ e1.addr → heap a = setUp m.heap w.addr (some e.addr) a := by
  cases s <;>
    simp only [rotateSingle, bind_run, deref_run, assign_run, assignUp_run, Option.bind_some] <;>
    refine ⟨_, rfl, ?_, ?_, fun a ha ha1 => ?_⟩ <;>
    simp [setUp_apply_of_notMem, hew, he1w, hne, hne.symm, hp, hp1, record, Node.setChild,
      Node.setUp, Node.setNodes, Node.child, Node.nodes, Side.other]
  · omega
  · exact setUp_congr (by simp [ha, ha1])
  · omega
  · exact setUp_congr (by simp [ha, ha1])

theorem rotateDouble_run (hne : e.addr ≠ e1.addr) (hne2 : e.addr ≠ e2.addr)
    (hne12 : e1.addr ≠ e2.addr) (hx : e.addr ∉ x.addrs ∧ e1.addr ∉ x.addrs ∧ e2.addr ∉ x.addrs)
    (hw : e.addr ∉ w.addrs ∧ e1.addr ∉ w.addrs ∧ e2.addr ∉ w.addrs)
    (hp : m.heap e.addr = record s (join s z e1 (join s w e2 x)) e y up b)
    (hp1 : m.heap e1.addr = record s z e1 (join s w e2 x) (some e.addr) b1)
    (hp2 : m.heap e2.addr = record s w e2 x (some e1.addr) b2) :
    ∃ heap, rotateDouble s (some e.addr) (some e1.addr) (some e2.addr) m =
        some ((), { m with heap }) ∧
      heap e.addr = record s x e y (some e2.addr) (if b2 = s.sign then -s.sign else 0) ∧
      heap e1.addr = record s z e1 w (some e2.addr) (if b2 = -s.sign then s.sign else 0) ∧
      heap e2.addr = record s (join s z e1 w) e2 (join s x e y) up b2 ∧
      ∀ a, a ≠ e.addr → a ≠ e1.addr → a ≠ e2.addr →
        heap a = setUp (setUp m.heap x.addr (some e.addr)) w.addr (some e1.addr) a := by
  cases s <;>
    simp only [rotateDouble, bind_run, deref_run, assign_run, assignUp_run, Option.bind_some] <;>
    refine ⟨_, rfl, ?_, ?_, ?_, fun a ha ha1 ha2 => ?_⟩ <;>
    simp [setUp_apply_of_notMem, hx, hw, hne, hne.symm, hne2, hne2.symm, hne12, hne12.symm, hp, hp1,
      hp2, record, Node.setChild, Node.setUp, Node.setNodes, Node.setBalance, Node.child,
      Node.nodes, Side.other]
  · omega
  · simp [ha, ha1, ha2]
    exact setUp_congr (setUp_congr (by simp [ha, ha1, ha2]))
  · omega
  · simp [ha, ha1, ha2]
    exact setUp_congr (setUp_congr (by simp [ha, ha1, ha2]))

/-- **A single rotation.** The inner branch `w` of `e1` goes to `e`, which goes below `e1`. -/
theorem rotateSingle_spec (hnodup : (join s (join s z e1 w) e y).addrs.Nodup)
    (hp : m.heap e.addr = record s (join s z e1 w) e y up (tilt s w y))
    (hp1 : m.heap e1.addr = record s z e1 w (some e.addr) b1)
    (hz : Rep m.heap (some e1.addr) z) (hw : Rep m.heap (some e1.addr) w)
    (hy : Rep m.heap (some e.addr) y) :
    ∃ heap, rotateSingle s (some e.addr) (some e1.addr) m = some ((), { m with heap }) ∧
      heap e1.addr = record s z e1 (join s w e y) up b1 ∧
      Rep heap (some e1.addr) z ∧ Rep heap (some e1.addr) (join s w e y) ∧
      ∀ a ∉ (join s (join s z e1 w) e y).addrs, heap a = m.heap a := by
  simp only [nodup_addrs_join, mem_addrs_join] at hnodup
  obtain ⟨⟨hzd, hwd, he1z, he1w, hzw⟩, hyd, hein, hey, hdisjoint⟩ := hnodup
  obtain ⟨heap, hrun, hheap, hheap1, hother⟩ := rotateSingle_run (by tauto) (by tauto) he1w hp hp1
  refine ⟨heap, hrun, hheap1, ?_, rep_join.mpr ⟨hheap, ?_, ?_⟩, ?_⟩
  · refine hz.congr fun a ha => ?_
    rw [hother a (by grind) (by grind), setUp_apply_of_notMem (hzw a ha)]
  · refine (hw.setUp hwd (some e.addr)).congr fun a ha => hother a (by grind) (by grind)
  · refine hy.congr fun a ha => ?_
    rw [hother a (by grind) (by grind), setUp_apply_of_notMem (by grind)]
  · intro a ha
    simp only [mem_addrs_join] at ha
    rw [hother a (by tauto) (by tauto), setUp_apply_of_notMem (by tauto)]

/-- **A double rotation.** The branches of `e2` go to `e1` and to `e`, which go below `e2`. -/
theorem rotateDouble_spec (hnodup : (join s (join s z e1 (join s w e2 x)) e y).addrs.Nodup)
    (hp : m.heap e.addr = record s (join s z e1 (join s w e2 x)) e y up b)
    (hp1 : m.heap e1.addr = record s z e1 (join s w e2 x) (some e.addr) b1)
    (hp2 : m.heap e2.addr = record s w e2 x (some e1.addr) (tilt s w x))
    (hz : Rep m.heap (some e1.addr) z) (hw : Rep m.heap (some e2.addr) w)
    (hx : Rep m.heap (some e2.addr) x) (hy : Rep m.heap (some e.addr) y)
    (hzy : z.height = y.height) (hmax : max w.height x.height = y.height)
    (hwx : w.height ≤ x.height + 1 ∧ x.height ≤ w.height + 1) :
    ∃ heap, rotateDouble s (some e.addr) (some e1.addr) (some e2.addr) m =
        some ((), { m with heap }) ∧
      heap e2.addr = record s (join s z e1 w) e2 (join s x e y) up (tilt s w x) ∧
      Rep heap (some e2.addr) (join s z e1 w) ∧ Rep heap (some e2.addr) (join s x e y) ∧
      ∀ a ∉ (join s (join s z e1 (join s w e2 x)) e y).addrs, heap a = m.heap a := by
  simp only [nodup_addrs_join, mem_addrs_join] at hnodup
  obtain ⟨⟨hzd, ⟨hwd, hxd, he2w, he2x, hwx'⟩, he1z, he1in, hzin⟩, hyd, hein, hey, hdisjoint⟩ :=
    hnodup
  obtain ⟨heap, hrun, hheap, hheap1, hheap2, hother⟩ :=
    rotateDouble_run (by tauto) (by tauto) (by tauto) (by tauto) (by tauto) hp hp1 hp2
  have hb : (if tilt s w x = s.sign then -s.sign else 0) = tilt s x y := by
    cases s <;> simp only [tilt_left, tilt_right, Side.sign] <;> split_ifs <;> omega
  have hb1 : (if tilt s w x = -s.sign then s.sign else 0) = tilt s z w := by
    cases s <;> simp only [tilt_left, tilt_right, Side.sign] <;> split_ifs <;> omega
  rw [hb] at hheap
  rw [hb1] at hheap1
  refine ⟨heap, hrun, hheap2, rep_join.mpr ⟨hheap1, ?_, ?_⟩, rep_join.mpr ⟨hheap, ?_, ?_⟩, ?_⟩
  · refine hz.congr fun a ha => ?_
    rw [hother a (by grind) (by grind) (by grind), setUp_apply_of_notMem (by grind),
      setUp_apply_of_notMem (by grind)]
  · have hw' : Rep (setUp m.heap x.addr (some e.addr)) (some e2.addr) w :=
      hw.congr fun a ha => setUp_apply_of_notMem (hwx' a ha)
    exact (hw'.setUp hwd (some e1.addr)).congr fun a ha =>
      hother a (by grind) (by grind) (by grind)
  · refine (hx.setUp hxd (some e.addr)).congr fun a ha => ?_
    rw [hother a (by grind) (by grind) (by grind), setUp_apply_of_notMem (by grind)]
  · refine hy.congr fun a ha => ?_
    rw [hother a (by grind) (by grind) (by grind), setUp_apply_of_notMem (by grind),
      setUp_apply_of_notMem (by grind)]
  · intro a ha
    simp only [mem_addrs_join] at ha
    rw [hother a (by tauto) (by tauto) (by tauto), setUp_apply_of_notMem (by tauto),
      setUp_apply_of_notMem (by tauto)]

end Rotate

/-! ## Entries are kept -/

section Entries

variable {s : Side} {w x y z : Shape κ ν} {e e1 e2 : Entry κ ν}

theorem entries_rotateSingle :
    (join s z e1 (join s w e y)).entries = (join s (join s z e1 w) e y).entries := by
  cases s <;> simp [join, entries]

theorem entries_rotateDouble : (join s (join s z e1 w) e2 (join s x e y)).entries =
    (join s (join s z e1 (join s w e2 x)) e y).entries := by
  cases s <;> simp [join, entries]

end Entries

/-! ## Balancing -/

section Balance

variable {m : Memory κ ν} {s : Side} {x y z w : Shape κ ν} {e e1 : Entry κ ν} {up u : Pointer}
  {b b' : ℤ} {heap : Addr → Node κ ν}

theorem setBalance_record : (record s x e y up b).setBalance b' = record s x e y up b' := by
  cases s <;> rfl

theorem child_record : (record s x e y up b).child s = x.addr := by cases s <;> rfl

theorem child_other_record : (record s x e y up b).child s.other = y.addr := by cases s <;> rfl

theorem balance_record : (record s x e y up b).balance = b := by cases s <;> rfl

/-- The node on top gets the balance that it should have. -/
theorem rep_setBalance (b' : ℤ) (hnodup : (join s x e y).addrs.Nodup)
    (hp : heap e.addr = record s x e y up b) (hx : Rep heap (some e.addr) x)
    (hy : Rep heap (some e.addr) y) (hb : b' = tilt s x y) :
    Rep (Function.update heap e.addr ((heap e.addr).setBalance b')) up (join s x e y) := by
  obtain ⟨-, -, hex, hey, -⟩ := nodup_addrs_join.mp hnodup
  refine rep_join.mpr ⟨?_, hx.update hex, hy.update hey⟩
  rw [Function.update_self, hp, setBalance_record, hb]

theorem sameBut_update {as : List Addr} {n : Node κ ν} {a : Addr} (ha : a ∈ as)
    (h : ∀ c ∉ as, heap c = m.heap c) : SameBut as m { m with heap := Function.update heap a n } :=
  .of_heap fun c hc => by
    rw [Function.update_of_ne (ne_of_mem_of_not_mem ha hc).symm, h c hc]

theorem Side.sign_mul_eq_neg {k : ℤ} : s.sign * k = -s.sign ↔ k = -1 := by
  cases s <;> simp only [Side.sign] <;> omega

theorem Side.sign_mul_eq_zero {k : ℤ} : s.sign * k = 0 ↔ k = 0 := by
  cases s <;> simp only [Side.sign] <;> omega

theorem Side.sign_mul_eq_sign {k : ℤ} : s.sign * k = s.sign ↔ k = 1 := by
  cases s <;> simp only [Side.sign] <;> omega

@[simp] theorem Side.other_other : s.other.other = s := by cases s <;> rfl

@[simp] theorem Side.sign_other : s.other.sign = -s.sign := by cases s <;> rfl

@[simp] theorem record_other : record s.other x e y up b = record s y e x up b := by cases s <;> rfl

/-- **`grown`.** A branch that has become higher by one is linked, and the node is balanced. -/
theorem grown_spec (hnodup : (join s x e y).addrs.Nodup)
    (hp : m.heap e.addr = record s x e y up (s.sign * ((x.height : ℤ) - 1 - y.height)))
    (hx : Rep m.heap u x) (hy : Rep m.heap (some e.addr) y) (hbx : x.Balanced) (hby : y.Balanced)
    (hpos : 0 < x.height) (hle : x.height ≤ y.height + 2) (hge : y.height ≤ x.height)
    (hlean : x.height = y.height + 2 → x.Leaning) :
    ∃ t' h m', grown s (some e.addr) m = some ((t'.addr, h), m') ∧ Rep m'.heap up t' ∧
      t'.Balanced ∧ t'.entries = (join s x e y).entries ∧
      t'.height = max x.height (y.height + 1) + h.toNat ∧ (h → t'.Leaning) ∧
      SameBut (join s x e y).addrs m m' := by
  obtain ⟨hxd, hyd, hex, hey, hxy⟩ := nodup_addrs_join.mp hnodup
  have hmem : e.addr ∈ (join s x e y).addrs := mem_addrs_join.mpr (.inr (.inl rfl))
  simp only [grown, bind_run, deref_run, Option.bind_some, assignUp_run, hp, child_record, ite_run,
    assign_run]
  -- The memory with the branch linked.
  have hsame : ∀ a ∉ (join s x e y).addrs, setUp m.heap x.addr (some e.addr) a = m.heap a :=
    fun a ha => setUp_apply_of_notMem fun hmem => ha (mem_addrs_join.mpr (.inl hmem))
  replace hp : setUp m.heap x.addr (some e.addr) e.addr = _ := (setUp_apply_of_notMem hex).trans hp
  replace hx := hx.setUp hxd (some e.addr)
  replace hy : Rep (setUp m.heap x.addr (some e.addr)) (some e.addr) y :=
    hy.congr fun a ha => setUp_apply_of_notMem fun hmem => hxy a hmem ha
  generalize setUp m.heap x.addr (some e.addr) = heap at *
  simp only [hp, balance_record, Side.sign_mul_eq_neg, Side.sign_mul_eq_zero, child_record]
  by_cases hlow : (x.height : ℤ) - 1 - y.height = -1
  · rw [if_pos hlow]
    refine ⟨join s x e y, false, _, by rw [addr_join]; rfl, ?_, ?_, rfl, ?_, by simp,
      sameBut_update hmem hsame⟩
    · rw [← hp]
      exact rep_setBalance _ hnodup hp hx hy (by rw [tilt, eq_comm, Side.sign_mul_eq_zero]; omega)
    · exact balanced_join.mpr ⟨hbx, hby, by omega, by omega⟩
    · simp
      omega
  rw [if_neg hlow]
  by_cases hlevel : (x.height : ℤ) - 1 - y.height = 0
  · rw [if_pos hlevel]
    refine ⟨join s x e y, true, _, by rw [addr_join]; rfl, ?_, ?_, rfl, ?_, fun _ => ?_,
      sameBut_update hmem hsame⟩
    · rw [← hp]
      exact rep_setBalance _ hnodup hp hx hy (by rw [tilt, eq_comm, Side.sign_mul_eq_sign]; omega)
    · exact balanced_join.mpr ⟨hbx, hby, by omega, by omega⟩
    · simp
      omega
    · rw [leaning_join]
      omega
  rw [if_neg hlevel]
  have hhigh : x.height = y.height + 2 := by omega
  obtain ⟨z, e1, w, rfl⟩ := exists_join_of_height s hpos
  obtain ⟨hp1, hz, hw⟩ := rep_join.mp hx
  obtain ⟨hbz, hbw, hzw⟩ := balanced_join.mp hbx
  rw [height_join] at hhigh
  have hleans : z.height ≠ w.height := leaning_join.mp (hlean (by simpa using hhigh))
  simp only [mem_addrs_join, not_or] at hex hxy
  simp only [addr_join, deref_run, Option.bind_some, hp1, balance_record, tilt,
    Side.sign_mul_eq_sign, child_other_record]
  by_cases houter : (z.height : ℤ) - w.height = 1
  · rw [if_pos houter]
    have htilt : tilt s w y = 0 := Side.sign_mul_eq_zero.mpr (by omega)
    obtain ⟨heap', hrun, hp1', hz', hwy', hsame'⟩ := rotateSingle_spec
      (m := { m with heap := Function.update heap e.addr (record s (join s z e1 w) e y up 0) })
      hnodup (by rw [htilt]; exact Function.update_self ..)
      ((Function.update_of_ne (Ne.symm hex.2.1) ..).trans hp1)
      (hz.update hex.1) (hw.update hex.2.2) (hy.update hey)
    rw [hp, setBalance_record, hrun]
    refine ⟨join s z e1 (join s w e y), false, _, by rw [addr_join]; rfl,
      rep_setBalance 0 ?_ hp1' hz' hwy' ?_, ?_, entries_rotateSingle, ?_, by simp,
      sameBut_update ?_ fun a ha => ?_⟩
    · rwa [addrs, entries_rotateSingle]
    · rw [tilt, eq_comm, Side.sign_mul_eq_zero, height_join]
      omega
    · refine balanced_join.mpr ⟨hbz, balanced_join.mpr ⟨hbw, hby, by omega, by omega⟩, ?_, ?_⟩ <;>
        rw [height_join] <;> omega
    · simp only [height_join, Bool.toNat_false]
      omega
    · exact mem_addrs_join.mpr (.inl (mem_addrs_join.mpr (.inr (.inl rfl))))
    · have hne : a ≠ e.addr := (ne_of_mem_of_not_mem hmem ha).symm
      exact ((hsame' a ha).trans (Function.update_of_ne hne ..)).trans (hsame a ha)
  · rw [if_neg houter]
    obtain ⟨w', e2, x', rfl⟩ := exists_join_of_height (t := w) s (by omega)
    obtain ⟨hp2, hw', hx'⟩ := rep_join.mp hw
    obtain ⟨hbw', hbx', hwx⟩ := balanced_join.mp hbw
    rw [height_join] at hhigh hzw hleans houter
    obtain ⟨heap', hrun, hp2', hzw', hxy', hsame'⟩ := rotateDouble_spec (m := { m with heap })
      hnodup hp hp1 hp2 hz hw' hx' hy (by omega) (by omega) hwx
    rw [addr_join, hrun]
    refine ⟨join s (join s z e1 w') e2 (join s x' e y), false, _, by rw [addr_join]; rfl,
      rep_setBalance 0 ?_ hp2' hzw' hxy' ?_, ?_, entries_rotateDouble, ?_, by simp,
      sameBut_update ?_ fun a ha => (hsame' a ha).trans (hsame a ha)⟩
    · rwa [addrs, entries_rotateDouble]
    · rw [tilt, eq_comm, Side.sign_mul_eq_zero, height_join, height_join]
      omega
    · refine balanced_join.mpr ⟨balanced_join.mpr ⟨hbz, hbw', by omega, by omega⟩,
        balanced_join.mpr ⟨hbx', hby, by omega, by omega⟩, ?_, ?_⟩ <;>
        rw [height_join, height_join] <;> omega
    · simp only [height_join, Bool.toNat_false]
      omega
    · simp [mem_addrs_join]

/-- A single rotation after the balances have been set. -/
theorem rotateSingle_setBalance (hnodup : (join s (join s z e1 w) e y).addrs.Nodup)
    (hp : m.heap e.addr = record s (join s z e1 w) e y up b)
    (hp1 : m.heap e1.addr = record s z e1 w (some e.addr) b')
    (hz : Rep m.heap (some e1.addr) z) (hw : Rep m.heap (some e1.addr) w)
    (hy : Rep m.heap (some e.addr) y) :
    ∃ heap, (do
        assign (some e.addr) (·.setBalance (tilt s w y))
        assign (some e1.addr) (·.setBalance (tilt s z (join s w e y)))
        rotateSingle s (some e.addr) (some e1.addr)) m = some ((), { m with heap }) ∧
      Rep heap up (join s z e1 (join s w e y)) ∧
      ∀ a ∉ (join s (join s z e1 w) e y).addrs, heap a = m.heap a := by
  have hdistinct := hnodup
  simp only [nodup_addrs_join, mem_addrs_join, not_or] at hdistinct
  obtain ⟨⟨-, -, he1z, he1w, -⟩, -, ⟨hez, hee1, hew⟩, hey, hxy⟩ := hdistinct
  have he1y : e1.addr ∉ y.addrs := hxy _ (.inr (.inl rfl))
  obtain ⟨heap, hrun, hp1', hz', hwy', hsame⟩ := rotateSingle_spec
    (m := { m with
      heap := Function.update (Function.update m.heap e.addr
        ((m.heap e.addr).setBalance (tilt s w y))) e1.addr
        ((m.heap e1.addr).setBalance (tilt s z (join s w e y))) })
    hnodup
    (show _ = record s (join s z e1 w) e y up (tilt s w y) by simp [hee1, hp, setBalance_record])
    (show _ = record s z e1 w (some e.addr) (tilt s z (join s w e y)) by
      simp [hp1, setBalance_record])
    ((hz.update hez).update he1z) ((hw.update hew).update he1w) ((hy.update hey).update he1y)
  refine ⟨heap, ?_, rep_join.mpr ⟨hp1', hz', hwy'⟩, fun a ha => (hsame a ha).trans ?_⟩
  · simp only [bind_run, assign_run, Option.bind_some]
    rw [Function.update_of_ne (Ne.symm hee1)]
    exact hrun
  · simp only [mem_addrs_join, not_or] at ha
    dsimp only
    rw [Function.update_of_ne ha.1.2.1, Function.update_of_ne ha.2.1]

/-- **`shrunk`.** The node is balanced after a branch has become lower by one. -/
theorem shrunk_spec {pp : Ref} (hnodup : (join s x e y).addrs.Nodup)
    (hpp : m.load pp = some e.addr) (hout : pp.Outside (join s x e y))
    (hp : m.heap e.addr = record s x e y up (s.sign * ((x.height : ℤ) + 1 - y.height)))
    (hx : Rep m.heap (some e.addr) x) (hy : Rep m.heap (some e.addr) y) (hbx : x.Balanced)
    (hby : y.Balanced) (hle : x.height ≤ y.height) (hge : y.height ≤ x.height + 2) :
    ∃ t' h m', shrunk s pp m = some (h, m') ∧ Rep m'.heap up t' ∧
      t'.Balanced ∧ t'.entries = (join s x e y).entries ∧
      t'.height + h.toNat = max (x.height + 1) y.height + 1 ∧
      SameBut (join s x e y).addrs (m.store pp t'.addr) m' := by
  obtain ⟨hxd, hyd, hex, hey, hxy⟩ := nodup_addrs_join.mp hnodup
  have hmem : e.addr ∈ (join s x e y).addrs := mem_addrs_join.mpr (.inr (.inl rfl))
  simp only [shrunk, bind_run, load_run, hpp, deref_run, Option.bind_some, hp, balance_record,
    Side.sign_mul_eq_sign, Side.sign_mul_eq_zero, ite_run, assign_run, child_other_record]
  by_cases hhigh : (x.height : ℤ) + 1 - y.height = 1
  · rw [if_pos hhigh]
    refine ⟨join s x e y, true, _, rfl, ?_, ?_, rfl, ?_, ?_⟩
    · rw [← hp]
      exact rep_setBalance _ hnodup hp hx hy (by rw [tilt, eq_comm, Side.sign_mul_eq_zero]; omega)
    · exact balanced_join.mpr ⟨hbx, hby, by omega, by omega⟩
    · simp
      omega
    · rw [addr_join, store_load hpp]
      exact sameBut_update hmem fun _ _ => rfl
  rw [if_neg hhigh]
  by_cases hlevel : (x.height : ℤ) + 1 - y.height = 0
  · rw [if_pos hlevel]
    refine ⟨join s x e y, false, _, rfl, ?_, ?_, rfl, ?_, ?_⟩
    · rw [← hp]
      exact rep_setBalance _ hnodup hp hx hy (by rw [tilt, eq_comm, Side.sign_mul_eq_neg]; omega)
    · exact balanced_join.mpr ⟨hbx, hby, by omega, by omega⟩
    · simp
      omega
    · rw [addr_join, store_load hpp]
      exact sameBut_update hmem fun _ _ => rfl
  rw [if_neg hlevel]
  -- The other branch is higher by two, and is rotated up.
  obtain ⟨s, rfl⟩ : ∃ o : Side, s = o.other := ⟨s.other, Side.other_other.symm⟩
  obtain ⟨z, e1, w, rfl⟩ := exists_join_of_height (t := y) s (by omega)
  simp only [join_other, record_other, Side.other_other, Side.sign_other] at *
  obtain ⟨hp1, hz, hw⟩ := rep_join.mp hy
  obtain ⟨hbz, hbw, hzw⟩ := balanced_join.mp hby
  rw [height_join] at hle hge hhigh hlevel
  simp only [mem_addrs_join, not_or] at hey hxy
  simp only [addr_join, deref_run, Option.bind_some, hp1, balance_record, child_other_record]
  by_cases houter : w.height ≤ z.height
  · have hlevel' : tilt s z w = 0 ↔ z.height = w.height := by
      rw [tilt, Side.sign_mul_eq_zero]
      omega
    have hb : (if tilt s z w = 0 then - -s.sign else 0) = tilt s w x := by
      simp only [hlevel']
      cases s <;> simp only [tilt_left, tilt_right, Side.sign] <;> split_ifs <;> omega
    have hb1 : (if tilt s z w = 0 then -s.sign else 0) = tilt s z (join s w e x) := by
      simp only [hlevel']
      cases s <;> simp only [tilt_left, tilt_right, Side.sign, height_join] <;> split_ifs <;> omega
    rw [if_pos (by cases s <;> simp only [Side.sign, tilt_left, tilt_right] <;> omega), hb, hb1]
    obtain ⟨heap, hrun, hrep, hsame⟩ := rotateSingle_setBalance hnodup hp hp1 hz hw hx
    simp only [bind_run, assign_run, Option.bind_some] at hrun ⊢
    rw [hrun]
    refine ⟨join s z e1 (join s w e x), !decide (z.height = w.height), _,
      by simp only [hlevel']; rfl, hrep.store fun a o h => ?_, ?_, entries_rotateSingle, ?_, ?_⟩
    · rw [addrs, entries_rotateSingle]
      exact hout a o h
    · refine balanced_join.mpr ⟨hbz, balanced_join.mpr ⟨hbw, hbx, by omega, by omega⟩, ?_, ?_⟩ <;>
        rw [height_join] <;> omega
    · simp only [height_join]
      by_cases hzw' : z.height = w.height
      · simp [hzw']
        omega
      · simp [hzw']
        omega
    · rw [addr_join]
      exact (SameBut.of_heap hsame).store hout
  · rw [if_neg (by cases s <;> simp only [Side.sign, tilt_left, tilt_right] <;> omega)]
    obtain ⟨w', e2, x', rfl⟩ := exists_join_of_height (t := w) s (by omega)
    obtain ⟨hp2, hw', hx'⟩ := rep_join.mp hw
    obtain ⟨hbw', hbx', hwx⟩ := balanced_join.mp hbw
    rw [height_join] at hle hge hhigh hlevel hzw houter
    obtain ⟨heap, hrun, hp2', hzw', hxy', hsame⟩ := rotateDouble_spec
      hnodup hp hp1 hp2 hz hw' hx' hx (by omega) (by omega) hwx
    simp only [addr_join, hrun, Option.bind_some, assign_run]
    refine ⟨join s (join s z e1 w') e2 (join s x' e x), true, _, rfl,
      Rep.store (rep_setBalance 0 ?_ hp2' hzw' hxy' ?_) fun a o h => ?_, ?_,
      entries_rotateDouble, ?_, ?_⟩
    · rwa [addrs, entries_rotateDouble]
    · rw [tilt, eq_comm, Side.sign_mul_eq_zero, height_join, height_join]
      omega
    · rw [addrs, entries_rotateDouble]
      exact hout a o h
    · refine balanced_join.mpr ⟨balanced_join.mpr ⟨hbz, hbw', by omega, by omega⟩,
        balanced_join.mpr ⟨hbx', hbx, by omega, by omega⟩, ?_, ?_⟩ <;>
        rw [height_join, height_join] <;> omega
    · simp only [height_join, Bool.toNat_true]
      omega
    · rw [addr_join]
      exact (sameBut_update (by simp [mem_addrs_join]) hsame).store hout

end Balance

end Bitmarkd.Avl
