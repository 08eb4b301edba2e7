import Bitmarkd.Avl.Delete
import Bitmarkd.Avl.Insert
import Bitmarkd.Lib.Table

/-!
# The AVL tree is a finite map

The tree starts empty, and `Insert` and `Delete` are called on it, in any order. The memory then
holds a balanced search tree with all its fields right, and what was returned and what is in the
tree is what a finite map would have returned and have in it (`avl_refines_map`).
-/

namespace Bitmarkd.Avl

open Lib Shape

variable {κ ν : Type}

/-! ## The allocator -/

/-- The list of nodes from a pointer along the `up` pointers. -/
def Chain (heap : Addr → Node κ ν) : Pointer → List Addr → Prop
  | p, [] => p = none
  | p, a :: l => p = some a ∧ Chain heap (heap a).up l

/-- The allocator has some nodes in its pool, none of which is used. -/
structure Allocator (m : Memory κ ν) (used frees : List Addr) : Prop where
  pool : Chain m.heap m.pool frees
  freeNodes : m.freeNodes = frees.length
  nodup : (used ++ frees).Nodup
  bound : ∀ a ∈ used ++ frees, a < m.totalNodes

section

variable {m m' : Memory κ ν} {used used' frees : List Addr} {key : κ} {value : Option ν}

theorem Chain.congr {heap heap' : Addr → Node κ ν} {p : Pointer} {l : List Addr}
    (h : Chain heap p l) (heq : ∀ a ∈ l, heap' a = heap a) : Chain heap' p l := by
  induction l generalizing p with
  | nil => exact h
  | cons a l ih =>
    refine ⟨h.1, ?_⟩
    rw [heq a List.mem_cons_self]
    exact ih h.2 fun c hc => heq c (List.mem_cons_of_mem _ hc)

theorem Allocator.perm (h : Allocator m used frees) (hperm : used.Perm used') :
    Allocator m used' frees :=
  { h with
    nodup := (hperm.append_right frees).nodup_iff.mp h.nodup
    bound := fun a ha => h.bound a ((hperm.append_right frees).mem_iff.mpr ha) }

/-- The pool is not touched by what is done to the nodes in use. -/
theorem Allocator.sameBut (h : Allocator m used frees) (hsame : SameBut used m m') :
    Allocator m' used frees where
  pool := by
    rw [hsame.pool]
    exact h.pool.congr fun a ha => hsame.heap a fun hused =>
      (List.nodup_append'.mp h.nodup).2.2 hused ha
  freeNodes := hsame.freeNodes.trans h.freeNodes
  nodup := h.nodup
  bound a ha := by
    rw [hsame.totalNodes]
    exact h.bound a ha

theorem Allocator.tree (h : Allocator m used frees) (root : Pointer) (count : ℤ) :
    Allocator { m with root, count } used frees :=
  ⟨h.pool, h.freeNodes, h.nodup, h.bound⟩

/-- A node that was in use is in the pool. -/
theorem Allocator.release {q : Addr} (h : Allocator m used frees)
    (hperm : used.Perm (q :: used')) (hup : (m'.heap q).up = m.pool)
    (hsame : SameBut used (m.released (some q)) m') : Allocator m' used' (q :: frees) := by
  have hmiddle : (used ++ frees).Perm (used' ++ q :: frees) :=
    (hperm.append_right frees).trans List.perm_middle.symm
  refine ⟨⟨hsame.pool, ?_⟩, ?_, hmiddle.nodup_iff.mp h.nodup, fun a ha => ?_⟩
  · rw [hup]
    exact h.pool.congr fun a ha => hsame.heap a fun hused =>
      (List.nodup_append'.mp h.nodup).2.2 hused ha
  · rw [hsame.freeNodes, List.length_cons, Nat.cast_succ, ← h.freeNodes]
    rfl
  · rw [hsame.totalNodes]
    exact h.bound a (hmiddle.mem_iff.mpr ha)

/-- **`newNode`** hands out a node that is not in use. -/
theorem newNode_spec (h : Allocator m used frees) (key : κ) (value : Option ν) :
    ∃ a m₁ frees', Allocates m key value a m₁ ∧ Allocator m₁ (a :: used) frees' ∧
      m₁.root = m.root ∧ m₁.count = m.count ∧ (a :: used).Nodup := by
  cases frees with
  | nil =>
    have hpool : m.pool = none := h.pool
    have hfree : m.freeNodes = 0 := h.freeNodes
    have hnew : m.totalNodes ∉ used := fun hmem =>
      absurd (h.bound _ (List.mem_append_left _ hmem)) (Nat.lt_irrefl _)
    have hused : used.Nodup := (List.nodup_append'.mp h.nodup).1
    refine ⟨m.totalNodes, { m with
        heap := Function.update m.heap m.totalNodes ⟨none, none, none, some key, value, 0, 0, 0⟩
        totalNodes := m.totalNodes + 1 }, [], ⟨by simp [newNode, hpool, hfree], rfl⟩,
      ⟨hpool, hfree, ?_, ?_⟩, rfl, rfl, List.nodup_cons.mpr ⟨hnew, hused⟩⟩
    · rw [List.append_nil]
      exact List.nodup_cons.mpr ⟨hnew, hused⟩
    · intro a ha
      rw [List.append_nil] at ha
      rcases List.mem_cons.mp ha with rfl | ha
      · exact Nat.lt_succ_self _
      · exact Nat.lt_succ_of_lt (h.bound a (List.mem_append_left _ ha))
  | cons p frees =>
    obtain ⟨hpool, hchain⟩ := h.pool
    have hperm : (used ++ p :: frees).Perm (p :: used ++ frees) := List.perm_middle
    have hnodup := hperm.nodup_iff.mp h.nodup
    have hpfrees : p ∉ frees := fun hmem =>
      (List.nodup_cons.mp hnodup).1 (List.mem_append_right _ hmem)
    refine ⟨p, { m with
        heap := Function.update m.heap p ⟨none, none, none, some key, value, 0, 0, 0⟩
        pool := (m.heap p).up
        freeNodes := m.freeNodes - 1 }, frees, ⟨by simp [newNode, hpool], rfl⟩,
      ⟨?_, ?_, hnodup, ?_⟩, rfl, rfl, (List.nodup_append'.mp hnodup).1⟩
    · exact hchain.congr fun a ha => Function.update_of_ne (ne_of_mem_of_not_mem ha hpfrees) _ _
    · have hfree := h.freeNodes
      simp only [List.length_cons] at hfree
      dsimp only
      omega
    · exact fun a ha => h.bound a (hperm.mem_iff.mpr ha)

end

/-! ## The tree -/

/-- The memory holds the tree `t`, with every field of its nodes as it should be: the keys are in
order, and by `Rep` and `Balanced` each balance is the right height less the left one, which is -1,
0 or 1, each count is the size of its branch, each `up` pointer is to the parent, and that of the
root is nil. -/
structure Valid (compare : κ → κ → ℤ) (m : Memory κ ν) (t : Shape κ ν) (frees : List Addr) :
    Prop where
  root : m.root = t.addr
  rep : Rep m.heap none t
  balanced : t.Balanced
  sorted : Sorted compare t.entries
  count : m.count = t.size
  allocator : Allocator m t.addrs frees

section

variable {compare : κ → κ → ℤ} {m : Memory κ ν} {t : Shape κ ν} {frees : List Addr} {depth : ℕ}

theorem Valid.nodup (h : Valid compare m t frees) : t.addrs.Nodup :=
  (List.nodup_append'.mp h.allocator.nodup).1

/-- **`Insert`.** -/
theorem treeInsert_spec (horder : TotalOrder compare) (h : Valid compare m t frees)
    (hdepth : t.height < depth) (key : κ) (value : Option ν) :
    ∃ a t' frees' m', treeInsert compare depth key value m =
        some ((valueOf compare key t.entries).isNone, m') ∧
      Valid compare m' t' frees' ∧ t'.entries = insertEntry compare ⟨a, key, value⟩ t.entries := by
  obtain ⟨a, m₁, frees₁, halloc, hallocator, hroot, hcount, hnodup⟩ :=
    newNode_spec h.allocator key value
  obtain ⟨t', added, hh, m₂, hrun, hins⟩ :=
    insert_spec horder halloc hdepth h.rep h.balanced h.sorted hnodup
  have hperm := hins.perm_addrs horder h.sorted
  have hrep := hins.rep
  rw [ite_self] at hrep
  have hsize : t'.size = t.size + added.toNat := by
    have hlength := hperm.length_eq
    cases added <;> simpa [addrs, length_entries] using hlength
  have hsorted : Sorted compare t'.entries := by
    rw [hins.entries]
    exact sorted_insertEntry horder h.sorted
  have hcount₂ : m₂.count = t.size := by
    rw [hins.frame.count, ← h.count]
    cases added
    · rfl
    · exact hcount
  obtain ⟨frees', hallocator'⟩ : ∃ frees', Allocator m₂ t'.addrs frees' := by
    cases added with
    | false => exact ⟨frees, (h.allocator.perm hperm.symm).sameBut hins.frame⟩
    | true => exact ⟨frees₁, (hallocator.perm hperm.symm).sameBut hins.frame⟩
  refine ⟨a, t', frees', { m₂ with root := t'.addr, count := m₂.count + added.toNat }, ?_,
    ⟨rfl, hrep, hins.balanced, hsorted, ?_, hallocator'.tree _ _⟩,
    hins.entries⟩
  · have hload : m.load .root = t.addr := h.root
    rw [← hins.isNew]
    simp only [treeInsert, bind_run, load_run, hload, Option.bind_some, hrun, store_run]
    cases added with
    | false => simp [Memory.store, pure_run]
    | true => rfl
  · dsimp only
    rw [hcount₂, hsize]
    push_cast
    rfl

/-- **`Delete`.** -/
theorem treeDelete_spec (horder : TotalOrder compare) (h : Valid compare m t frees)
    (hdepth : t.height < depth) (key : κ) :
    ∃ t' frees' m', treeDelete compare depth key m =
        some ((valueOf compare key t.entries).join, m') ∧
      Valid compare m' t' frees' ∧ t'.entries = deleteEntry compare key t.entries := by
  obtain ⟨t', value, removed, hh, m₂, hrun, hdel⟩ := intdelete_spec horder key hdepth
    (show m.load .root = _ from h.root) (by rintro a s ⟨⟩) h.rep h.balanced h.sorted h.nodup
  obtain ⟨freed, hfreed, hperm, hup, hframe⟩ := hdel.frame
  have hsize : t.size = t'.size + removed.toNat := by
    have hlength := hperm.length_eq
    rw [hfreed]
    cases freed <;> simpa [addrs, length_entries, Nat.add_comm] using hlength
  have hsorted : Sorted compare t'.entries := by
    rw [hdel.entries]
    exact sorted_deleteEntry h.sorted
  have hcount : m₂.count = t.size := by
    rw [hframe.count, ← h.count]
    cases freed <;> rfl
  have hroot : m₂.root = t'.addr := by
    rw [hframe.root]
    cases freed <;> rfl
  have hallocator := h.allocator.tree t'.addr m.count
  obtain ⟨frees', hallocator'⟩ : ∃ frees', Allocator m₂ t'.addrs frees' := by
    cases freed with
    | none => exact ⟨frees, (hallocator.sameBut hframe).perm hperm⟩
    | some q => exact ⟨q :: frees, hallocator.release hperm (hup q rfl) hframe⟩
  refine ⟨t', frees', { m₂ with count := m₂.count - removed.toNat }, ?_,
    ⟨hroot, hdel.rep, hdel.balanced, hsorted, ?_, hallocator'.tree _ _⟩, hdel.entries⟩
  · rw [← hdel.found]
    simp only [treeDelete, bind_run, hrun, Option.bind_some]
    cases removed with
    | false => simp [pure_run]
    | true => rfl
  · dsimp only
    rw [hcount, hsize]
    push_cast
    omega

end

/-! ## Runs -/

/-- A call. -/
inductive Op (κ ν : Type)
  | insert (key : κ) (value : Option ν)
  | delete (key : κ)

/-- What a call returns. -/
inductive Output (ν : Type)
  | added (added : Bool)
  | removed (value : Option ν)
deriving DecidableEq

/-- A call on the tree. -/
def Op.exec (compare : κ → κ → ℤ) (depth : ℕ) : Op κ ν → Code κ ν (Output ν)
  | .insert key value => return .added (← treeInsert compare depth key value)
  | .delete key => return .removed (← treeDelete compare depth key)

/-- Calls on the tree. -/
def run (compare : κ → κ → ℤ) (depth : ℕ) : List (Op κ ν) → Code κ ν (List (Output ν))
  | [] => return []
  | op :: ops => do
    let output ← op.exec compare depth
    return output :: (← run compare depth ops)

section

variable [DecidableEq κ]

/-- A call on a finite map: a value replaces the one before, and a key is added exactly if it is
new; the value of a key is removed, nil if there is none. -/
def Op.apply (content : Table κ (Option ν)) : Op κ ν → Output ν × Table κ (Option ν)
  | .insert key value => (.added (content.lookup key).isNone, content.insert key value)
  | .delete key => (.removed (content.lookup key).join, content.erase key)

/-- Calls on a finite map. -/
def applyAll : Table κ (Option ν) → List (Op κ ν) → List (Output ν) × Table κ (Option ν)
  | content, [] => ([], content)
  | content, op :: ops =>
    let (output, content) := op.apply content
    let (outputs, content) := applyAll content ops
    (output :: outputs, content)

variable {compare : κ → κ → ℤ} {m : Memory κ ν} {t : Shape κ ν} {frees : List Addr} {depth : ℕ}
  {content : Table κ (Option ν)}

/-- The tree has the content of the map. -/
def Holds (compare : κ → κ → ℤ) (t : Shape κ ν) (content : Table κ (Option ν)) : Prop :=
  ∀ k, content.lookup k = valueOf compare k t.entries

/-- As many entries as keys. -/
theorem Holds.size_eq (horder : TotalOrder compare) (hsorted : Sorted compare t.entries)
    (h : Holds compare t content) : t.size = content.keys.card := by
  have hkeys : content.keys = (t.entries.map Entry.key).toFinset := by
    ext k
    rw [Finmap.mem_keys, ← Finmap.lookup_isSome, h k, Option.isSome_iff_ne_none, ne_eq,
      valueOf_eq_none, List.mem_toFinset, List.mem_map]
    simp [horder.eq_zero]
  have hnodup : (t.entries.map Entry.key).Nodup := by
    refine List.pairwise_map.mpr (hsorted.imp fun {e e'} hlt heq => ?_)
    rw [(horder.eq_zero _ _).mpr heq] at hlt
    cases hlt
  rw [hkeys, List.toFinset_card_of_nodup hnodup, List.length_map, length_entries]

/-- **A call on the tree** returns what it returns on the map, and the tree is valid again. -/
theorem exec_spec (horder : TotalOrder compare) (h : Valid compare m t frees)
    (hdepth : t.height < depth) (hcontent : Holds compare t content) (op : Op κ ν) :
    ∃ t' frees' m', op.exec compare depth m = some ((op.apply content).1, m') ∧
      Valid compare m' t' frees' ∧ Holds compare t' (op.apply content).2 ∧
      t'.size ≤ t.size + 1 := by
  cases op with
  | insert key value =>
    obtain ⟨a, t', frees', m', hrun, hvalid, hentries⟩ :=
      treeInsert_spec horder h hdepth key value
    refine ⟨t', frees', m', ?_, hvalid, fun k => ?_, ?_⟩
    · rw [Op.exec, bind_run, hrun, Op.apply, hcontent]
      rfl
    · rw [Op.apply, Table.lookup_insert, hentries, valueOf_insertEntry horder, hcontent]
      simp only [horder.eq_zero, eq_comm]
    · have hperm := (addrs_insertEntry horder (e := ⟨a, key, value⟩) h.sorted).length_eq
      rw [← hentries] at hperm
      split_ifs at hperm <;> simp [length_entries] at hperm <;> omega
  | delete key =>
    obtain ⟨t', frees', m', hrun, hvalid, hentries⟩ := treeDelete_spec horder h hdepth key
    refine ⟨t', frees', m', ?_, hvalid, fun k => ?_, ?_⟩
    · rw [Op.exec, bind_run, hrun, Op.apply, hcontent]
      rfl
    · rw [Op.apply, Table.lookup_erase, hentries, valueOf_deleteEntry horder, hcontent]
      simp only [horder.eq_zero, eq_comm]
    · have hlength := List.length_filter_le (fun e => decide (compare e.key key ≠ 0)) t.entries
      rw [← length_entries, ← length_entries, hentries]
      exact Nat.le_succ_of_le hlength

/-- Calls on a valid tree. -/
theorem run_spec (horder : TotalOrder compare) (ops : List (Op κ ν)) (h : Valid compare m t frees)
    (hdepth : t.size + ops.length < depth) (hcontent : Holds compare t content) :
    ∃ t' frees' m', run compare depth ops m = some ((applyAll content ops).1, m') ∧
      Valid compare m' t' frees' ∧ Holds compare t' (applyAll content ops).2 ∧
      t'.size ≤ t.size + ops.length := by
  induction ops generalizing m t frees content with
  | nil => exact ⟨t, frees, m, rfl, h, hcontent, Nat.le_refl _⟩
  | cons op ops ih =>
    rw [List.length_cons] at hdepth
    have hheight := height_le_size t
    obtain ⟨t₁, frees₁, m₁, hexec, hvalid, hcontent', hsize⟩ :=
      exec_spec horder h (show _ < depth by omega) hcontent op
    obtain ⟨t', frees', m', hrun, hvalid', hcontent'', hsize'⟩ := ih hvalid (by omega) hcontent'
    refine ⟨t', frees', m', ?_, hvalid', hcontent'', by rw [List.length_cons]; omega⟩
    rw [run, bind_run, hexec]
    dsimp only [Option.bind_some]
    rw [bind_run, hrun]
    rfl

/-- **The AVL tree is a finite map.** Any calls on an empty tree, whatever the allocator has in its
pool, return what they return on a finite map. The tree they leave is valid, has the content of the
map, and its count is the number of keys. -/
theorem avl_refines_map (horder : TotalOrder compare) (ops : List (Op κ ν))
    (hroot : m.root = none) (hcount : m.count = 0) (hallocator : Allocator m [] frees)
    (hdepth : ops.length < depth) :
    ∃ t frees' m', run compare depth ops m = some ((applyAll ∅ ops).1, m') ∧
      Valid compare m' t frees' ∧
      (∀ k, valueOf compare k t.entries = (applyAll ∅ ops).2.lookup k) ∧
      m'.count = (applyAll ∅ ops).2.keys.card := by
  have hvalid : Valid compare m (.nil : Shape κ ν) frees :=
    ⟨hroot, trivial, trivial, List.Pairwise.nil, hcount, hallocator⟩
  obtain ⟨t, frees', m', hrun, hvalid', hcontent, -⟩ := run_spec horder ops hvalid
    (by simpa using hdepth) (show Holds compare .nil ∅ from fun _ => rfl)
  refine ⟨t, frees', m', hrun, hvalid', fun k => (hcontent k).symm, ?_⟩
  rw [hvalid'.count, hcontent.size_eq horder hvalid'.sorted]

end

/-! ## An instance -/

/-- The order of the numbers. -/
def compareNat (a b : ℕ) : ℤ := if a < b then -1 else if a = b then 0 else 1

theorem totalOrder_compareNat : TotalOrder compareNat where
  values a b := by unfold compareNat; split_ifs <;> simp
  eq_zero a b := by unfold compareNat; split_ifs <;> simp <;> omega
  swap a b := by unfold compareNat; split_ifs <;> omega
  trans a b c := by unfold compareNat; split_ifs <;> simp <;> omega

/-- Nothing was allocated yet. -/
def emptyMemory : Memory ℕ ℕ :=
  ⟨fun _ => ⟨none, none, none, none, none, 0, 0, 0⟩, none, 0, none, 0, 0⟩

/-- Three keys, one of them twice, and one removed. -/
def sampleOps : List (Op ℕ ℕ) :=
  [.insert 1 (some 10), .insert 2 (some 20), .insert 3 (some 30), .insert 2 none, .delete 1]

example : (applyAll ∅ sampleOps).1 =
    [.added true, .added true, .added true, .added false, .removed (some 10)] := by decide

theorem avl_refines_map_sampleOps : ∃ t frees m', run compareNat 6 sampleOps emptyMemory =
      some ((applyAll ∅ sampleOps).1, m') ∧ Valid compareNat m' t frees ∧
    (∀ k, valueOf compareNat k t.entries = (applyAll ∅ sampleOps).2.lookup k) ∧
    m'.count = (applyAll ∅ sampleOps).2.keys.card :=
  avl_refines_map totalOrder_compareNat sampleOps rfl rfl
    (show Allocator emptyMemory [] [] from ⟨rfl, rfl, List.nodup_nil, by simp⟩) (by decide)

end Bitmarkd.Avl
