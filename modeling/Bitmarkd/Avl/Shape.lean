import Bitmarkd.Avl.Code
import Mathlib.Data.List.Nodup
import Mathlib.Tactic.Tauto

/-!
# The AVL tree: what the memory holds

A tree of nodes with their addresses, keys and values, its `Shape`, says what the memory holds:
every field of every node is a function of it. `Rep heap up t` states this for a branch whose parent
is `up`: the children and the `up` pointers link the nodes as the shape has them, the counts are the
sizes and the balance is the difference of the heights.
-/

namespace Bitmarkd.Avl

variable {κ ν : Type}

/-- A node of a shape. -/
structure Entry (κ ν : Type) where
  addr : Addr
  key : κ
  value : Option ν

/-- A binary tree of entries. -/
inductive Shape (κ ν : Type)
  | nil
  | node (left : Shape κ ν) (entry : Entry κ ν) (right : Shape κ ν)

namespace Shape

/-- The pointer to the tree. -/
def addr : Shape κ ν → Pointer
  | nil => none
  | node _ e _ => some e.addr

def size : Shape κ ν → ℕ
  | nil => 0
  | node l _ r => l.size + r.size + 1

def height : Shape κ ν → ℕ
  | nil => 0
  | node l _ r => max l.height r.height + 1

/-- The entries, from left to right. -/
def entries : Shape κ ν → List (Entry κ ν)
  | nil => []
  | node l e r => l.entries ++ e :: r.entries

/-- The addresses of the nodes. -/
def addrs (t : Shape κ ν) : List Addr := t.entries.map Entry.addr

/-- The heights of the branches of a node differ by at most one. -/
def Balanced : Shape κ ν → Prop
  | nil => True
  | node l _ r =>
    l.Balanced ∧ r.Balanced ∧ l.height ≤ r.height + 1 ∧ r.height ≤ l.height + 1

/-- The branches of the node on top are of different heights. -/
def Leaning : Shape κ ν → Prop
  | nil => False
  | node l _ r => l.height ≠ r.height

/-- The tree with a branch on a side and another on the other. -/
def join (s : Side) (x : Shape κ ν) (e : Entry κ ν) (y : Shape κ ν) : Shape κ ν :=
  match s with
  | .left => node x e y
  | .right => node y e x

section

variable {s : Side} {x y t : Shape κ ν} {e : Entry κ ν} {a : Addr}

@[simp] theorem join_other : join s.other x e y = join s y e x := by cases s <;> rfl

@[simp] theorem addr_nil : (nil : Shape κ ν).addr = none := rfl

@[simp] theorem addr_join : (join s x e y).addr = some e.addr := by cases s <;> rfl

@[simp] theorem size_nil : (nil : Shape κ ν).size = 0 := rfl

@[simp] theorem size_join : (join s x e y).size = x.size + y.size + 1 := by
  cases s
  · rfl
  · simp [join, size, Nat.add_comm]

@[simp] theorem height_nil : (nil : Shape κ ν).height = 0 := rfl

@[simp] theorem height_join : (join s x e y).height = max x.height y.height + 1 := by
  cases s
  · rfl
  · simp [join, height, Nat.max_comm]

@[simp] theorem balanced_nil : (nil : Shape κ ν).Balanced := trivial

@[simp] theorem balanced_join : (join s x e y).Balanced ↔
    x.Balanced ∧ y.Balanced ∧ x.height ≤ y.height + 1 ∧ y.height ≤ x.height + 1 := by
  cases s
  · rfl
  · simp only [join, Balanced]
    tauto

@[simp] theorem leaning_join : (join s x e y).Leaning ↔ x.height ≠ y.height := by
  cases s
  · rfl
  · exact ne_comm

theorem mem_addrs_join :
    a ∈ (join s x e y).addrs ↔ a ∈ x.addrs ∨ a = e.addr ∨ a ∈ y.addrs := by
  cases s <;> simp only [join, addrs, entries, List.map_append, List.map_cons, List.mem_append,
    List.mem_cons]
  tauto

theorem nodup_addrs_join : (join s x e y).addrs.Nodup ↔
    x.addrs.Nodup ∧ y.addrs.Nodup ∧ e.addr ∉ x.addrs ∧ e.addr ∉ y.addrs ∧
      ∀ a ∈ x.addrs, a ∉ y.addrs := by
  cases s <;>
    simp only [join, addrs, entries, List.map_append, List.map_cons, List.nodup_append',
      List.nodup_cons, List.Disjoint] <;>
    grind

theorem perm_addrs_join : (join s x e y).addrs.Perm (x.addrs ++ e.addr :: y.addrs) := by
  cases s with
  | left => simp [join, addrs, entries]
  | right =>
    simp only [join, addrs, entries, List.map_append, List.map_cons]
    exact List.perm_middle.trans
      ((List.perm_append_comm.cons e.addr).trans List.perm_middle.symm)

theorem length_entries (t : Shape κ ν) : t.entries.length = t.size := by
  induction t with
  | nil => rfl
  | node l e r ihl ihr =>
    simp only [entries, size, List.length_append, List.length_cons, ihl, ihr]
    omega

theorem height_le_size (t : Shape κ ν) : t.height ≤ t.size := by
  induction t with
  | nil => exact Nat.le_refl 0
  | node l e r ihl ihr =>
    simp only [height, size]
    omega

theorem mem_addrs_of_addr (h : t.addr = some a) : a ∈ t.addrs := by
  cases t with
  | nil => cases h
  | node l e r =>
    cases h
    simp [addrs, entries]

/-- A tree with a pointer is a node, whichever side its branches are looked at from. -/
theorem exists_join (s : Side) (h : t.addr = some a) : ∃ x e y, t = join s x e y ∧ e.addr = a := by
  cases t with
  | nil => cases h
  | node l e r =>
    cases h
    cases s
    · exact ⟨l, e, r, rfl, rfl⟩
    · exact ⟨r, e, l, rfl, rfl⟩

theorem addr_eq_none : t.addr = none ↔ t = nil := by
  cases t <;> simp [addr]

theorem exists_join_of_height (s : Side) (h : 0 < t.height) : ∃ x e y, t = join s x e y := by
  cases t with
  | nil => exact absurd h (Nat.lt_irrefl 0)
  | node l e r =>
    cases s
    · exact ⟨l, e, r, rfl⟩
    · exact ⟨r, e, l, rfl⟩

end

end Shape

open Shape

/-! ## Representation -/

/-- The fields of a node with a branch on a side and another on the other. -/
def record (s : Side) (x : Shape κ ν) (e : Entry κ ν) (y : Shape κ ν) (up : Pointer) (balance : ℤ) :
    Node κ ν :=
  match s with
  | .left => ⟨x.addr, y.addr, up, some e.key, e.value, x.size, y.size, balance⟩
  | .right => ⟨y.addr, x.addr, up, some e.key, e.value, y.size, x.size, balance⟩

/-- The balance of a node with branches of these heights. -/
def tilt (s : Side) (x y : Shape κ ν) : ℤ := s.sign * ((x.height : ℤ) - y.height)

theorem tilt_left (x y : Shape κ ν) : tilt .left x y = (y.height : ℤ) - x.height := by
  rw [tilt, show Side.sign .left = -1 from rfl]
  omega

theorem tilt_right (x y : Shape κ ν) : tilt .right x y = (x.height : ℤ) - y.height := by
  rw [tilt, show Side.sign .right = 1 from rfl]
  omega

/-- The memory holds the tree, below the node `up`. -/
def Rep (heap : Addr → Node κ ν) : Pointer → Shape κ ν → Prop
  | _, .nil => True
  | up, .node l e r =>
    heap e.addr = ⟨l.addr, r.addr, up, some e.key, e.value, l.size, r.size,
      (r.height : ℤ) - l.height⟩ ∧ Rep heap (some e.addr) l ∧ Rep heap (some e.addr) r

section

variable {s : Side} {x y t : Shape κ ν} {e : Entry κ ν} {up : Pointer} {b : ℤ}
  {heap heap' : Addr → Node κ ν}

@[simp] theorem rep_nil : Rep heap up .nil := trivial

theorem rep_join : Rep heap up (join s x e y) ↔
    heap e.addr = record s x e y up (tilt s x y) ∧ Rep heap (some e.addr) x ∧
      Rep heap (some e.addr) y := by
  cases s
  · simp only [join, Rep, record, tilt_left]
  · simp only [join, Rep, record, tilt_right]
    tauto

/-- The memory of other nodes does not matter. -/
theorem Rep.congr (h : Rep heap up t) (heq : ∀ a ∈ t.addrs, heap' a = heap a) :
    Rep heap' up t := by
  induction t generalizing up with
  | nil => trivial
  | node l e r ihl ihr =>
    obtain ⟨hnode, hl, hr⟩ := h
    have hmem (a : Addr) : a ∈ (node l e r).addrs ↔ a ∈ l.addrs ∨ a = e.addr ∨ a ∈ r.addrs :=
      mem_addrs_join (s := .left)
    refine ⟨?_, ihl hl fun a ha => ?_, ihr hr fun a ha => ?_⟩
    · rw [heq _ ((hmem _).mpr (.inr (.inl rfl))), hnode]
    · exact heq a ((hmem a).mpr (.inl ha))
    · exact heq a ((hmem a).mpr (.inr (.inr ha)))

theorem Rep.update {a : Addr} {n : Node κ ν} (h : Rep heap up t) (ha : a ∉ t.addrs) :
    Rep (Function.update heap a n) up t :=
  h.congr fun _ hc => Function.update_of_ne (ne_of_mem_of_not_mem hc ha) _ _

/-- The `up` pointer of a tree is set. -/
def setUp (heap : Addr → Node κ ν) (p up : Pointer) : Addr → Node κ ν :=
  match p with
  | none => heap
  | some a => Function.update heap a ((heap a).setUp up)

theorem setUp_congr {p : Pointer} {a : Addr} (h : heap a = heap' a) :
    setUp heap p up a = setUp heap' p up a := by
  cases p with
  | none => exact h
  | some c =>
    by_cases hc : a = c
    · subst hc
      simp [setUp, h]
    · simp [setUp, hc, h]

theorem setUp_of_ne {p : Pointer} {a : Addr} (h : p ≠ some a) : setUp heap p up a = heap a := by
  cases p with
  | none => rfl
  | some c =>
    have hne : a ≠ c := fun heq => h (congrArg some heq.symm)
    exact Function.update_of_ne hne _ _

theorem setUp_apply_of_notMem {a : Addr} (h : a ∉ t.addrs) : setUp heap t.addr up a = heap a :=
  setUp_of_ne fun heq => h (mem_addrs_of_addr heq)

theorem Rep.setUp (h : Rep heap up t) (hnodup : t.addrs.Nodup) (up' : Pointer) :
    Rep (setUp heap t.addr up') up' t := by
  cases t with
  | nil => trivial
  | node l e r =>
    obtain ⟨hnode, hl, hr⟩ := h
    obtain ⟨-, -, hel, her, -⟩ := (nodup_addrs_join (s := .left)).mp hnodup
    have hother {a : Addr} (ha : a ≠ e.addr) :
        Avl.setUp heap (Shape.addr (node l e r)) up' a = heap a := Function.update_of_ne ha _ _
    refine ⟨?_, hl.congr fun a ha => hother ?_, hr.congr fun a ha => hother ?_⟩
    · simp [Avl.setUp, addr, hnode, Node.setUp]
    · exact fun heq => hel (heq ▸ ha)
    · exact fun heq => her (heq ▸ ha)

end

/-! ## References -/

/-- The reference is not to a field of a node of the tree. -/
def Ref.Outside (pp : Ref) (t : Shape κ ν) : Prop := ∀ a s, pp = .child a s → a ∉ t.addrs

section

variable {m : Memory κ ν} {pp : Ref} {p : Pointer} {t : Shape κ ν} {up : Pointer}

theorem load_store : (m.store pp p).load pp = p := by
  cases pp with
  | root => rfl
  | child a s => cases s <;> simp [Memory.store, Memory.load, Node.child, Node.setChild]

theorem store_load (h : m.load pp = p) : m.store pp p = m := by
  subst h
  cases pp with
  | root => rfl
  | child a s =>
    have hnode : (m.heap a).setChild s ((m.heap a).child s) = m.heap a := by cases s <;> rfl
    rw [Memory.store, Memory.load, hnode, Function.update_eq_self]

theorem store_store {p' : Pointer} : (m.store pp p).store pp p' = m.store pp p' := by
  cases pp with
  | root => rfl
  | child a s => cases s <;> simp [Memory.store, Node.setChild]

theorem heap_store (hout : pp.Outside t) {a : Addr} (ha : a ∈ t.addrs) :
    (m.store pp p).heap a = m.heap a := by
  cases pp with
  | root => rfl
  | child c s =>
    have hne : a ≠ c := fun heq => hout c s rfl (heq ▸ ha)
    exact Function.update_of_ne hne _ _

theorem Rep.store (h : Rep m.heap up t) (hout : pp.Outside t) : Rep (m.store pp p).heap up t :=
  h.congr fun _ ha => heap_store hout ha

theorem Ref.Outside.mono {t' : Shape κ ν} (h : pp.Outside t) (hsub : ∀ a ∈ t'.addrs, a ∈ t.addrs) :
    pp.Outside t' := fun a s heq hmem => h a s heq (hsub a hmem)

end

/-! ## Frames -/

/-- Nothing changes but the nodes at some addresses. -/
structure SameBut (as : List Addr) (m m' : Memory κ ν) : Prop where
  heap : ∀ a ∉ as, m'.heap a = m.heap a
  root : m'.root = m.root
  count : m'.count = m.count
  pool : m'.pool = m.pool
  totalNodes : m'.totalNodes = m.totalNodes
  freeNodes : m'.freeNodes = m.freeNodes

namespace SameBut

variable {as bs : List Addr} {m m₁ m₂ : Memory κ ν}

theorem refl (as : List Addr) (m : Memory κ ν) : SameBut as m m :=
  ⟨fun _ _ => rfl, rfl, rfl, rfl, rfl, rfl⟩

theorem trans (h : SameBut as m m₁) (h' : SameBut as m₁ m₂) : SameBut as m m₂ where
  heap a ha := (h'.heap a ha).trans (h.heap a ha)
  root := h'.root.trans h.root
  count := h'.count.trans h.count
  pool := h'.pool.trans h.pool
  totalNodes := h'.totalNodes.trans h.totalNodes
  freeNodes := h'.freeNodes.trans h.freeNodes

theorem mono (h : SameBut as m m₁) (hsub : ∀ a ∈ as, a ∈ bs) : SameBut bs m m₁ :=
  { h with heap := fun a ha => h.heap a fun hmem => ha (hsub a hmem) }

/-- Assignments to nodes. -/
theorem of_heap {heap : Addr → Node κ ν} (h : ∀ a ∉ as, heap a = m.heap a) :
    SameBut as m { m with heap } :=
  ⟨h, rfl, rfl, rfl, rfl, rfl⟩

theorem store {pp : Ref} {p : Pointer} (h : SameBut as m m₁)
    (hout : ∀ a s, pp = .child a s → a ∉ as) :
    SameBut as (m.store pp p) (m₁.store pp p) := by
  cases pp with
  | root => exact { h with root := rfl }
  | child c s =>
    refine { h with heap := fun a ha => ?_ }
    by_cases hac : a = c
    · subst hac
      simp [Memory.store, h.heap a ha]
    · simp [Memory.store, hac, h.heap a ha]

theorem load {pp : Ref} (h : SameBut as m m₁) (hout : ∀ a s, pp = .child a s → a ∉ as) :
    m₁.load pp = m.load pp := by
  cases pp with
  | root => exact h.root
  | child c s => rw [Memory.load, Memory.load, h.heap c (hout c s rfl)]

end SameBut

end Bitmarkd.Avl
