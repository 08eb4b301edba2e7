import Bitmarkd.Avl.Map

/-!
# The AVL tree: order statistics and iteration

`avl/get.go`, `avl/search.go` and `avl/iterator.go`. The counts of the branches give the position of
a node, and the `up` pointers lead from a node to the next one.

**Theorem (`avl_order_statistics`).** After any calls of `Insert` and `Delete`, let `l` be the list
of the entries in the order of their keys. `Get` finds the node of the entry at a position of `l`,
and `Search` the node and the position of a key. `First` and then `Next` go through `l`, and `Last`
and then `Prev` through `l` from its end. `Delete` takes one entry out of `l` and leaves the others
where they are, so a client that holds the next node may go on from it.

`Next` is `Prev` with the sides exchanged. Both are treated as a step towards a side, along the list
of the entries in that direction (`Shape.walk`). Where a node has a branch on that side, its next
node is the first of that branch. Otherwise the code climbs until it finds a key beyond its own. The
induction is on the tree: a climb that starts in a branch and leaves it goes on from the top of the
branch (`climb_spec`).
-/

namespace Bitmarkd.Avl

open Shape

variable {κ ν : Type}

/-! ## The code -/

/-- `get`. -/
def get : ℕ → ℤ → Pointer → Code κ ν Pointer
  | 0, _, _ => failure
  | depth + 1, index, tree =>
    if tree = none then return none
    else do
      let n ← deref tree
      let nl := n.leftNodes
      if index < nl then get depth index n.left
      else if index > nl then get depth (index - nl - 1) n.right
      else return tree

/-- `Tree.Get`. -/
def treeGet (depth : ℕ) (index : ℤ) : Code κ ν Pointer := do
  let m ← MonadState.get
  if index < 0 ∨ index ≥ m.count then return none
  else get depth index m.root

/-- `search`. -/
def search (compare : κ → κ → ℤ) (key : κ) : ℕ → Pointer → ℤ → Code κ ν (Pointer × ℤ)
  | 0, _, _ => failure
  | depth + 1, tree, index =>
    if tree = none then return (none, -1)
    else do
      let n ← deref tree
      let c ← compareKeys compare n.key key
      if c = 1 then search compare key depth n.left index
      else if c = -1 then search compare key depth n.right (index + n.leftNodes + 1)
      else return (tree, index + n.leftNodes)

/-- `Tree.Search`. -/
def treeSearch (compare : κ → κ → ℤ) (depth : ℕ) (key : κ) : Code κ ν (Pointer × ℤ) := do
  search compare key depth (← load .root) 0

/-- The loop of `first` and `last`. -/
def outermostLoop (s : Side) : ℕ → Pointer → Code κ ν Pointer
  | 0, _ => failure
  | depth + 1, tree => do
    let n ← deref tree
    if n.child s ≠ none then outermostLoop s depth (n.child s) else return tree

/-- `first` and `last`. -/
def outermost (s : Side) (depth : ℕ) (tree : Pointer) : Code κ ν Pointer :=
  if tree = none then return none else outermostLoop s depth tree

def first (depth : ℕ) : Pointer → Code κ ν Pointer := outermost .left depth

def last (depth : ℕ) : Pointer → Code κ ν Pointer := outermost .right depth

/-- `Tree.First`. -/
def treeFirst (depth : ℕ) : Code κ ν Pointer := do first depth (← load .root)

/-- `Tree.Last`. -/
def treeLast (depth : ℕ) : Code κ ν Pointer := do last depth (← load .root)

/-- The method call `tree.key.Compare` on keys either of which may be nil. -/
def compareItems (compare : κ → κ → ℤ) (key key' : Option κ) : Code κ ν ℤ :=
  match key' with
  | none => failure
  | some k => compareKeys compare key k

/-- The loop of `Next` and `Prev`: up to a key that is beyond `key`. -/
def climb (compare : κ → κ → ℤ) (s : Side) (key : Option κ) : ℕ → Pointer → Code κ ν Pointer
  | 0, _ => failure
  | depth + 1, tree => do
    let up := (← deref tree).up
    if up = none then return none
    else
      let c ← compareItems compare (← deref up).key key
      if c = s.sign then return up else climb compare s key depth up

/-- `Next` and `Prev`. -/
def neighbour (compare : κ → κ → ℤ) (s : Side) (depth : ℕ) (tree : Pointer) :
    Code κ ν Pointer := do
  let n ← deref tree
  if n.child s = none then climb compare s n.key depth tree
  else outermost s.other depth (n.child s)

/-- `Node.Next`. -/
def next (compare : κ → κ → ℤ) : ℕ → Pointer → Code κ ν Pointer := neighbour compare .right

/-- `Node.Prev`. -/
def prev (compare : κ → κ → ℤ) : ℕ → Pointer → Code κ ν Pointer := neighbour compare .left

/-- The loop of a client over the nodes from a node on, in at most `turns` turns. -/
def visitFrom (step : Pointer → Code κ ν Pointer) : ℕ → Pointer → Code κ ν (List Addr)
  | 0, _ => failure
  | _ + 1, none => return []
  | turns + 1, some a => return a :: (← visitFrom step turns (← step (some a)))

/-! ## Order statistics -/

section

variable {compare : κ → κ → ℤ} {m : Memory κ ν} {t : Shape κ ν} {up : Pointer} {depth : ℕ}

theorem get_spec (hrep : Rep m.heap up t) (hdepth : t.height < depth) (i : ℕ) :
    get depth i t.addr m = some (t.entries[i]?.map Entry.addr, m) := by
  induction t generalizing up depth i with
  | nil =>
    obtain ⟨depth, rfl⟩ : ∃ d, depth = d + 1 := ⟨depth - 1, by omega⟩
    rfl
  | node l e r ihl ihr =>
    obtain ⟨depth, rfl⟩ : ∃ d, depth = d + 1 := ⟨depth - 1, by omega⟩
    obtain ⟨hnode, hl, hr⟩ := hrep
    rw [height] at hdepth
    rw [get, addr, if_neg (Option.some_ne_none _), bind_run, deref_run, hnode, entries]
    dsimp only [Option.bind_some]
    have hlength := length_entries l
    by_cases hlt : i < l.size
    · rw [if_pos (by omega), ihl hl (by omega), List.getElem?_append_left (by omega)]
    rw [if_neg (by omega), List.getElem?_append_right (by omega), hlength]
    by_cases hgt : l.size < i
    · obtain ⟨j, rfl⟩ : ∃ j, i = l.size + 1 + j := ⟨i - l.size - 1, by omega⟩
      have hindex : ((l.size + 1 + j : ℕ) : ℤ) - l.size - 1 = j := by omega
      rw [if_pos (by omega), hindex, ihr hr (by omega)]
      have hsub : l.size + 1 + j - l.size = j + 1 := by omega
      rw [hsub, List.getElem?_cons_succ]
    · obtain rfl : i = l.size := by omega
      rw [if_neg (by omega), Nat.sub_self, List.getElem?_cons_zero]
      rfl

/-- **`Get`.** -/
theorem treeGet_spec {frees : List Addr} (h : Valid compare m t frees) (hdepth : t.height < depth)
    (index : ℤ) :
    treeGet depth index m =
      some (if index < 0 then none else t.entries[index.toNat]?.map Entry.addr, m) := by
  change (if index < 0 ∨ index ≥ m.count then _
    else get depth index m.root : Code κ ν Pointer) m = _
  rw [h.root, h.count]
  by_cases hneg : index < 0
  · rw [if_pos (Or.inl hneg), if_pos hneg]
    rfl
  obtain ⟨i, rfl⟩ := Int.eq_ofNat_of_zero_le (not_lt.mp hneg)
  rw [if_neg hneg, Int.toNat_natCast]
  by_cases hge : t.size ≤ i
  · rw [if_pos (Or.inr (by omega)), List.getElem?_eq_none (by rwa [length_entries])]
    rfl
  · rw [if_neg (by omega), get_spec h.rep hdepth]

theorem search_node_run {l r : Shape κ ν} {e : Entry κ ν} (hrep : Rep m.heap up (node l e r))
    (key : κ) (index : ℤ) :
    search compare key (depth + 1) (some e.addr) index m =
      (if compare e.key key = 1 then search compare key depth l.addr index
        else if compare e.key key = -1 then
          search compare key depth r.addr (index + l.size + 1)
        else return (some e.addr, index + l.size) : Code κ ν (Pointer × ℤ)) m := by
  rw [search, if_neg (Option.some_ne_none _), bind_run, deref_run, hrep.1]
  rfl

theorem search_of_getElem? (horder : TotalOrder compare) (hrep : Rep m.heap up t)
    (hsorted : Sorted compare t.entries) (hdepth : t.height < depth) {i : ℕ} {x : Entry κ ν}
    (hx : t.entries[i]? = some x) (index : ℤ) :
    search compare x.key depth t.addr index m = some ((some x.addr, index + i), m) := by
  induction t generalizing up depth i index with
  | nil => cases hx
  | node l e r ihl ihr =>
    obtain ⟨depth, rfl⟩ : ∃ d, depth = d + 1 := ⟨depth - 1, by omega⟩
    rw [height] at hdepth
    rw [addr, search_node_run hrep]
    obtain ⟨-, hl, hr⟩ := hrep
    obtain ⟨hsl, hser, hcross⟩ := List.pairwise_append.mp hsorted
    obtain ⟨her, hsr⟩ := List.pairwise_cons.mp hser
    have hlength := length_entries l
    rw [entries] at hx
    rcases lt_trichotomy i l.size with hlt | rfl | hgt
    · rw [List.getElem?_append_left (by omega)] at hx
      have hcompare : compare e.key x.key = 1 := by
        rw [horder.swap x.key, hcross x (List.mem_of_getElem? hx) e List.mem_cons_self, neg_neg]
      rw [if_pos hcompare, ihl hl hsl (by omega) hx]
    · rw [List.getElem?_append_right (by omega), hlength, Nat.sub_self,
        List.getElem?_cons_zero] at hx
      obtain rfl := Option.some.inj hx
      rw [(horder.eq_zero e.key e.key).mpr rfl]
      rfl
    · obtain ⟨j, rfl⟩ : ∃ j, i = l.size + 1 + j := ⟨i - l.size - 1, by omega⟩
      have hsub : l.size + 1 + j - l.size = j + 1 := by omega
      rw [List.getElem?_append_right (by omega), hlength, hsub, List.getElem?_cons_succ] at hx
      have hcompare : compare e.key x.key = -1 := her x (List.mem_of_getElem? hx)
      rw [hcompare, if_neg (by decide), if_pos rfl, ihr hr hsr (by omega) hx]
      congr 3
      omega

theorem search_of_notMem (horder : TotalOrder compare) (hrep : Rep m.heap up t)
    (hdepth : t.height < depth) {key : κ} (hkey : ∀ e ∈ t.entries, e.key ≠ key) (index : ℤ) :
    search compare key depth t.addr index m = some ((none, -1), m) := by
  induction t generalizing up depth index with
  | nil =>
    obtain ⟨depth, rfl⟩ : ∃ d, depth = d + 1 := ⟨depth - 1, by omega⟩
    rfl
  | node l e r ihl ihr =>
    obtain ⟨depth, rfl⟩ : ∃ d, depth = d + 1 := ⟨depth - 1, by omega⟩
    rw [height] at hdepth
    rw [addr, search_node_run hrep]
    obtain ⟨-, hl, hr⟩ := hrep
    rw [entries] at hkey
    have hne : e.key ≠ key := hkey e (List.mem_append_right _ List.mem_cons_self)
    by_cases hgt : compare e.key key = 1
    · rw [if_pos hgt, ihl hl (by omega) fun x hx => hkey x (List.mem_append_left _ hx)]
    by_cases hlt : compare e.key key = -1
    · rw [if_neg hgt, if_pos hlt, ihr hr (by omega) fun x hx =>
        hkey x (List.mem_append_right _ (List.mem_cons_of_mem _ hx))]
    · exact absurd (horder.eq_of_not hgt hlt) hne

end

/-! ## Directions -/

/-- The entries in the direction of a side. -/
def Shape.walk (s : Side) (t : Shape κ ν) : List (Entry κ ν) :=
  match s with
  | .left => t.entries.reverse
  | .right => t.entries

section

variable {compare : κ → κ → ℤ} {m : Memory κ ν} {s : Side} {x y t : Shape κ ν} {e : Entry κ ν}
  {up : Pointer} {depth : ℕ}

@[simp] theorem walk_nil : (nil : Shape κ ν).walk s = [] := by
  cases s <;> rfl

theorem walk_join : (join s x e y).walk s = y.walk s ++ e :: x.walk s := by
  cases s <;> simp [walk, join, entries]

theorem length_walk : (t.walk s).length = t.size := by
  cases s
  · rw [walk, List.length_reverse, length_entries]
  · exact length_entries t

/-- Induction over a tree whose branches are looked at from a side. -/
theorem Shape.join_induction {motive : Shape κ ν → Prop} (s : Side) (hnil : motive nil)
    (hjoin : ∀ x e y, motive x → motive y → motive (join s x e y)) (t : Shape κ ν) : motive t := by
  induction t with
  | nil => exact hnil
  | node l e r ihl ihr =>
    cases s with
    | left => exact hjoin l e r ihl ihr
    | right => exact hjoin r e l ihr ihl

theorem child_rep_join (hrep : Rep m.heap up (join s x e y)) :
    (m.heap e.addr).child s = x.addr ∧ (m.heap e.addr).child s.other = y.addr ∧
      (m.heap e.addr).up = up ∧ (m.heap e.addr).key = some e.key := by
  rw [(rep_join.mp hrep).1]
  cases s <;> exact ⟨rfl, rfl, rfl, rfl⟩

/-- The keys are beyond those before them. -/
theorem Sorted.walk (horder : TotalOrder compare) (h : Sorted compare t.entries) :
    (t.walk s).Pairwise fun a b => compare b.key a.key = s.sign := by
  cases s with
  | left => exact List.pairwise_reverse.mpr h
  | right =>
    refine List.Pairwise.imp (fun {a b} hab => ?_) h
    rw [horder.swap a.key, hab]
    rfl

theorem outermostLoop_spec (hrep : Rep m.heap up t) (hdepth : t.height ≤ depth) {a : Addr}
    (ha : t.addr = some a) :
    outermostLoop s.other depth (some a) m = some ((t.walk s).head?.map Entry.addr, m) := by
  induction t using Shape.join_induction s generalizing up depth a with
  | hnil => cases ha
  | hjoin x e y _ ihy =>
    rw [addr_join] at ha
    obtain rfl := Option.some.inj ha
    obtain ⟨-, hchild, -⟩ := child_rep_join hrep
    rw [height_join] at hdepth
    obtain ⟨depth, rfl⟩ : ∃ d, depth = d + 1 := ⟨depth - 1, by omega⟩
    rw [outermostLoop, bind_run, deref_run]
    dsimp only [Option.bind_some]
    rw [hchild, walk_join]
    cases hy : y.addr with
    | none =>
      rw [addr_eq_none.mp hy, walk_nil, ite_run, if_neg (by simp)]
      rfl
    | some b =>
      obtain ⟨y₁, f, y₂, rfl, -⟩ := exists_join s hy
      rw [ite_run, if_pos (Option.some_ne_none _),
        ihy (rep_join.mp hrep).2.2 (by omega) hy, walk_join]
      cases y₂.walk s <;> rfl

theorem outermost_spec (hrep : Rep m.heap up t) (hdepth : t.height ≤ depth) :
    outermost s.other depth t.addr m = some ((t.walk s).head?.map Entry.addr, m) := by
  cases ha : t.addr with
  | none =>
    rw [addr_eq_none.mp ha, walk_nil]
    rfl
  | some a =>
    rw [outermost, if_neg (Option.some_ne_none _)]
    exact outermostLoop_spec hrep hdepth ha

/-! ## One step -/

variable {l₁ l₂ : List (Entry κ ν)} {c : Entry κ ν}

/-- Where an entry is: in the branch before the node on top, there, or in the branch after it. -/
theorem walk_join_eq_append (h : (join s x e y).walk s = l₁ ++ c :: l₂) :
    (∃ l, y.walk s = l₁ ++ c :: l ∧ l₂ = l ++ e :: x.walk s) ∨ (c = e ∧ l₂ = x.walk s) ∨
      ∃ l, x.walk s = l ++ c :: l₂ := by
  rw [walk_join] at h
  rcases List.append_eq_append_iff.mp h with ⟨l, -, htop⟩ | ⟨l, hy, htop⟩
  · cases l with
    | nil =>
      obtain ⟨rfl, rfl⟩ := List.cons.inj htop
      exact Or.inr (Or.inl ⟨rfl, rfl⟩)
    | cons b l => exact Or.inr (Or.inr ⟨l, (List.cons.inj htop).2⟩)
  · cases l with
    | nil =>
      obtain ⟨rfl, rfl⟩ := List.cons.inj htop
      exact Or.inr (Or.inl ⟨rfl, rfl⟩)
    | cons b l =>
      obtain ⟨rfl, rfl⟩ := List.cons.inj htop
      exact Or.inl ⟨l, hy, rfl⟩

theorem climb_root {key : Option κ} {a : Addr} (hup : (m.heap a).up = none) :
    climb compare s key (depth + 1) (some a) m = some (none, m) := by
  rw [climb, bind_run, deref_run]
  dsimp only [Option.bind_some]
  rw [hup, if_pos rfl]
  rfl

theorem climb_up {key : κ} {a b : Addr} {k : κ} (hup : (m.heap a).up = some b)
    (hkey : (m.heap b).key = some k) :
    climb compare s (some key) (depth + 1) (some a) m =
      if compare k key = s.sign then some (some b, m)
      else climb compare s (some key) depth (some b) m := by
  rw [climb, bind_run, deref_run]
  dsimp only [Option.bind_some]
  rw [hup, if_neg (Option.some_ne_none _), bind_run, deref_run]
  dsimp only [Option.bind_some]
  rw [hkey, bind_run, compareItems, compareKeys]
  dsimp only [Option.map_some, Option.bind_some]
  rw [ite_run]
  rfl

/-- A climb from the top of a branch. -/
theorem climb_join {key : κ} {z : Shape κ ν} {a : Addr} (hkey : (m.heap a).key = some e.key)
    (hrep : Rep m.heap (some a) z) (hz : z ≠ nil) :
    climb compare s (some key) (depth + 1) z.addr m =
      if compare e.key key = s.sign then some (some a, m)
      else climb compare s (some key) depth (some a) m := by
  cases z with
  | nil => exact absurd rfl hz
  | node l f r => exact climb_up (congrArg Node.up hrep.1) hkey

/-- **A climb** from a node without a branch on the side ends at the next entry of the tree; if
there is none, it goes on from the top of the tree. -/
theorem climb_spec (horder : TotalOrder compare) (hrep : Rep m.heap up t)
    (hsorted : (t.walk s).Pairwise fun a b => compare b.key a.key = s.sign)
    (hsplit : t.walk s = l₁ ++ c :: l₂) (hchild : (m.heap c.addr).child s = none) :
    ∃ k, k < t.height ∧ ∀ d, climb compare s (some c.key) (d + k) (some c.addr) m =
      match l₂.head? with
      | none => climb compare s (some c.key) d t.addr m
      | some b => some (some b.addr, m) := by
  induction t using Shape.join_induction s generalizing up l₁ l₂ with
  | hnil =>
    rw [walk_nil] at hsplit
    exact absurd hsplit.symm (by simp)
  | hjoin x e y ihx ihy =>
    obtain ⟨hx, -, -, hkey⟩ := child_rep_join hrep
    obtain ⟨-, hrepx, hrepy⟩ := rep_join.mp hrep
    rw [height_join, addr_join]
    have hcross := hsorted
    rw [walk_join] at hcross
    obtain ⟨hsy, hsex, hcross⟩ := List.pairwise_append.mp hcross
    obtain ⟨hex, hsx⟩ := List.pairwise_cons.mp hsex
    rcases walk_join_eq_append hsplit with ⟨l, hy, rfl⟩ | ⟨rfl, rfl⟩ | ⟨l, hxl⟩
    · -- in the branch before the node on top, which is the next one after the whole branch
      obtain ⟨k, hk, hclimb⟩ := ihy hrepy hsy hy
      have hmem : c ∈ y.walk s := by simp [hy]
      refine ⟨k + 1, by omega, fun d => ?_⟩
      rw [← Nat.add_assoc, Nat.add_right_comm, hclimb (d + 1)]
      cases l with
      | cons b l => rfl
      | nil =>
        have hne : y ≠ nil := by
          rintro rfl
          simp at hmem
        exact (climb_join hkey hrepy hne).trans (if_pos (hcross c hmem e List.mem_cons_self))
    · -- at the top, with nothing after it
      rw [addr_eq_none.mp (hx.symm.trans hchild), walk_nil]
      exact ⟨0, by omega, fun d => rfl⟩
    · obtain ⟨k, hk, hclimb⟩ := ihx hrepx hsx hxl
      have hmem : c ∈ x.walk s := by simp [hxl]
      refine ⟨k + 1, by omega, fun d => ?_⟩
      rw [← Nat.add_assoc, Nat.add_right_comm, hclimb (d + 1)]
      cases l₂ with
      | cons b l₂ => rfl
      | nil =>
        have hne : x ≠ nil := by
          rintro rfl
          simp at hmem
        have hbefore : compare e.key c.key ≠ s.sign := by
          rw [horder.swap c.key, hex c hmem]
          cases s <;> decide
        exact (climb_join hkey hrepx hne).trans (if_neg hbefore)

/-- The branch after an entry. -/
theorem exists_branch (hrep : Rep m.heap up t) (hsplit : t.walk s = l₁ ++ c :: l₂) :
    ∃ z l, (m.heap c.addr).child s = z.addr ∧ (m.heap c.addr).key = some c.key ∧
      Rep m.heap (some c.addr) z ∧ z.height < t.height ∧ l₂ = z.walk s ++ l := by
  induction t using Shape.join_induction s generalizing up l₁ l₂ with
  | hnil =>
    rw [walk_nil] at hsplit
    exact absurd hsplit.symm (by simp)
  | hjoin x e y ihx ihy =>
    obtain ⟨hx, -, -, hkey⟩ := child_rep_join hrep
    obtain ⟨-, hrepx, hrepy⟩ := rep_join.mp hrep
    rw [height_join]
    rcases walk_join_eq_append hsplit with ⟨l, hy, rfl⟩ | ⟨rfl, rfl⟩ | ⟨l, hxl⟩
    · obtain ⟨z, l', hchild, hkey, hz, hheight, rfl⟩ := ihy hrepy hy
      exact ⟨z, l' ++ e :: x.walk s, hchild, hkey, hz, by omega, List.append_assoc _ _ _⟩
    · exact ⟨x, [], hx, hkey, hrepx, by omega, (List.append_nil _).symm⟩
    · obtain ⟨z, l', hchild, hkey, hz, hheight, rfl⟩ := ihx hrepx hxl
      exact ⟨z, l', hchild, hkey, hz, by omega, rfl⟩

/-- **`Next` and `Prev`.** -/
theorem neighbour_spec (horder : TotalOrder compare) (hrep : Rep m.heap none t)
    (hsorted : Sorted compare t.entries) (hdepth : t.height < depth)
    (hsplit : t.walk s = l₁ ++ c :: l₂) :
    neighbour compare s depth (some c.addr) m = some (l₂.head?.map Entry.addr, m) := by
  obtain ⟨z, l, hchild, hkey, hz, hheight, hl⟩ := exists_branch hrep hsplit
  rw [neighbour, bind_run, deref_run]
  dsimp only [Option.bind_some]
  rw [hchild, ite_run, hkey]
  cases hza : z.addr with
  | none =>
    rw [if_pos rfl]
    obtain ⟨k, hk, hclimb⟩ := climb_spec horder hrep (hsorted.walk horder) hsplit (hchild.trans hza)
    obtain ⟨d, rfl⟩ : ∃ d, depth = d + 1 + k := ⟨depth - 1 - k, by omega⟩
    rw [hclimb (d + 1)]
    cases l₂ with
    | cons b l₂ => rfl
    | nil =>
      cases t with
      | nil => exact absurd hheight (Nat.not_lt_zero _)
      | node x e y => exact climb_root (congrArg Node.up hrep.1)
  | some a =>
    rw [if_neg (Option.some_ne_none _), ← hza, outermost_spec hz (by omega), hl]
    obtain ⟨x, e, y, rfl, -⟩ := exists_join s hza
    rw [walk_join]
    cases y.walk s <;> rfl

/-! ## A whole iteration -/

/-- **From a node on**, a client sees the entries after it. -/
theorem visitFrom_spec (horder : TotalOrder compare) (hrep : Rep m.heap none t)
    (hsorted : Sorted compare t.entries) (hdepth : t.height < depth) {turns : ℕ}
    (hturns : l₂.length < turns) (hsplit : t.walk s = l₁ ++ l₂) :
    visitFrom (neighbour compare s depth) turns (l₂.head?.map Entry.addr) m =
      some (l₂.map Entry.addr, m) := by
  induction l₂ generalizing l₁ turns with
  | nil =>
    obtain ⟨turns, rfl⟩ : ∃ n, turns = n + 1 := ⟨turns - 1, by simp at hturns; omega⟩
    rfl
  | cons c l₂ ih =>
    rw [List.length_cons] at hturns
    obtain ⟨turns, rfl⟩ : ∃ n, turns = n + 1 := ⟨turns - 1, by omega⟩
    have hrest : t.walk s = (l₁ ++ [c]) ++ l₂ := by rw [hsplit, List.append_assoc]; rfl
    rw [List.head?_cons, Option.map_some, visitFrom, bind_run,
      neighbour_spec horder hrep hsorted hdepth hsplit]
    dsimp only [Option.bind_some]
    rw [bind_run, ih (by omega) hrest]
    rfl

end

/-- The nodes of the tree in the order of their keys. -/
structure Listing (compare : κ → κ → ℤ) (m : Memory κ ν) (l : List (Entry κ ν)) : Prop where
  sorted : Sorted compare l
  nodup : (l.map Entry.addr).Nodup
  node : ∀ e ∈ l, (m.heap e.addr).key = some e.key ∧ (m.heap e.addr).value = e.value
  count : m.count = l.length

/-- What is read of the tree is what the list has. -/
structure OrderStatistics (compare : κ → κ → ℤ) (depth : ℕ) (m : Memory κ ν)
    (l : List (Entry κ ν)) : Prop where
  get : ∀ index, treeGet depth index m =
    some (if index < 0 then none else l[index.toNat]?.map Entry.addr, m)
  search : ∀ (i : ℕ) (e : Entry κ ν), l[i]? = some e →
    treeSearch compare depth e.key m = some ((some e.addr, (i : ℤ)), m)
  search_none : ∀ key, (∀ e ∈ l, e.key ≠ key) →
    treeSearch compare depth key m = some ((none, -1), m)
  ascending : (treeFirst depth >>= visitFrom (next compare depth) depth) m =
    some (l.map Entry.addr, m)
  descending : (treeLast depth >>= visitFrom (prev compare depth) depth) m =
    some (l.reverse.map Entry.addr, m)

section

variable {compare : κ → κ → ℤ} {m : Memory κ ν} {t : Shape κ ν} {frees : List Addr} {depth : ℕ}
  {s : Side}

theorem Rep.node {heap : Addr → Node κ ν} {up : Pointer} (h : Rep heap up t) {e : Entry κ ν}
    (he : e ∈ t.entries) : (heap e.addr).key = some e.key ∧ (heap e.addr).value = e.value := by
  induction t generalizing up with
  | nil => cases he
  | node l f r ihl ihr =>
    obtain ⟨hnode, hl, hr⟩ := h
    rcases List.mem_append.mp he with he | he
    · exact ihl hl he
    rcases List.mem_cons.mp he with rfl | he
    · rw [hnode]
      exact ⟨rfl, rfl⟩
    · exact ihr hr he

theorem Valid.listing (h : Valid compare m t frees) : Listing compare m t.entries where
  sorted := h.sorted
  nodup := h.nodup
  node _ he := h.rep.node he
  count := by rw [h.count, length_entries]

/-- An iteration that starts at an end of the tree. -/
theorem visit_spec (horder : TotalOrder compare) (h : Valid compare m t frees)
    (hdepth : t.size < depth) :
    ((load .root >>= outermost s.other depth) >>= visitFrom (neighbour compare s depth) depth) m =
      some ((t.walk s).map Entry.addr, m) := by
  have hheight := height_le_size t
  have hload : m.load .root = t.addr := h.root
  rw [bind_run, bind_run, load_run, hload]
  dsimp only [Option.bind_some]
  rw [outermost_spec (s := s) h.rep (by omega)]
  dsimp only [Option.bind_some]
  have hsplit : t.walk s = [] ++ t.walk s := rfl
  exact visitFrom_spec horder h.rep h.sorted (by omega) (by rwa [length_walk]) hsplit

theorem Valid.orderStatistics (horder : TotalOrder compare) (h : Valid compare m t frees)
    (hdepth : t.size < depth) : OrderStatistics compare depth m t.entries := by
  have hheight := height_le_size t
  have hload : m.load .root = t.addr := h.root
  refine ⟨treeGet_spec h (by omega), fun i e he => ?_, fun key hkey => ?_, ?_, ?_⟩
  · rw [treeSearch, bind_run, load_run, hload]
    exact (search_of_getElem? horder h.rep h.sorted (by omega) he 0).trans (by rw [Int.zero_add])
  · rw [treeSearch, bind_run, load_run, hload]
    exact search_of_notMem horder h.rep (by omega) hkey 0
  · exact visit_spec (s := .right) horder h hdepth
  · exact visit_spec (s := .left) horder h hdepth

/-- The entries before and after the one that is deleted. -/
theorem deleteEntry_append (horder : TotalOrder compare) {l₁ l₂ : List (Entry κ ν)} {e : Entry κ ν}
    (h : Sorted compare (l₁ ++ e :: l₂)) :
    deleteEntry compare e.key (l₁ ++ e :: l₂) = l₁ ++ l₂ := by
  obtain ⟨-, hel, hcross⟩ := List.pairwise_append.mp h
  have hbefore : deleteEntry compare e.key l₁ = l₁ := deleteEntry_eq_self fun x hx => by
    rw [hcross x hx e List.mem_cons_self]
    decide
  have hafter : deleteEntry compare e.key l₂ = l₂ := deleteEntry_eq_self fun x hx => by
    rw [horder.swap e.key, (List.pairwise_cons.mp hel).1 x hx]
    decide
  rw [deleteEntry] at hbefore hafter ⊢
  rw [List.filter_append, List.filter_cons_of_neg (by simp [(horder.eq_zero _ _).mpr]), hbefore,
    hafter]

/-- **`Delete`** takes one entry out of the list; an iteration goes on. -/
theorem Valid.delete (horder : TotalOrder compare) (h : Valid compare m t frees)
    (hdepth : t.size < depth) (key : κ) :
    ∃ m' value, treeDelete compare depth key m = some (value, m') ∧
      Listing compare m' (deleteEntry compare key t.entries) ∧
      OrderStatistics compare depth m' (deleteEntry compare key t.entries) ∧
      ∀ l₁ e e' l₂, t.entries = l₁ ++ e :: e' :: l₂ →
        (e.key = key → visitFrom (next compare depth) depth (some e'.addr) m' =
          some ((e' :: l₂).map Entry.addr, m')) ∧
        (e'.key = key → visitFrom (prev compare depth) depth (some e.addr) m' =
          some ((e :: l₁.reverse).map Entry.addr, m')) := by
  have hheight : t.height < depth := (height_le_size t).trans_lt hdepth
  obtain ⟨t', frees', m', hrun, hvalid, hentries⟩ := treeDelete_spec horder h hheight key
  have hsize : t'.size < depth := by
    have hle := List.length_filter_le (fun e => decide (compare e.key key ≠ 0)) t.entries
    rw [← deleteEntry, ← hentries, length_entries, length_entries] at hle
    exact hle.trans_lt hdepth
  have hheight' := height_le_size t'
  have hlength := length_entries t'
  rw [← hentries]
  refine ⟨m', _, hrun, hvalid.listing, hvalid.orderStatistics horder hsize,
    fun l₁ e e' l₂ hl => ⟨?_, ?_⟩⟩
  · rintro rfl
    have hsorted := h.sorted
    rw [hl] at hentries hsorted
    rw [deleteEntry_append horder hsorted] at hentries
    rw [hentries, List.length_append] at hlength
    have hsplit : t'.walk .right = l₁ ++ e' :: l₂ := hentries
    exact visitFrom_spec horder hvalid.rep hvalid.sorted (by omega) (by omega) hsplit
  · rintro rfl
    have hsorted := h.sorted
    rw [hl, List.append_cons] at hentries hsorted
    rw [deleteEntry_append horder hsorted] at hentries
    rw [hentries, List.length_append, List.length_append, List.length_singleton] at hlength
    have hsplit : t'.walk .left = l₂.reverse ++ e :: l₁.reverse := by
      rw [walk, hentries]
      simp
    exact visitFrom_spec horder hvalid.rep hvalid.sorted (by omega)
      (by rw [List.length_cons, List.length_reverse]; omega) hsplit

end

/-! ## Values in place

A client may assign to what the value of a node points to. -/

/-- The entry with another value, if it is at the address. -/
def Entry.setValue (a : Addr) (value : Option ν) (e : Entry κ ν) : Entry κ ν :=
  if e.addr = a then { e with value } else e

def Shape.setValue (a : Addr) (value : Option ν) : Shape κ ν → Shape κ ν
  | .nil => .nil
  | .node l e r => .node (l.setValue a value) (e.setValue a value) (r.setValue a value)

section

variable {compare : κ → κ → ℤ} {m : Memory κ ν} {t : Shape κ ν} {frees : List Addr} {a : Addr}
  {value : Option ν} {e : Entry κ ν} {up : Pointer}

@[simp] theorem Entry.addr_setValue : (e.setValue a value).addr = e.addr := by
  unfold Entry.setValue
  split <;> rfl

@[simp] theorem Entry.key_setValue : (e.setValue a value).key = e.key := by
  unfold Entry.setValue
  split <;> rfl

@[simp] theorem addr_setValue : (t.setValue a value).addr = t.addr := by
  cases t with
  | nil => rfl
  | node l e r => exact congrArg some Entry.addr_setValue

@[simp] theorem size_setValue : (t.setValue a value).size = t.size := by
  induction t with
  | nil => rfl
  | node l e r ihl ihr => rw [Shape.setValue, size, size, ihl, ihr]

@[simp] theorem height_setValue : (t.setValue a value).height = t.height := by
  induction t with
  | nil => rfl
  | node l e r ihl ihr => rw [Shape.setValue, height, height, ihl, ihr]

theorem entries_setValue :
    (t.setValue a value).entries = t.entries.map (Entry.setValue a value) := by
  induction t with
  | nil => rfl
  | node l e r ihl ihr => rw [Shape.setValue, entries, entries, ihl, ihr, List.map_append,
      List.map_cons]

@[simp] theorem addrs_setValue : (t.setValue a value).addrs = t.addrs := by
  rw [addrs, addrs, entries_setValue, List.map_map]
  exact List.map_congr_left fun e _ => Entry.addr_setValue

theorem Shape.Balanced.setValue (h : t.Balanced) : (t.setValue a value).Balanced := by
  induction t with
  | nil => trivial
  | node l e r ihl ihr =>
    obtain ⟨hl, hr, hle, hge⟩ := h
    refine ⟨ihl hl, ihr hr, ?_, ?_⟩
    · rwa [height_setValue, height_setValue]
    · rwa [height_setValue, height_setValue]

theorem Rep.setValue (h : Rep m.heap up t) :
    Rep (Function.update m.heap a { m.heap a with value }) up (t.setValue a value) := by
  induction t generalizing up with
  | nil => trivial
  | node l e r ihl ihr =>
    obtain ⟨hnode, hl, hr⟩ := h
    refine ⟨?_, ?_, ?_⟩
    · rw [Entry.addr_setValue, Entry.key_setValue]
      simp only [addr_setValue, size_setValue, height_setValue]
      by_cases ha : e.addr = a
      · subst ha
        rw [Function.update_self, hnode, Entry.setValue, if_pos rfl]
      · rw [Function.update_of_ne ha, hnode, Entry.setValue, if_neg ha]
    · rw [Entry.addr_setValue]
      exact ihl hl
    · rw [Entry.addr_setValue]
      exact ihr hr

theorem Valid.setValue (h : Valid compare m t frees) (ha : a ∈ t.addrs) :
    Valid compare { m with heap := Function.update m.heap a { m.heap a with value } }
      (t.setValue a value) frees where
  root := h.root.trans addr_setValue.symm
  rep := h.rep.setValue
  balanced := h.balanced.setValue
  sorted := by
    rw [entries_setValue, Sorted, List.pairwise_map]
    exact h.sorted.imp fun {e e'} hlt => by rwa [Entry.key_setValue, Entry.key_setValue]
  count := by rw [size_setValue]; exact h.count
  allocator := by
    rw [addrs_setValue]
    apply h.allocator.sameBut
    apply SameBut.of_heap
    intro b hb
    have hne : b ≠ a := fun hab => hb (hab.symm ▸ ha)
    exact Function.update_of_ne hne _ _

end

section

variable {compare : κ → κ → ℤ} {m : Memory κ ν} {frees : List Addr} {depth : ℕ}

/-- **Order statistics and iteration.** Any calls on an empty tree leave a tree whose nodes, listed
in the order of their keys, are those that `Get`, `Search` and both iterations find. `Delete` leaves
the other nodes where they are: an iteration that holds the next node goes on from it. -/
theorem avl_order_statistics [DecidableEq κ] (horder : TotalOrder compare) (ops : List (Op κ ν))
    (hroot : m.root = none) (hcount : m.count = 0) (hallocator : Allocator m [] frees)
    (hdepth : ops.length < depth) :
    ∃ outputs m' l, run compare depth ops m = some (outputs, m') ∧
      (∀ k, valueOf compare k l = (applyAll ∅ ops).2.lookup k) ∧
      Listing compare m' l ∧ OrderStatistics compare depth m' l ∧
      ∀ key, ∃ m'' value, treeDelete compare depth key m' = some (value, m'') ∧
        Listing compare m'' (deleteEntry compare key l) ∧
        OrderStatistics compare depth m'' (deleteEntry compare key l) ∧
        ∀ l₁ e e' l₂, l = l₁ ++ e :: e' :: l₂ →
          (e.key = key → visitFrom (next compare depth) depth (some e'.addr) m'' =
            some ((e' :: l₂).map Entry.addr, m'')) ∧
          (e'.key = key → visitFrom (prev compare depth) depth (some e.addr) m'' =
            some ((e :: l₁.reverse).map Entry.addr, m'')) := by
  have hvalid : Valid compare m (.nil : Shape κ ν) frees :=
    ⟨hroot, trivial, trivial, List.Pairwise.nil, hcount, hallocator⟩
  obtain ⟨t, frees', m', hrun, hvalid', hcontent, hsize⟩ := run_spec horder ops hvalid
    (by simpa using hdepth) (show Holds compare .nil ∅ from fun _ => rfl)
  rw [size_nil, Nat.zero_add] at hsize
  have hturns : t.size < depth := by omega
  exact ⟨_, m', t.entries, hrun, fun k => (hcontent k).symm, hvalid'.listing,
    hvalid'.orderStatistics horder hturns, hvalid'.delete horder hturns⟩

end

theorem avl_order_statistics_sampleOps :
    ∃ outputs m' l, run compareNat 6 sampleOps emptyMemory = some (outputs, m') ∧
      Listing compareNat m' l ∧ OrderStatistics compareNat 6 m' l := by
  obtain ⟨outputs, m', l, hrun, -, hlisting, hstatistics, -⟩ :=
    avl_order_statistics totalOrder_compareNat sampleOps rfl rfl
      (show Allocator emptyMemory [] [] from ⟨rfl, rfl, List.nodup_nil, by simp⟩)
      (show sampleOps.length < 6 by decide)
  exact ⟨outputs, m', l, hrun, hlisting, hstatistics⟩

end Bitmarkd.Avl
