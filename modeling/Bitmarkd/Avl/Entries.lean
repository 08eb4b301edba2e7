import Bitmarkd.Avl.Shape

/-!
# The AVL tree: ordered entries

What a search tree is for is an ordered list of entries, one for each key: what insert and delete do
to the list, and what is found in it.
-/

namespace Bitmarkd.Avl

variable {κ ν : Type}

/-- `Compare` is a total order that returns exactly -1, 0 or +1. -/
structure TotalOrder (compare : κ → κ → ℤ) : Prop where
  values : ∀ a b, compare a b = -1 ∨ compare a b = 0 ∨ compare a b = 1
  eq_zero : ∀ a b, compare a b = 0 ↔ a = b
  swap : ∀ a b, compare b a = -compare a b
  trans : ∀ a b c, compare a b = -1 → compare b c = -1 → compare a c = -1

/-- The keys are in order. -/
def Sorted (compare : κ → κ → ℤ) (l : List (Entry κ ν)) : Prop :=
  l.Pairwise fun e e' => compare e.key e'.key = -1

/-- The value of a key. -/
def valueOf (compare : κ → κ → ℤ) (key : κ) (l : List (Entry κ ν)) : Option (Option ν) :=
  (l.find? fun e => compare e.key key = 0).map Entry.value

/-- The entry goes to its place, or its value to the entry with its key. -/
def insertEntry (compare : κ → κ → ℤ) (e : Entry κ ν) : List (Entry κ ν) → List (Entry κ ν)
  | [] => [e]
  | x :: l =>
    if compare x.key e.key = 1 then e :: x :: l
    else if compare x.key e.key = -1 then x :: insertEntry compare e l
    else { x with value := e.value } :: l

/-- The entry of the key is taken out. -/
def deleteEntry (compare : κ → κ → ℤ) (key : κ) (l : List (Entry κ ν)) : List (Entry κ ν) :=
  l.filter fun e => compare e.key key ≠ 0

section

variable {compare : κ → κ → ℤ} {l r : List (Entry κ ν)} {x e : Entry κ ν} {key : κ}

theorem valueOf_cons : valueOf compare key (x :: l) =
    if compare x.key key = 0 then some x.value else valueOf compare key l := by
  unfold valueOf
  by_cases h : compare x.key key = 0
  · rw [List.find?_cons_of_pos (by simpa using h), if_pos h, Option.map_some]
  · rw [List.find?_cons_of_neg (by simpa using h), if_neg h]

theorem valueOf_append : valueOf compare key (l ++ r) =
    (valueOf compare key l).or (valueOf compare key r) := by
  simp only [valueOf, List.find?_append, Option.map_or]

theorem valueOf_eq_none : valueOf compare key l = none ↔ ∀ x ∈ l, compare x.key key ≠ 0 := by
  simp [valueOf]

/-! ## Insert -/

theorem insertEntry_append_left (h : compare x.key e.key = 1) :
    insertEntry compare e (l ++ x :: r) = insertEntry compare e l ++ x :: r := by
  induction l with
  | nil => simp [insertEntry, h]
  | cons y l ih =>
    simp only [List.cons_append, insertEntry, ih]
    split_ifs <;> rfl

theorem insertEntry_append_right (hl : ∀ y ∈ l, compare y.key e.key = -1) :
    insertEntry compare e (l ++ r) = l ++ insertEntry compare e r := by
  induction l with
  | nil => rfl
  | cons y l ih =>
    have hy := hl y List.mem_cons_self
    rw [List.cons_append, insertEntry, if_neg (by omega), if_pos hy,
      ih fun z hz => hl z (List.mem_cons_of_mem _ hz), List.cons_append]

theorem mem_insertEntry {z : Entry κ ν} (h : z ∈ insertEntry compare e l) :
    z = e ∨ ∃ y ∈ l, z.key = y.key ∧ z.addr = y.addr := by
  induction l with
  | nil => exact .inl (by simpa [insertEntry] using h)
  | cons y l ih =>
    simp only [insertEntry] at h
    split_ifs at h
    · rcases List.mem_cons.mp h with rfl | h
      · exact .inl rfl
      · exact .inr ⟨z, h, rfl, rfl⟩
    · rcases List.mem_cons.mp h with rfl | h
      · exact .inr ⟨z, List.mem_cons_self, rfl, rfl⟩
      · rcases ih h with h | ⟨y', hy', h⟩
        · exact .inl h
        · exact .inr ⟨y', List.mem_cons_of_mem _ hy', h⟩
    · rcases List.mem_cons.mp h with rfl | h
      · exact .inr ⟨y, List.mem_cons_self, rfl, rfl⟩
      · exact .inr ⟨z, List.mem_cons_of_mem _ h, rfl, rfl⟩

variable (horder : TotalOrder compare)

include horder

theorem sorted_insertEntry (h : Sorted compare l) : Sorted compare (insertEntry compare e l) := by
  induction l with
  | nil => simp [insertEntry, Sorted]
  | cons y l ih =>
    obtain ⟨hy, hl⟩ := List.pairwise_cons.mp h
    simp only [insertEntry]
    split_ifs with hgt hlt
    · have hey : compare e.key y.key = -1 := by rw [horder.swap, hgt]
      refine List.pairwise_cons.mpr ⟨fun z hz => ?_, h⟩
      rcases List.mem_cons.mp hz with rfl | hz
      · exact hey
      · exact horder.trans _ _ _ hey (hy z hz)
    · refine List.pairwise_cons.mpr ⟨fun z hz => ?_, ih hl⟩
      rcases mem_insertEntry hz with rfl | ⟨y', hy', hkey, -⟩
      · exact hlt
      · rw [hkey]
        exact hy y' hy'
    · exact List.pairwise_cons.mpr ⟨hy, hl⟩

/-- Keys that are not in order are equal. -/
theorem TotalOrder.eq_of_not {a b : κ} (hgt : compare a b ≠ 1) (hlt : compare a b ≠ -1) :
    a = b := by
  have hvalues := horder.values a b
  exact (horder.eq_zero a b).mp (by omega)

theorem valueOf_insertEntry : valueOf compare key (insertEntry compare e l) =
    if compare e.key key = 0 then some e.value else valueOf compare key l := by
  induction l with
  | nil => simp [insertEntry, valueOf_cons]
  | cons y l ih =>
    simp only [insertEntry]
    by_cases hgt : compare y.key e.key = 1
    · rw [if_pos hgt, valueOf_cons]
    rw [if_neg hgt]
    by_cases hlt : compare y.key e.key = -1
    · rw [if_pos hlt, valueOf_cons, valueOf_cons, ih]
      by_cases hkey : compare e.key key = 0
      · have hne : compare y.key key ≠ 0 := by
          rw [← (horder.eq_zero _ _).mp hkey]
          omega
        rw [if_neg hne, if_pos hkey, if_pos hkey]
      · rw [if_neg hkey, if_neg hkey]
    · rw [if_neg hlt, valueOf_cons, valueOf_cons, horder.eq_of_not hgt hlt]
      split_ifs <;> rfl

/-- The addresses are those before, and a new one if the key is new. -/
theorem addrs_insertEntry (h : Sorted compare l) :
    ((insertEntry compare e l).map Entry.addr).Perm
      (if valueOf compare e.key l = none then e.addr :: l.map Entry.addr
        else l.map Entry.addr) := by
  induction l with
  | nil => simp [insertEntry, valueOf]
  | cons y l ih =>
    obtain ⟨hy, hl⟩ := List.pairwise_cons.mp h
    simp only [insertEntry]
    by_cases hgt : compare y.key e.key = 1
    · have hnone : valueOf compare e.key (y :: l) = none := by
        refine valueOf_eq_none.mpr fun x hx heq => ?_
        rw [← (horder.eq_zero _ _).mp heq] at hgt
        rcases List.mem_cons.mp hx with rfl | hx
        · rw [(horder.eq_zero _ _).mpr rfl] at hgt
          cases hgt
        · rw [hy x hx] at hgt
          cases hgt
      rw [if_pos hgt, if_pos hnone]
      rfl
    rw [if_neg hgt]
    by_cases hlt : compare y.key e.key = -1
    · have hvalue : valueOf compare e.key (y :: l) = valueOf compare e.key l := by
        rw [valueOf_cons, if_neg (by omega)]
      rw [if_pos hlt, hvalue, List.map_cons, List.map_cons]
      refine ((ih hl).cons y.addr).trans ?_
      split_ifs
      · exact .swap ..
      · exact .refl _
    · have hkey := horder.eq_of_not hgt hlt
      rw [if_neg hlt, valueOf_cons, if_pos ((horder.eq_zero _ _).mpr hkey), if_neg (by simp)]
      exact .refl _

/-! ## Delete -/

omit horder in
theorem deleteEntry_eq_self (h : ∀ x ∈ l, compare x.key key ≠ 0) : deleteEntry compare key l = l :=
  List.filter_eq_self.mpr fun x hx => by simpa using h x hx

omit horder in
theorem sorted_deleteEntry (h : Sorted compare l) : Sorted compare (deleteEntry compare key l) :=
  h.filter _

theorem valueOf_deleteEntry {key' : κ} : valueOf compare key' (deleteEntry compare key l) =
    if compare key key' = 0 then none else valueOf compare key' l := by
  induction l with
  | nil => simp [deleteEntry, valueOf]
  | cons y l ih =>
    unfold deleteEntry at ih ⊢
    by_cases hy : compare y.key key = 0
    · rw [List.filter_cons_of_neg (by simpa using hy), ih, valueOf_cons,
        (horder.eq_zero _ _).mp hy]
      split_ifs <;> rfl
    · rw [List.filter_cons_of_pos (by simpa using hy), valueOf_cons, ih, valueOf_cons]
      by_cases hkey : compare key key' = 0
      · rw [(horder.eq_zero _ _).mp hkey] at hy
        rw [if_neg hy, if_pos hkey, if_pos hkey]
      · rw [if_neg hkey, if_neg hkey]

/-! ## Branches

A key that is on a side of a node is not in the node, nor on the other side. -/

open Shape

variable {s : Side} {x' y' z' : Shape κ ν}

theorem compare_other (hcompare : compare e.key key = -s.sign)
    (hsorted : Sorted compare (join s x' e y').entries) :
    ∀ z ∈ y'.entries, compare z.key key = -s.sign := by
  intro z hz
  cases s with
  | left =>
    obtain ⟨-, hright, -⟩ := List.pairwise_append.mp hsorted
    have hez := (List.pairwise_cons.mp hright).1 z hz
    have hkey : compare key e.key = -1 := by rw [horder.swap, hcompare]; rfl
    rw [horder.swap, horder.trans _ _ _ hkey hez]
    rfl
  | right =>
    obtain ⟨-, -, hleft⟩ := List.pairwise_append.mp hsorted
    exact horder.trans _ _ _ (hleft z hz e List.mem_cons_self) hcompare

omit horder in
theorem Sorted.side (h : Sorted compare (join s x' e y').entries) : Sorted compare x'.entries := by
  cases s with
  | left => exact (List.pairwise_append.mp h).1
  | right => exact (List.pairwise_cons.mp (List.pairwise_append.mp h).2.1).2

theorem entries_insertEntry_join {n : Entry κ ν} (hcompare : compare e.key n.key = -s.sign)
    (hsorted : Sorted compare (join s x' e y').entries)
    (hz : z'.entries = insertEntry compare n x'.entries) :
    (join s z' e y').entries = insertEntry compare n (join s x' e y').entries := by
  have hother := compare_other horder hcompare hsorted
  cases s with
  | left =>
    simp only [join, entries]
    rw [insertEntry_append_left hcompare, hz]
  | right =>
    simp only [join, entries]
    rw [List.append_cons _ _ z'.entries, List.append_cons _ _ x'.entries, insertEntry_append_right,
      hz]
    intro z hmem
    rcases List.mem_append.mp hmem with hmem | hmem
    · exact hother z hmem
    · rw [List.mem_singleton.mp hmem]
      exact hcompare

theorem valueOf_join (hcompare : compare e.key key = -s.sign)
    (hsorted : Sorted compare (join s x' e y').entries) :
    valueOf compare key (join s x' e y').entries = valueOf compare key x'.entries := by
  have hother := compare_other horder hcompare hsorted
  have hnone : valueOf compare key y'.entries = none :=
    valueOf_eq_none.mpr fun z hz => by rw [hother z hz]; cases s <;> decide
  have hne : compare e.key key ≠ 0 := by rw [hcompare]; cases s <;> decide
  cases s with
  | left => simp [join, entries, valueOf_append, valueOf_cons, hne, hnone]
  | right => simp [join, entries, valueOf_append, valueOf_cons, hne, hnone]

theorem entries_deleteEntry_join (hcompare : compare e.key key = -s.sign)
    (hsorted : Sorted compare (join s x' e y').entries)
    (hz : z'.entries = deleteEntry compare key x'.entries) :
    (join s z' e y').entries = deleteEntry compare key (join s x' e y').entries := by
  have hother := compare_other horder hcompare hsorted
  have hy : deleteEntry compare key y'.entries = y'.entries :=
    deleteEntry_eq_self fun z hz => by rw [hother z hz]; cases s <;> decide
  have hne : compare e.key key ≠ 0 := by rw [hcompare]; cases s <;> decide
  unfold deleteEntry at hy hz ⊢
  cases s with
  | left =>
    simp only [join, entries]
    rw [List.filter_append, List.filter_cons_of_pos (by simpa using hne), hy, hz]
  | right =>
    simp only [join, entries]
    rw [List.filter_append, List.filter_cons_of_pos (by simpa using hne), hy, hz]

end

end Bitmarkd.Avl
