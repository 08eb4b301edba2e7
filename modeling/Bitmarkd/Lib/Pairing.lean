import Mathlib

/-!
# Trees by pairing neighbours

A level of a tree pairs the neighbours of the level below it; at the end of an odd level the last
item is paired with itself. Pairing level after level leaves one item, the `root`.

**Binding** (`root_inj`). If the pairing is injective on the pairs that two trees make, then lists
of the same length with the same root are the same. The lengths matter: a list of odd length has the
root of the list that repeats its last item.

**The left edge** (`root_cons`). The root is what the first item becomes when it is paired with one
sibling of each level.
-/

namespace Bitmarkd.Lib.Pairing

variable {α : Type}

/-- The pairs of neighbours. -/
def pairs : List α → List (α × α)
  | [] => []
  | [a] => [(a, a)]
  | a :: b :: rest => (a, b) :: pairs rest

theorem length_pairs (l : List α) : (pairs l).length = (l.length + 1) / 2 := by
  induction l using pairs.induct with
  | case1 => simp [pairs]
  | case2 a => simp [pairs]
  | case3 a b rest ih =>
    simp only [pairs, List.length_cons, ih]
    omega

/-- The pairs and the length determine the list. -/
theorem pairs_inj {l l' : List α} (hlength : l.length = l'.length) (h : pairs l = pairs l') :
    l = l' := by
  induction l using pairs.induct generalizing l' with
  | case1 => exact (List.length_eq_zero_iff.mp hlength.symm).symm
  | case2 a =>
    obtain ⟨b, rfl⟩ := List.length_eq_one_iff.mp hlength.symm
    simp_all [pairs]
  | case3 a b rest ih =>
    match l', hlength, h with
    | c :: d :: rest', hlength, h =>
      simp only [pairs, List.cons.injEq, Prod.mk.injEq] at h
      rw [h.1.1, h.1.2, ih (by simpa using hlength) h.2]

variable (f : α × α → α)

/-- The level above a level. -/
def level (l : List α) : List α := (pairs l).map f

theorem length_level (l : List α) : (level f l).length = (l.length + 1) / 2 := by
  rw [level, List.length_map, length_pairs]

theorem length_level_lt {l : List α} (h : 1 < l.length) : (level f l).length < l.length := by
  rw [length_level]
  omega

theorem level_ne_nil {l : List α} (h : l ≠ []) : level f l ≠ [] := by
  have hpos := List.length_pos_iff.mpr h
  refine List.length_pos_iff.mp ?_
  rw [length_level]
  omega

/-- The item that is left after pairing, if there is one. -/
def root (l : List α) : Option α := if 1 < l.length then root (level f l) else l.head?
termination_by l.length
decreasing_by exact length_level_lt f ‹_›

theorem root_of_lt {l : List α} (h : 1 < l.length) : root f l = root f (level f l) := by
  rw [root, if_pos h]

@[simp] theorem root_singleton (a : α) : root f [a] = some a := by
  rw [root, if_neg (by simp), List.head?_cons]

/-- The pairs of all levels. -/
def allPairs (l : List α) : List (α × α) :=
  if 1 < l.length then pairs l ++ allPairs (level f l) else []
termination_by l.length
decreasing_by exact length_level_lt f ‹_›

theorem allPairs_of_lt {l : List α} (h : 1 < l.length) :
    allPairs f l = pairs l ++ allPairs f (level f l) := by
  rw [allPairs, if_pos h]

/-- Lists with the same image are the same, if the function is injective on their items. -/
theorem map_injOn {β : Type} {g : α → β} {l l' : List α} (hinj : Set.InjOn g {a | a ∈ l ∨ a ∈ l'})
    (h : l.map g = l'.map g) : l = l' := by
  induction l generalizing l' with
  | nil => exact (List.map_eq_nil_iff.mp h.symm).symm
  | cons a l ih =>
    obtain ⟨b, l', rfl, hb, hl⟩ := List.map_eq_cons_iff.mp h.symm
    have hab : b = a := hinj (Or.inr List.mem_cons_self) (Or.inl List.mem_cons_self) hb
    rw [hab, ih (hinj.mono fun x hx => ?_) hl.symm]
    exact hx.imp (List.mem_cons_of_mem _) (List.mem_cons_of_mem _)

/-- **Binding.** The root and the length determine the list. -/
theorem root_inj {l l' : List α} (hlength : l.length = l'.length)
    (hinj : Set.InjOn f {p | p ∈ allPairs f l ∨ p ∈ allPairs f l'})
    (h : root f l = root f l') : l = l' := by
  induction hn : l.length using Nat.strong_induction_on generalizing l l' with
  | _ n ih =>
    subst hn
    by_cases hlt : 1 < l.length
    · have hlt' : 1 < l'.length := hlength ▸ hlt
      rw [root_of_lt f hlt, root_of_lt f hlt'] at h
      rw [allPairs_of_lt f hlt, allPairs_of_lt f hlt'] at hinj
      have hlevel : level f l = level f l' := by
        refine ih _ (length_level_lt f hlt) ?_ (hinj.mono ?_) h rfl
        · rw [length_level, length_level, hlength]
        · intro p hp
          exact hp.imp (List.mem_append_right _) (List.mem_append_right _)
      refine pairs_inj hlength (map_injOn (hinj.mono ?_) hlevel)
      intro p hp
      exact hp.imp (List.mem_append_left _) (List.mem_append_left _)
    · have hlt' : ¬ 1 < l'.length := hlength ▸ hlt
      rw [root, if_neg hlt, root, if_neg hlt'] at h
      match l, l', hlength, hlt, h with
      | [], [], _, _, _ => rfl
      | [a], [b], _, _, h => rw [Option.some.inj h]
      | _ :: _ :: _, _, _, hlt, _ => exact absurd (by simp) hlt

/-! ## Siblings along the left edge -/

/-- The first item of each level of a tree whose first item is left out: what the left edge of the
tree is paired with. -/
def siblings (l : List α) : List α :=
  match l with
  | [] => []
  | a :: rest => a :: siblings (level f rest)
termination_by l.length
decreasing_by
  rw [length_level, List.length_cons]
  omega

theorem siblings_nil : siblings f ([] : List α) = [] := by rw [siblings]

theorem siblings_cons (a : α) (rest : List α) :
    siblings f (a :: rest) = a :: siblings f (level f rest) := by rw [siblings]

/-- **The left edge.** Pairing the first item with its sibling, level after level, gives the root.
-/
theorem root_cons (a : α) (l : List α) :
    root f (a :: l) = some ((siblings f l).foldl (fun r h => f (r, h)) a) := by
  induction hn : l.length using Nat.strong_induction_on generalizing l a with
  | _ n ih =>
    subst hn
    cases l with
    | nil => rw [siblings_nil, root_singleton, List.foldl_nil]
    | cons b rest =>
      have hlevel : level f (a :: b :: rest) = f (a, b) :: level f rest := rfl
      have hlt : (level f rest).length < (b :: rest).length := by
        rw [length_level, List.length_cons]
        omega
      rw [root_of_lt f (by simp), hlevel, ih _ hlt _ _ rfl, siblings_cons, List.foldl_cons]

end Bitmarkd.Lib.Pairing
