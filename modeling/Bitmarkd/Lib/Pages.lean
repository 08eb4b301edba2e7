import Mathlib.Data.List.Sort
import Mathlib.Data.Finset.Max
import Mathlib.Data.Finset.Sort

/-!
# Paging through an ascending list

A list whose keys ascend is known from its members (`Ascending.ext`), and what comes after one of
its pages are the members whose key is larger than the last one of the page (`Ascending.mem_drop`).
`pages` cuts a list into pages of given sizes.
-/

namespace Bitmarkd.Lib

variable {α κ : Type} [LinearOrder κ] {key : α → κ}

/-- The keys ascend. -/
def Ascending (key : α → κ) (l : List α) : Prop := l.Pairwise fun a b => key a < key b

theorem Ascending.nodup {l : List α} (h : Ascending key l) : l.Nodup :=
  h.imp fun hlt heq => absurd hlt (by rw [heq]; exact lt_irrefl _)

theorem Ascending.sublist {l l' : List α} (h : Ascending key l) (hsub : l'.Sublist l) :
    Ascending key l' := List.Pairwise.sublist hsub h

/-- Ascending lists with the same members are equal. -/
theorem Ascending.ext {l l' : List α} (h : Ascending key l) (h' : Ascending key l')
    (hmem : ∀ a, a ∈ l ↔ a ∈ l') : l = l' := by
  refine List.Perm.eq_of_pairwise ?_ h h' ((List.perm_ext_iff_of_nodup h.nodup h'.nodup).mpr hmem)
  intro a b _ _ hab hba
  exact absurd (hab.trans hba) (lt_irrefl _)

/-- The last element of a page has the largest key of the page. -/
theorem Ascending.le_getLast {l : List α} {k : α} (h : Ascending key l) (hk : k ∈ l.getLast?)
    {a : α}
    (ha : a ∈ l) : key a ≤ key k := by
  obtain ⟨init, rfl⟩ := List.getLast?_eq_some_iff.mp hk
  rcases List.mem_append.mp ha with hinit | hlast
  · exact le_of_lt ((List.pairwise_append.mp h).2.2 a hinit k List.mem_cons_self)
  · rw [List.mem_singleton.mp hlast]

/-- What comes after a page. -/
theorem Ascending.mem_drop {l : List α} {n : ℕ} {k : α} (h : Ascending key l)
    (hk : k ∈ (l.take n).getLast?) (a : α) : a ∈ l.drop n ↔ a ∈ l ∧ key k < key a := by
  have hsplit := List.take_append_drop n l
  have hpairwise : Ascending key (l.take n ++ l.drop n) := by rwa [hsplit]
  obtain ⟨hpage, -, hcross⟩ := List.pairwise_append.mp hpairwise
  have hkmem : k ∈ l.take n := List.mem_of_getLast? hk
  constructor
  · exact fun ha => ⟨List.mem_of_mem_drop ha, hcross k hkmem a ha⟩
  · rintro ⟨ha, hlt⟩
    rw [← hsplit] at ha
    rcases List.mem_append.mp ha with hpagea | hrest
    · exact absurd hlt (not_lt.mpr (Ascending.le_getLast hpage hk hpagea))
    · exact hrest

/-- Pages of given sizes. -/
def pages : List α → List ℕ → List (List α)
  | _, [] => []
  | l, n :: counts => l.take n :: pages (l.drop n) counts

/-! ## Initial segments -/

theorem takeWhile_take (p : α → Bool) (l : List α) (n : ℕ) :
    (l.take n).takeWhile p = (l.takeWhile p).take n := by
  induction l generalizing n with
  | nil => simp
  | cons a l ih =>
    cases n with
    | zero => simp
    | succ n =>
      cases hp : p a with
      | false => simp [hp]
      | true => simp [hp, ih]

/-- The elements with a property come first if nothing without it is before one of them. -/
theorem takeWhile_eq_filter {p : α → Bool} {l : List α}
    (h : l.Pairwise fun a b => p b = true → p a = true) : l.takeWhile p = l.filter p := by
  induction l with
  | nil => rfl
  | cons a l ih =>
    obtain ⟨hfirst, hrest⟩ := List.pairwise_cons.mp h
    cases hp : p a with
    | true => rw [List.takeWhile_cons_of_pos hp, List.filter_cons_of_pos hp, ih hrest]
    | false =>
      have hnone : l.filter p = [] := by
        refine List.filter_eq_nil_iff.mpr fun b hb hpb => ?_
        rw [hfirst b hb hpb] at hp
        cases hp
      rw [List.takeWhile_cons_of_neg (by simp [hp]), List.filter_cons_of_neg (by simp [hp]), hnone]

end Bitmarkd.Lib
