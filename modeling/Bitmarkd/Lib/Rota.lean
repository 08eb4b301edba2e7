import Mathlib.Algebra.Order.Group.Defs
import Mathlib.Data.List.Sort
import Mathlib.Data.List.TakeWhile
import Mathlib.Tactic.GCongr

/-!
# Times that come round

A list of times that are at most one period apart, in order. Advancing it past a time moves the
entries up to that time to the next period, behind the others. The list stays in order and within a
period (`Rota.advance`), and what does not change from period to period is unchanged
(`perm_map_advance`).
-/

namespace Bitmarkd.Lib

section Order

variable {α : Type} [LinearOrder α] {e t : α} {l : List α}

/-- The entries behind the first one after `e` are all after `e`. -/
theorem lt_of_mem_dropWhile (hl : l.Pairwise (· ≤ ·)) (ht : t ∈ l.dropWhile (· ≤ e)) : e < t := by
  induction l with
  | nil => cases ht
  | cons a l ih =>
    obtain ⟨ha, hl⟩ := List.pairwise_cons.mp hl
    by_cases hae : a ≤ e
    · rw [List.dropWhile_cons_of_pos (by simpa using hae)] at ht
      exact ih hl ht
    · rw [List.dropWhile_cons_of_neg (by simpa using hae)] at ht
      rcases List.mem_cons.mp ht with rfl | ht
      · exact not_le.mp hae
      · exact lt_of_lt_of_le (not_le.mp hae) (ha t ht)

theorem le_of_mem_takeWhile (ht : t ∈ l.takeWhile (· ≤ e)) : t ≤ e := by
  simpa using List.mem_takeWhile_imp ht

end Order

variable {α β : Type} [AddCommGroup α] [LinearOrder α] {p e t : α} {l : List α}

/-- The entries up to a time, one period later and behind the others. -/
def advance (p e : α) (l : List α) : List α :=
  l.dropWhile (· ≤ e) ++ (l.takeWhile (· ≤ e)).map (· + p)

/-- **In order, within a period.** -/
structure Rota (p : α) (l : List α) : Prop where
  sorted : l.Pairwise (· ≤ ·)
  span : ∀ s ∈ l, ∀ t ∈ l, t ≤ s + p

theorem mem_advance : t ∈ advance p e l ↔
    t ∈ l.dropWhile (· ≤ e) ∨ ∃ s ∈ l.takeWhile (· ≤ e), s + p = t := by
  rw [advance, List.mem_append, List.mem_map]

/-- What is the same one period later is unchanged. -/
theorem perm_map_advance {f : α → β} (hf : ∀ t, f (t + p) = f t) :
    ((advance p e l).map f).Perm (l.map f) := by
  have hmap : ((l.takeWhile (· ≤ e)).map (· + p)).map f = (l.takeWhile (· ≤ e)).map f := by
    rw [List.map_map]
    exact List.map_congr_left fun t _ => hf t
  rw [advance, List.map_append, hmap]
  refine List.perm_append_comm.trans (List.Perm.of_eq ?_)
  rw [← List.map_append, List.takeWhile_append_dropWhile]

/-- Advanced past a time less than a period after the entries, the list is after that time. -/
theorem lt_of_mem_advance (hl : l.Pairwise (· ≤ ·)) (hlate : ∀ t ∈ l, e < t + p)
    (ht : t ∈ advance p e l) : e < t := by
  rcases mem_advance.mp ht with ht | ⟨s, hs, rfl⟩
  · exact lt_of_mem_dropWhile hl ht
  · exact hlate s ((List.takeWhile_prefix _).subset hs)

theorem advance_ne_nil (hl : l ≠ []) : advance p e l ≠ [] := by
  intro h
  have hlength := congrArg List.length h
  rw [advance, List.length_append, List.length_map, Nat.add_comm, ← List.length_append,
    List.takeWhile_append_dropWhile] at hlength
  exact hl (List.eq_nil_of_length_eq_zero hlength)

variable [IsOrderedAddMonoid α]

/-- Times in order between two that are one period apart. -/
theorem Rota.of_mem_Icc {a : α} (hsorted : l.Pairwise (· ≤ ·))
    (h : ∀ t ∈ l, a ≤ t ∧ t ≤ a + p) : Rota p l := by
  refine ⟨hsorted, fun s hs t ht => (h t ht).2.trans ?_⟩
  gcongr
  exact (h s hs).1

theorem Rota.advance (h : Rota p l) (hp : 0 ≤ p) : Rota p (advance p e l) := by
  have hdrop {t : α} (ht : t ∈ l.dropWhile (· ≤ e)) : t ∈ l :=
    (List.dropWhile_suffix _).subset ht
  have htake {t : α} (ht : t ∈ l.takeWhile (· ≤ e)) : t ∈ l :=
    (List.takeWhile_prefix _).subset ht
  constructor
  · refine List.pairwise_append.mpr ⟨h.sorted.sublist (List.dropWhile_sublist _), ?_, ?_⟩
    · refine List.pairwise_map.mpr ((h.sorted.sublist (List.takeWhile_sublist _)).imp ?_)
      intro s t hst
      gcongr
    · intro t ht s hs
      obtain ⟨s', hs', rfl⟩ := List.mem_map.mp hs
      exact h.span s' (htake hs') t (hdrop ht)
  · intro s hs t ht
    rcases mem_advance.mp hs with hs' | ⟨s', hs', rfl⟩ <;>
      rcases mem_advance.mp ht with ht' | ⟨t', ht', rfl⟩
    · exact h.span s (hdrop hs') t (hdrop ht')
    · have hlt := (le_of_mem_takeWhile ht').trans_lt (lt_of_mem_dropWhile h.sorted hs')
      gcongr
    · exact (h.span s' (htake hs') t (hdrop ht')).trans (le_add_of_nonneg_right hp)
    · gcongr
      exact h.span s' (htake hs') t' (htake ht')

end Bitmarkd.Lib
