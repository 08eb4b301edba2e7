import Mathlib

/-!
# Rosters

Owners with numbered lists of ids. The index says at which number of whose list an id stands, and
each id that stands in a list is registered. Numbers are handed out in increasing order and never
again.

A roster is written in transactions whose reads can be stale: `Follows R₀ R` is what a roster `R`
keeps of the roster `R₀` at the start of the transaction, so that an entry of `R₀` that was removed
since can be removed a second time without harm.
-/

namespace Bitmarkd.Lib

/-- Lists of ids, with an index. -/
@[ext] structure Roster (Owner Id C : Type) where
  index : Owner → Id → Option C
  list : Owner → C → Option Id
  next : Owner → C
  registered : Id → Prop

namespace Roster

variable {Owner Id C : Type} [DecidableEq Owner] [DecidableEq Id] [LinearOrder C]

/-- Append an id to the list of an owner; `c` is the next number after that. -/
def append (R : Roster Owner Id C) (o : Owner) (t : Id) (c : C) : Roster Owner Id C where
  index w x := if w = o ∧ x = t then some (R.next o) else R.index w x
  list w k := if w = o ∧ k = R.next o then some t else R.list w k
  next w := if w = o then c else R.next w
  registered x := x = t ∨ R.registered x

/-- Remove an id that stands at number `k` of the list of an owner. -/
def remove (R : Roster Owner Id C) (o : Owner) (t : Id) (k : C) : Roster Owner Id C where
  index w x := if w = o ∧ x = t then none else R.index w x
  list w j := if w = o ∧ j = k then none else R.list w j
  next := R.next
  registered x := x ≠ t ∧ R.registered x

/-- The index and the lists say the same, numbers in use are below the next one, and the registered
ids are those that stand in a list, which is one list only. -/
structure Coherent (R : Roster Owner Id C) : Prop where
  index_iff : ∀ {o t k}, R.index o t = some k ↔ R.list o k = some t
  below : ∀ {o t k}, R.index o t = some k → k < R.next o
  owner_unique : ∀ {o o' t k k'}, R.index o t = some k → R.index o' t = some k' → o = o'
  registered_iff : ∀ {t}, R.registered t ↔ ∃ o k, R.index o t = some k

/-- The id is in no list. -/
def Absent (R : Roster Owner Id C) (t : Id) : Prop := ∀ o, R.index o t = none

variable {R R₀ : Roster Owner Id C} {o : Owner} {t : Id} {c k : C}

/-- Appending a new id. -/
theorem Coherent.append (h : R.Coherent) (ht : R.Absent t) (hc : R.next o < c) :
    (R.append o t c).Coherent where
  index_iff := by
    intro w x j
    simp only [Roster.append]
    by_cases hwx : w = o ∧ x = t
    · obtain ⟨rfl, rfl⟩ := hwx
      simp only [and_self, if_true, true_and, Option.some.injEq]
      by_cases hj : j = R.next w
      · simp [hj]
      · -- a new id is in no list
        rw [if_neg hj, ← h.index_iff, ht w]
        simp [eq_comm, hj]
    · rw [if_neg hwx]
      by_cases hwj : w = o ∧ j = R.next o
      · obtain ⟨rfl, rfl⟩ := hwj
        have hx : t ≠ x := fun e => hwx ⟨rfl, e.symm⟩
        simp only [and_self, if_true, Option.some.injEq, hx, iff_false]
        intro hidx
        exact absurd (h.below hidx) (lt_irrefl _)
      · rw [if_neg hwj]
        exact h.index_iff
  below := by
    intro w x j hj
    simp only [Roster.append] at hj ⊢
    by_cases hw : w = o
    · subst hw
      rw [if_pos rfl]
      by_cases hx : x = t
      · simp only [hx, and_self, if_true, Option.some.injEq] at hj
        exact hj ▸ hc
      · simp only [hx, and_false, if_false] at hj
        exact (h.below hj).trans hc
    · simp only [hw, false_and, if_false] at hj ⊢
      exact h.below hj
  owner_unique := by
    intro w w' x j j' hj hj'
    simp only [Roster.append] at hj hj'
    by_cases hx : x = t
    · subst hx
      simp only [and_true, ht _] at hj hj'
      by_cases hw : w = o
      · by_cases hw' : w' = o
        · rw [hw, hw']
        · simp [hw'] at hj'
      · simp [hw] at hj
    · simp only [hx, and_false, if_false] at hj hj'
      exact h.owner_unique hj hj'
  registered_iff := by
    intro x
    simp only [Roster.append]
    by_cases hx : x = t
    · subst hx
      simp only [true_or, true_iff]
      exact ⟨o, R.next o, by simp⟩
    · simp only [hx, false_or, and_false, if_false]
      exact h.registered_iff

/-- Removing an id from where it stands. -/
theorem Coherent.remove (h : R.Coherent) (hk : R.index o t = some k) :
    (R.remove o t k).Coherent where
  index_iff := by
    intro w x j
    simp only [Roster.remove]
    by_cases hwx : w = o ∧ x = t
    · obtain ⟨rfl, rfl⟩ := hwx
      by_cases hj : j = k
      · simp [hj]
      · simp only [hj, and_false, if_false, and_self, if_true]
        rw [← h.index_iff, hk]
        simp [Ne.symm hj]
    · rw [if_neg hwx]
      by_cases hwj : w = o ∧ j = k
      · obtain ⟨rfl, rfl⟩ := hwj
        simp only [and_self, if_true, reduceCtorEq, iff_false]
        intro hj
        -- number `j` of the list of `w` is `t`
        have hlist := h.index_iff.mp hj
        rw [h.index_iff.mp hk] at hlist
        exact hwx ⟨rfl, (Option.some.inj hlist).symm⟩
      · rw [if_neg hwj]
        exact h.index_iff
  below := by
    intro w x j hj
    simp only [Roster.remove] at hj ⊢
    split at hj
    · cases hj
    · exact h.below hj
  owner_unique := by
    intro w w' x j j' hj hj'
    simp only [Roster.remove] at hj hj'
    split at hj
    · cases hj
    · split at hj'
      · cases hj'
      · exact h.owner_unique hj hj'
  registered_iff := by
    intro x
    simp only [Roster.remove]
    by_cases hx : x = t
    · subst hx
      simp only [ne_eq, not_true_eq_false, false_and, and_true, false_iff, not_exists]
      intro w j hj
      split at hj
      · cases hj
      next hw => exact hw (h.owner_unique hj hk)
    · simp only [ne_eq, hx, not_false_iff, true_and, and_false, if_false]
      exact h.registered_iff

/-- Removing an id that is in no list, from a number that is free, changes nothing. -/
theorem Coherent.remove_absent (h : R.Coherent) (ht : R.Absent t) (hk : R.list o k = none) :
    R.remove o t k = R := by
  apply Roster.ext
  · funext w x
    simp only [Roster.remove]
    split
    next hwx => rw [hwx.2, ht w]
    next => rfl
  · funext w j
    simp only [Roster.remove]
    split
    next hwj => rw [hwj.1, hwj.2, hk]
    next => rfl
  · rfl
  · funext x
    simp only [Roster.remove, eq_iff_iff, and_iff_right_iff_imp]
    rintro hx rfl
    obtain ⟨w, j, hj⟩ := h.registered_iff.mp hx
    rw [ht w] at hj
    cases hj

/-! ## Transactions -/

/-- The roster `R` was made from `R₀`: numbers went up, and an entry of `R₀` is still there, or is
gone for good. -/
structure Follows (R₀ R : Roster Owner Id C) : Prop where
  coherent₀ : R₀.Coherent
  coherent : R.Coherent
  next_le : ∀ o, R₀.next o ≤ R.next o
  kept : ∀ {o t k}, R₀.index o t = some k →
    R.index o t = some k ∨ R.Absent t ∧ R.list o k = none

omit [DecidableEq Owner] [DecidableEq Id] in
theorem Coherent.follows (h : R.Coherent) : R.Follows R where
  coherent₀ := h
  coherent := h
  next_le _ := le_rfl
  kept hk := Or.inl hk

theorem Follows.append (h : R₀.Follows R) (ht₀ : R₀.Absent t) (ht : R.Absent t)
    (hc : R.next o < c) : R₀.Follows (R.append o t c) where
  coherent₀ := h.coherent₀
  coherent := h.coherent.append ht hc
  next_le w := by
    simp only [Roster.append]
    by_cases hw : w = o
    · subst hw
      rw [if_pos rfl]
      exact (h.next_le w).trans hc.le
    · rw [if_neg hw]
      exact h.next_le w
  kept := by
    intro w x j hj
    have hx : x ≠ t := by
      rintro rfl
      rw [ht₀ w] at hj
      cases hj
    -- the new number is above all numbers of `R₀`
    have hnew : ¬ (w = o ∧ j = R.next o) := by
      rintro ⟨rfl, rfl⟩
      exact absurd (h.coherent₀.below hj) (not_lt.mpr (h.next_le w))
    simp only [Roster.append, Absent, hx, and_false, if_false, hnew]
    exact h.kept hj

/-- An entry can be removed again: what counts is that it is there, or was at the start. -/
theorem Follows.remove (h : R₀.Follows R) (hk : R.index o t = some k ∨ R₀.index o t = some k) :
    R₀.Follows (R.remove o t k) := by
  have hcases : R.index o t = some k ∨ R.Absent t ∧ R.list o k = none := by
    rcases hk with hk | hk
    · exact Or.inl hk
    · exact h.kept hk
  rcases hcases with hk | ⟨ht, hlist⟩
  · refine ⟨h.coherent₀, h.coherent.remove hk, h.next_le, ?_⟩
    intro w x j hj
    simp only [Roster.remove, Absent]
    by_cases hx : x = t
    · subst hx
      have habsent : R.Absent x ∨ w = o ∧ j = k := by
        rcases h.kept hj with hj' | ⟨habs, -⟩
        · have hw := h.coherent.owner_unique hj' hk
          subst hw
          rw [hk] at hj'
          exact Or.inr ⟨rfl, (Option.some.inj hj').symm⟩
        · exact Or.inl habs
      right
      constructor
      · intro w'
        split
        · rfl
        next hw' =>
          by_contra hne
          obtain ⟨j', hj'⟩ := Option.ne_none_iff_exists'.mp hne
          exact hw' ⟨h.coherent.owner_unique hj' hk, rfl⟩
      · split
        · rfl
        next hwj =>
          rcases habsent with habs | hwj'
          · rw [habs o] at hk
            cases hk
          · exact absurd hwj' hwj
    · simp only [hx, and_false, if_false]
      rcases h.kept hj with hj' | ⟨habs, hlist⟩
      · exact Or.inl hj'
      · refine Or.inr ⟨habs, ?_⟩
        split
        · rfl
        · exact hlist
  · rw [h.coherent.remove_absent ht hlist]
    exact h

end Roster

end Bitmarkd.Lib
