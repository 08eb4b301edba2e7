import Mathlib

/-!
# Groups under keys, and tables of what is in them

Things are held in groups, each under a key. For every group there are some names that it offers a
value for (`Offer`), and a table lists the offers of all groups (`Lists`): an index from members to
keys is such a table. The groups are `Apart` when no name is offered twice. A change of what is held
under one key then changes the table in the names of the old and the new group only
(`Lists.update`).
-/

namespace Bitmarkd.Lib

/-- The value that a group under a key offers for a name. -/
abbrev Offer (κ γ ξ υ : Type) := κ → γ → ξ → Option υ

namespace Offer

variable {κ γ ξ υ : Type} (c : Offer κ γ ξ υ)

/-- What is offered by what is held under a key. -/
def at? (p : κ) (held : Option γ) (x : ξ) : Option υ := held.bind fun g => c p g x

/-- No name is offered under two keys. -/
def Apart (groups : κ → Option γ) : Prop :=
  ∀ p q x, (c.at? p (groups p) x).isSome → (c.at? q (groups q) x).isSome → p = q

/-- The table has the offers of all groups. -/
def Lists (groups : κ → Option γ) (table : ξ → Option υ) : Prop :=
  ∀ x y, table x = some y ↔ ∃ p, c.at? p (groups p) x = some y

/-- What may be held under a key offers no name that another key does. -/
def Fresh (groups : κ → Option γ) (p : κ) (held : Option γ) : Prop :=
  ∀ q x, q ≠ p → (c.at? p held x).isSome → c.at? q (groups q) x = none

variable {c} {groups : κ → Option γ} {table table' : ξ → Option υ} {p : κ} {held : Option γ}

theorem fresh_none : c.Fresh groups p none := by
  intro q x _ h
  simp [at?] at h

/-- A key may offer again what it did. -/
theorem Apart.fresh (h : c.Apart groups)
    (hheld : ∀ x, (c.at? p held x).isSome → (c.at? p (groups p) x).isSome) :
    c.Fresh groups p held := by
  intro q x hq hx
  by_contra hne
  exact hq (h q p x (Option.isSome_iff_ne_none.mpr hne) (hheld x hx))

variable [DecidableEq κ]

theorem Apart.update (h : c.Apart groups) (hfresh : c.Fresh groups p held) :
    c.Apart (Function.update groups p held) := by
  intro q r x hq hr
  by_cases hqp : q = p
  · by_cases hrp : r = p
    · rw [hqp, hrp]
    · rw [hqp, Function.update_self] at hq
      rw [Function.update_of_ne hrp, hfresh r x hrp hq] at hr
      cases hr
  · by_cases hrp : r = p
    · rw [hrp, Function.update_self] at hr
      rw [Function.update_of_ne hqp, hfresh q x hqp hr] at hq
      cases hq
    · rw [Function.update_of_ne hqp] at hq
      rw [Function.update_of_ne hrp] at hr
      exact h q r x hq hr

/-- **The table after a change under one key**: the new group's names have its values, and those of
the old one that it does not offer are gone. -/
theorem Lists.update (h : c.Lists groups table) (ha : c.Apart groups)
    (hfresh : c.Fresh groups p held)
    (htable : ∀ x, table' x = (c.at? p held x).or
      (if (c.at? p (groups p) x).isSome then none else table x)) :
    c.Lists (Function.update groups p held) table' := by
  intro x y
  have hupdate : (∃ q, c.at? q (Function.update groups p held q) x = some y) ↔
      c.at? p held x = some y ∨ ∃ q, q ≠ p ∧ c.at? q (groups q) x = some y := by
    constructor
    · rintro ⟨q, hq⟩
      by_cases hqp : q = p
      · rw [hqp, Function.update_self] at hq
        exact Or.inl hq
      · rw [Function.update_of_ne hqp] at hq
        exact Or.inr ⟨q, hqp, hq⟩
    · rintro (hp | ⟨q, hqp, hq⟩)
      · exact ⟨p, by rwa [Function.update_self]⟩
      · exact ⟨q, by rwa [Function.update_of_ne hqp]⟩
  rw [hupdate, htable]
  rcases hnew : c.at? p held x with _ | z
  · -- the name is not in the new group: it is listed if another key offers it
    rw [Option.none_or]
    split_ifs with hold
    · simp only [false_or, false_iff, not_exists, not_and]
      intro q hqp hq
      exact hqp (ha q p x (by rw [hq]; rfl) hold)
    · rw [h x y]
      simp only [false_or]
      constructor
      · rintro ⟨q, hq⟩
        refine ⟨q, ?_, hq⟩
        rintro rfl
        exact hold (by rw [hq]; rfl)
      · rintro ⟨q, -, hq⟩
        exact ⟨q, hq⟩
  · rw [Option.some_or]
    constructor
    · exact Or.inl
    · rintro (hz | ⟨q, hqp, hq⟩)
      · exact hz
      · rw [hfresh q x hqp (by rw [hnew]; rfl)] at hq
        cases hq

end Offer

end Bitmarkd.Lib
