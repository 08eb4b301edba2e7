import Bitmarkd.Fault

/-!
# Computations that return

A call returns if it ends with a value or an error of package `fault`, and neither panics nor runs
out of steps. The lemmas reduce this to the parts of a computation.
-/

namespace Bitmarkd

/-- The computation returns, a value or an error of package `fault`. -/
def Returns {α : Type} (x : Except Stop α) : Prop := ∀ s, x = .error s → ∃ e, s = .fault e

section Returns

variable {α β : Type}

@[simp] theorem returns_ok (y : α) : Returns (.ok y) := fun _ h => nomatch h

@[simp] theorem returns_pure (y : α) : Returns (pure y : Except Stop α) := returns_ok y

@[simp] theorem returns_fault (e : Fault) : Returns (fault e : Except Stop α) := by
  intro s h
  cases h
  exact ⟨e, rfl⟩

@[simp] theorem not_returns_panicAt (p : Panic) : ¬ Returns (panicAt p : Except Stop α) := by
  intro h
  obtain ⟨e, he⟩ := h _ rfl
  cases he

@[simp] theorem returns_ite {c : Prop} [Decidable c] {x y : Except Stop α} :
    Returns (if c then x else y) ↔ (c → Returns x) ∧ (¬ c → Returns y) := by
  split <;> simp_all

/-- A sequence returns when its first part does, and the rest after it. -/
@[simp] theorem returns_bind {x : Except Stop α} {f : α → Except Stop β} :
    Returns (x >>= f) ↔ Returns x ∧ ∀ y, x = .ok y → Returns (f y) := by
  cases x with
  | error s => simp [Returns, Bind.bind, Except.bind]
  | ok y => simp [Bind.bind, Except.bind]

/-! ### Loops over a list -/

/-- The list has a bad member behind good ones. -/
def Reaches (good bad : α → Prop) (l : List α) : Prop :=
  ∃ before a after, l = before ++ a :: after ∧ (∀ b ∈ before, good b) ∧ bad a

theorem not_reaches_nil {good bad : α → Prop} : ¬ Reaches good bad [] := by
  rintro ⟨before, a, after, h, -⟩
  simp at h

theorem reaches_cons {good bad : α → Prop} {a : α} {l : List α} :
    Reaches good bad (a :: l) ↔ bad a ∨ good a ∧ Reaches good bad l := by
  constructor
  · rintro ⟨_ | ⟨b, before⟩, x, after, h, hbefore, hx⟩
    · cases h
      exact .inl hx
    · cases h
      obtain ⟨hb, hbefore⟩ := List.forall_mem_cons.mp hbefore
      exact .inr ⟨hb, before, x, after, rfl, hbefore, hx⟩
  · rintro (hbad | ⟨hgood, before, x, after, rfl, hbefore, hx⟩)
    · exact ⟨[], a, l, rfl, by simp, hbad⟩
    · exact ⟨a :: before, x, after, rfl, List.forall_mem_cons.mpr ⟨hgood, hbefore⟩, hx⟩

/-- A loop that goes on at good members and does not return at bad ones. -/
theorem returns_foldlM {good bad : α → Prop} {f : β → α → Except Stop β} {l : List α} {b : β}
    (hgood : ∀ b a, (∃ b', f b a = .ok b') ↔ good a) (hbad : ∀ b a, Returns (f b a) ↔ ¬ bad a) :
    Returns (l.foldlM f b) ↔ ¬ Reaches good bad l := by
  induction l generalizing b with
  | nil => simp [not_reaches_nil]
  | cons a l ih =>
    rw [List.foldlM_cons, returns_bind, hbad, reaches_cons, not_or, not_and, ← hgood b a]
    simp only [ih, forall_exists_index]

end Returns

end Bitmarkd
