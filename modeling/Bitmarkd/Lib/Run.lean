import Mathlib

/-!
# Runs of a labelled transition system

A run is a list of steps, each kept with the state it started from, so that what a step did can be
asked about afterwards. A *guard* restricts the steps; an invariant of the guarded steps holds at
the end of every run whose steps are all guarded (`Run.invariant`).
-/

namespace Bitmarkd.Lib

variable {σ α : Type}

/-- A run from a state, with the trace of the states and labels it went through, to a state. -/
inductive Run (step : σ → α → σ → Prop) (s : σ) : List (σ × α) → σ → Prop
  | nil : Run step s [] s
  | snoc {trace : List (σ × α)} {t u : σ} {a : α} : Run step s trace t → step t a u →
      Run step s (trace ++ [(t, a)]) u

/-- Every step of a trace is guarded. -/
def Guarded (guard : σ → α → Prop) (trace : List (σ × α)) : Prop :=
  ∀ x ∈ trace, guard x.1 x.2

variable {step : σ → α → σ → Prop} {guard guard' : σ → α → Prop} {s t u : σ}
  {trace : List (σ × α)} {a : α}

theorem Guarded.nil : Guarded guard [] := by simp [Guarded]

theorem guarded_true (trace : List (σ × α)) : Guarded (fun _ _ => True) trace :=
  fun _ _ => trivial

theorem guarded_snoc : Guarded guard (trace ++ [(t, a)]) ↔ Guarded guard trace ∧ guard t a := by
  simp only [Guarded, List.mem_append, List.mem_singleton]
  constructor
  · intro h
    exact ⟨fun x hx => h x (Or.inl hx), h (t, a) (Or.inr rfl)⟩
  · rintro ⟨h, ha⟩ x (hx | rfl)
    · exact h x hx
    · exact ha

theorem Guarded.mono (h : Guarded guard trace) (hg : ∀ t a, guard t a → guard' t a) :
    Guarded guard' trace :=
  fun x hx => hg _ _ (h x hx)

theorem Run.append {trace' : List (σ × α)} (h : Run step s trace t) (h' : Run step t trace' u) :
    Run step s (trace ++ trace') u := by
  induction h' with
  | nil => rwa [List.append_nil]
  | snoc _ hs ih =>
    rw [← List.append_assoc]
    exact ih.snoc hs

theorem Run.single (h : step s a t) : Run step s [(s, a)] t := Run.nil.snoc h

/-- A property of the trace and the state that holds at the start, and that every guarded step
keeps, holds at the end of every guarded run. -/
theorem Run.history_invariant {P : List (σ × α) → σ → Prop} (hr : Run step s trace t)
    (hg : Guarded guard trace) (h₀ : P [] s)
    (hstep : ∀ {trace t a u}, Run step s trace t → Guarded guard trace → P trace t → guard t a →
      step t a u → P (trace ++ [(t, a)]) u) : P trace t := by
  induction hr with
  | nil => exact h₀
  | snoc hr hs ih =>
    obtain ⟨hg, ha⟩ := guarded_snoc.mp hg
    exact hstep hr hg (ih hg) ha hs

/-- The same for a property of the state only. -/
theorem Run.invariant {P : σ → Prop} (hr : Run step s trace t) (hg : Guarded guard trace)
    (h₀ : P s) (hstep : ∀ {t a u}, P t → guard t a → step t a u → P u) : P t :=
  hr.history_invariant (P := fun _ t => P t) hg h₀ fun _ _ h => hstep h

/-! ## Executed runs -/

/-- Take steps one after the other, as long as they can be taken. -/
def execute (exec : σ → α → Option σ) : List α → σ → Option σ
  | [], s => some s
  | a :: as, s => (exec s a).bind (execute exec as)

theorem execute_cons_eq_some {exec : σ → α → Option σ} {as : List α} :
    execute exec (a :: as) s = some t ↔ ∃ u, exec s a = some u ∧ execute exec as u = some t :=
  Option.bind_eq_some_iff

/-- All steps can be taken exactly if each can be taken in the state it is reached in. -/
theorem isSome_execute_iff {exec : σ → α → Option σ} {P : σ → α → Prop}
    (hexec : ∀ s a, (exec s a).isSome ↔ P s a) (as : List α) (s : σ) :
    (execute exec as s).isSome ↔ ∀ before a after t, as = before ++ a :: after →
      execute exec before s = some t → P t a := by
  induction as generalizing s with
  | nil => simp [execute]
  | cons a as ih =>
    constructor
    · intro h before b after t hsplit ht
      obtain ⟨v, hv⟩ := Option.isSome_iff_exists.mp h
      obtain ⟨u, hu, hrest⟩ := execute_cons_eq_some.mp hv
      cases before with
      | nil =>
        obtain ⟨rfl, rfl⟩ := List.cons.inj hsplit
        cases ht
        exact (hexec _ _).mp (Option.isSome_of_mem hu)
      | cons c before =>
        obtain ⟨rfl, hrest'⟩ := List.cons.inj hsplit
        obtain ⟨u', hu', ht⟩ := execute_cons_eq_some.mp ht
        cases hu.symm.trans hu'
        exact (ih u).mp (Option.isSome_of_mem hrest) before b after t hrest' ht
    · intro h
      obtain ⟨u, hu⟩ := Option.isSome_iff_exists.mp ((hexec s a).mpr (h [] a as s rfl rfl))
      have hrest : (execute exec as u).isSome := (ih u).mpr fun before b after t hsplit ht =>
        h (a :: before) b after t (by rw [hsplit]; rfl) (execute_cons_eq_some.mpr ⟨u, hu, ht⟩)
      rwa [execute, hu]

/-- The steps, each with the state it is taken from. -/
def executeTrace (exec : σ → α → Option σ) : List α → σ → List (σ × α)
  | [], _ => []
  | a :: as, s => (s, a) :: executeTrace exec as ((exec s a).getD s)

/-- Steps that can all be taken make a run. -/
theorem run_of_execute {exec : σ → α → Option σ}
    (hexec : ∀ {s a s'}, exec s a = some s' → step s a s') {as : List α}
    (h : execute exec as s = some t) : Run step s (executeTrace exec as s) t := by
  induction as generalizing s with
  | nil =>
    cases h
    exact .nil
  | cons a as ih =>
    obtain ⟨u, hu, h⟩ := Option.bind_eq_some_iff.mp h
    rw [executeTrace, hu]
    exact (Run.single (hexec hu)).append (ih h)

/-- What depends on the labels only. -/
theorem flatMap_executeTrace {β : Type} (exec : σ → α → Option σ) (f : α → List β) (as : List α)
    (s : σ) : (executeTrace exec as s).flatMap (fun x => f x.2) = as.flatMap f := by
  induction as generalizing s with
  | nil => rfl
  | cons a as ih => rw [executeTrace, List.flatMap_cons, List.flatMap_cons, ih]

end Bitmarkd.Lib
