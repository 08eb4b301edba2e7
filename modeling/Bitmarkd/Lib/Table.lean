import Mathlib

/-!
# Finite maps that are gone through in any order

A map has no order of its own, so a loop over it is a loop over *some* list of its entries
(`Ranges`). What such a loop computes may depend on the list; the sum of a weight over the entries
(`weight`) does not. A loop that changes the map it goes through (`rangeLoop`) is given the keys in
some order, and skips those that are gone when it comes to them.
-/

namespace Bitmarkd.Lib

/-- A finite map. -/
abbrev Table (α β : Type) := Finmap fun _ : α => β

namespace Table

variable {α β : Type}

/-- An order in which a loop may go through the entries. -/
def Ranges (m : Table α β) (order : List (α × β)) : Prop :=
  (order : Multiset (α × β)) = m.entries.map fun e => (e.1, e.2)

instance [DecidableEq α] [DecidableEq β] (m : Table α β) (order : List (α × β)) :
    Decidable (m.Ranges order) := inferInstanceAs (Decidable (_ = _))

/-- The sum of a weight over the entries. -/
def weight (w : β → ℕ) (m : Table α β) : ℕ := (m.entries.map fun e => w e.2).sum

variable {m : Table α β} {order : List (α × β)} {a a' : α} {b b' : β} {w : β → ℕ}

theorem exists_ranges (m : Table α β) : ∃ order, m.Ranges order := by
  obtain ⟨order, horder⟩ := Quot.exists_rep (m.entries.map fun e => (e.1, e.2))
  exact ⟨order, horder⟩

theorem Ranges.perm {order' : List (α × β)} (h : m.Ranges order) (hp : order.Perm order') :
    m.Ranges order' := by
  rw [Ranges, ← Multiset.coe_eq_coe.mpr hp]
  exact h

theorem Ranges.nodup_keys (h : m.Ranges order) : (order.map Prod.fst).Nodup := by
  have hkeys := m.nodupKeys
  rw [← Multiset.coe_nodup, ← Multiset.map_coe, h, Multiset.map_map]
  exact Multiset.nodup_keys.mpr hkeys

section DecidableEq

variable [DecidableEq α]

theorem lookup_insert (m : Table α β) (a a' : α) (b : β) :
    (m.insert a b).lookup a' = if a' = a then some b else m.lookup a' := by
  split_ifs with h
  · rw [h, Finmap.lookup_insert]
  · exact Finmap.lookup_insert_of_ne m h

theorem lookup_erase (m : Table α β) (a a' : α) :
    (m.erase a).lookup a' = if a' = a then none else m.lookup a' := by
  split_ifs with h
  · rw [h, Finmap.lookup_erase]
  · exact Finmap.lookup_erase_ne h

theorem map_lookup_insert {γ : Type} (f : β → γ) (m : Table α β) (a a' : α) (b : β) :
    ((m.insert a b).lookup a').map f = if a' = a then some (f b) else (m.lookup a').map f := by
  rw [lookup_insert]
  split_ifs <;> rfl

theorem map_lookup_erase {γ : Type} (f : β → γ) (m : Table α β) (a a' : α) :
    ((m.erase a).lookup a').map f = if a' = a then none else (m.lookup a').map f := by
  rw [lookup_erase]
  split_ifs <;> rfl

/-- Insert one value under several keys. -/
def insertAll (m : Table α β) (keys : List α) (b : β) : Table α β :=
  keys.foldl (fun m a => m.insert a b) m

/-- Erase several keys. -/
def eraseAll (m : Table α β) (keys : List α) : Table α β := keys.foldl (fun m a => m.erase a) m

theorem lookup_insertAll (m : Table α β) (keys : List α) (b : β) (a : α) :
    (m.insertAll keys b).lookup a = if a ∈ keys then some b else m.lookup a := by
  induction keys generalizing m with
  | nil => simp [insertAll]
  | cons k keys ih =>
    rw [insertAll, List.foldl_cons, ← insertAll, ih, lookup_insert]
    by_cases hk : a = k <;> by_cases hmem : a ∈ keys <;> simp [hk, hmem]

theorem lookup_eraseAll (m : Table α β) (keys : List α) (a : α) :
    (m.eraseAll keys).lookup a = if a ∈ keys then none else m.lookup a := by
  induction keys generalizing m with
  | nil => simp [eraseAll]
  | cons k keys ih =>
    rw [eraseAll, List.foldl_cons, ← eraseAll, ih, lookup_erase]
    by_cases hk : a = k <;> by_cases hmem : a ∈ keys <;> simp [hk, hmem]

/-! ## Sizes and weights -/

theorem card_keys_insert (h : m.lookup a = none) : (m.insert a b).keys.card = m.keys.card + 1 := by
  have hkeys : (m.insert a b).keys = insert a m.keys := by
    ext k
    rw [Finmap.mem_keys, Finmap.mem_insert, Finset.mem_insert, Finmap.mem_keys]
  rw [hkeys, Finset.card_insert_of_notMem]
  rw [Finmap.mem_keys]
  exact Finmap.lookup_eq_none.mp h

theorem card_keys_erase_le (m : Table α β) (a : α) : (m.erase a).keys.card ≤ m.keys.card := by
  apply Finset.card_le_card
  intro k hk
  rw [Finmap.mem_keys, Finmap.mem_erase] at hk
  exact Finmap.mem_keys.mpr hk.2

theorem weight_insert (h : m.lookup a = none) : weight w (m.insert a b) = w b + weight w m := by
  rw [weight, Finmap.entries_insert_of_notMem (Finmap.lookup_eq_none.mp h), Multiset.map_cons,
    Multiset.sum_cons]
  rfl

theorem weight_erase (h : m.lookup a = some b) : weight w m = w b + weight w (m.erase a) := by
  have hm : (m.erase a).insert a b = m := by
    apply Finmap.ext_lookup
    intro k
    rw [lookup_insert, lookup_erase]
    split_ifs with hk
    · rw [hk, h]
    · rfl
  have hgone : (m.erase a).lookup a = none := Finmap.lookup_erase a m
  rw [← weight_insert hgone, hm]

theorem erase_of_lookup_eq_none (h : m.lookup a = none) : m.erase a = m := by
  apply Finmap.ext_lookup
  intro k
  rw [lookup_erase]
  split_ifs with hk
  · rw [hk, h]
  · rfl

/-! ## Maps with the same values up to a function -/

/-- The two maps have the same keys, with values that a function does not tell apart. -/
def Alike {γ : Type} (f : β → γ) (m m' : Table α β) : Prop :=
  ∀ a, (m.lookup a).map f = (m'.lookup a).map f

theorem Alike.refl {γ : Type} (f : β → γ) (m : Table α β) : Alike f m m := fun _ => rfl

theorem Alike.insert {γ : Type} {f : β → γ} {m' : Table α β} (h : Alike f m m') (a : α)
    (hb : f b = f b') : Alike f (m.insert a b) (m'.insert a b') := by
  intro a'
  rw [lookup_insert, lookup_insert]
  split_ifs
  · exact congrArg some hb
  · exact h a'

theorem erase_insert (m : Table α β) (a : α) (b : β) : (m.insert a b).erase a = m.erase a := by
  apply Finmap.ext_lookup
  intro k
  rw [lookup_erase, lookup_insert, lookup_erase]
  split_ifs <;> rfl

theorem eraseAll_insertAll (m : Table α β) (keys : List α) (b : β) :
    (m.insertAll keys b).eraseAll keys = m.eraseAll keys := by
  apply Finmap.ext_lookup
  intro k
  rw [lookup_eraseAll, lookup_insertAll, lookup_eraseAll]
  split_ifs <;> rfl

/-! ## Loops that delete -/

/-- A loop over a map that is part of a state, in an order of its keys. The body may change the map:
a key that is gone when the loop comes to it is skipped. -/
def rangeLoop {σ ε : Type} (table : σ → Table α β) (body : α → β → σ → Except ε σ) :
    List α → σ → Except ε σ
  | [], s => .ok s
  | a :: order, s =>
    match (table s).lookup a with
    | none => rangeLoop table body order s
    | some b =>
      match body a b s with
      | .error e => .error e
      | .ok s => rangeLoop table body order s

/-- What every execution of the body keeps, the loop keeps. -/
theorem rangeLoop_invariant {σ ε : Type} {table : σ → Table α β}
    {body : α → β → σ → Except ε σ} {P : σ → Prop}
    (hbody : ∀ a b s s', (table s).lookup a = some b → P s → body a b s = .ok s' → P s')
    {order : List α} {s s' : σ} (h : rangeLoop table body order s = .ok s') (hs : P s) : P s' := by
  induction order generalizing s with
  | nil =>
    cases h
    exact hs
  | cons a order ih =>
    rcases hb : (table s).lookup a with _ | b
    · rw [rangeLoop, hb] at h
      exact ih h hs
    · rw [rangeLoop, hb] at h
      rcases hstep : body a b s with e | s₁
      · simp only [hstep] at h
        cases h
      · simp only [hstep] at h
        exact ih h (hbody a b s s₁ hb hs hstep)

/-- An order of the keys of a map. -/
def KeyOrder (m : Table α β) (order : List α) : Prop := order.Nodup ∧ order.toFinset = m.keys

instance (m : Table α β) (order : List α) : Decidable (m.KeyOrder order) :=
  inferInstanceAs (Decidable (_ ∧ _))

theorem mem_entries_map : (a, b) ∈ m.entries.map (fun e => (e.1, e.2)) ↔ m.lookup a = some b := by
  rw [Multiset.mem_map]
  constructor
  · rintro ⟨⟨_, _⟩, he, h⟩
    cases h
    exact Finmap.lookup_eq_some_iff.mpr he
  · intro h
    exact ⟨⟨a, b⟩, Finmap.lookup_eq_some_iff.mp h, rfl⟩

theorem Ranges.mem_iff (h : m.Ranges order) : (a, b) ∈ order ↔ m.lookup a = some b := by
  rw [← Multiset.mem_coe, h, mem_entries_map]

/-- Any entry may come first. -/
theorem Ranges.exists_cons (h : m.Ranges order) (hb : m.lookup a = some b) :
    ∃ rest, m.Ranges ((a, b) :: rest) := by
  obtain ⟨l, r, rfl⟩ := List.append_of_mem (h.mem_iff.mpr hb)
  exact ⟨l ++ r, h.perm List.perm_middle⟩

/-- Any two entries may come first. -/
theorem Ranges.exists_cons_cons (h : m.Ranges order) (hb : m.lookup a = some b)
    (hb' : m.lookup a' = some b') (hne : a ≠ a') :
    ∃ rest, m.Ranges ((a, b) :: (a', b') :: rest) := by
  obtain ⟨rest, hrest⟩ := h.exists_cons hb
  have hmem : (a', b') ∈ rest := by
    refine (List.mem_cons.mp (hrest.mem_iff.mpr hb')).resolve_left ?_
    intro heq
    exact hne (Prod.mk.inj heq).1.symm
  obtain ⟨l, r, rfl⟩ := List.append_of_mem hmem
  exact ⟨l ++ r, hrest.perm (List.Perm.cons _ List.perm_middle)⟩

end DecidableEq

end Table

end Bitmarkd.Lib
