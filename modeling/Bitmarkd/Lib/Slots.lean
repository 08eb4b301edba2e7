import Bitmarkd.Lib.Table

/-!
# Slots with an index

Entries are kept in the first `n` slots of a list, and an index maps the key of each to its slot
(`Indexed`). An entry is added behind the others, replaced by one of the same key, or removed: then
the last one moves into its slot. Each keeps the slots and the index in step, and changes the entry
of one key (`entry`).
-/

namespace Bitmarkd.Lib.Slots

variable {κ ε : Type} {key : ε → κ} {slots : List (Option ε)} {n i j : ℕ} {e e' x : ε} {k : κ}

/-- One of the first `n` slots holds the entry. -/
def At (slots : List (Option ε)) (n i : ℕ) (e : ε) : Prop := i < n ∧ slots[i]? = some (some e)

theorem At.unique (h : At slots n i e) (h' : At slots n i e') : e = e' := by
  have heq := h.2.symm.trans h'.2
  cases heq
  rfl

/-- Behind the entries there is another one. -/
theorem at_push (hn : slots.length = n) :
    At (slots ++ [some e]) (n + 1) i x ↔ At slots n i x ∨ i = n ∧ x = e := by
  subst hn
  unfold At
  rcases Nat.lt_trichotomy i slots.length with hlt | rfl | hgt
  · rw [List.getElem?_append_left hlt]
    simp [hlt, hlt.ne, Nat.lt_succ_of_lt hlt]
  · simp [eq_comm]
  · simp [hgt.not_gt, hgt.ne', Nat.not_lt.mpr (Nat.succ_le_of_lt hgt)]

/-- An entry has been replaced. -/
theorem at_set (h : At slots n i e) :
    At (slots.set i (some e')) n j x ↔ if j = i then x = e' else At slots n j x := by
  unfold At
  have hlength : i < slots.length := (List.getElem?_eq_some_iff.mp h.2).1
  by_cases hj : j = i
  · subst hj
    rw [if_pos rfl, List.getElem?_set_self hlength]
    simp [h.1, eq_comm]
  · rw [if_neg hj, List.getElem?_set_ne (Ne.symm hj)]

/-- The last entry has been dropped. -/
theorem at_drop_last : At (slots.set n none) n j x ↔ At slots (n + 1) j x ∧ j ≠ n := by
  unfold At
  by_cases hj : j = n
  · simp [hj]
  · rw [List.getElem?_set_ne (Ne.symm hj)]
    have hlt : j < n ↔ j < n + 1 := by omega
    simp [hj, hlt]

theorem at_take : At (slots.take n) n i x ↔ At slots n i x := by
  unfold At
  apply and_congr_right
  intro hi
  rw [List.getElem?_take_of_lt hi]

/-! ## The index -/

variable [DecidableEq κ] {index : Table κ ℕ}

/-- The first `n` slots are full, and the index has the keys in them. -/
structure Indexed (key : ε → κ) (slots : List (Option ε)) (n : ℕ) (index : Table κ ℕ) : Prop where
  full : ∀ i < n, ∃ e, At slots n i e
  lookup : ∀ k i, index.lookup k = some i ↔ ∃ e, At slots n i e ∧ key e = k

/-- The entry of a key. -/
def entry (slots : List (Option ε)) (index : Table κ ℕ) (k : κ) : Option ε :=
  (index.lookup k).bind fun i => slots[i]?.join

theorem indexed_empty : Indexed key [] 0 ∅ where
  full i hi := absurd hi (Nat.not_lt_zero i)
  lookup k i := by simp [At]

namespace Indexed

theorem entry_eq_some (h : Indexed key slots n index) :
    entry slots index k = some e ↔ ∃ i, At slots n i e ∧ key e = k := by
  rw [entry, Option.bind_eq_some_iff]
  constructor
  · rintro ⟨i, hi, hjoin⟩
    obtain ⟨e', he', hk⟩ := (h.lookup k i).mp hi
    rw [he'.2] at hjoin
    cases hjoin
    exact ⟨i, he', hk⟩
  · rintro ⟨i, he, hk⟩
    exact ⟨i, (h.lookup k i).mpr ⟨e, he, hk⟩, by rw [he.2]; rfl⟩

theorem entry_eq_none (h : Indexed key slots n index) :
    entry slots index k = none ↔ index.lookup k = none := by
  rw [entry, Option.bind_eq_none_iff]
  constructor
  · intro hnone
    by_contra hsome
    obtain ⟨i, hi⟩ := Option.ne_none_iff_exists'.mp hsome
    obtain ⟨e, he, -⟩ := (h.lookup k i).mp hi
    have := hnone i hi
    rw [he.2] at this
    cases this
  · intro hnone i hi
    rw [hnone] at hi
    cases hi

theorem entry_of_at (h : Indexed key slots n index) (he : At slots n i e) :
    entry slots index (key e) = some e :=
  h.entry_eq_some.mpr ⟨i, he, rfl⟩

/-- No two slots have the same key. -/
theorem unique (h : Indexed key slots n index) (he : At slots n i e) (he' : At slots n j e')
    (hk : key e = key e') : i = j := by
  have hlookup := (h.lookup (key e') i).mpr ⟨e, he, hk⟩
  rw [(h.lookup (key e') j).mpr ⟨e', he', rfl⟩] at hlookup
  exact (Option.some.inj hlookup).symm

/-- An entry with a new key goes behind the others. -/
theorem push (h : Indexed key slots n index) (hn : slots.length = n)
    (hnew : index.lookup (key e) = none) :
    Indexed key (slots ++ [some e]) (n + 1) (index.insert (key e) n) := by
  have hother {i : ℕ} {x : ε} (hx : At slots n i x) : key x ≠ key e := by
    intro hk
    have := (h.lookup (key e) i).mpr ⟨x, hx, hk⟩
    rw [hnew] at this
    cases this
  constructor
  · intro i hi
    rcases Nat.lt_succ_iff_lt_or_eq.mp hi with hi | rfl
    · obtain ⟨x, hx⟩ := h.full i hi
      exact ⟨x, (at_push hn).mpr (.inl hx)⟩
    · exact ⟨e, (at_push hn).mpr (.inr ⟨rfl, rfl⟩)⟩
  · intro k i
    rw [Table.lookup_insert]
    by_cases hk : k = key e
    · rw [if_pos hk, Option.some.injEq]
      constructor
      · rintro rfl
        exact ⟨e, (at_push hn).mpr (.inr ⟨rfl, rfl⟩), hk.symm⟩
      · rintro ⟨x, hx, hkey⟩
        rcases (at_push hn).mp hx with hx | ⟨rfl, -⟩
        · exact absurd (hkey.trans hk) (hother hx)
        · rfl
    · rw [if_neg hk, h.lookup]
      apply exists_congr
      intro x
      rw [at_push hn]
      constructor
      · rintro ⟨hx, hkey⟩
        exact ⟨.inl hx, hkey⟩
      · rintro ⟨hx | ⟨-, rfl⟩, hkey⟩
        · exact ⟨hx, hkey⟩
        · exact absurd hkey.symm hk

/-- An entry is replaced by one of the same key. -/
theorem set (h : Indexed key slots n index) (he : At slots n i e) (hk : key e' = key e) :
    Indexed key (slots.set i (some e')) n index := by
  constructor
  · intro j hj
    by_cases hji : j = i
    · exact ⟨e', (at_set he).mpr (by rw [if_pos hji])⟩
    · obtain ⟨x, hx⟩ := h.full j hj
      exact ⟨x, (at_set he).mpr (by rwa [if_neg hji])⟩
  · intro k j
    rw [h.lookup]
    by_cases hji : j = i
    · subst hji
      constructor
      · rintro ⟨x, hx, hkey⟩
        obtain rfl := he.unique hx
        exact ⟨e', (at_set he).mpr (by rw [if_pos rfl]), hk.trans hkey⟩
      · rintro ⟨x, hx, hkey⟩
        obtain rfl : x = e' := by simpa using (at_set he).mp hx
        exact ⟨e, he, hk.symm.trans hkey⟩
    · apply exists_congr
      intro x
      rw [at_set he, if_neg hji]

/-- The last entry is removed. -/
theorem dropLast (h : Indexed key slots (n + 1) index) (he : At slots (n + 1) n e) :
    Indexed key (slots.set n none) n (index.erase (key e)) := by
  constructor
  · intro j hj
    obtain ⟨x, hx⟩ := h.full j (Nat.lt_succ_of_lt hj)
    exact ⟨x, at_drop_last.mpr ⟨hx, hj.ne⟩⟩
  · intro k j
    rw [Table.lookup_erase]
    by_cases hk : k = key e
    · simp only [if_pos hk, reduceCtorEq, false_iff]
      rintro ⟨x, hx, hkey⟩
      obtain ⟨hx, hj⟩ := at_drop_last.mp hx
      exact hj (h.unique hx he (hkey.trans hk))
    · rw [if_neg hk, h.lookup]
      apply exists_congr
      intro x
      rw [at_drop_last]
      constructor
      · rintro ⟨hx, hkey⟩
        refine ⟨⟨hx, ?_⟩, hkey⟩
        rintro rfl
        obtain rfl := he.unique hx
        exact hk hkey.symm
      · rintro ⟨⟨hx, -⟩, hkey⟩
        exact ⟨hx, hkey⟩

/-- The last entry moves into the slot of a removed one. -/
theorem moveLast (h : Indexed key slots (n + 1) index) (he : At slots (n + 1) i e) (hi : i ≠ n)
    (hlast : At slots (n + 1) n e') :
    Indexed key ((slots.set i (some e')).set n none) n
      ((index.erase (key e)).insert (key e') i) := by
  have hat {j : ℕ} {x : ε} : At ((slots.set i (some e')).set n none) n j x ↔
      (if j = i then x = e' else At slots (n + 1) j x) ∧ j ≠ n := by
    rw [at_drop_last, at_set he]
  constructor
  · intro j hj
    by_cases hji : j = i
    · exact ⟨e', hat.mpr ⟨by rw [if_pos hji], hj.ne⟩⟩
    · obtain ⟨x, hx⟩ := h.full j (Nat.lt_succ_of_lt hj)
      exact ⟨x, hat.mpr ⟨by rwa [if_neg hji], hj.ne⟩⟩
  · intro k j
    have hne : key e' ≠ key e := fun hk => hi (h.unique he hlast hk.symm)
    rw [Table.lookup_insert, Table.lookup_erase]
    by_cases hk' : k = key e'
    · rw [if_pos hk', Option.some.injEq]
      constructor
      · rintro rfl
        exact ⟨e', hat.mpr ⟨by rw [if_pos rfl], hi⟩, hk'.symm⟩
      · rintro ⟨x, hx, hkey⟩
        obtain ⟨hx, hj⟩ := hat.mp hx
        by_cases hji : j = i
        · exact hji.symm
        · rw [if_neg hji] at hx
          exact absurd (h.unique hx hlast (hkey.trans hk')) hj
    rw [if_neg hk']
    by_cases hk : k = key e
    · simp only [if_pos hk, reduceCtorEq, false_iff]
      rintro ⟨x, hx, hkey⟩
      obtain ⟨hx, hj⟩ := hat.mp hx
      by_cases hji : j = i
      · obtain rfl : x = e' := by simpa [hji] using hx
        exact hk' hkey.symm
      · rw [if_neg hji] at hx
        exact hji (h.unique hx he (hkey.trans hk))
    · rw [if_neg hk, h.lookup]
      apply exists_congr
      intro x
      rw [hat]
      by_cases hji : j = i
      · subst hji
        rw [if_pos rfl]
        constructor
        · rintro ⟨hx, hkey⟩
          obtain rfl := he.unique hx
          exact absurd hkey.symm hk
        · rintro ⟨⟨rfl, -⟩, hkey⟩
          exact absurd hkey.symm hk'
      · rw [if_neg hji]
        constructor
        · rintro ⟨hx, hkey⟩
          refine ⟨⟨hx, ?_⟩, hkey⟩
          rintro rfl
          obtain rfl := hlast.unique hx
          exact hk' hkey.symm
        · rintro ⟨⟨hx, -⟩, hkey⟩
          exact ⟨hx, hkey⟩

/-- The slots behind the entries do not matter. -/
theorem take (h : Indexed key slots n index) : Indexed key (slots.take n) n index := by
  constructor
  · intro i hi
    simp only [at_take]
    exact h.full i hi
  · intro k i
    simp only [at_take]
    exact h.lookup k i

/-! ### The entries -/

variable {slots' : List (Option ε)} {n' : ℕ} {index' : Table κ ℕ}

theorem entry_put (h : Indexed key slots n index) (h' : Indexed key slots' n' index')
    (hat : ∀ x, (∃ i, At slots' n' i x) ↔ x = e ∨ (∃ i, At slots n i x) ∧ key x ≠ key e) (k : κ) :
    entry slots' index' k = if k = key e then some e else entry slots index k := by
  apply Option.ext
  intro x
  rw [h'.entry_eq_some, exists_and_right, hat]
  by_cases hk : k = key e
  · rw [if_pos hk, Option.some.injEq, hk]
    constructor
    · rintro ⟨rfl | ⟨-, hne⟩, hkey⟩
      · rfl
      · exact absurd hkey hne
    · rintro rfl
      exact ⟨.inl rfl, rfl⟩
  · rw [if_neg hk, h.entry_eq_some, exists_and_right]
    constructor
    · rintro ⟨rfl | ⟨hx, -⟩, hkey⟩
      · exact absurd hkey.symm hk
      · exact ⟨hx, hkey⟩
    · rintro ⟨hx, rfl⟩
      exact ⟨.inr ⟨hx, hk⟩, rfl⟩

theorem entry_removed (h : Indexed key slots n index) (h' : Indexed key slots' n' index')
    (hat : ∀ x, (∃ i, At slots' n' i x) ↔ (∃ i, At slots n i x) ∧ key x ≠ key e) (k : κ) :
    entry slots' index' k = if k = key e then none else entry slots index k := by
  apply Option.ext
  intro x
  rw [h'.entry_eq_some, exists_and_right, hat]
  by_cases hk : k = key e
  · simp only [if_pos hk, reduceCtorEq, iff_false]
    rintro ⟨⟨-, hne⟩, hkey⟩
    exact hne (hkey.trans hk)
  · rw [if_neg hk, h.entry_eq_some, exists_and_right]
    constructor
    · rintro ⟨⟨hx, -⟩, hkey⟩
      exact ⟨hx, hkey⟩
    · rintro ⟨hx, rfl⟩
      exact ⟨⟨hx, hk⟩, rfl⟩

theorem entry_take (h : Indexed key slots n index) (k : κ) :
    entry (slots.take n) index k = entry slots index k := by
  apply Option.ext
  intro x
  rw [h.take.entry_eq_some, h.entry_eq_some]
  simp only [at_take]

theorem entry_push (h : Indexed key slots n index) (hn : slots.length = n)
    (hnew : index.lookup (key e) = none) (k : κ) :
    entry (slots ++ [some e]) (index.insert (key e) n) k =
      if k = key e then some e else entry slots index k := by
  apply h.entry_put (h.push hn hnew)
  intro x
  simp only [at_push hn]
  constructor
  · rintro ⟨i, hx | ⟨-, rfl⟩⟩
    · refine .inr ⟨⟨i, hx⟩, fun hk => ?_⟩
      rw [(h.lookup (key e) i).mpr ⟨x, hx, hk⟩] at hnew
      cases hnew
    · exact .inl rfl
  · rintro (rfl | ⟨⟨i, hx⟩, -⟩)
    · exact ⟨n, .inr ⟨rfl, rfl⟩⟩
    · exact ⟨i, .inl hx⟩

theorem entry_set (h : Indexed key slots n index) (he : At slots n i e) (hk : key e' = key e)
    (k : κ) :
    entry (slots.set i (some e')) index k = if k = key e then some e' else entry slots index k := by
  rw [← hk]
  apply h.entry_put (h.set he hk)
  intro x
  simp only [at_set he]
  constructor
  · rintro ⟨j, hx⟩
    by_cases hji : j = i
    · exact .inl (by simpa [hji] using hx)
    · rw [if_neg hji] at hx
      exact .inr ⟨⟨j, hx⟩, fun hkey => hji (h.unique hx he (hkey.trans hk))⟩
  · rintro (rfl | ⟨⟨j, hx⟩, hkey⟩)
    · exact ⟨i, by rw [if_pos rfl]⟩
    · refine ⟨j, ?_⟩
      have hji : j ≠ i := by
        rintro rfl
        obtain rfl := he.unique hx
        exact hkey hk.symm
      rwa [if_neg hji]

theorem entry_dropLast (h : Indexed key slots (n + 1) index) (he : At slots (n + 1) n e) (k : κ) :
    entry (slots.set n none) (index.erase (key e)) k =
      if k = key e then none else entry slots index k := by
  apply h.entry_removed (h.dropLast he)
  intro x
  simp only [at_drop_last]
  constructor
  · rintro ⟨j, hx, hj⟩
    exact ⟨⟨j, hx⟩, fun hkey => hj (h.unique hx he hkey)⟩
  · rintro ⟨⟨j, hx⟩, hkey⟩
    refine ⟨j, hx, ?_⟩
    rintro rfl
    obtain rfl := he.unique hx
    exact hkey rfl

theorem entry_moveLast (h : Indexed key slots (n + 1) index) (he : At slots (n + 1) i e)
    (hi : i ≠ n) (hlast : At slots (n + 1) n e') (k : κ) :
    entry ((slots.set i (some e')).set n none) ((index.erase (key e)).insert (key e') i) k =
      if k = key e then none else entry slots index k := by
  apply h.entry_removed (h.moveLast he hi hlast)
  intro x
  simp only [at_drop_last, at_set he]
  constructor
  · rintro ⟨j, hx, hj⟩
    by_cases hji : j = i
    · obtain rfl : x = e' := by simpa [hji] using hx
      exact ⟨⟨n, hlast⟩, fun hkey => hi (h.unique he hlast hkey.symm)⟩
    · rw [if_neg hji] at hx
      exact ⟨⟨j, hx⟩, fun hkey => hji (h.unique hx he hkey)⟩
  · rintro ⟨⟨j, hx⟩, hkey⟩
    have hji : j ≠ i := by
      rintro rfl
      obtain rfl := he.unique hx
      exact hkey rfl
    by_cases hj : j = n
    · subst hj
      obtain rfl := hlast.unique hx
      exact ⟨i, by rw [if_pos rfl], hi⟩
    · exact ⟨j, by rwa [if_neg hji], hj⟩

end Indexed

end Bitmarkd.Lib.Slots
