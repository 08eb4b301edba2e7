import Mathlib

/-!
# A write-behind store whose cache forgets deletions

A finite map with a batch of pending writes over it. `commit` applies the batch to the map. Readers
go through a cache of the pending writes, but the cache answers only for keys whose last write was
a put: a deleted key is looked up in the committed map.

So there are two views of the pending state. `get` is what a reader sees before the commit;
`final` is what the map will hold after it. They agree except on keys whose last write is a
deletion, where `get` still shows the committed value (`get_eq_final_or`).

The cache holds the last write of the batch to each key. That is a field of the structure
(`coherent`), so the operations keep it by construction.
-/

namespace Bitmarkd.Lib

variable {K V : Type} [DecidableEq K]

/-! ## Batches -/

/-- A batch of writes, newest first: `some v` puts `v`, `none` deletes. -/
abbrev Batch (K V : Type) := List (K × Option V)

/-- The last write to a key. -/
def lastWrite : Batch K V → K → Option (Option V)
  | [], _ => none
  | (k', w) :: ws, k => if k' = k then some w else lastWrite ws k

/-- The map after one write. -/
def applyWrite (m : Finmap fun _ : K => V) (w : K × Option V) : Finmap fun _ : K => V :=
  match w.2 with
  | some v => m.insert w.1 v
  | none => m.erase w.1

/-- The map after a batch of writes. -/
def applyBatch (m : Finmap fun _ : K => V) (ws : Batch K V) : Finmap fun _ : K => V :=
  ws.foldr (fun w m => applyWrite m w) m

theorem lookup_applyWrite (m : Finmap fun _ : K => V) (k' : K) (w : Option V) (k : K) :
    (applyWrite m (k', w)).lookup k = if k' = k then w else m.lookup k := by
  by_cases h : k' = k
  · subst h
    cases w <;> simp [applyWrite]
  · have h' : k ≠ k' := fun e => h e.symm
    cases w with
    | none => simp [applyWrite, Finmap.lookup_erase_ne h', h]
    | some v => simp [applyWrite, Finmap.lookup_insert_of_ne _ h', h]

theorem lookup_applyBatch (m : Finmap fun _ : K => V) (ws : Batch K V) (k : K) :
    (applyBatch m ws).lookup k = (lastWrite ws k).getD (m.lookup k) := by
  induction ws with
  | nil => rfl
  | cons w ws ih =>
    obtain ⟨k', w⟩ := w
    rw [applyBatch, List.foldr_cons, lookup_applyWrite, lastWrite]
    split
    · rfl
    · exact ih

/-! ## The store -/

/-- A map, the pending batch, the cache of its writes, and whether a transaction holds it. -/
structure Overlay (K V : Type) [DecidableEq K] where
  db : Finmap fun _ : K => V
  batch : Batch K V
  cache : Finmap fun _ : K => Option V
  inUse : Bool
  coherent : ∀ k, cache.lookup k = lastWrite batch k

namespace Overlay

/-- The store over a map, with nothing pending. -/
def ofDb (m : Finmap fun _ : K => V) : Overlay K V :=
  ⟨m, [], ∅, false, fun _ => rfl⟩

/-- Write to the cache and to the batch. -/
def write (s : Overlay K V) (k : K) (w : Option V) : Overlay K V where
  db := s.db
  batch := (k, w) :: s.batch
  cache := s.cache.insert k w
  inUse := s.inUse
  coherent := by
    intro k'
    by_cases h : k = k'
    · subst h
      simp [lastWrite]
    · rw [Finmap.lookup_insert_of_ne _ (fun e => h e.symm), s.coherent, lastWrite, if_neg h]

/-- Put a value. -/
def put (s : Overlay K V) (k : K) (v : V) : Overlay K V := s.write k (some v)

/-- Delete a key. -/
def delete (s : Overlay K V) (k : K) : Overlay K V := s.write k none

/-- What a reader sees: the cached put, or else the committed value. -/
def get (s : Overlay K V) (k : K) : Option V :=
  match s.cache.lookup k with
  | some (some v) => some v
  | some none | none => s.db.lookup k

/-- What the map holds once the batch is committed. -/
def final (s : Overlay K V) (k : K) : Option V := (lastWrite s.batch k).getD (s.db.lookup k)

/-- Mark the store as held by a transaction. -/
def begin (s : Overlay K V) : Overlay K V := { s with inUse := true }

/-- Forget everything pending. -/
def abort (s : Overlay K V) : Overlay K V := ofDb s.db

/-- Apply the batch and forget it. -/
def commit (s : Overlay K V) : Overlay K V := ofDb (applyBatch s.db s.batch)

/-! ## The two views -/

variable (s : Overlay K V) (k k' : K) (v : V)

theorem get_eq : s.get k = match lastWrite s.batch k with
    | some (some v) => some v
    | some none | none => s.db.lookup k := by
  rw [get, s.coherent]

theorem get_put : (s.put k v).get k' = if k = k' then some v else s.get k' := by
  rw [get_eq, get_eq, put, write, lastWrite]
  by_cases h : k = k'
  · rw [if_pos h, if_pos h]
  · rw [if_neg h, if_neg h]

theorem final_put : (s.put k v).final k' = if k = k' then some v else s.final k' := by
  rw [final, final, put, write, lastWrite]
  split <;> rfl

/-- Deleting shows a reader the committed value again. -/
theorem get_delete : (s.delete k).get k' = if k = k' then s.db.lookup k else s.get k' := by
  rw [get_eq, get_eq, delete, write, lastWrite]
  by_cases h : k = k'
  · rw [if_pos h, if_pos h, h]
  · rw [if_neg h, if_neg h]

theorem final_delete : (s.delete k).final k' = if k = k' then none else s.final k' := by
  rw [final, final, delete, write, lastWrite]
  split <;> rfl

/-- **Stale reads.** A reader sees the pending value, except that a key whose deletion is pending
still has its committed value. -/
theorem get_eq_final_or : s.get k = s.final k ∨ s.final k = none ∧ s.get k = s.db.lookup k := by
  rw [get_eq, final]
  rcases lastWrite s.batch k with _ | _ | v
  · exact Or.inl rfl
  · exact Or.inr ⟨rfl, rfl⟩
  · exact Or.inl rfl

/-- A reader sees the pending value of a key that is not deleted, or was not there. -/
theorem get_eq_final_iff : s.get k = s.final k ↔ (s.final k = none → s.db.lookup k = none) := by
  rw [get_eq, final]
  rcases lastWrite s.batch k with _ | _ | v
  · exact ⟨fun _ h => h, fun _ => rfl⟩
  · exact ⟨fun h _ => h, fun h => h rfl⟩
  · exact ⟨fun _ h => (nomatch h), fun _ => rfl⟩

/-- A key with a committed or a pending value is never read as absent. -/
theorem get_ne_none (h : s.db.lookup k ≠ none ∨ s.final k ≠ none) : s.get k ≠ none := by
  rcases s.get_eq_final_or k with hf | ⟨hn, hd⟩
  · rw [hf]
    rcases h with h | h
    · intro hnone
      rw [get_eq] at hf
      rw [final] at hnone hf
      rcases hl : lastWrite s.batch k with _ | _ | v
      · rw [hl] at hnone
        exact h hnone
      · rw [hl] at hf
        exact h hf
      · rw [hl] at hnone
        cases hnone
    · exact h
  · rw [hd]
    rcases h with h | h
    · exact h
    · exact absurd hn h

@[simp] theorem lookup_commit : s.commit.db.lookup k = s.final k := lookup_applyBatch _ _ _

/-- Nothing is pending. -/
def Clean (s : Overlay K V) : Prop := s.batch = [] ∧ s.inUse = false

theorem clean_ofDb (m : Finmap fun _ : K => V) : (ofDb m).Clean := ⟨rfl, rfl⟩

theorem clean_commit : s.commit.Clean := ⟨rfl, rfl⟩

variable {s}

theorem Clean.get_eq (h : s.Clean) : s.get k = s.db.lookup k := by
  rw [Overlay.get_eq, h.1]
  rfl

theorem Clean.final_eq (h : s.Clean) : s.final k = s.db.lookup k := by
  rw [final, h.1]
  rfl

end Overlay

end Bitmarkd.Lib
