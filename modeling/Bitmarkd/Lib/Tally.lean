import Bitmarkd.Lib.Table

/-!
# Values by key

A list of keys with values is entered into a table in two ways: a later value replaces an earlier
one of the same key (`assign`), or is added to it (`tally`). What is found under a key is the last
of its values, or their sum.
-/

namespace Bitmarkd.Lib.Table

variable {α β : Type} [DecidableEq α]

/-- The values of a key, in order. -/
def valuesAt (a : α) (l : List (α × β)) : List β := (l.filter (·.1 = a)).map Prod.snd

@[simp] theorem valuesAt_nil (a : α) : valuesAt a ([] : List (α × β)) = [] := rfl

theorem valuesAt_cons (a : α) (x : α × β) (l : List (α × β)) :
    valuesAt a (x :: l) = if x.1 = a then x.2 :: valuesAt a l else valuesAt a l := by
  unfold valuesAt
  by_cases h : x.1 = a
  · rw [if_pos h, List.filter_cons_of_pos (by simpa using h), List.map_cons]
  · rw [if_neg h, List.filter_cons_of_neg (by simpa using h)]

theorem valuesAt_append (a : α) (l l' : List (α × β)) :
    valuesAt a (l ++ l') = valuesAt a l ++ valuesAt a l' := by
  simp [valuesAt]

/-- Enter values, a later one in place of an earlier one. -/
def assign (m : Table α β) (l : List (α × β)) : Table α β := l.foldl (fun m x => m.insert x.1 x.2) m

/-- **A table that is assigned** has the last value of each key. -/
theorem lookup_assign (m : Table α β) (l : List (α × β)) (a : α) :
    (m.assign l).lookup a = (valuesAt a l).getLast?.or (m.lookup a) := by
  induction l generalizing m with
  | nil => simp [assign]
  | cons x l ih =>
    rw [assign, List.foldl_cons, ← assign, ih, lookup_insert, valuesAt_cons]
    by_cases h : x.1 = a
    · rw [if_pos h, if_pos h.symm]
      cases hvalues : valuesAt a l with
      | nil => rfl
      | cons b values => simp [List.getLast?_cons]
    · rw [if_neg h, if_neg (Ne.symm h)]

/-- Enter numbers, each added to what is there. -/
def tally (m : Table α UInt64) (l : List (α × UInt64)) : Table α UInt64 :=
  l.foldl (fun m x => m.insert x.1 ((m.lookup x.1).getD 0 + x.2)) m

/-- The sum of some numbers, without overflow. -/
def total (values : List UInt64) : ℕ := (values.map UInt64.toNat).sum

@[simp] theorem total_cons (b : UInt64) (values : List UInt64) :
    total (b :: values) = b.toNat + total values := by
  simp [total]

/-- **A table that is tallied** has the sum of the values of each key, if none overflows. -/
theorem lookup_tally (m : Table α UInt64) (l : List (α × UInt64)) (a : α)
    (hmax : ((m.lookup a).getD 0).toNat + total (valuesAt a l) < 2 ^ 64) :
    ((m.tally l).lookup a).map UInt64.toNat =
      if valuesAt a l = [] then (m.lookup a).map UInt64.toNat
      else some (((m.lookup a).getD 0).toNat + total (valuesAt a l)) := by
  induction l generalizing m with
  | nil => simp [tally]
  | cons x l ih =>
    rw [valuesAt_cons] at hmax ⊢
    rw [tally, List.foldl_cons, ← tally]
    by_cases h : x.1 = a
    · subst h
      rw [if_pos rfl, total_cons] at hmax
      have hlookup : (m.insert x.1 ((m.lookup x.1).getD 0 + x.2)).lookup x.1 =
          some ((m.lookup x.1).getD 0 + x.2) := Finmap.lookup_insert m
      have hsum : ((m.lookup x.1).getD 0 + x.2).toNat =
          ((m.lookup x.1).getD 0).toNat + x.2.toNat := by
        rw [UInt64.toNat_add, Nat.mod_eq_of_lt (by omega)]
      rw [ih _ (by rw [hlookup, Option.getD_some, hsum]; omega), hlookup, if_pos rfl]
      simp only [Option.getD_some, Option.map_some, hsum, total_cons, reduceCtorEq, if_false]
      split_ifs with hnil
      · simp [hnil, total]
      · rw [Nat.add_assoc]
    · rw [if_neg h] at hmax ⊢
      have hlookup : (m.insert x.1 ((m.lookup x.1).getD 0 + x.2)).lookup a = m.lookup a := by
        rw [lookup_insert, if_neg (Ne.symm h)]
      rw [ih _ (by rwa [hlookup]), hlookup]

end Bitmarkd.Lib.Table
