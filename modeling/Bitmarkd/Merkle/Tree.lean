import Bitmarkd.Lib.Pairing
import Bitmarkd.Merkle

/-!
# The array of `FullMerkleTree`

`FullMerkleTree` computes the length of the tree first, makes one array of that length, and fills it
level by level with two indexes: `n`, where the next digest goes, and `j`, where the next pair is
read. `fullMerkleTreeArray` is that computation. A slot is `none` as long as nothing was written to
it, and reads as the zero digest; an index outside the array panics.

**The array is the list of levels** (`fullMerkleTreeArray_eq`): every index is in range and every
slot is written. Its last slot is the root of `Lib.Pairing`, which binds the list of digests.
-/

namespace Bitmarkd

open Lib Lib.Pairing

/-- The array while it is filled, the next slot to write and the next slot to read. -/
structure TreeArray where
  tree : List (Option Digest)
  n : Nat
  j : Nat
deriving DecidableEq

/-- `tree[k]`. -/
def readSlot (tree : List (Option Digest)) (k : Nat) : Except Stop Digest :=
  match tree[k]? with
  | none => panicAt .indexOutOfRange
  | some slot => .ok (slot.getD (.zero 32))

/-- `tree[k] = d`. -/
def writeSlot (tree : List (Option Digest)) (k : Nat) (d : Digest) :
    Except Stop (List (Option Digest)) :=
  if k < tree.length then .ok (tree.set k (some d)) else panicAt .indexOutOfRange

/-- The inner loop. -/
def pairLoop (env : Env) (workLength i : Nat) (s : TreeArray) : Except Stop TreeArray :=
  if i < workLength then do
    -- compensate for odd number
    let k := if i + 1 = workLength then s.j else s.j + 1
    let left ← readSlot s.tree s.j
    let right ← readSlot s.tree k
    let tree ← writeSlot s.tree s.n (env.newDigest (left.bytes ++ right.bytes))
    pairLoop env workLength (i + 2) ⟨tree, s.n + 1, k + 1⟩
  else .ok s
termination_by workLength - i

/-- The outer loop. -/
def levelLoop (env : Env) (workLength : Nat) (s : TreeArray) : Except Stop TreeArray :=
  if 1 < workLength then do
    let s ← pairLoop env workLength 0 s
    levelLoop env ((workLength + 1) / 2) s
  else .ok s
termination_by workLength

/-- The loop that adds up the lengths of the levels. -/
def addLevels (n totalLength : Nat) : Nat :=
  if 1 < n then addLevels ((n + 1) / 2) (totalLength + n) else totalLength
termination_by n

/-- `FullMerkleTree`, with the slots that were written. -/
def fullMerkleTreeArray (env : Env) (txIds : List Digest) : Except Stop (List (Option Digest)) := do
  let totalLength := addLevels txIds.length 1
  let tree := (txIds.take totalLength).map some ++
    List.replicate (totalLength - txIds.length) none
  let s ← levelLoop env txIds.length ⟨tree, txIds.length, 0⟩
  return s.tree

/-! ## Levels -/

/-- The digest of a pair. -/
def pairDigest (env : Env) (p : Digest × Digest) : Digest := env.newDigest (p.1.bytes ++ p.2.bytes)

theorem merkleLevel_eq (env : Env) (l : List Digest) :
    merkleLevel env l = level (pairDigest env) l := by
  induction l using merkleLevel.induct with
  | case1 => rfl
  | case2 d => rfl
  | case3 d e rest ih =>
    rw [merkleLevel, ih]
    rfl

/-- The levels of a list, one after the other. -/
def levels (env : Env) (l : List Digest) : List Digest := fullMerkleTreeLoop env l.length l

theorem fullMerkleTreeLoop_of_le {env : Env} {l : List Digest} {fuel : Nat} (h : l.length ≤ 1) :
    fullMerkleTreeLoop env fuel l = l := by
  cases fuel with
  | zero => rfl
  | succ fuel => rw [fullMerkleTreeLoop, if_neg (Nat.not_lt.mpr h)]

/-- More steps than there are levels make no difference. -/
theorem fullMerkleTreeLoop_eq {env : Env} {l : List Digest} {fuel fuel' : Nat}
    (h : l.length ≤ fuel) (h' : l.length ≤ fuel') :
    fullMerkleTreeLoop env fuel l = fullMerkleTreeLoop env fuel' l := by
  induction fuel generalizing fuel' l with
  | zero =>
    obtain rfl := List.length_eq_zero_iff.mp (Nat.le_zero.mp h)
    cases fuel' <;> rfl
  | succ fuel ih =>
    by_cases hlt : 1 < l.length
    · obtain ⟨fuel', rfl⟩ : ∃ k, fuel' = k + 1 := ⟨fuel' - 1, by omega⟩
      have hlevel := length_level_lt (pairDigest env) hlt
      rw [← merkleLevel_eq] at hlevel
      rw [fullMerkleTreeLoop, if_pos hlt, fullMerkleTreeLoop, if_pos hlt,
        ih (Nat.le_of_lt_succ (hlevel.trans_le h)) (Nat.le_of_lt_succ (hlevel.trans_le h'))]
    · rw [fullMerkleTreeLoop_of_le (Nat.le_of_not_lt hlt),
        fullMerkleTreeLoop_of_le (Nat.le_of_not_lt hlt)]

section Levels

variable {env : Env} {l : List Digest}

theorem levels_of_lt (h : 1 < l.length) : levels env l = l ++ levels env (merkleLevel env l) := by
  obtain ⟨n, hn⟩ : ∃ n, l.length = n + 1 := ⟨l.length - 1, by omega⟩
  have hlevel := length_level_lt (pairDigest env) h
  rw [← merkleLevel_eq] at hlevel
  rw [levels, hn, fullMerkleTreeLoop, if_pos h, fullMerkleTreeLoop_eq (by omega) le_rfl, levels]

theorem levels_of_le (h : l.length ≤ 1) : levels env l = l := fullMerkleTreeLoop_of_le h

theorem levels_ne_nil (h : l ≠ []) : levels env l ≠ [] := by
  by_cases hlt : 1 < l.length
  · rw [levels_of_lt hlt]
    exact List.append_ne_nil_of_left_ne_nil h _
  · rwa [levels_of_le (Nat.le_of_not_lt hlt)]

theorem length_le_levels (env : Env) (l : List Digest) : l.length ≤ (levels env l).length := by
  by_cases hlt : 1 < l.length
  · rw [levels_of_lt hlt, List.length_append]
    exact Nat.le_add_right _ _
  · rw [levels_of_le (Nat.le_of_not_lt hlt)]

/-- The first loop computes the length of the tree. -/
theorem addLevels_eq (env : Env) (hne : l ≠ []) (t : Nat) :
    addLevels l.length (t + 1) = t + (levels env l).length := by
  induction hn : l.length using Nat.strong_induction_on generalizing l t with
  | _ n ih =>
    subst hn
    rw [addLevels]
    split
    next hlt =>
      have hlevel := length_level_lt (pairDigest env) hlt
      have hlength := length_level (pairDigest env) l
      have hne' := level_ne_nil (pairDigest env) hne
      rw [← merkleLevel_eq] at hlevel hlength hne'
      rw [Nat.add_right_comm, ← hlength, ih _ hlevel hne' _ rfl, levels_of_lt hlt,
        List.length_append, Nat.add_assoc]
    next hlt =>
      have hpos := List.length_pos_iff.mpr hne
      rw [levels_of_le (by omega)]
      omega

/-- The last digest of the levels is the root. -/
theorem getLast?_levels (env : Env) (l : List Digest) :
    (levels env l).getLast? = root (pairDigest env) l := by
  induction hn : l.length using Nat.strong_induction_on generalizing l with
  | _ n ih =>
    subst hn
    by_cases hlt : 1 < l.length
    · have hlevel := length_level_lt (pairDigest env) hlt
      have hne : level (pairDigest env) l ≠ [] :=
        level_ne_nil _ (List.length_pos_iff.mp (Nat.zero_lt_of_lt hlt))
      rw [levels_of_lt hlt, root_of_lt _ hlt, merkleLevel_eq,
        List.getLast?_append_of_ne_nil _ (levels_ne_nil hne), ih _ hlevel _ rfl]
    · rw [levels_of_le (Nat.le_of_not_lt hlt), root, if_neg hlt]
      rcases l with _ | ⟨a, _ | ⟨b, l⟩⟩
      · rfl
      · rfl
      · exact absurd (by simp) hlt

end Levels

/-! ## Filling the array -/

section Fill

variable {env : Env} {m : Nat}

/-- An array whose first slots are written. -/
def filled (l : List Digest) (m : Nat) : List (Option Digest) := l.map some ++ List.replicate m none

theorem readSlot_filled (l l' : List Digest) (d : Digest) :
    readSlot (filled (l ++ d :: l') m) l.length = .ok d := by
  simp [readSlot, filled]

theorem writeSlot_filled (l : List Digest) (d : Digest) :
    writeSlot (filled l (m + 1)) l.length d = .ok (filled (l ++ [d]) m) := by
  simp [writeSlot, filled, List.replicate_succ]

/-- **The inner loop** appends the level above the digests that it reads. -/
theorem pairLoop_eq (env : Env) (workLength i : Nat) (done rest out : List Digest)
    (hm : (rest.length + 1) / 2 ≤ m) (hi : workLength = i + rest.length) :
    pairLoop env workLength i
        ⟨filled (done ++ rest ++ out) m, (done ++ rest ++ out).length, done.length⟩ =
      .ok ⟨filled (done ++ rest ++ out ++ merkleLevel env rest) (m - (rest.length + 1) / 2),
        (done ++ rest ++ out ++ merkleLevel env rest).length, (done ++ rest).length⟩ := by
  induction rest using merkleLevel.induct generalizing i m done out with
  | case1 =>
    rw [pairLoop, if_neg (by simp at hi; omega)]
    simp [merkleLevel]
  | case2 d =>
    obtain ⟨m, rfl⟩ : ∃ k, m = k + 1 := ⟨m - 1, by simp at hm; omega⟩
    rw [pairLoop, if_pos (by simp at hi; omega), if_pos (by simp at hi; omega)]
    have hread := readSlot_filled (m := m + 1) done out d
    have hwrite := writeSlot_filled (m := m) (done ++ [d] ++ out)
      (env.newDigest (d.bytes ++ d.bytes))
    simp only [List.append_assoc, List.singleton_append] at hread hwrite ⊢
    simp only [hread, hwrite, bind, Except.bind]
    rw [pairLoop, if_neg (by simp at hi; omega)]
    simp [merkleLevel, Nat.add_assoc]
  | case3 d e rest ih =>
    obtain ⟨m, rfl⟩ : ∃ k, m = k + 1 := ⟨m - 1, by simp at hm; omega⟩
    rw [pairLoop, if_pos (by simp at hi; omega), if_neg (by simp at hi; omega)]
    have hleft := readSlot_filled (m := m + 1) done (e :: rest ++ out) d
    have hright := readSlot_filled (m := m + 1) (done ++ [d]) (rest ++ out) e
    have hwrite := writeSlot_filled (m := m) (done ++ d :: e :: rest ++ out)
      (env.newDigest (d.bytes ++ e.bytes))
    have hrest := ih (m := m) (i + 2) (done ++ [d, e])
      (out ++ [env.newDigest (d.bytes ++ e.bytes)]) (by simp at hm; omega) (by simp at hi; omega)
    simp only [List.append_assoc, List.cons_append, List.nil_append, List.length_append,
      List.length_cons, List.length_nil] at hleft hright hwrite hrest ⊢
    simp only [hleft, hright, hwrite, bind, Except.bind]
    have hfree : m + 1 - (rest.length + 1 + 1 + 1) / 2 = m - (rest.length + 1) / 2 := by omega
    have hlength : done.length + (rest.length + out.length + 1 + 1) + 1 =
        done.length + (rest.length + (out.length + (0 + 1)) + 1 + 1) := by omega
    rw [hfree, hlength]
    exact hrest

/-- **The outer loop** fills the rest of the array with the levels above the last one. -/
theorem levelLoop_eq (env : Env) (done : List Digest) {l : List Digest} (hne : l ≠ [])
    (hm : (levels env l).length = l.length + m) :
    ∃ n j, levelLoop env l.length ⟨filled (done ++ l) m, (done ++ l).length, done.length⟩ =
      .ok ⟨filled (done ++ levels env l) 0, n, j⟩ := by
  induction hn : l.length using Nat.strong_induction_on generalizing l m done with
  | _ k ih =>
    subst hn
    rw [levelLoop]
    split
    next hlt =>
      have hlevel := length_level_lt (pairDigest env) hlt
      have hlength := length_level (pairDigest env) l
      have hne' := level_ne_nil (pairDigest env) hne
      rw [← merkleLevel_eq] at hlevel hlength hne'
      rw [levels_of_lt hlt, List.length_append] at hm
      have hle := length_le_levels env (merkleLevel env l)
      have hpairs := pairLoop_eq (m := m) env l.length 0 done l [] (by omega) (by omega)
      simp only [List.append_nil] at hpairs
      have hfree : (levels env (merkleLevel env l)).length =
          (merkleLevel env l).length + (m - (merkleLevel env l).length) := by omega
      obtain ⟨n, j, hrest⟩ := ih _ hlevel (done ++ l) hne' hfree rfl
      rw [hlength] at hrest
      refine ⟨n, j, ?_⟩
      rw [hpairs, levels_of_lt hlt, ← List.append_assoc]
      exact hrest
    next hlt =>
      rw [levels_of_le (Nat.le_of_not_lt hlt)] at hm ⊢
      obtain rfl : m = 0 := by omega
      exact ⟨_, _, rfl⟩

theorem fullMerkleTree_eq_levels {txIds : List Digest} (h : txIds ≠ []) :
    fullMerkleTree env txIds = levels env txIds := by
  cases txIds with
  | nil => exact absurd rfl h
  | cons d rest => rfl

/-- **The array is the list of levels.** -/
theorem fullMerkleTreeArray_eq {txIds : List Digest} (h : txIds ≠ []) :
    fullMerkleTreeArray env txIds = .ok ((fullMerkleTree env txIds).map some) := by
  have htotal : addLevels txIds.length 1 = (levels env txIds).length := by
    rw [addLevels_eq env h 0, Nat.zero_add]
  have hle := length_le_levels env txIds
  obtain ⟨n, j, hloop⟩ := levelLoop_eq env [] h (Nat.add_sub_cancel' hle).symm
  rw [fullMerkleTreeArray, htotal, List.take_of_length_le hle]
  simp only [List.nil_append, List.length_nil, filled] at hloop
  rw [hloop, fullMerkleTree_eq_levels h]
  simp [bind, Except.bind, pure, Except.pure]

end Fill

/-- The root that `StoreIncoming` compares is that of the pairing. -/
theorem merkleRoot_eq (env : Env) {txIds : List Digest} (h : txIds ≠ []) :
    root (pairDigest env) txIds = some (merkleRoot env txIds) := by
  rw [merkleRoot, fullMerkleTree_eq_levels h, ← getLast?_levels, List.getLastD_eq_getLast?,
    List.getLast?_eq_some_getLast (levels_ne_nil h)]
  rfl

end Bitmarkd
