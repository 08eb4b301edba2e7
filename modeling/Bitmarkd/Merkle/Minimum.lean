import Bitmarkd.Merkle.Tree
import Bitmarkd.Sample

/-!
# The minimised tree

`MinimumMerkleTree` leaves out the first digest of a tree, which is not known yet, and keeps what
the digests on the left edge are paired with, one digest for each level. It works in one array of
half the size: the first pass reads the ids, every later pass reads the array from `start` on and
writes the next level over it, leaving one sibling behind.

**The array holds the siblings** (`minimumMerkleTree_eq`): a pass writes at or before the slot that
it reads, so that what it overwrites has been read. Together with `Lib.Pairing.root_cons` this gives
the root of the full tree (`minimum_gives_full_root`).
-/

namespace Bitmarkd

open Lib Lib.Pairing

/-- The inner loop: the pairs from `i` on, whose digests go to the slots from `n` on. -/
def minimumPairLoop (env : Env) (ids : List Digest) (start finish i n : Nat)
    (tree : List (Option Digest)) : Except Stop (Nat × List (Option Digest)) :=
  if i < finish then do
    -- compensate for odd number
    let j := if i + 1 ≥ finish then i else i + 1
    let source := if start = 1 then ids.map some else tree
    let left ← readSlot source i
    let right ← readSlot source j
    let tree ← writeSlot tree n (env.newDigest (left.bytes ++ right.bytes))
    minimumPairLoop env ids start finish (i + 2) (n + 1) tree
  else .ok (n, tree)
termination_by finish - i

/-- The outer loop, with a number of turns. -/
def minimumLevelLoop (env : Env) (ids : List Digest) : Nat → Nat → Nat → List (Option Digest) →
    Except Stop (Nat × List (Option Digest))
  | 0, _, _, _ => .error .outOfSteps
  | turns + 1, start, finish, tree =>
    if start < finish then do
      let (n, tree) ← minimumPairLoop env ids start finish start start tree
      minimumLevelLoop env ids turns (start + 1) n tree
    else .ok (finish, tree)

/-- `MinimumMerkleTree`: none if the number of ids is not a positive 24 bit number. Each turn of the
outer loop passes over one id at least. -/
def minimumMerkleTree (env : Env) (ids : List Digest) : Except Stop (Option (List Digest)) :=
  match ids with
  | [] => .ok none
  | first :: _ =>
    if ids.length > 0x1000000 then .ok none
    else do
      let outputLength := ids.length / 2 + 1
      let tree ← writeSlot (List.replicate outputLength none) 0 first
      let (finish, tree) ← minimumLevelLoop env ids (ids.length + 1) 1 ids.length tree
      panicIf (tree.length < finish) .indexOutOfRange
      return some ((tree.take finish).map fun slot => slot.getD (.zero 32))

/-! ## The passes -/

section Passes

variable {env : Env} {m : Nat}

theorem filled_zero (l : List Digest) : filled l 0 = l.map some := by
  rw [filled, List.replicate_zero, List.append_nil]

/-- **The first pass** reads the ids and appends their level. -/
theorem minimumPairLoop_first (env : Env) (done rest out : List Digest)
    (hm : (rest.length + 1) / 2 ≤ m) :
    minimumPairLoop env (done ++ rest) 1 (done ++ rest).length done.length out.length
        (filled out m) =
      .ok ((out ++ merkleLevel env rest).length,
        filled (out ++ merkleLevel env rest) (m - (rest.length + 1) / 2)) := by
  induction rest using merkleLevel.induct generalizing m done out with
  | case1 =>
    rw [minimumPairLoop, if_neg (by simp)]
    simp [merkleLevel]
  | case2 d =>
    obtain ⟨m, rfl⟩ : ∃ k, m = k + 1 := ⟨m - 1, by simp at hm; omega⟩
    have hread := readSlot_filled (m := 0) done [] d
    have hwrite := writeSlot_filled (m := m) out (env.newDigest (d.bytes ++ d.bytes))
    rw [filled_zero] at hread
    rw [minimumPairLoop, if_pos (by simp), if_pos (by simp), if_pos rfl]
    simp only [hread, hwrite, bind, Except.bind]
    rw [minimumPairLoop, if_neg (by simp)]
    simp [merkleLevel]
  | case3 d e rest ih =>
    obtain ⟨m, rfl⟩ : ∃ k, m = k + 1 := ⟨m - 1, by simp at hm; omega⟩
    have hleft := readSlot_filled (m := 0) done (e :: rest) d
    have hright := readSlot_filled (m := 0) (done ++ [d]) rest e
    have hwrite := writeSlot_filled (m := m) out (env.newDigest (d.bytes ++ e.bytes))
    have hrest := ih (m := m) (done ++ [d, e]) (out ++ [env.newDigest (d.bytes ++ e.bytes)])
      (by simp at hm; omega)
    rw [filled_zero] at hleft hright
    simp only [List.append_assoc, List.cons_append, List.nil_append, List.length_append,
      List.length_cons, List.length_nil] at hleft hright hwrite hrest ⊢
    rw [minimumPairLoop, if_pos (by omega), if_neg (by omega), if_pos rfl]
    simp only [hleft, hright, hwrite, bind, Except.bind]
    have hfree : m + 1 - (rest.length + 1 + 1 + 1) / 2 = m - (rest.length + 1) / 2 := by omega
    rw [hfree]
    exact hrest

theorem writeSlot_full (front rest : List Digest) (x d : Digest) :
    writeSlot (filled (front ++ x :: rest) 0) front.length d =
      .ok (filled (front ++ d :: rest) 0) := by
  simp [writeSlot, filled]

/-- **A later pass** writes the level of the digests it reads over them. Between what it has written
and what it has still to read are stale digests. -/
theorem minimumPairLoop_later (env : Env) (ids : List Digest) {start : Nat} (hstart : start ≠ 1)
    (front stale rest junk : List Digest) :
    ∃ junk', minimumPairLoop env ids start (front ++ stale ++ rest).length
        (front ++ stale).length front.length (filled (front ++ stale ++ rest ++ junk) 0) =
      .ok ((front ++ merkleLevel env rest).length,
        filled (front ++ merkleLevel env rest ++ junk') 0) := by
  induction rest using merkleLevel.induct generalizing front stale with
  | case1 =>
    refine ⟨stale ++ junk, ?_⟩
    rw [minimumPairLoop, if_neg (by simp)]
    simp [merkleLevel]
  | case2 d =>
    obtain ⟨x, stale', hstale⟩ : ∃ x stale', stale ++ [d] = x :: stale' :=
      List.exists_cons_of_ne_nil (by simp)
    have hread := readSlot_filled (m := 0) (front ++ stale) junk d
    have hwrite := writeSlot_full front (stale' ++ junk) x (env.newDigest (d.bytes ++ d.bytes))
    have htree : front ++ stale ++ d :: junk = front ++ x :: (stale' ++ junk) := by
      rw [List.append_assoc, ← List.singleton_append, ← List.append_assoc stale, hstale]
      rfl
    refine ⟨stale' ++ junk, ?_⟩
    rw [minimumPairLoop, if_pos (by simp), if_pos (by simp; omega), if_neg hstart]
    simp only [List.append_assoc (front ++ stale), List.singleton_append, hread, bind, Except.bind]
    rw [htree, hwrite]
    simp only
    rw [minimumPairLoop, if_neg (by simp; omega)]
    simp [merkleLevel]
  | case3 d e rest ih =>
    obtain ⟨x, stale', hstale⟩ : ∃ x stale', stale ++ [d, e] = x :: stale' :=
      List.exists_cons_of_ne_nil (by simp)
    have hlength : stale.length + 2 = stale'.length + 1 := by
      simpa using congrArg List.length hstale
    have hleft := readSlot_filled (m := 0) (front ++ stale) (e :: (rest ++ junk)) d
    have hright := readSlot_filled (m := 0) (front ++ stale ++ [d]) (rest ++ junk) e
    have hwrite := writeSlot_full front (stale' ++ rest ++ junk) x
      (env.newDigest (d.bytes ++ e.bytes))
    have htree : front ++ stale ++ d :: e :: (rest ++ junk) =
        front ++ x :: (stale' ++ rest ++ junk) := by
      have hsplit : stale ++ d :: e :: (rest ++ junk) = stale ++ [d, e] ++ (rest ++ junk) := by simp
      rw [List.append_assoc, hsplit, hstale]
      simp
    obtain ⟨junk', hrest⟩ := ih (front ++ [env.newDigest (d.bytes ++ e.bytes)]) stale'
    refine ⟨junk', ?_⟩
    rw [minimumPairLoop, if_pos (by simp), if_neg (by simp; omega), if_neg hstart]
    simp only [merkleLevel, List.append_assoc, List.cons_append, List.nil_append,
      List.length_append, List.length_cons, List.length_nil, Nat.zero_add] at *
    have hi : front.length + stale.length + 2 = front.length + (stale'.length + 1) := by omega
    have hfinish : front.length + (stale.length + (rest.length + 1 + 1)) =
        front.length + (stale'.length + rest.length + 1) := by omega
    rw [hfinish, hi, Nat.add_assoc front.length stale.length 1]
    simp only [hleft, hright, bind, Except.bind]
    rw [htree, hwrite]
    exact hrest

/-- **The outer loop** leaves the siblings behind. -/
theorem minimumLevelLoop_eq (env : Env) (ids done level junk : List Digest) {turns : Nat}
    (hdone : done ≠ []) (hturns : level.length < turns) :
    ∃ junk', minimumLevelLoop env ids turns (done.length + 1) (done ++ level).length
        (filled (done ++ level ++ junk) 0) =
      .ok ((done ++ siblings (pairDigest env) level).length,
        filled (done ++ siblings (pairDigest env) level ++ junk') 0) := by
  induction turns generalizing done level junk with
  | zero => exact absurd hturns (Nat.not_lt_zero _)
  | succ turns ih =>
    rw [minimumLevelLoop]
    cases level with
    | nil =>
      refine ⟨junk, ?_⟩
      rw [siblings_nil, if_neg (by simp)]
    | cons x cells =>
      rw [siblings_cons, ← merkleLevel_eq]
      by_cases hcells : cells = []
      · subst hcells
        refine ⟨junk, ?_⟩
        rw [if_neg (by simp), merkleLevel, siblings_nil]
      · have hpos := List.length_pos_iff.mpr hcells
        have hstart : done.length + 1 ≠ 1 := by
          have := List.length_pos_iff.mpr hdone
          omega
        obtain ⟨junk', hpass⟩ := minimumPairLoop_later env ids hstart (done ++ [x]) [] cells junk
        have hlevel : (merkleLevel env cells).length < turns := by
          rw [merkleLevel_eq, length_level]
          simp only [List.length_cons] at hturns
          omega
        obtain ⟨junk'', hrest⟩ := ih (done ++ [x]) (merkleLevel env cells) junk' (by simp) hlevel
        refine ⟨junk'', ?_⟩
        rw [if_pos (by simp; omega)]
        simp only [List.append_nil, List.append_assoc, List.singleton_append, List.length_append,
          List.length_cons, List.length_nil] at hpass hrest ⊢
        simp only [hpass, bind, Except.bind]
        exact hrest

/-- **The first turn** leaves the level of all ids but the first. -/
theorem minimumLevelLoop_ids (env : Env) (first : Digest) (rest : List Digest) {turns : Nat}
    (hturns : rest.length + 1 < turns) :
    ∃ junk, minimumLevelLoop env (first :: rest) turns 1 (rest.length + 1)
        (filled [first] ((rest.length + 1) / 2)) =
      .ok ((siblings (pairDigest env) (first :: rest)).length,
        filled (siblings (pairDigest env) (first :: rest) ++ junk) 0) := by
  obtain ⟨turns, rfl⟩ : ∃ k, turns = k + 1 := ⟨turns - 1, by omega⟩
  rw [minimumLevelLoop, siblings_cons, ← merkleLevel_eq]
  by_cases hrest : rest = []
  · subst hrest
    refine ⟨[], ?_⟩
    rw [if_neg (by simp), merkleLevel, siblings_nil]
    simp
  · have hpos := List.length_pos_iff.mpr hrest
    have hpass := minimumPairLoop_first env [first] rest [first] (le_refl ((rest.length + 1) / 2))
    have hlevel : (merkleLevel env rest).length < turns := by
      rw [merkleLevel_eq, length_level]
      omega
    obtain ⟨junk, hlater⟩ := minimumLevelLoop_eq env (first :: rest) [first] (merkleLevel env rest)
      [] (by simp) hlevel
    refine ⟨junk, ?_⟩
    rw [Nat.sub_self] at hpass
    rw [List.append_nil] at hlater
    rw [if_pos (by omega)]
    simp only [List.singleton_append, List.length_cons, List.length_nil, Nat.zero_add]
      at hpass hlater ⊢
    simp only [hpass, bind, Except.bind]
    exact hlater

end Passes

/-- **The result is the siblings** of the left edge, and every index is in range. -/
theorem minimumMerkleTree_eq (env : Env) {ids : List Digest} (hne : ids ≠ [])
    (hlength : ids.length ≤ 0x1000000) :
    minimumMerkleTree env ids = .ok (some (siblings (pairDigest env) ids)) := by
  obtain ⟨first, rest, rfl⟩ := List.exists_cons_of_ne_nil hne
  have hwrite : writeSlot (List.replicate ((rest.length + 1) / 2 + 1) none) 0 first =
      .ok (filled [first] ((rest.length + 1) / 2)) :=
    writeSlot_filled (m := (rest.length + 1) / 2) [] first
  obtain ⟨junk, hloop⟩ := minimumLevelLoop_ids env first rest (Nat.lt_succ_self (rest.length + 1))
  rw [minimumMerkleTree, if_neg (Nat.not_lt.mpr hlength)]
  simp only [List.length_cons, hwrite, hloop, bind, Except.bind, pure, Except.pure]
  simp [filled, panicIf]

/-- **The minimised tree gives the root of the full tree**: the digest that was left out, hashed
with one digest of the minimised tree after the other, becomes the last digest of the full tree. No
index of either function is out of range. -/
theorem minimum_gives_full_root (env : Env) (b : Digest) (ids : List Digest) (hpos : 1 ≤ ids.length)
    (hlength : ids.length ≤ 0x1000000) :
    ∃ minimum full, minimumMerkleTree env ids = .ok (some minimum) ∧
      fullMerkleTreeArray env (b :: ids) = .ok full ∧
      full.getLast? =
        some (some (minimum.foldl (fun r h => env.newDigest (r.bytes ++ h.bytes)) b)) := by
  have hroot := root_cons (pairDigest env) b ids
  have hne : b :: ids ≠ [] := List.cons_ne_nil b ids
  refine ⟨_, _, minimumMerkleTree_eq env (List.length_pos_iff.mp hpos) hlength,
    fullMerkleTreeArray_eq hne, ?_⟩
  rw [fullMerkleTree_eq_levels hne, List.getLast?_map, getLast?_levels, hroot]
  rfl

/-- Three ids: the tree has an odd level. -/
theorem minimum_gives_full_root_three :
    1 ≤ [Sample.id 2, Sample.id 3, Sample.id 4].length ∧
    ∃ minimum full, minimumMerkleTree Sample.env [Sample.id 2, Sample.id 3, Sample.id 4] =
        .ok (some minimum) ∧
      fullMerkleTreeArray Sample.env [Sample.id 1, Sample.id 2, Sample.id 3, Sample.id 4] =
        .ok full ∧
      full.getLast? = some (some (minimum.foldl
        (fun r h => Sample.env.newDigest (r.bytes ++ h.bytes)) (Sample.id 1))) :=
  ⟨by decide, minimum_gives_full_root Sample.env (Sample.id 1) _ (by decide) (by decide)⟩

end Bitmarkd
