import Bitmarkd.BlockRecord

/-!
# Fork choice

Two nodes at the same height with different digests: the connector of each asks whether the chain of
the other is better. At equal heights the better chain is the one with the smaller digest, so one
of the nodes should follow the other, and not both each other.

`SmallerDigestThan` goes through the bytes from the most significant one down and returns true at
the first byte that is smaller; it does not return false at a byte that is larger. So it says that
*some* byte is smaller, and both digests can be smaller than the other. It is the order of `Cmp`,
and the choice is made by one node, exactly when the bytes of one digest are all at most those of
the other (`fork_choice_iff`).
-/

namespace Bitmarkd

open Lib

/-! ## Digests -/

namespace BlockDigest

/-- `reversed`. -/
def reversed (digest : BlockDigest) : Bytes := digest.bytes.reverse

/-- `Cmp`: the digest, as a number, compared with another number. -/
def cmp (digest : BlockDigest) (diff : Int) : Ordering :=
  compare (beValue digest.reversed : Int) diff

/-- The loop of `SmallerDigestThan` over the bytes below index `i`. -/
def smallerLoop (digest target : Bytes) : Nat → Bool
  | 0 => false
  | i + 1 => if digest.getD i 0 < target.getD i 0 then true else smallerLoop digest target i

/-- `SmallerDigestThan`. -/
def smallerDigestThan (digest target : BlockDigest) : Bool :=
  smallerLoop digest.bytes target.bytes digest.bytes.length

/-- Every byte of the digest is at most that of the other. -/
def BytewiseLe (digest target : BlockDigest) : Prop :=
  ∀ i < 32, digest.bytes.getD i 0 ≤ target.bytes.getD i 0

instance (digest target : BlockDigest) : Decidable (digest.BytewiseLe target) :=
  inferInstanceAs (Decidable (∀ i < 32, _ ≤ _))

/-- `SmallerDigestThan` is the order of `Cmp` on the two digests. -/
def AgreesWithCmp (digest target : BlockDigest) : Prop :=
  digest.smallerDigestThan target = true ↔ digest.cmp (beValue target.reversed) = .lt

variable {d t : BlockDigest}

theorem smallerLoop_eq_true {b c : Bytes} {n : Nat} :
    smallerLoop b c n = true ↔ ∃ i < n, b.getD i 0 < c.getD i 0 := by
  induction n with
  | zero => simp [smallerLoop]
  | succ n ih =>
    rw [smallerLoop]
    by_cases h : b.getD n 0 < c.getD n 0
    · rw [if_pos h]
      exact ⟨fun _ => ⟨n, Nat.lt_succ_self n, h⟩, fun _ => rfl⟩
    · rw [if_neg h, ih]
      constructor
      · rintro ⟨i, hi, hlt⟩
        exact ⟨i, Nat.lt_succ_of_lt hi, hlt⟩
      · rintro ⟨i, hi, hlt⟩
        rcases Nat.lt_succ_iff_lt_or_eq.mp hi with hi | rfl
        · exact ⟨i, hi, hlt⟩
        · exact absurd hlt h

/-- What the loop decides: some byte is smaller. -/
theorem smallerDigestThan_eq_false : d.smallerDigestThan t = false ↔ t.BytewiseLe d := by
  rw [← Bool.not_eq_true, smallerDigestThan, smallerLoop_eq_true, d.length_bytes]
  simp only [not_exists, not_and, not_lt]
  rfl

theorem BytewiseLe.leValue_le (h : d.BytewiseLe t) : leValue d.bytes ≤ leValue t.bytes := by
  apply leValue_le_of_forall (by simp)
  intro i
  by_cases hi : i < 32
  · exact h i hi
  · rw [List.getD_eq_default _ _ (by simpa using hi), List.getD_eq_default _ _ (by simpa using hi)]

theorem cmp_eq_lt : d.cmp (beValue t.reversed) = .lt ↔ leValue d.bytes < leValue t.bytes := by
  rw [cmp, compare_lt_iff_lt]
  simp [beValue, reversed]

theorem leValue_ne (h : d ≠ t) : leValue d.bytes ≠ leValue t.bytes :=
  fun heq => h (FixedBytes.bytes_inj.mp (leValue_inj (by simp) heq))

/-- Of two different digests one is smaller. -/
theorem smaller_or_smaller (h : d ≠ t) :
    d.smallerDigestThan t = true ∨ t.smallerDigestThan d = true := by
  by_contra hnot
  simp only [not_or, Bool.not_eq_true, smallerDigestThan_eq_false] at hnot
  exact leValue_ne h (le_antisymm hnot.2.leValue_le hnot.1.leValue_le)

/-- If the bytes of one are at most those of the other, only that one is smaller. -/
theorem smaller_iff_of_bytewiseLe (h : d ≠ t) (hle : d.BytewiseLe t) :
    d.smallerDigestThan t = true ∧ t.smallerDigestThan d = false := by
  have hfalse := smallerDigestThan_eq_false.mpr hle
  refine ⟨?_, hfalse⟩
  rcases smaller_or_smaller h with hd | ht
  · exact hd
  · rw [hfalse] at ht
    cases ht

/-- **The order of the digests.** `SmallerDigestThan` agrees with `Cmp` on two different digests
exactly when the bytes of one are at most those of the other. -/
theorem agreesWithCmp_iff (h : d ≠ t) :
    d.AgreesWithCmp t ∧ t.AgreesWithCmp d ↔ d.BytewiseLe t ∨ t.BytewiseLe d := by
  have hne := leValue_ne h
  unfold AgreesWithCmp
  rw [cmp_eq_lt, cmp_eq_lt]
  constructor
  · rintro ⟨hd, ht⟩
    rcases Nat.lt_or_gt_of_ne hne with hlt | hgt
    · refine Or.inl (smallerDigestThan_eq_false.mp (Bool.not_eq_true _ ▸ fun hs => ?_))
      have := ht.mp hs
      omega
    · refine Or.inr (smallerDigestThan_eq_false.mp (Bool.not_eq_true _ ▸ fun hs => ?_))
      have := hd.mp hs
      omega
  · rintro (hle | hle)
    · have hval := hle.leValue_le
      obtain ⟨hd, ht⟩ := smaller_iff_of_bytewiseLe h hle
      simp only [hd, ht, true_iff, Bool.false_eq_true, false_iff]
      omega
    · have hval := hle.leValue_le
      obtain ⟨ht, hd⟩ := smaller_iff_of_bytewiseLe h.symm hle
      simp only [hd, ht, true_iff, Bool.false_eq_true, false_iff]
      omega

end BlockDigest

/-! ## The connector -/

/-- What the connector reads of an upstream client: the height of this node when it last asked, and
the digest that the remote had at that height. -/
structure Upstream where
  localHeight : UInt64
  remoteDigestOfLocalHeight : BlockDigest

/-- The state of a connector, with `DigestForBlock` of its node. -/
structure Connector where
  theClient : Option Upstream
  height : UInt64
  digestForBlock : UInt64 → Except Stop BlockDigest

namespace Connector

/-- `hasSmallerDigestThanLocal`. -/
def hasSmallerDigestThanLocal (conn : Connector) (client : Upstream) (localHeight : UInt64) :
    Bool :=
  if client.localHeight ≠ localHeight then false
  else match conn.digestForBlock localHeight with
    | .error _ => false
    | .ok localDigest => client.remoteDigestOfLocalHeight.smallerDigestThan localDigest

/-- `hasBetterChain`. -/
def hasBetterChain (conn : Connector) (localHeight : UInt64) : Bool :=
  match conn.theClient with
  | none => false
  | some client =>
    if conn.height < localHeight then false
    else if conn.height = localHeight ∧ ¬ conn.hasSmallerDigestThanLocal client localHeight then
      false
    else true

/-- The node of the connector has digest `d` at height `h`, and asks about a node that has `d'` at
this height: the voted height is `h`, and the digest of the elected client, if there is one, is
`d'`. -/
structure Compares (conn : Connector) (h : UInt64) (d d' : BlockDigest) : Prop where
  digest : conn.digestForBlock h = .ok d
  height : conn.height = h
  client : ∀ client, conn.theClient = some client → client.remoteDigestOfLocalHeight = d'

/-- A client was elected, and it was asked for the digest at height `h`. -/
def Voted (conn : Connector) (h : UInt64) : Prop :=
  ∃ client, conn.theClient = some client ∧ client.localHeight = h

variable {conn conn' : Connector} {h : UInt64} {d d' : BlockDigest}

/-- The other chain is better if there is a vote and its digest is smaller. -/
theorem Compares.hasBetterChain_iff (hc : conn.Compares h d d') :
    conn.hasBetterChain h = true ↔ conn.Voted h ∧ d'.smallerDigestThan d = true := by
  unfold hasBetterChain Voted
  rcases hclient : conn.theClient with _ | client
  · simp
  · have hdigest := hc.client client hclient
    by_cases hheight : client.localHeight = h
    · simp [hc.height, hasSmallerDigestThanLocal, hheight, hc.digest, hdigest]
    · simp [hc.height, hasSmallerDigestThanLocal, hheight]

/-- **Fork choice.** Two nodes at one height with different digests ask about each other. At most
one finds the other's chain better, exactly one if both have a vote, and `SmallerDigestThan` is the
order of `Cmp` on their digests: this holds exactly when the bytes of one digest are all at most
those of the other. -/
theorem fork_choice_iff (hc : conn.Compares h d d') (hc' : conn'.Compares h d' d) (hne : d ≠ d') :
    (¬ (conn.hasBetterChain h = true ∧ conn'.hasBetterChain h = true) ∧
      (conn.Voted h → conn'.Voted h →
        (conn.hasBetterChain h = true ∨ conn'.hasBetterChain h = true)) ∧
      d.AgreesWithCmp d' ∧ d'.AgreesWithCmp d) ↔
    d.BytewiseLe d' ∨ d'.BytewiseLe d := by
  rw [hc.hasBetterChain_iff, hc'.hasBetterChain_iff, BlockDigest.agreesWithCmp_iff hne]
  constructor
  · intro hall
    exact hall.2.2
  · intro hle
    refine ⟨?_, ?_, hle⟩
    · intro hboth
      rcases hle with hle | hle
      · have hfalse := (BlockDigest.smaller_iff_of_bytewiseLe hne hle).2
        exact absurd hboth.1.2 (by simp [hfalse])
      · have hfalse := (BlockDigest.smaller_iff_of_bytewiseLe hne.symm hle).2
        exact absurd hboth.2.2 (by simp [hfalse])
    · intro hv hv'
      rcases BlockDigest.smaller_or_smaller hne with hs | hs
      · exact Or.inr ⟨hv', hs⟩
      · exact Or.inl ⟨hv, hs⟩

/-- A connector at height 10 whose node has digest `d`, and whose client has `d'`. -/
def asking (d d' : BlockDigest) : Connector := ⟨some ⟨10, d'⟩, 10, fun _ => .ok d⟩

theorem compares_asking (d d' : BlockDigest) : (asking d d').Compares 10 d d' where
  digest := rfl
  height := rfl
  client := by
    intro client hclient
    cases hclient
    rfl

/-- The digest with these two low bytes. -/
def lowBytes (x y : UInt8) : BlockDigest := .ofSlice 32 [x, y]

/-- Each of the nodes finds the other's chain better. -/
theorem both_better : (asking (lowBytes 0 1) (lowBytes 1 0)).hasBetterChain 10 = true ∧
    (asking (lowBytes 1 0) (lowBytes 0 1)).hasBetterChain 10 = true := by
  decide

/-- With digests 1 and 2 only the node with 2 does. -/
theorem fork_choice_one_two : (lowBytes 1 0).BytewiseLe (lowBytes 2 0) ∧
    ¬ ((asking (lowBytes 1 0) (lowBytes 2 0)).hasBetterChain 10 = true ∧
      (asking (lowBytes 2 0) (lowBytes 1 0)).hasBetterChain 10 = true) :=
  ⟨by decide, ((fork_choice_iff (compares_asking _ _) (compares_asking _ _) (by decide)).mpr
    (Or.inl (by decide))).1⟩

end Connector

end Bitmarkd
