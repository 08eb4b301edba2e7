import Mathlib

/-!
# Provenance ledgers

A ledger of records, each stored under an id with the number of the block it came in. A record may
spend another one, its link. A chain of records linked to each other ends in a *head*, the id that
is currently owned and can be spent next; the ledger keeps data and an owner for each head.

The operations add and remove entries and heads. Storing a block adds entries: `note` for a record
that owns nothing, `issue` for the start of a chain, `spend` for a record that moves a head from
its link to itself. Deleting a block takes them back.

`Inv` is what holds of the ledger whatever a block contains. Two records of one block may spend the
same link, so chains can fork; what is kept is that a spent link is no head, that all spenders of a
link came in one block, and that head data belongs to the root of the chain. The entries of a block
that is being deleted are exempt from some of it: `Inv m` asks for everything only of blocks
below `m`.
-/

namespace Bitmarkd.Lib.Provenance

variable {Id Rec Owner Data : Type}

/-- What a ledger needs to know of records and head data. -/
structure Scheme (Id Rec Owner Data : Type) where
  /-- The id a record spends. -/
  link : Rec → Option Id
  /-- The owner a record names. -/
  holder : Rec → Option Owner
  /-- The first record may spend the second. -/
  follows : Rec → Rec → Prop
  /-- The data belongs to a chain whose root has this id, block number and record. -/
  fits : Data → Id → ℕ → Rec → Prop
  /-- The data may be that of a head with this record. -/
  suits : Data → Rec → Prop
  holder_of_follows : ∀ {r r' : Rec}, follows r r' → holder r' ≠ none
  holder_of_fits : ∀ {d : Data} {s : Id} {b : ℕ} {r : Rec}, fits d s b r → holder r ≠ none

/-- Entries with their block numbers, heads, and owners of heads. -/
@[ext] structure Ledger (Id Rec Owner Data : Type) where
  entry : Id → Option (ℕ × Rec)
  head : Id → Option Data
  owns : Owner → Id → Prop

/-! ## Operations -/

namespace Ledger

variable [DecidableEq Id] (L : Ledger Id Rec Owner Data)

/-- Store a record. -/
def addEntry (t : Id) (b : ℕ) (r : Rec) : Ledger Id Rec Owner Data :=
  { L with entry := Function.update L.entry t (some (b, r)) }

/-- Delete a record. -/
def removeEntry (t : Id) : Ledger Id Rec Owner Data :=
  { L with entry := Function.update L.entry t none }

/-- Make an id a head with an owner. -/
def addHead (t : Id) (d : Data) (o : Owner) : Ledger Id Rec Owner Data :=
  { L with
    head := Function.update L.head t (some d)
    owns := fun w x => (w = o ∧ x = t) ∨ L.owns w x }

/-- Remove a head and one owner of it. -/
def removeHead (t : Id) (o : Owner) : Ledger Id Rec Owner Data :=
  { L with
    head := Function.update L.head t none
    owns := fun w x => ¬ (w = o ∧ x = t) ∧ L.owns w x }

/-- A record starts a chain. -/
def issue (t : Id) (b : ℕ) (r : Rec) (d : Data) (o : Owner) : Ledger Id Rec Owner Data :=
  (L.addEntry t b r).addHead t d o

/-- A record moves the head of `o` at `l` to itself. -/
def spend (t : Id) (b : ℕ) (r : Rec) (l : Id) (d : Data) (o o' : Owner) :
    Ledger Id Rec Owner Data :=
  ((L.addEntry t b r).removeHead l o).addHead t d o'

/-- Take an `issue` back. -/
def unissue (t : Id) (o : Owner) : Ledger Id Rec Owner Data := (L.removeEntry t).removeHead t o

/-- Take a `spend` back: the head of `o` at `t` goes to `o'` at `l`. -/
def unspend (t l : Id) (d : Data) (o o' : Owner) : Ledger Id Rec Owner Data :=
  ((L.removeEntry t).removeHead t o).addHead l d o'

section Apply

variable {L} {t l x : Id} {b : ℕ} {r : Rec} {d : Data} {o o' w : Owner}

theorem entry_addEntry : (L.addEntry t b r).entry x = if x = t then some (b, r) else L.entry x :=
  Function.update_apply _ _ _ _

theorem entry_spend :
    (L.spend t b r l d o o').entry x = if x = t then some (b, r) else L.entry x :=
  entry_addEntry

theorem head_spend : (L.spend t b r l d o o').head x =
    if x = t then some d else if x = l then none else L.head x := by
  simp [spend, addHead, removeHead, addEntry, Function.update_apply]

theorem entry_issue : (L.issue t b r d o).entry x = if x = t then some (b, r) else L.entry x :=
  entry_addEntry

theorem head_issue : (L.issue t b r d o).head x = if x = t then some d else L.head x :=
  Function.update_apply _ _ _ _

theorem entry_removeEntry : (L.removeEntry t).entry x = if x = t then none else L.entry x :=
  Function.update_apply _ _ _ _

theorem entry_unissue : (L.unissue t o).entry x = if x = t then none else L.entry x :=
  entry_removeEntry

theorem head_unissue : (L.unissue t o).head x = if x = t then none else L.head x :=
  Function.update_apply _ _ _ _

theorem owns_unissue : (L.unissue t o).owns w x ↔ ¬ (w = o ∧ x = t) ∧ L.owns w x := Iff.rfl

end Apply

end Ledger

/-! ## The invariant -/

namespace Scheme

variable (S : Scheme Id Rec Owner Data) (L : Ledger Id Rec Owner Data)

/-- The record can be a head: it names an owner or spends a link. -/
def CanHead (r : Rec) : Prop := S.holder r ≠ none ∨ S.link r ≠ none

/-- The owner of a head: the one its record names, or else the one its link names. -/
def OwnerAt (r : Rec) (o : Owner) : Prop :=
  S.holder r = some o ∨
    S.holder r = none ∧ ∃ l b' r', S.link r = some l ∧ L.entry l = some (b', r') ∧
      S.holder r' = some o

/-- The chain of links from an id ends at a root. -/
inductive Root : Id → Id → Prop
  | base {t : Id} {b : ℕ} {r : Rec} : L.entry t = some (b, r) → S.link r = none → Root t t
  | step {t l s : Id} {b : ℕ} {r : Rec} : L.entry t = some (b, r) → S.link r = some l →
      Root l s → Root t s

/-- The data belongs to the root of the chain of an id. -/
def Origin (t : Id) (d : Data) : Prop :=
  ∃ s b r, S.Root L t s ∧ L.entry s = some (b, r) ∧ S.fits d s b r

/-- What holds of a ledger, with the entries of blocks from `m` on exempt. -/
structure Inv (m : ℕ) : Prop where
  head_entry : ∀ {t d}, L.head t = some d → ∃ b r, L.entry t = some (b, r) ∧ S.CanHead r
  owner_unique : ∀ {t o o'}, L.owns o t → L.owns o' t → o = o'
  owns_head : ∀ {t o}, L.owns o t → ∃ d, L.head t = some d
  head_owned : ∀ {t d b r}, L.head t = some d → L.entry t = some (b, r) → b < m →
    ∃ o, S.OwnerAt L r o ∧ L.owns o t
  spent : ∀ {t b r l}, L.entry t = some (b, r) → S.link r = some l → b < m → L.head l = none
  linked : ∀ {t b r l}, L.entry t = some (b, r) → S.link r = some l → b < m →
    ∃ b' r', L.entry l = some (b', r') ∧ S.follows r r'
  linked_lt : ∀ {t b r l b' r'}, L.entry t = some (b, r) → S.link r = some l →
    L.entry l = some (b', r') → b' < b ∧ S.follows r r'
  same_link : ∀ {t t' b b' r r' l}, L.entry t = some (b, r) → L.entry t' = some (b', r') →
    S.link r = some l → S.link r' = some l → b = b'
  origin : ∀ {t d b r}, L.head t = some d → L.entry t = some (b, r) → b < m → S.Origin L t d
  origin_linked : ∀ {t d b r l b' r'}, L.head t = some d → L.entry t = some (b, r) →
    S.link r = some l → L.entry l = some (b', r') → S.Origin L l d
  suited : ∀ {t d b r}, L.head t = some d → L.entry t = some (b, r) → S.suits d r

variable {S L}

/-- The empty ledger. -/
theorem Inv.empty (m : ℕ) :
    S.Inv ⟨fun _ => none, fun _ => none, fun _ _ => False⟩ m := by
  constructor <;> intros <;> simp_all

theorem Inv.mono {m m' : ℕ} (h : S.Inv L m) (hm : m' ≤ m) : S.Inv L m' where
  head_entry := h.head_entry
  owner_unique := h.owner_unique
  owns_head := h.owns_head
  head_owned hd he hb := h.head_owned hd he (hb.trans_le hm)
  spent he hl hb := h.spent he hl (hb.trans_le hm)
  linked he hl hb := h.linked he hl (hb.trans_le hm)
  linked_lt := h.linked_lt
  same_link := h.same_link
  origin hd he hb := h.origin hd he (hb.trans_le hm)
  origin_linked := h.origin_linked
  suited := h.suited

/-- Once no entry is left from block `m` on, nothing is exempt. -/
theorem Inv.of_bound {m m' : ℕ} (h : S.Inv L m) (hb : ∀ {t b r}, L.entry t = some (b, r) → b < m) :
    S.Inv L m' where
  head_entry := h.head_entry
  owner_unique := h.owner_unique
  owns_head := h.owns_head
  head_owned hd he _ := h.head_owned hd he (hb he)
  spent he hl _ := h.spent he hl (hb he)
  linked he hl _ := h.linked he hl (hb he)
  linked_lt := h.linked_lt
  same_link := h.same_link
  origin hd he _ := h.origin hd he (hb he)
  origin_linked := h.origin_linked
  suited := h.suited

/-- An owner of a settled head is the one the records name. -/
theorem Inv.owner_eq {m b : ℕ} {t : Id} {r : Rec} {o o' : Owner} (h : S.Inv L m)
    (he : L.entry t = some (b, r)) (hb : b < m) (ho : S.holder r = some o) (hown : L.owns o' t) :
    o' = o := by
  obtain ⟨d, hd⟩ := h.owns_head hown
  obtain ⟨w, hw, hwt⟩ := h.head_owned hd he hb
  obtain rfl := h.owner_unique hown hwt
  rcases hw with hw | ⟨hw, -⟩
  · exact Option.some.inj (hw.symm.trans ho)
  · rw [ho] at hw
    cases hw

/-! ## Roots -/

theorem Root.entry {t s : Id} (h : S.Root L t s) : ∃ b r, L.entry t = some (b, r) := by
  cases h with
  | base he _ => exact ⟨_, _, he⟩
  | step he _ _ => exact ⟨_, _, he⟩

theorem Root.root_entry {x s : Id} (h : S.Root L x s) : ∃ b r, L.entry s = some (b, r) := by
  induction h with
  | base he _ => exact ⟨_, _, he⟩
  | step _ _ _ ih => exact ih

/-- The chain of an id goes on from its link. -/
theorem Root.of_link {t s l : Id} {b : ℕ} {r : Rec} (h : S.Root L t s)
    (he : L.entry t = some (b, r)) (hl : S.link r = some l) : S.Root L l s := by
  cases h with
  | base he' hl' =>
    rw [he] at he'
    cases he'
    rw [hl] at hl'
    cases hl'
  | step he' hl' h' =>
    rw [he] at he'
    cases he'
    rw [hl] at hl'
    cases hl'
    exact h'

/-- The second ledger keeps the records of the first; the block number of a record that cannot be
a head may change. -/
def Extends (S : Scheme Id Rec Owner Data) (L L' : Ledger Id Rec Owner Data) : Prop :=
  ∀ t b r, L.entry t = some (b, r) → ∃ b', L'.entry t = some (b', r) ∧ (S.CanHead r → b' = b)

theorem Root.mono {L' : Ledger Id Rec Owner Data} (hL : S.Extends L L') {t s : Id}
    (h : S.Root L t s) : S.Root L' t s := by
  induction h with
  | base he hl =>
    obtain ⟨b', he', -⟩ := hL _ _ _ he
    exact .base he' hl
  | step he hl _ ih =>
    obtain ⟨b', he', -⟩ := hL _ _ _ he
    exact .step he' hl ih

theorem Origin.mono {L' : Ledger Id Rec Owner Data} (hL : S.Extends L L') {t : Id} {d : Data}
    (h : S.Origin L t d) : S.Origin L' t d := by
  obtain ⟨s, b, r, hroot, he, hf⟩ := h
  obtain ⟨b', he', hb⟩ := hL _ _ _ he
  refine ⟨s, b', r, hroot.mono hL, he', ?_⟩
  rw [hb (Or.inl (S.holder_of_fits hf))]
  exact hf

theorem Origin.of_link {t l : Id} {b : ℕ} {r : Rec} {d : Data} (h : S.Origin L t d)
    (he : L.entry t = some (b, r)) (hl : S.link r = some l) : S.Origin L l d := by
  obtain ⟨s, b', r', hroot, hs, hf⟩ := h
  exact ⟨s, b', r', hroot.of_link he hl, hs, hf⟩

/-! ## Chains without forks -/

/-- No two entries spend the same link. -/
def SpentOnce (S : Scheme Id Rec Owner Data) (L : Ledger Id Rec Owner Data) : Prop :=
  ∀ {t t' l b b' r r'}, L.entry t = some (b, r) → L.entry t' = some (b', r') →
    S.link r = some l → S.link r' = some l → t = t'

/-- The entry of the first id spends the second. -/
def LinksTo (S : Scheme Id Rec Owner Data) (L : Ledger Id Rec Owner Data) (t l : Id) : Prop :=
  ∃ b r, L.entry t = some (b, r) ∧ S.link r = some l

theorem Root.reaches {t s : Id} (h : S.Root L t s) : Relation.ReflTransGen (S.LinksTo L) t s := by
  induction h with
  | base => exact .refl
  | step he hl _ ih => exact .head ⟨_, _, he, hl⟩ ih

/-- Two chains with one root: one of them contains the other. -/
theorem Root.comparable (hS : S.SpentOnce L) {t t' s : Id} (h : S.Root L t s)
    (h' : S.Root L t' s) :
    Relation.ReflTransGen (S.LinksTo L) t t' ∨ Relation.ReflTransGen (S.LinksTo L) t' t := by
  induction h with
  | base => exact Or.inr h'.reaches
  | step he hl _ ih =>
    rcases ih h' with hreach | hreach
    · exact Or.inl (.head ⟨_, _, he, hl⟩ hreach)
    · rcases hreach.cases_tail with rfl | ⟨y, hy, b, r, hey, hly⟩
      · exact Or.inl (.single ⟨_, _, he, hl⟩)
      · -- `y` spends the same link
        rw [hS he hey hl hly]
        exact Or.inr hy

/-- A head ends every chain that contains it. -/
theorem Inv.eq_of_reaches {m : ℕ} {t t' : Id} {d : Data} (h : S.Inv L m)
    (hb : ∀ {t b r}, L.entry t = some (b, r) → b < m) (hd : L.head t' = some d)
    (hreach : Relation.ReflTransGen (S.LinksTo L) t t') : t = t' := by
  rcases hreach.cases_tail with heq | ⟨y, -, b, r, he, hl⟩
  · exact heq.symm
  · have hnone := h.spent he hl (hb he)
    rw [hd] at hnone
    cases hnone

/-- **One head** for each root, if no link is spent twice. -/
theorem Inv.head_unique {m : ℕ} {t t' s : Id} {d d' : Data} (h : S.Inv L m)
    (hb : ∀ {t b r}, L.entry t = some (b, r) → b < m) (hS : S.SpentOnce L)
    (hd : L.head t = some d) (hd' : L.head t' = some d') (hroot : S.Root L t s)
    (hroot' : S.Root L t' s) : t = t' := by
  rcases hroot.comparable hS hroot' with hreach | hreach
  · exact h.eq_of_reaches hb hd' hreach
  · exact (h.eq_of_reaches hb hd hreach).symm

/-! ## Changing one id -/

/-- The id is the link of no entry of a block below `n`. -/
def NotSettledLink (S : Scheme Id Rec Owner Data) (L : Ledger Id Rec Owner Data) (n : ℕ) (t : Id) :
    Prop :=
  ∀ ⦃x b r l⦄, L.entry x = some (b, r) → S.link r = some l → b < n → l ≠ t

/-- The ledger `L'` is `L` with a change under the id `t`, where other heads may be gone. What is
under `t` now is as the invariant asks. -/
structure Changes (S : Scheme Id Rec Owner Data) (L L' : Ledger Id Rec Owner Data) (m : ℕ)
    (t : Id) : Prop where
  before : S.Inv L m
  bound : ∀ {x b r}, L.entry x = some (b, r) → b ≤ m
  entry : ∀ {x}, x ≠ t → L'.entry x = L.entry x
  head : ∀ {x d}, x ≠ t → L'.head x = some d → L.head x = some d ∧ ∀ w, L.owns w x → L'.owns w x
  owns : ∀ {x w}, x ≠ t → L'.owns w x → L.owns w x ∧ ∃ d, L'.head x = some d
  origin : ∀ {x d b r}, L.entry x = some (b, r) → b < m → L'.entry x ≠ none → S.Origin L x d →
    S.Origin L' x d
  unlinked : S.NotSettledLink L m t
  linked_self : ∀ {x b r}, L.entry x = some (b, r) → S.link r = some t → L'.entry t ≠ none →
    L'.entry t = L.entry t
  self_head : ∀ {d}, L'.head t = some d → ∃ b r, L'.entry t = some (b, r) ∧ S.CanHead r ∧
    S.suits d r ∧ S.Origin L' t d ∧ ∃ o, S.OwnerAt L' r o ∧ L'.owns o t
  self_owns : ∀ {w}, L'.owns w t → (∃ d, L'.head t = some d) ∧ ∀ {w'}, L'.owns w' t → w = w'
  self_link : ∀ {b r l}, L'.entry t = some (b, r) → S.link r = some l → L'.head l = none ∧
    (∃ b' r', L'.entry l = some (b', r') ∧ b' < b ∧ S.follows r r') ∧
    ∀ {x b' r'}, x ≠ t → L.entry x = some (b', r') → S.link r' = some l → b' = b

namespace Changes

variable {L' : Ledger Id Rec Owner Data} {m b : ℕ} {t x l : Id} {r : Rec} {o : Owner}

theorem link_entry (h : S.Changes L L' m t) {e : ℕ × Rec} (hx : L.entry x = some (b, r))
    (hl : S.link r = some l) (he : L'.entry l = some e) : L.entry l = some e := by
  rcases eq_or_ne l t with rfl | hlt
  · rw [← h.linked_self hx hl (by simp [he]), he]
  · rwa [← h.entry hlt]

theorem ownerAt (h : S.Changes L L' m t) (hx : L.entry x = some (b, r)) (hb : b < m)
    (ho : S.OwnerAt L r o) : S.OwnerAt L' r o := by
  rcases ho with ho | ⟨hnone, l, b', r', hl, he, ho⟩
  · exact Or.inl ho
  · exact Or.inr ⟨hnone, l, b', r', hl, by rw [h.entry (h.unlinked hx hl hb), he], ho⟩

/-- **The invariant is kept.** Each part is about an id, which is the changed one or another. -/
theorem inv (h : S.Changes L L' m t) : S.Inv L' m := by
  constructor
  case head_entry =>
    intro x d hd
    rcases eq_or_ne x t with rfl | hxt
    · obtain ⟨b, r, he, hc, -⟩ := h.self_head hd
      exact ⟨b, r, he, hc⟩
    · simpa only [h.entry hxt] using h.before.head_entry (h.head hxt hd).1
  case owner_unique =>
    intro x w w' hw hw'
    rcases eq_or_ne x t with rfl | hxt
    · exact (h.self_owns hw).2 hw'
    · exact h.before.owner_unique (h.owns hxt hw).1 (h.owns hxt hw').1
  case owns_head =>
    intro x w hw
    rcases eq_or_ne x t with rfl | hxt
    · exact (h.self_owns hw).1
    · exact (h.owns hxt hw).2
  case head_owned =>
    intro x d b r hd hx hb
    rcases eq_or_ne x t with rfl | hxt
    · obtain ⟨b', r', he, -, -, -, howner⟩ := h.self_head hd
      rw [hx] at he
      cases he
      exact howner
    · rw [h.entry hxt] at hx
      obtain ⟨hd, howns⟩ := h.head hxt hd
      obtain ⟨o, ho, hown⟩ := h.before.head_owned hd hx hb
      exact ⟨o, h.ownerAt hx hb ho, howns o hown⟩
  case spent =>
    intro x b r l hx hl hb
    rcases eq_or_ne x t with rfl | hxt
    · exact (h.self_link hx hl).1
    · rw [h.entry hxt] at hx
      rw [Option.eq_none_iff_forall_ne_some]
      intro d hd
      have hnone := h.before.spent hx hl hb
      rw [(h.head (h.unlinked hx hl hb) hd).1] at hnone
      cases hnone
  case linked =>
    intro x b r l hx hl hb
    rcases eq_or_ne x t with rfl | hxt
    · obtain ⟨b', r', he, -, hf⟩ := (h.self_link hx hl).2.1
      exact ⟨b', r', he, hf⟩
    · rw [h.entry hxt] at hx
      rw [h.entry (h.unlinked hx hl hb)]
      exact h.before.linked hx hl hb
  case linked_lt =>
    intro x b r l b' r' hx hl hel
    rcases eq_or_ne x t with rfl | hxt
    · obtain ⟨b'', r'', he, hlt, hf⟩ := (h.self_link hx hl).2.1
      rw [hel] at he
      cases he
      exact ⟨hlt, hf⟩
    · rw [h.entry hxt] at hx
      exact h.before.linked_lt hx hl (h.link_entry hx hl hel)
  case same_link =>
    intro x x' b b' r r' l hx hx' hl hl'
    rcases eq_or_ne x t with rfl | hxt
    · rcases eq_or_ne x' x with rfl | hxt'
      · rw [hx] at hx'
        cases hx'
        rfl
      · rw [h.entry hxt'] at hx'
        exact ((h.self_link hx hl).2.2 hxt' hx' hl').symm
    · rw [h.entry hxt] at hx
      rcases eq_or_ne x' t with rfl | hxt'
      · exact (h.self_link hx' hl').2.2 hxt hx hl
      · rw [h.entry hxt'] at hx'
        exact h.before.same_link hx hx' hl hl'
  case origin =>
    intro x d b r hd hx hb
    rcases eq_or_ne x t with rfl | hxt
    · obtain ⟨-, -, -, -, -, horigin, -⟩ := h.self_head hd
      exact horigin
    · have hne : L'.entry x ≠ none := by simp [hx]
      rw [h.entry hxt] at hx
      exact h.origin hx hb hne (h.before.origin (h.head hxt hd).1 hx hb)
  case origin_linked =>
    intro x d b r l b' r' hd hx hl hel
    rcases eq_or_ne x t with rfl | hxt
    · obtain ⟨-, -, -, -, -, horigin, -⟩ := h.self_head hd
      exact horigin.of_link hx hl
    · rw [h.entry hxt] at hx
      have hel₀ := h.link_entry hx hl hel
      have hlt := (h.before.linked_lt hx hl hel₀).1
      exact h.origin hel₀ (hlt.trans_le (h.bound hx)) (by simp [hel])
        (h.before.origin_linked (h.head hxt hd).1 hx hl hel₀)
  case suited =>
    intro x d b r hd hx
    rcases eq_or_ne x t with rfl | hxt
    · obtain ⟨b', r', he, -, hs, -⟩ := h.self_head hd
      rw [hx] at he
      cases he
      exact hs
    · rw [h.entry hxt] at hx
      exact h.before.suited (h.head hxt hd).1 hx

end Changes

/-! ## Storing a block -/

/-- The ledger `L` in the middle of storing block `n` over `L₀`. Entries of `L₀` stay, new ones have
number `n`, and an id of `L₀` can only lose its head. -/
structure Storing (S : Scheme Id Rec Owner Data) (L₀ L : Ledger Id Rec Owner Data) (n : ℕ) :
    Prop where
  inv₀ : S.Inv L₀ n
  bound : ∀ {t b r}, L₀.entry t = some (b, r) → b < n
  inv : S.Inv L (n + 1)
  keep : S.Extends L₀ L
  fresh : ∀ {t b r}, L.entry t = some (b, r) → L₀.entry t = some (b, r) ∨ b = n
  heads : ∀ {t b r d}, L₀.entry t = some (b, r) → L.head t = some d → L₀.head t = some d

theorem Extends.refl (L : Ledger Id Rec Owner Data) : S.Extends L L :=
  fun _ b _ he => ⟨b, he, fun _ => rfl⟩

theorem Storing.start {n : ℕ} (h : S.Inv L n) (hb : ∀ {t b r}, L.entry t = some (b, r) → b < n) :
    S.Storing L L n where
  inv₀ := h
  bound := hb
  inv := h.of_bound hb
  keep := .refl L
  fresh he := Or.inl he
  heads _ hd := hd

namespace Storing

variable {L₀ : Ledger Id Rec Owner Data} {n : ℕ} {t : Id} {r : Rec}

theorem le_number (h : S.Storing L₀ L n) {b : ℕ} (he : L.entry t = some (b, r)) : b ≤ n := by
  rcases h.fresh he with he₀ | rfl
  · exact (h.bound he₀).le
  · exact le_rfl

/-- An id that was not there before the block is spent by no entry. -/
theorem not_linked (h : S.Storing L₀ L n) (ht : L₀.entry t = none) {x : Id} {b : ℕ} {rx : Rec}
    (hx : L.entry x = some (b, rx)) : S.link rx ≠ some t := by
  intro hlink
  have hb := h.le_number hx
  obtain ⟨b', r', he, -⟩ := h.inv.linked hx hlink (by omega)
  have hlt := (h.inv.linked_lt hx hlink he).1
  rcases h.fresh he with he₀ | rfl
  · rw [ht] at he₀
    cases he₀
  · omega

/-- Adding an entry under an id that is new, or that holds the same record of this block. -/
theorem extends_of_new [DecidableEq Id] {L' : Ledger Id Rec Owner Data} (h : S.Storing L₀ L n)
    (ht : L₀.entry t = none) (hid : ∀ b r', L.entry t = some (b, r') → r' = r)
    (hL' : ∀ x, L'.entry x = if x = t then some (n, r) else L.entry x) : S.Extends L L' := by
  intro x b rx hx
  rw [hL']
  split
  next hxt =>
    subst hxt
    obtain rfl := hid _ _ hx
    refine ⟨n, rfl, fun _ => ?_⟩
    rcases h.fresh hx with hx₀ | hb
    · rw [ht] at hx₀
      cases hx₀
    · exact hb.symm
  next => exact ⟨b, hx, fun _ => rfl⟩

/-- Storing goes on with a change that adds one entry. -/
theorem of_changes {L' : Ledger Id Rec Owner Data} (h : S.Storing L₀ L n)
    (hc : S.Changes L L' (n + 1) t) (hext : S.Extends L L') (hself : L'.entry t = some (n, r))
    (hhead : L₀.entry t ≠ none → L'.head t = none) : S.Storing L₀ L' n where
  inv₀ := h.inv₀
  bound := h.bound
  inv := hc.inv
  keep := by
    intro x b rx hx
    obtain ⟨b', he', hb'⟩ := h.keep _ _ _ hx
    obtain ⟨b'', he'', hb''⟩ := hext _ _ _ he'
    exact ⟨b'', he'', fun hc => (hb'' hc).trans (hb' hc)⟩
  fresh := by
    intro x b rx hx
    rcases eq_or_ne x t with rfl | hxt
    · rw [hself] at hx
      cases hx
      exact Or.inr rfl
    · rw [hc.entry hxt] at hx
      exact h.fresh hx
  heads := by
    intro x b rx d hx hd
    rcases eq_or_ne x t with rfl | hxt
    · rw [hhead (by simp [hx])] at hd
      cases hd
    · exact h.heads hx (hc.head hxt hd).1

end Storing

/-! ### Spending -/

/-- A record `r` with id `t` spends `l`, which was a head before the block, owned by the one its
record names. The new head gets data `d` and owner `o'`. -/
structure Spends (S : Scheme Id Rec Owner Data) (L₀ L : Ledger Id Rec Owner Data) (n : ℕ) (t : Id)
    (r : Rec) (l : Id) (d : Data) (o o' : Owner) (bl : ℕ) (rl : Rec) (dl : Data) : Prop where
  storing : S.Storing L₀ L n
  link_entry : L₀.entry l = some (bl, rl)
  link_head : L₀.head l = some dl
  link_holder : S.holder rl = some o
  link : S.link r = some l
  follows : S.follows r rl
  holder : S.holder r = some o' ∨ S.holder r = none ∧ o' = o
  fits : ∀ {s b r'}, S.fits dl s b r' → S.fits d s b r'
  suits : S.suits d r
  same : ∀ b r', L.entry t = some (b, r') → r' = r

namespace Spends

variable {L₀ : Ledger Id Rec Owner Data} {n : ℕ} {t l : Id} {r : Rec} {d : Data} {o o' : Owner}
  {bl : ℕ} {rl : Rec} {dl : Data}

/-- No record from before the block spends the link. -/
theorem unspent (h : S.Spends L₀ L n t r l d o o' bl rl dl) {x : Id} {b : ℕ} {rx : Rec}
    (hx : L₀.entry x = some (b, rx)) : S.link rx ≠ some l := by
  intro hxl
  have hnone := h.storing.inv₀.spent hx hxl (h.storing.bound hx)
  rw [h.link_head] at hnone
  cases hnone

/-- The record is not from before the block: its link would not be a head. -/
theorem entry_eq_none (h : S.Spends L₀ L n t r l d o o' bl rl dl) : L₀.entry t = none := by
  rcases ht : L₀.entry t with _ | ⟨b, r₁⟩
  · rfl
  · obtain ⟨b', he, -⟩ := h.storing.keep _ _ _ ht
    obtain rfl := h.same _ _ he
    exact absurd h.link (h.unspent ht)

theorem link_ne (h : S.Spends L₀ L n t r l d o o' bl rl dl) : l ≠ t := by
  rintro rfl
  have hnone := h.entry_eq_none
  rw [h.link_entry] at hnone
  cases hnone

theorem link_lt (h : S.Spends L₀ L n t r l d o o' bl rl dl) : bl < n :=
  h.storing.bound h.link_entry

theorem link_entry' (h : S.Spends L₀ L n t r l d o o' bl rl dl) :
    L.entry l = some (bl, rl) := by
  obtain ⟨b, hl, hb⟩ := h.storing.keep _ _ _ h.link_entry
  rwa [hb (Or.inl (by rw [h.link_holder]; simp))] at hl

/-- Every other spender of the link came in this block. -/
theorem block_eq (h : S.Spends L₀ L n t r l d o o' bl rl dl) {x : Id} {b : ℕ} {rx : Rec}
    (hx : L.entry x = some (b, rx)) (hxl : S.link rx = some l) : b = n := by
  rcases h.storing.fresh hx with hx₀ | hb
  · exact absurd hxl (h.unspent hx₀)
  · exact hb

/-- An owner of `t` owns an equal record stored before. -/
theorem owner_eq (h : S.Spends L₀ L n t r l d o o' bl rl dl) {w : Owner} (hw : L.owns w t) :
    w = o' := by
  have hinv := h.storing.inv
  obtain ⟨dt, hdt⟩ := hinv.owns_head hw
  obtain ⟨b, r', het, -⟩ := hinv.head_entry hdt
  obtain rfl := h.same _ _ het
  have hb := h.storing.le_number het
  obtain ⟨w', hw', hown⟩ := hinv.head_owned hdt het (by omega)
  obtain rfl := hinv.owner_unique hw hown
  rcases h.holder with ho' | ⟨hnone, rfl⟩
  · rcases hw' with hw' | ⟨hw', -⟩
    · exact Option.some.inj (hw'.symm.trans ho')
    · rw [ho'] at hw'
      cases hw'
  · rcases hw' with hw' | ⟨-, l', b', rl', hl', hel', hol'⟩
    · rw [hnone] at hw'
      cases hw'
    · rw [h.link] at hl'
      cases hl'
      rw [h.link_entry'] at hel'
      cases hel'
      exact Option.some.inj (hol'.symm.trans h.link_holder)

variable [DecidableEq Id]

theorem extends_spend (h : S.Spends L₀ L n t r l d o o' bl rl dl) :
    S.Extends L (L.spend t n r l d o o') :=
  h.storing.extends_of_new h.entry_eq_none h.same fun _ => Ledger.entry_spend

theorem origin_spend (h : S.Spends L₀ L n t r l d o o' bl rl dl) :
    S.Origin (L.spend t n r l d o o') t d := by
  have hold := (h.storing.inv₀.origin h.link_head h.link_entry h.link_lt).mono h.storing.keep
  obtain ⟨s, b, r', hroot, he, hf⟩ := hold.mono h.extends_spend
  exact ⟨s, b, r', .step (by rw [Ledger.entry_spend, if_pos rfl]) h.link hroot, he, h.fits hf⟩

theorem ownerAt_spend (h : S.Spends L₀ L n t r l d o o' bl rl dl) :
    S.OwnerAt (L.spend t n r l d o o') r o' := by
  rcases h.holder with ho' | ⟨hnone, rfl⟩
  · exact Or.inl ho'
  · refine Or.inr ⟨hnone, l, bl, rl, h.link, ?_, h.link_holder⟩
    rw [Ledger.entry_spend, if_neg h.link_ne, h.link_entry']

theorem changes_spend (h : S.Spends L₀ L n t r l d o o' bl rl dl) :
    S.Changes L (L.spend t n r l d o o') (n + 1) t where
  before := h.storing.inv
  bound he := (h.storing.le_number he).trans n.le_succ
  entry hxt := by rw [Ledger.entry_spend, if_neg hxt]
  head := by
    intro x dx hxt hx
    rw [Ledger.head_spend, if_neg hxt] at hx
    split at hx
    · cases hx
    next hxl => exact ⟨hx, fun w hw => Or.inr ⟨fun hc => hxl hc.2, hw⟩⟩
  owns := by
    rintro x w hxt (⟨-, rfl⟩ | ⟨hne, hw⟩)
    · exact absurd rfl hxt
    · rw [Ledger.head_spend, if_neg hxt]
      split
      next hxl =>
        -- the only owner of the link is the one that is removed
        subst hxl
        have hlt := h.link_lt
        exact absurd ⟨h.storing.inv.owner_eq h.link_entry' (by omega) h.link_holder hw, rfl⟩ hne
      · exact ⟨hw, h.storing.inv.owns_head hw⟩
  origin _ _ _ horigin := horigin.mono h.extends_spend
  unlinked x b rx l' hx hl' _ hc := h.storing.not_linked h.entry_eq_none hx (hc ▸ hl')
  linked_self hx hl _ := absurd hl (h.storing.not_linked h.entry_eq_none hx)
  self_head := by
    intro dx hd
    rw [Ledger.head_spend, if_pos rfl] at hd
    cases hd
    exact ⟨n, r, by rw [Ledger.entry_spend, if_pos rfl], Or.inr (by simp [h.link]), h.suits,
      h.origin_spend, o', h.ownerAt_spend, Or.inl ⟨rfl, rfl⟩⟩
  self_owns := by
    have heq : ∀ {w}, (L.spend t n r l d o o').owns w t → w = o' := by
      rintro w (⟨rfl, -⟩ | ⟨-, hw⟩)
      · rfl
      · exact h.owner_eq hw
    intro w hw
    exact ⟨⟨d, by rw [Ledger.head_spend, if_pos rfl]⟩, fun hw' => (heq hw).trans (heq hw').symm⟩
  self_link := by
    intro b r' l' he hl'
    rw [Ledger.entry_spend, if_pos rfl] at he
    cases he
    rw [h.link] at hl'
    cases hl'
    rw [Ledger.head_spend, if_neg h.link_ne, if_pos rfl, Ledger.entry_spend, if_neg h.link_ne]
    exact ⟨rfl, ⟨bl, rl, h.link_entry', h.link_lt, h.follows⟩, fun _ hx hxl => h.block_eq hx hxl⟩

/-- **Spending** keeps the ledger. -/
theorem storing_spend (h : S.Spends L₀ L n t r l d o o' bl rl dl) :
    S.Storing L₀ (L.spend t n r l d o o') n :=
  h.storing.of_changes h.changes_spend h.extends_spend (by rw [Ledger.entry_spend, if_pos rfl])
    fun hx => absurd h.entry_eq_none hx

end Spends

/-! ### Issuing and noting -/

namespace Storing

variable [DecidableEq Id] {L₀ : Ledger Id Rec Owner Data} {n : ℕ} {t : Id} {r : Rec} {d : Data}
  {o : Owner}

/-- **Issuing** a record under a new id keeps the ledger. -/
theorem issue (h : S.Storing L₀ L n) (ht : L.entry t = none) (hlink : S.link r = none)
    (ho : S.holder r = some o) (hf : S.fits d t n r) (hs : S.suits d r) :
    S.Storing L₀ (L.issue t n r d o) n := by
  have ht₀ : L₀.entry t = none := by
    rcases he : L₀.entry t with _ | ⟨b, r₁⟩
    · rfl
    · obtain ⟨b', he', -⟩ := h.keep _ _ _ he
      rw [ht] at he'
      cases he'
  have hnot {w : Owner} : ¬ L.owns w t := by
    intro hw
    obtain ⟨d', hd⟩ := h.inv.owns_head hw
    obtain ⟨b, r', he, -⟩ := h.inv.head_entry hd
    rw [ht] at he
    cases he
  have hext : S.Extends L (L.issue t n r d o) :=
    h.extends_of_new ht₀ (by rw [ht]; simp) fun _ => Ledger.entry_issue
  have hself : (L.issue t n r d o).entry t = some (n, r) := by rw [Ledger.entry_issue, if_pos rfl]
  have hhead : (L.issue t n r d o).head t = some d := by rw [Ledger.head_issue, if_pos rfl]
  refine h.of_changes (t := t) ⟨h.inv, fun he => (h.le_number he).trans n.le_succ, ?_, ?_, ?_,
    fun _ _ _ horigin => horigin.mono hext,
    fun x b rx l hx hl _ hc => h.not_linked ht₀ hx (hc ▸ hl),
    fun hx hl => absurd hl (h.not_linked ht₀ hx), ?_, ?_, ?_⟩ hext hself fun hne => absurd ht₀ hne
  · intro x hxt
    rw [Ledger.entry_issue, if_neg hxt]
  · intro x dx hxt hd
    rw [Ledger.head_issue, if_neg hxt] at hd
    exact ⟨hd, fun w hw => Or.inr hw⟩
  · rintro x w hxt (⟨-, rfl⟩ | hw)
    · exact absurd rfl hxt
    · rw [Ledger.head_issue, if_neg hxt]
      exact ⟨hw, h.inv.owns_head hw⟩
  · intro dx hd
    rw [hhead] at hd
    cases hd
    exact ⟨n, r, hself, Or.inl (by simp [ho]), hs, ⟨t, n, r, .base hself hlink, hself, hf⟩, o,
      Or.inl ho, Or.inl ⟨rfl, rfl⟩⟩
  · rintro w (⟨rfl, -⟩ | hw)
    · refine ⟨⟨d, hhead⟩, ?_⟩
      rintro w' (⟨rfl, -⟩ | hw')
      · rfl
      · exact absurd hw' hnot
    · exact absurd hw hnot
  · intro b rx l he hl
    rw [hself] at he
    cases he
    rw [hlink] at hl
    cases hl

/-- **Noting** a record that cannot be a head keeps the ledger, also when it is there already. -/
theorem note (h : S.Storing L₀ L n) (hlink : S.link r = none) (ho : S.holder r = none)
    (hid : ∀ b r', L.entry t = some (b, r') → r' = r) : S.Storing L₀ (L.addEntry t n r) n := by
  have hcan : ¬ S.CanHead r := by simp [CanHead, hlink, ho]
  have hext : S.Extends L (L.addEntry t n r) := by
    intro x b rx hx
    rw [Ledger.entry_addEntry]
    split
    next hxt =>
      subst hxt
      obtain rfl := hid _ _ hx
      exact ⟨n, rfl, fun hc => absurd hc hcan⟩
    next => exact ⟨b, hx, fun _ => rfl⟩
  have hself : (L.addEntry t n r).entry t = some (n, r) := by rw [Ledger.entry_addEntry, if_pos rfl]
  have hhead : L.head t = none := by
    rcases hd : L.head t with _ | d'
    · rfl
    · obtain ⟨b, r', he, hc⟩ := h.inv.head_entry hd
      exact absurd (hid _ _ he ▸ hc) hcan
  -- a record that is linked to has a holder
  have hnot {x : Id} {b : ℕ} {rx : Rec} (hx : L.entry x = some (b, rx)) : S.link rx ≠ some t := by
    intro hl
    have hb := h.le_number hx
    obtain ⟨b', r', he', hf'⟩ := h.inv.linked hx hl (by omega)
    exact S.holder_of_follows hf' (hid _ _ he' ▸ ho)
  refine h.of_changes (t := t) ⟨h.inv, fun he => (h.le_number he).trans n.le_succ, ?_,
    fun _ hd => ⟨hd, fun _ hw => hw⟩, fun _ hw => ⟨hw, h.inv.owns_head hw⟩,
    fun _ _ _ horigin => horigin.mono hext, fun x b rx l hx hl _ hc => hnot hx (hc ▸ hl),
    fun hx hl => absurd hl (hnot hx), ?_, ?_, ?_⟩ hext hself fun _ => hhead
  · intro x hxt
    rw [Ledger.entry_addEntry, if_neg hxt]
  · intro d hd
    rw [show L.head t = some d from hd] at hhead
    cases hhead
  · intro w hw
    exact ⟨h.inv.owns_head hw, fun hw' => h.inv.owner_unique hw hw'⟩
  · intro b rx l he hl
    rw [hself] at he
    cases he
    rw [hlink] at hl
    cases hl

end Storing

/-! ## Deleting a block -/

section Remove

variable {L' : Ledger Id Rec Owner Data} {n : ℕ} {t : Id}

/-- An entry of block `n` is the link of no settled entry. -/
theorem Inv.notSettledLink_of_block (h : S.Inv L n) {r : Rec} (he : L.entry t = some (n, r)) :
    S.NotSettledLink L n t := by
  rintro x b rx l hx hl hb rfl
  have hlt := (h.linked_lt hx hl he).1
  omega

/-- A head is spent by no settled entry. -/
theorem Inv.notSettledLink_of_head (h : S.Inv L n) {d : Data} (hd : L.head t = some d) :
    S.NotSettledLink L n t := by
  rintro x b rx l hx hl hb rfl
  rw [h.spent hx hl hb] at hd
  cases hd

variable [DecidableEq Id]

/-- Removing an entry that no settled entry links to leaves the other settled chains. -/
theorem Root.remove (h : S.Inv L n) (ht : S.NotSettledLink L n t)
    (hL' : ∀ x, L'.entry x = if x = t then none else L.entry x) {x s : Id} {b : ℕ} {r : Rec}
    (hroot : S.Root L x s) (hx : L.entry x = some (b, r)) (hb : b < n) (hxt : x ≠ t) :
    S.Root L' x s := by
  induction hroot generalizing b r with
  | base he hl =>
    exact .base (by rw [hL', if_neg hxt, he]) hl
  | step he hl hroot ih =>
    rw [hx] at he
    cases he
    obtain ⟨b', r', he'⟩ := hroot.entry
    have hlt := (h.linked_lt hx hl he').1
    exact .step (by rw [hL', if_neg hxt, hx]) hl (ih he' (by omega) (ht hx hl hb))

theorem Origin.remove (h : S.Inv L n) (ht : S.NotSettledLink L n t)
    (hL' : ∀ x, L'.entry x = if x = t then none else L.entry x) {x : Id} {b : ℕ} {r : Rec}
    {d : Data} (horigin : S.Origin L x d) (hx : L.entry x = some (b, r)) (hb : b < n)
    (hxt : x ≠ t) : S.Origin L' x d := by
  obtain ⟨s, b', r', hroot, hs, hf⟩ := horigin
  have hroot' := hroot.remove h ht hL' hx hb hxt
  refine ⟨s, b', r', hroot', ?_, hf⟩
  obtain ⟨b'', r'', hs'⟩ := hroot'.root_entry
  rw [hL'] at hs' ⊢
  split at hs'
  · cases hs'
  next hst => rw [if_neg hst, hs]

/-- **Removing** an entry with its head, and the owner of that head. The entries of the block that
is deleted are not settled. -/
theorem Inv.remove (h : S.Inv L n) (hbound : ∀ {x b r}, L.entry x = some (b, r) → b ≤ n)
    (ht : S.NotSettledLink L n t)
    (hentry : ∀ x, L'.entry x = if x = t then none else L.entry x)
    (hhead : ∀ x, L'.head x = if x = t then none else L.head x)
    (howns : ∀ w x, L'.owns w x ↔ x ≠ t ∧ L.owns w x) : S.Inv L' n := by
  have hself : L'.entry t = none := by rw [hentry, if_pos rfl]
  refine Changes.inv (t := t) ⟨h, hbound, ?_, ?_, ?_, ?_, ht, fun _ _ hne => absurd hself hne,
    ?_, fun hw => absurd rfl ((howns _ _).mp hw).1, ?_⟩
  · intro x hxt
    rw [hentry, if_neg hxt]
  · intro x d hxt hd
    rw [hhead, if_neg hxt] at hd
    exact ⟨hd, fun w hw => (howns w x).mpr ⟨hxt, hw⟩⟩
  · intro x w hxt hw
    have hw := ((howns w x).mp hw).2
    rw [hhead, if_neg hxt]
    exact ⟨hw, h.owns_head hw⟩
  · intro x d b r hx hb hne horigin
    refine horigin.remove h ht hentry hx hb ?_
    rintro rfl
    exact hne hself
  · intro d hd
    rw [hhead, if_pos rfl] at hd
    cases hd
  · intro b r l he
    rw [hself] at he
    cases he

/-- **Giving a head back** to a settled entry that no settled entry spends. -/
theorem Inv.addHead (h : S.Inv L n) (hbound : ∀ {x b r}, L.entry x = some (b, r) → b ≤ n) {b : ℕ}
    {r : Rec} {d : Data} {o : Owner} (he : L.entry t = some (b, r)) (hb : b < n)
    (ho : S.holder r = some o) (horigin : S.Origin L t d) (hs : S.suits d r)
    (ht : S.NotSettledLink L n t) : S.Inv (L.addHead t d o) n := by
  have hext : S.Extends L (L.addHead t d o) := fun _ b _ hx => ⟨b, hx, fun _ => rfl⟩
  have hhead {x : Id} (hxt : x ≠ t) : (L.addHead t d o).head x = L.head x := by
    simp [Ledger.addHead, hxt]
  have hself : (L.addHead t d o).head t = some d := by simp [Ledger.addHead]
  have heq {w : Owner} (hw : (L.addHead t d o).owns w t) : w = o := by
    rcases hw with ⟨rfl, -⟩ | hw
    · rfl
    · exact h.owner_eq he hb ho hw
  refine Changes.inv (t := t) ⟨h, hbound, fun _ => rfl, ?_, ?_,
    fun _ _ _ horigin => horigin.mono hext, ht, fun _ _ _ => rfl, ?_,
    fun hw => ⟨⟨d, hself⟩, fun hw' => (heq hw).trans (heq hw').symm⟩, ?_⟩
  · intro x dx hxt hd
    rw [hhead hxt] at hd
    exact ⟨hd, fun w hw => Or.inr hw⟩
  · rintro x w hxt (⟨-, rfl⟩ | hw)
    · exact absurd rfl hxt
    · rw [hhead hxt]
      exact ⟨hw, h.owns_head hw⟩
  · intro dx hd
    rw [hself] at hd
    cases hd
    exact ⟨b, r, he, Or.inl (by simp [ho]), hs, horigin.mono hext, o, Or.inl ho,
      Or.inl ⟨rfl, rfl⟩⟩
  · intro b' r' l he' hl
    rw [show L.entry t = some (b', r') from he'] at he
    cases he
    obtain ⟨b'', r'', hel, hf⟩ := h.linked he' hl hb
    rw [hhead (ht he' hl hb)]
    exact ⟨h.spent he' hl hb, ⟨b'', r'', hel, (h.linked_lt he' hl hel).1, hf⟩,
      fun _ hx hl' => h.same_link hx he' hl' hl⟩

/-- **Taking an issue back.** -/
theorem Inv.unissue (h : S.Inv L n) (hbound : ∀ {x b r}, L.entry x = some (b, r) → b ≤ n)
    {o : Owner} (hown : L.owns o t) (ht : S.NotSettledLink L n t) : S.Inv (L.unissue t o) n := by
  refine h.remove hbound ht (fun _ => Ledger.entry_unissue) (fun _ => Ledger.head_unissue) ?_
  intro w x
  rw [Ledger.owns_unissue]
  refine and_congr_left fun hw => ?_
  constructor
  · rintro hne rfl
    exact hne ⟨h.owner_unique hw hown, rfl⟩
  · rintro hxt ⟨-, rfl⟩
    exact hxt rfl

/-- **Taking a spend back.** The record is one of the block that is being deleted. -/
theorem Inv.unspend (h : S.Inv L n) (hbound : ∀ {x b r}, L.entry x = some (b, r) → b ≤ n)
    {l : Id} {r rl : Rec} {bl : ℕ} {d₀ d : Data} {o o' : Owner}
    (he : L.entry t = some (n, r)) (hl : S.link r = some l) (hd₀ : L.head t = some d₀)
    (hown : L.owns o t) (hel : L.entry l = some (bl, rl)) (ho' : S.holder rl = some o')
    (hd : ∀ {s b r'}, S.fits d₀ s b r' → S.fits d s b r') (hs : S.suits d rl) :
    S.Inv (L.unspend t l d o o') n := by
  have hblock := h.notSettledLink_of_block he
  have hlt := (h.linked_lt he hl hel).1
  have hne : l ≠ t := by
    rintro rfl
    rw [he] at hel
    cases hel
    omega
  have hel' : (L.unissue t o).entry l = some (bl, rl) := by
    rw [Ledger.entry_unissue, if_neg hne, hel]
  have hold {x : Id} {e : ℕ × Rec} (hx : (L.unissue t o).entry x = some e) :
      L.entry x = some e := by
    rw [Ledger.entry_unissue] at hx
    split at hx
    · cases hx
    · exact hx
  refine (h.unissue hbound hown hblock).addHead (fun hx => hbound (hold hx)) hel' hlt ho' ?_ hs ?_
  · obtain ⟨s, b, r', hroot, hs, hf⟩ :=
      (h.origin_linked hd₀ he hl hel).remove h hblock (fun _ => Ledger.entry_unissue) hel hlt hne
    exact ⟨s, b, r', hroot, hs, hd hf⟩
  · rintro x b rx l' hx hl' hb rfl
    have := h.same_link (hold hx) he hl' hl
    omega

/-- **Taking a note back.** -/
theorem Inv.unnote (h : S.Inv L n) (hbound : ∀ {x b r}, L.entry x = some (b, r) → b ≤ n)
    (ht : ∀ {b r}, L.entry t = some (b, r) → ¬ S.CanHead r) : S.Inv (L.removeEntry t) n := by
  have hhead : L.head t = none := by
    rcases hd : L.head t with _ | d
    · rfl
    · obtain ⟨b, r, he, hc⟩ := h.head_entry hd
      exact absurd hc (ht he)
  refine h.remove hbound ?_ (fun _ => Ledger.entry_removeEntry) ?_ ?_
  · rintro x b rx l hx hl hb rfl
    obtain ⟨b', r', he, hf⟩ := h.linked hx hl hb
    exact ht he (Or.inl (S.holder_of_follows hf))
  · intro x
    split
    next hxt => rw [hxt]; exact hhead
    · rfl
  · intro w x
    refine ⟨fun hw => ⟨?_, hw⟩, fun hw => hw.2⟩
    rintro rfl
    obtain ⟨d, hd⟩ := h.owns_head hw
    rw [hhead] at hd
    cases hd

end Remove

end Scheme

end Bitmarkd.Lib.Provenance
