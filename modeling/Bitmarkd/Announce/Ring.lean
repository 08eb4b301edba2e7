import Bitmarkd.Announce.Peers

/-!
# The ring of peers

`ReBalance` looks at the peers as a ring, in the order of their keys, and connects to some: the next
ones, the previous ones, and those at eighths of the way round. The offsets are compared before they
are wrapped, and only with the one before.

All offsets are less than one turn ahead of the own index, as long as there is another peer. So
**the connections are well chosen exactly if the tree has at least two entries** (`rebalance_iff`):
each is to another peer, the first is to the next one, the previous one is among them, and no two in
a row are the same. On its own a node is its own next one, and connects to itself.
-/

namespace Bitmarkd.Announce

open Lib Avl

namespace Receptor

variable {l : List Peer} {i : ℕ}

/-- The message is about the peer at the index. -/
def Names (l : List Peer) (j : ℕ) (m : Message) : Prop :=
  ∃ p, l[j]? = some p ∧ m.publicKey = p.entity.publicKey ∧ m.listeners = p.entity.listeners

/-- The messages of a node with this index. -/
structure WellChosen (l : List Peer) (index : ℕ) (messages : List Message) : Prop where
  other : ∀ m ∈ messages, ∃ j < l.length, j ≠ index ∧ Names l j m
  next : 2 ≤ l.length → ∃ m, messages.head? = some m ∧ m.command = .N1 ∧
    Names l ((index + 1) % l.length) m
  previous : 2 ≤ l.length → ∃ m ∈ messages, Names l ((index + l.length - 1) % l.length) m
  consecutive : messages.IsChain fun m m' => m.publicKey ≠ m'.publicKey

/-! ## Offsets -/

section Chosen

variable {index u : ℤ} {n : List (Command × ℤ)} {x : Command × ℤ}

theorem mem_chosen (h : x ∈ chosen index u n) : x ∈ n ∧ x.2 ≠ index := by
  induction n generalizing u with
  | nil => cases h
  | cons y n ih =>
    rw [chosen] at h
    by_cases hskip : y.2 = index ∨ y.2 = u
    · rw [if_pos hskip] at h
      exact ⟨List.mem_cons_of_mem _ (ih h).1, (ih h).2⟩
    · rw [if_neg hskip] at h
      rcases List.mem_cons.mp h with rfl | h
      · exact ⟨List.mem_cons_self, fun heq => hskip (.inl heq)⟩
      · exact ⟨List.mem_cons_of_mem _ (ih h).1, (ih h).2⟩

/-- No offset comes twice in a row. -/
theorem isChain_chosen (index u : ℤ) (n : List (Command × ℤ)) :
    (chosen index u n).IsChain (fun x y => x.2 ≠ y.2) ∧
      ∀ x, (chosen index u n).head? = some x → x.2 ≠ u := by
  induction n generalizing u with
  | nil => exact ⟨.nil, fun x hx => nomatch hx⟩
  | cons y n ih =>
    rw [chosen]
    by_cases hskip : y.2 = index ∨ y.2 = u
    · rw [if_pos hskip]
      exact ih u
    · rw [if_neg hskip]
      refine ⟨List.isChain_cons.mpr ⟨fun x hx => ((ih y.2).2 x hx).symm, (ih y.2).1⟩, ?_⟩
      rintro x ⟨⟩
      exact fun heq => hskip (.inr heq)

/-- Every offset is used, but for that of the node itself and the one before. -/
theorem exists_mem_chosen (hx : x ∈ n) (hindex : x.2 ≠ index) (hu : x.2 ≠ u) :
    ∃ y ∈ chosen index u n, y.2 = x.2 := by
  induction n generalizing u with
  | nil => cases hx
  | cons z n ih =>
    rw [chosen]
    by_cases hskip : z.2 = index ∨ z.2 = u
    · rw [if_pos hskip]
      rcases List.mem_cons.mp hx with rfl | hx
      · exact (hskip.elim hindex hu).elim
      · exact ih hx hu
    · rw [if_neg hskip]
      by_cases hz : z.2 = x.2
      · exact ⟨z, List.mem_cons_self, hz⟩
      · rcases List.mem_cons.mp hx with rfl | hx
        · exact (hz rfl).elim
        · obtain ⟨y, hy, heq⟩ := ih hx (Ne.symm hz)
          exact ⟨y, List.mem_cons_of_mem _ hy, heq⟩

end Chosen

/-- The offsets are from the own index on, and less than one turn ahead. -/
theorem offsets_lt {index count : ℤ} (hcount : 2 ≤ count) {x : Command × ℤ}
    (hx : x ∈ offsets index count) : index ≤ x.2 ∧ x.2 < index + count := by
  unfold offsets at hx
  dsimp only at hx
  by_cases hfew : count < 4
  · rw [if_pos hfew] at hx
    simp only [List.mem_cons, List.not_mem_nil, or_false] at hx
    rcases hx with rfl | rfl | rfl | rfl | rfl | rfl | rfl | rfl | rfl | rfl | rfl <;>
      constructor <;> dsimp only <;> omega
  · rw [if_neg hfew] at hx
    simp only [List.mem_cons, List.not_mem_nil, or_false] at hx
    rcases hx with rfl | rfl | rfl | rfl | rfl | rfl | rfl | rfl | rfl | rfl | rfl <;>
      constructor <;> dsimp only <;> omega

/-! ## Messages -/

/-- The place of an offset in the ring. -/
def place (count : ℕ) (v : ℤ) : ℕ := (if v ≥ count then v - count else v).toNat

theorem connection_eq {x : Command × ℤ} {p : Peer} (hnonneg : 0 ≤ x.2)
    (hp : l[place l.length x.2]? = some p) :
    connection l l.length x = [⟨x.1, p.entity.publicKey, p.entity.listeners⟩] := by
  have hv : ¬ (if x.2 ≥ (l.length : ℤ) then x.2 - l.length else x.2) < 0 := by
    split_ifs <;> omega
  unfold connection
  dsimp only
  rw [if_neg hv, show (if x.2 ≥ (l.length : ℤ) then x.2 - l.length else x.2).toNat =
    place l.length x.2 from rfl, hp]
  rfl

section Places

variable {v w : ℤ} (hv : (i : ℤ) ≤ v ∧ v < i + l.length)

include hv

theorem place_lt (hi : i < l.length) : place l.length v < l.length := by
  unfold place
  split_ifs <;> omega

theorem place_ne (hne : v ≠ i) : place l.length v ≠ i := by
  unfold place
  split_ifs <;> omega

theorem place_inj (hw : (i : ℤ) ≤ w ∧ w < i + l.length)
    (h : place l.length v = place l.length w) : v = w := by
  unfold place at h
  split_ifs at h <;> omega

theorem place_eq_mod (hi : i < l.length) : place l.length v = v.toNat % l.length := by
  unfold place
  by_cases hge : v ≥ (l.length : ℤ)
  · rw [if_pos hge]
    have hlt : (v - l.length).toNat < l.length := by omega
    have hsum : v.toNat = (v - l.length).toNat + l.length := by omega
    rw [hsum, Nat.add_mod_right, Nat.mod_eq_of_lt hlt]
  · rw [if_neg hge, Nat.mod_eq_of_lt (by omega)]

end Places

/-- The message about the peer at an offset. -/
def messageAt (l : List Peer) (x : Command × ℤ) : Message :=
  let e := (l[place l.length x.2]?.map Peer.entity).getD ⟨[], [], 0⟩
  ⟨x.1, e.publicKey, e.listeners⟩

theorem names_messageAt {x : Command × ℤ} (h : place l.length x.2 < l.length) :
    Names l (place l.length x.2) (messageAt l x) := by
  have hp := List.getElem?_eq_getElem h
  refine ⟨l[place l.length x.2], hp, ?_, ?_⟩
  · rw [messageAt, hp]
    rfl
  · rw [messageAt, hp]
    rfl

/-- Peers with the same key are at the same place. -/
theorem Names.inj {m : Connectable} (h : Contains m l) {j k : ℕ} {x y : Message} (hx : Names l j x)
    (hy : Names l k y) (hkey : x.publicKey = y.publicKey) : j = k := by
  obtain ⟨p, hp, hpk, -⟩ := hx
  obtain ⟨q, hq, hqk, -⟩ := hy
  have hkeys : (l.map fun p => p.entity.publicKey).Nodup := by
    apply List.Pairwise.map _ (R := fun p q : Peer => p.entity.publicKey < q.entity.publicKey) _
      h.sorted
    exact fun _ _ hlt => hlt.ne
  have hlt : j < (l.map fun p => p.entity.publicKey).length := by
    rw [List.length_map]
    exact (List.getElem?_eq_some_iff.mp hp).1
  apply (List.getElem?_inj hlt hkeys).mp
  rw [List.getElem?_map, List.getElem?_map, hp, hq]
  exact congrArg some (hpk.symm.trans (hkey.trans hqk))

/-- With another peer in the tree, every offset that is used gives one message. -/
theorem flatMap_connection (hcount : 2 ≤ l.length) (hi : i < l.length) :
    (chosen i (-1) (offsets i l.length)).flatMap (connection l l.length) =
      (chosen i (-1) (offsets i l.length)).map (messageAt l) := by
  rw [List.map_eq_flatMap]
  apply List.flatMap_congr
  intro x hx
  have hrange := offsets_lt (by omega) (mem_chosen hx).1
  have hp := List.getElem?_eq_getElem (place_lt hrange hi)
  rw [connection_eq (by omega) hp, messageAt, hp]
  rfl

theorem wellChosen {m : Connectable} (h : Contains m l) (hcount : 2 ≤ l.length)
    (hi : i < l.length) :
    WellChosen l i
      ((chosen i (-1) (offsets i l.length)).flatMap (connection l l.length)) := by
  have hrange (x : Command × ℤ) (hx : x ∈ chosen i (-1) (offsets i l.length)) :
      (i : ℤ) ≤ x.2 ∧ x.2 < i + l.length := offsets_lt (by omega) (mem_chosen hx).1
  have hnames (x : Command × ℤ) (hx : x ∈ chosen i (-1) (offsets i l.length)) :
      Names l (place l.length x.2) (messageAt l x) :=
    names_messageAt (place_lt (hrange x hx) hi)
  rw [flatMap_connection hcount hi]
  constructor
  · intro y hy
    obtain ⟨x, hx, rfl⟩ := List.mem_map.mp hy
    exact ⟨_, place_lt (hrange x hx) hi, place_ne (hrange x hx) (mem_chosen hx).2, hnames x hx⟩
  · intro _
    have hhead : ∃ rest, chosen i (-1) (offsets i l.length) = (.N1, (i : ℤ) + 1) :: rest := by
      unfold offsets
      dsimp only
      rw [chosen, if_neg (by dsimp only; omega)]
      exact ⟨_, rfl⟩
    obtain ⟨rest, hrest⟩ := hhead
    have hmem : (Command.N1, (i : ℤ) + 1) ∈ chosen i (-1) (offsets i l.length) := by
      rw [hrest]
      exact List.mem_cons_self
    refine ⟨messageAt l (.N1, (i : ℤ) + 1), by rw [hrest]; rfl, rfl, ?_⟩
    have hname := hnames _ hmem
    rwa [place_eq_mod (hrange _ hmem) hi] at hname
  · intro _
    have hP1 : (Command.P1, (i : ℤ) + l.length - 1) ∈ offsets i l.length := by simp [offsets]
    obtain ⟨x, hx, heq⟩ := exists_mem_chosen (u := -1) hP1
      (show (i : ℤ) + l.length - 1 ≠ i by omega) (by dsimp only; omega)
    refine ⟨messageAt l x, List.mem_map_of_mem hx, ?_⟩
    have hname := hnames x hx
    rw [place_eq_mod (hrange x hx) hi, heq] at hname
    have hnat : ((i : ℤ) + l.length - 1).toNat = i + l.length - 1 := by omega
    rwa [← hnat]
  · rw [List.isChain_map]
    refine List.IsChain.imp_of_mem_imp ?_ (isChain_chosen i (-1) (offsets i l.length)).1
    intro x y hx hy hne hkey
    exact hne (place_inj (hrange x hx) (hrange y hy)
      (Names.inj h (hnames x hx) (hnames y hy) hkey))

/-- On its own a node sends a message about itself. -/
theorem not_wellChosen (hcount : l.length = 1) : ¬ WellChosen l 0
    ((chosen (0 : ℕ) (-1) (offsets (0 : ℕ) l.length)).flatMap (connection l l.length)) := by
  obtain ⟨p, rfl⟩ := List.length_eq_one_iff.mp hcount
  intro h
  obtain ⟨j, hj, hne, -⟩ := h.other ⟨.N1, p.entity.publicKey, p.entity.listeners⟩ List.mem_cons_self
  exact hne (Nat.lt_one_iff.mp hj)

/-- **Connections.** For every receptor of a run that has its own node, which is at some index of
the entries, the messages of `ReBalance` are well chosen exactly if there are at least two
entries. -/
theorem rebalance_iff {trace : List (Receptor × Label)} {r : Receptor} {a : Avl.Addr}
    (hrun : ReceptorRun trace r) (hself : r.self = some a) :
    ∃ (l : List Peer) (i : ℕ) (p : Peer) (messages : List Message), r.Holds l ∧ l[i]? = some p ∧
      p.addr = a ∧ p.entity.publicKey = r.id ∧ reBalance r = some (messages, r) ∧
      (WellChosen l i messages ↔ 2 ≤ l.length) := by
  obtain ⟨l, h⟩ := hrun.holds
  rcases reBalance_spec h with ⟨hnone, -⟩ | ⟨i, p, hp, hi, hid, hrun⟩
  · rw [hnone] at hself
    cases hself
  · rw [hp] at hself
    have hlt : i < l.length := (List.getElem?_eq_some_iff.mp hi).1
    refine ⟨l, i, p, _, h, hi, Option.some.inj hself, hid, hrun, ?_⟩
    by_cases hcount : 2 ≤ l.length
    · exact iff_of_true (wellChosen h.tree hcount hlt) hcount
    · have hone : l.length = 1 := by omega
      obtain rfl : i = 0 := by omega
      exact iff_of_false (not_wellChosen hone) hcount

end Receptor

namespace Sample

open Receptor

/-- A node that has just started and knows no others. -/
def alone : Option (Except Fault (List Message) × Receptor) :=
  setSelf (1000 * second) [1] [2] new

theorem alone_connects_to_itself :
    alone.map (fun x => (x.1.toOption, x.2.id, x.2.connectable.count)) =
      some (some [⟨.N1, [1], [2]⟩], [1], 1) := by
  decide +kernel

/-- The node starts, and hears of two others. -/
def threePeers : List Label :=
  [(1000 * second, .setSelf [2] [1]), (1000 * second, .add [1] [1] 1000),
    (1000 * second, .add [3] [1] 1000)]

/-- Make a call, if it does not panic. -/
def exec (r : Receptor) (a : Label) : Option Receptor := (a.2.call a.1 r).map Prod.snd

theorem rebalance_iff_threePeers : ∃ (r : Receptor) (l : List Peer) (i : ℕ)
    (messages : List Message), r.Holds l ∧ l.length = 3 ∧ reBalance r = some (messages, r) ∧
    WellChosen l i messages := by
  have hany : (execute exec threePeers new).any
      (fun r => r.self.isSome ∧ r.connectable.count = 3) = true := by
    decide +kernel
  obtain ⟨r, hr, hfacts⟩ := (Option.any_eq_true _ _).mp hany
  rw [decide_eq_true_eq] at hfacts
  obtain ⟨a, ha⟩ := Option.isSome_iff_exists.mp hfacts.1
  have hrun : ReceptorRun (executeTrace exec threePeers new) r := by
    refine run_of_execute (fun hexec => ?_) hr
    obtain ⟨⟨_, r'⟩, hcall, rfl⟩ := Option.map_eq_some_iff.mp hexec
    exact hcall
  obtain ⟨l, i, p, messages, h, -, -, -, hmessages, hiff⟩ := rebalance_iff hrun ha
  have hlength : l.length = 3 := by
    have hcount := h.tree.count
    omega
  exact ⟨r, l, i, messages, h, hlength, hmessages, hiff.mpr (by omega)⟩

end Sample

end Bitmarkd.Announce
