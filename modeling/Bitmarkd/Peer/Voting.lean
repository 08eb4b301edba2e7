import Bitmarkd.Lib.Table
import Bitmarkd.Peer.ForkChoice

/-!
# Voting

Before it follows a peer, the connector lets its clients vote (`peer/voting/voting.go`). Each client
votes for the digest it has at the local height, votes below a minimum height are dropped, and the
digest with the most votes wins, or the smallest of several with as many.

The votes are kept in a map, and `range` goes through a map in any order; so does every loop here
(`Orders`). The winner should not depend on it, nor on the order of the votes, nor on whether
the election was asked for before. It does, for three reasons.

* `SmallerDigestThan` says that *some* byte is smaller, so in a draw the first of two digests that
  are both smaller than the other stays elected.
* An all-zero digest stays elected if it comes first, and is passed over otherwise.
* The result of a count is kept for the next one, which then finds a draw even if there is a
  single winner; and a draw is an error if the vote that was counted first has height zero, after
  which there is no winner at all.

With enough votes for the leading digests the outcome is right and always the same exactly if none
of these votes has height zero and, in a draw, none of the digests is zero and one of them is
bytewise the smallest (`election_settled_iff`). With too few it is always an error.
-/

namespace Bitmarkd.Voting

open Lib

/-! ## The source -/

/-- What a vote reads of an upstream client. -/
structure Candidate where
  cachedRemoteHeight : UInt64
  cachedRemoteDigestOfLocalHeight : BlockDigest
deriving DecidableEq

/-- `voters`: one vote. -/
structure Voters where
  candidate : Candidate
  height : UInt64
deriving DecidableEq

/-- `records`: the votes for each digest, in the order in which they came. -/
abbrev Records := Table BlockDigest (List Voters)

/-- `electionResult`. -/
structure ElectionResult where
  highestNumVotes : ℕ
  majorityHeight : UInt64
  winner : Option Candidate
  draw : Bool
deriving DecidableEq

/-- The result after `resetResult`. -/
def ElectionResult.reset : ElectionResult := ⟨0, 0, none, false⟩

/-- `VotingData`. -/
structure VotingData where
  votes : Records
  minHeight : UInt64
  result : ElectionResult

/-- `minimumClients`. -/
def minimumClients : ℕ := 5

/-- `NewVoting`. -/
def newVoting : VotingData := ⟨∅, 0, .reset⟩

namespace VotingData

/-- `SetMinHeight`. -/
def setMinHeight (v : VotingData) (height : UInt64) : VotingData := { v with minHeight := height }

/-- `validHeight`. -/
def validHeight (v : VotingData) (height : UInt64) : Bool := height ≥ v.minHeight

/-- `VoteBy`. -/
def voteBy (v : VotingData) (candidate : Candidate) : VotingData :=
  let height := candidate.cachedRemoteHeight
  let digest := candidate.cachedRemoteDigestOfLocalHeight
  if ¬ v.validHeight height then v
  else
    let e : Voters := ⟨candidate, height⟩
    match v.votes.lookup digest with
    | some voters => { v with votes := v.votes.insert digest (voters ++ [e]) }
    | none => { v with votes := v.votes.insert digest [e] }

end VotingData

/-- The entries of the records, in the order in which each of the loops goes through them. -/
structure Orders where
  /-- In `countVotes`. -/
  count : List (BlockDigest × List Voters)
  /-- In `sufficientVotesInDraw`. -/
  sufficient : List (BlockDigest × List Voters)
  /-- In `sameVoteCandidates`. -/
  same : List (BlockDigest × List Voters)

/-- The orders are ones that the loops may take. -/
structure Orders.Of (o : Orders) (votes : Records) : Prop where
  count : votes.Ranges o.count
  sufficient : votes.Ranges o.sufficient
  same : votes.Ranges o.same

/-- `updateTemporarilyVoteSummary`. -/
def updateTemporarilyVoteSummary (r : ElectionResult) : List Voters → ElectionResult
  | [] => r
  | e :: voters => ⟨(e :: voters).length, e.height, some e.candidate, false⟩

/-- The body of the loop of `countVotes`. -/
def countVoters (r : ElectionResult) (voters : List Voters) : ElectionResult :=
  if r.highestNumVotes < voters.length then updateTemporarilyVoteSummary r voters
  else if r.highestNumVotes = voters.length then { r with draw := true }
  else r

/-- The loop of `countVotes`. -/
def countLoop (r : ElectionResult) (order : List (BlockDigest × List Voters)) : ElectionResult :=
  order.foldl (fun r entry => countVoters r entry.2) r

/-- The votes that `sufficientVotesInDraw` adds up. -/
def drawVotes (r : ElectionResult) (order : List (BlockDigest × List Voters)) : ℕ :=
  order.foldl (fun drawVotes entry =>
    if r.highestNumVotes = entry.2.length then drawVotes + entry.2.length else drawVotes) 0

/-- `sufficientVotes`. -/
def sufficientVotes (r : ElectionResult) (order : List (BlockDigest × List Voters)) : Bool :=
  if ¬ r.draw then r.highestNumVotes ≥ (1 + minimumClients) / 2
  else drawVotes r order ≥ (1 + minimumClients) / 2

/-- `sameVoteCandidates`. -/
def sameVoteCandidates (order : List (BlockDigest × List Voters)) (numVote : ℕ) :
    List Candidate :=
  order.filterMap fun entry =>
    if entry.2.length = numVote then entry.2.head?.map Voters.candidate else none

/-- `allZeros`. -/
def allZeros (s : BlockDigest) : Bool := s.bytes.all (· == 0)

/-- The body of the loop of `smallerDigestWinnerFrom`. -/
def smallerDigest (elected target : Candidate) : Candidate :=
  let targetDigest := target.cachedRemoteDigestOfLocalHeight
  let electedDigest := elected.cachedRemoteDigestOfLocalHeight
  if allZeros electedDigest ∨ allZeros targetDigest then elected
  else if ¬ electedDigest.smallerDigestThan targetDigest then target
  else elected

/-- `smallerDigestWinnerFrom`. -/
def smallerDigestWinnerFrom : List Candidate → Except Stop Candidate
  | [] => panicAt .indexOutOfRange
  | elected :: candidates => .ok (candidates.foldl smallerDigest elected)

/-- `drawWinner`. -/
def drawWinner (r : ElectionResult) (order : List (BlockDigest × List Voters)) :
    Except Stop Candidate :=
  if r.highestNumVotes = 0 then fault .votesWithZeroCount
  else if r.majorityHeight = 0 then fault .votesWithZeroHeight
  else smallerDigestWinnerFrom (sameVoteCandidates order r.highestNumVotes)

namespace VotingData

/-- `drawElection`. The winner is assigned even if there is an error. -/
def drawElection (v : VotingData) (order : List (BlockDigest × List Voters)) :
    Except Stop (Candidate × UInt64) × VotingData :=
  match drawWinner v.result order with
  | .error e => (.error e, { v with result := { v.result with winner := none } })
  | .ok winner =>
    (.ok (winner, winner.cachedRemoteHeight),
      { v with result := { v.result with winner := some winner } })

/-- `ElectedCandidate`. -/
def electedCandidate (v : VotingData) (o : Orders) :
    Except Stop (Candidate × UInt64) × VotingData :=
  let v := { v with result := countLoop v.result o.count }
  match v.result.winner with
  | none => (fault .votesWithEmptyWinner, v)
  | some winner =>
    if ¬ sufficientVotes v.result o.sufficient then (fault .votesInsufficient, v)
    else if v.result.draw then v.drawElection o.same
    else (.ok (winner, winner.cachedRemoteHeight), v)

end VotingData

/-! ## What an election should give -/

/-- The votes that are not below the minimum height. -/
def accepted (minHeight : UInt64) (votes : Multiset Candidate) : Multiset Candidate :=
  votes.filter fun c => c.cachedRemoteHeight ≥ minHeight

/-- The number of votes for a digest. -/
def numVotes (votes : Multiset Candidate) (d : BlockDigest) : ℕ :=
  votes.countP fun c => c.cachedRemoteDigestOfLocalHeight = d

/-- The digest has votes, and no digest has more. -/
def Leads (votes : Multiset Candidate) (d : BlockDigest) : Prop :=
  0 < numVotes votes d ∧
    ∀ c ∈ votes, numVotes votes c.cachedRemoteDigestOfLocalHeight ≤ numVotes votes d

instance (votes : Multiset Candidate) : DecidablePred (Leads votes) :=
  fun _ => inferInstanceAs (Decidable (_ ∧ _))

/-- The votes for the digests that lead. -/
def leadingVotes (votes : Multiset Candidate) : Multiset Candidate :=
  votes.filter fun c => Leads votes c.cachedRemoteDigestOfLocalHeight

/-- The digest has the most votes; if others have as many, it is the smallest of those that are not
zero. -/
structure Wins (votes : Multiset Candidate) (d : BlockDigest) : Prop where
  leads : Leads votes d
  smallest : (∃ d', Leads votes d' ∧ d' ≠ d) → d ≠ .zero 32 ∧
    ∀ d', Leads votes d' → d' ≠ .zero 32 → leValue d.bytes ≤ leValue d'.bytes

/-- The voting data after these votes in this order. -/
def cast (minHeight : UInt64) (votes : List Candidate) : VotingData :=
  votes.foldl VotingData.voteBy (newVoting.setMinHeight minHeight)

/-- What is compared of a result: the error, or the digest of the candidate. -/
def outcome : Except Stop (Candidate × UInt64) → Except Stop BlockDigest
  | .error e => .error e
  | .ok (winner, _) => .ok winner.cachedRemoteDigestOfLocalHeight

/-- The outcomes of calls of `ElectedCandidate`, one after the other. -/
inductive Elects : VotingData → List (Except Stop BlockDigest) → Prop
  | nil {v : VotingData} : Elects v []
  | cons {v : VotingData} {o : Orders} {rs : List (Except Stop BlockDigest)} : o.Of v.votes →
      Elects (v.electedCandidate o).2 rs → Elects v (outcome (v.electedCandidate o).1 :: rs)

/-- **What is asked of an election.** There is one outcome for all orders of the votes, all orders
of the loops and all calls, and a digest that is elected wins. -/
def Settled (minHeight : UInt64) (votes : Multiset Candidate) : Prop :=
  ∃ r, (∀ l : List Candidate, ↑l = votes → ∀ rs, Elects (cast minHeight l) rs → ∀ x ∈ rs, x = r) ∧
    ∀ d, r = .ok d → Wins (accepted minHeight votes) d

/-- No leading vote has height zero; in a draw no leading digest is zero, and one is not larger than
any other by `SmallerDigestThan`. -/
structure Clear (votes : Multiset Candidate) : Prop where
  height : ∀ c ∈ leadingVotes votes, c.cachedRemoteHeight ≠ 0
  draw : (∃ d d', Leads votes d ∧ Leads votes d' ∧ d ≠ d') →
    (∀ d, Leads votes d → d ≠ .zero 32) ∧
      ∃ d, Leads votes d ∧ ∀ d', Leads votes d' → d'.smallerDigestThan d = false

/-! ## The records of the votes -/

section Records

variable {v : VotingData} {minHeight : UInt64} {votes : Multiset Candidate} {l : List Candidate}
  {c : Candidate} {d : BlockDigest} {voters : List Voters}

/-- The vote of a candidate. -/
def vote (c : Candidate) : Voters := ⟨c, c.cachedRemoteHeight⟩

/-- The votes for a digest, in their order. -/
def ballots (minHeight : UInt64) (l : List Candidate) (d : BlockDigest) : List Voters :=
  (l.filter fun c => minHeight ≤ c.cachedRemoteHeight ∧ c.cachedRemoteDigestOfLocalHeight = d).map
    vote

theorem voteBy_minHeight : (v.voteBy c).minHeight = v.minHeight := by
  simp only [VotingData.voteBy]
  split_ifs
  · split <;> rfl
  · rfl

theorem voteBy_result : (v.voteBy c).result = v.result := by
  simp only [VotingData.voteBy]
  split_ifs
  · split <;> rfl
  · rfl

theorem lookup_voteBy : (v.voteBy c).votes.lookup d =
    if v.minHeight ≤ c.cachedRemoteHeight ∧ c.cachedRemoteDigestOfLocalHeight = d then
      some ((v.votes.lookup d).getD [] ++ [vote c])
    else v.votes.lookup d := by
  by_cases hv : v.minHeight ≤ c.cachedRemoteHeight
  · by_cases hd : c.cachedRemoteDigestOfLocalHeight = d
    · subst hd
      simp only [VotingData.voteBy, VotingData.validHeight, hv, decide_true,
        not_true_eq_false, if_false, and_self, if_true]
      split
      next voters hlookup =>
        rw [Table.lookup_insert, if_pos rfl, hlookup]
        rfl
      next hlookup =>
        rw [Table.lookup_insert, if_pos rfl, hlookup]
        rfl
    · simp only [VotingData.voteBy, VotingData.validHeight, hv, hd, decide_true,
        not_true_eq_false, if_false, and_false]
      split <;> rw [Table.lookup_insert, if_neg (Ne.symm hd)]
  · simp [VotingData.voteBy, VotingData.validHeight, hv]

theorem cast_concat : cast minHeight (l ++ [c]) = (cast minHeight l).voteBy c := by
  simp [cast]

theorem cast_minHeight : (cast minHeight l).minHeight = minHeight := by
  induction l using List.reverseRecOn with
  | nil => rfl
  | append_singleton l c ih => rw [cast_concat, voteBy_minHeight, ih]

theorem cast_result : (cast minHeight l).result = .reset := by
  induction l using List.reverseRecOn with
  | nil => rfl
  | append_singleton l c ih => rw [cast_concat, voteBy_result, ih]

theorem ballots_concat : ballots minHeight (l ++ [c]) d =
    if minHeight ≤ c.cachedRemoteHeight ∧ c.cachedRemoteDigestOfLocalHeight = d then
      ballots minHeight l d ++ [vote c]
    else ballots minHeight l d := by
  unfold ballots
  rw [List.filter_append, List.map_append]
  split_ifs with h
  · rw [List.filter_singleton, decide_eq_true h]
    rfl
  · rw [List.filter_singleton, decide_eq_false h]
    simp

/-- The records hold the votes for each digest that has some. -/
theorem lookup_cast : (cast minHeight l).votes.lookup d =
    if ballots minHeight l d = [] then none else some (ballots minHeight l d) := by
  induction l using List.reverseRecOn with
  | nil => rfl
  | append_singleton l c ih =>
    rw [cast_concat, lookup_voteBy, cast_minHeight, ballots_concat]
    split_ifs with hd hnil
    · simp at hnil
    · rw [ih]
      split_ifs with hl
      · rw [hl]
        rfl
      · rfl
    · rw [ih, if_pos ‹_›]
    · rw [ih, if_neg ‹_›]

theorem lookup_cast_eq_some : (cast minHeight l).votes.lookup d = some voters ↔
    voters ≠ [] ∧ voters = ballots minHeight l d := by
  rw [lookup_cast]
  split_ifs with h
  · simp only [false_iff, not_and]
    intro hne heq
    exact hne (heq.trans h)
  · rw [Option.some.injEq]
    constructor
    · rintro rfl
      exact ⟨h, rfl⟩
    · rintro ⟨-, rfl⟩
      rfl

theorem length_ballots : (ballots minHeight l d).length = numVotes (accepted minHeight ↑l) d := by
  rw [ballots, List.length_map, numVotes, accepted, Multiset.filter_coe, Multiset.coe_countP,
    List.countP_eq_length_filter, List.filter_filter]
  congr 1
  apply List.filter_congr
  intro c _
  rw [← Bool.decide_and, decide_eq_decide]
  exact and_comm

theorem mem_ballots {e : Voters} (h : e ∈ ballots minHeight l d) :
    e = vote e.candidate ∧ e.candidate ∈ accepted minHeight ↑l ∧
      e.candidate.cachedRemoteDigestOfLocalHeight = d := by
  obtain ⟨c, hc, rfl⟩ := List.mem_map.mp h
  obtain ⟨hmem, hc⟩ := List.mem_filter.mp hc
  have hc := of_decide_eq_true hc
  exact ⟨rfl, Multiset.mem_filter.mpr ⟨hmem, hc.1⟩, hc.2⟩

end Records

/-- The entries of the records: for each digest that has votes the list of them. -/
structure Tally (votes : Multiset Candidate) (order : List (BlockDigest × List Voters)) :
    Prop where
  nodup : (order.map Prod.fst).Nodup
  mem : ∀ {d}, 0 < numVotes votes d → ∃ voters, (d, voters) ∈ order
  length_eq : ∀ {d voters}, (d, voters) ∈ order → voters.length = numVotes votes d
  pos : ∀ {d voters}, (d, voters) ∈ order → 0 < numVotes votes d
  vote : ∀ {d voters e}, (d, voters) ∈ order → e ∈ voters →
    e = vote e.candidate ∧ e.candidate ∈ votes ∧ e.candidate.cachedRemoteDigestOfLocalHeight = d

theorem tally_cast {minHeight : UInt64} {l : List Candidate}
    {order : List (BlockDigest × List Voters)} (h : (cast minHeight l).votes.Ranges order) :
    Tally (accepted minHeight ↑l) order where
  nodup := h.nodup_keys
  mem := by
    intro d hd
    refine ⟨ballots minHeight l d, h.mem_iff.mpr (lookup_cast_eq_some.mpr ⟨?_, rfl⟩)⟩
    rw [← List.length_pos_iff, length_ballots]
    exact hd
  length_eq := by
    intro d voters hmem
    obtain ⟨-, rfl⟩ := lookup_cast_eq_some.mp (h.mem_iff.mp hmem)
    exact length_ballots
  pos := by
    intro d voters hmem
    obtain ⟨hne, rfl⟩ := lookup_cast_eq_some.mp (h.mem_iff.mp hmem)
    rw [← length_ballots]
    exact List.length_pos_iff.mpr hne
  vote := by
    intro d voters e hmem he
    obtain ⟨-, rfl⟩ := lookup_cast_eq_some.mp (h.mem_iff.mp hmem)
    exact mem_ballots he

theorem Tally.ne_nil_of_mem {votes : Multiset Candidate}
    {order : List (BlockDigest × List Voters)} (ht : Tally votes order) :
    ∀ entry ∈ order, entry.2 ≠ [] := by
  rintro ⟨d, voters⟩ hmem
  rw [← List.length_pos_iff, ht.length_eq hmem]
  exact ht.pos hmem

/-! ## Counting -/

section Count

variable {votes : Multiset Candidate} {order : List (BlockDigest × List Voters)}
  {r : ElectionResult} {d d' : BlockDigest} {voters : List Voters}

theorem countLoop_concat {entry : BlockDigest × List Voters} :
    countLoop r (order ++ [entry]) = countVoters (countLoop r order) entry.2 := by
  simp [countLoop]

/-- After a first count the result is about the first of the longest lists. -/
theorem countLoop_reset (hne : order ≠ []) (hpos : ∀ entry ∈ order, entry.2 ≠ []) :
    ∃ l₁ l₂ d e voters, order = l₁ ++ (d, e :: voters) :: l₂ ∧
      (∀ entry ∈ l₁, entry.2.length < (e :: voters).length) ∧
      (∀ entry ∈ l₂, entry.2.length ≤ (e :: voters).length) ∧
      countLoop .reset order = ⟨(e :: voters).length, e.height, some e.candidate,
        l₂.any fun entry => entry.2.length = (e :: voters).length⟩ := by
  induction order using List.reverseRecOn with
  | nil => exact absurd rfl hne
  | append_singleton order entry ih =>
    obtain ⟨d', voters'⟩ := entry
    obtain ⟨e', voters', rfl⟩ := List.exists_cons_of_ne_nil (hpos (d', voters') (by simp))
    rw [countLoop_concat]
    by_cases hnil : order = []
    · subst hnil
      exact ⟨[], [], d', e', voters', rfl, by simp, by simp, rfl⟩
    · obtain ⟨l₁, l₂, d, e, voters, rfl, hlt, hle, hcount⟩ :=
        ih hnil fun entry hentry => hpos entry (List.mem_append_left _ hentry)
      rw [hcount]
      -- the new list is longer, as long, or shorter than the longest so far
      rcases Nat.lt_trichotomy (e :: voters).length (e' :: voters').length with hlen | hlen | hlen
      · refine ⟨l₁ ++ (d, e :: voters) :: l₂, [], d', e', voters', rfl, ?_, by simp, ?_⟩
        · intro entry hentry
          simp only [List.mem_append, List.mem_cons] at hentry
          rcases hentry with h | rfl | h
          · exact (hlt entry h).trans hlen
          · exact hlen
          · exact (hle entry h).trans_lt hlen
        · rw [countVoters, if_pos hlen]
          rfl
      · refine ⟨l₁, l₂ ++ [(d', e' :: voters')], d, e, voters, by simp, hlt, ?_, ?_⟩
        · intro entry hentry
          rcases List.mem_append.mp hentry with h | h
          · exact hle entry h
          · rw [List.mem_singleton.mp h]
            exact hlen.ge
        · rw [countVoters, if_neg (by dsimp only; omega), if_pos hlen]
          simp [hlen.symm]
      · refine ⟨l₁, l₂ ++ [(d', e' :: voters')], d, e, voters, by simp, hlt, ?_, ?_⟩
        · intro entry hentry
          rcases List.mem_append.mp hentry with h | h
          · exact hle entry h
          · rw [List.mem_singleton.mp h]
            exact hlen.le
        · rw [countVoters, if_neg (by dsimp only; omega), if_neg (by dsimp only; omega)]
          have hne : (e' :: voters').length ≠ (e :: voters).length := hlen.ne
          simp only [List.any_append, List.any_cons, List.any_nil, Bool.or_false,
            decide_eq_false hne]

/-- A count that finds no longer list only finds a draw. -/
theorem countLoop_of_le (hle : ∀ entry ∈ order, entry.2.length ≤ r.highestNumVotes) :
    countLoop r order = { r with
      draw := r.draw || order.any fun entry => entry.2.length = r.highestNumVotes } := by
  induction order using List.reverseRecOn with
  | nil => simp [countLoop]
  | append_singleton order entry ih =>
    rw [countLoop_concat, ih fun entry' h => hle entry' (List.mem_append_left _ h)]
    have hlast := hle entry (by simp)
    rw [countVoters, if_neg (by dsimp only; omega)]
    by_cases hlen : r.highestNumVotes = entry.2.length
    · rw [if_pos hlen]
      simp [hlen.symm]
    · rw [if_neg hlen]
      simp [Ne.symm hlen]

/-- What holds of a result between counts, once there are votes. -/
structure Counted (votes : Multiset Candidate) (r : ElectionResult) : Prop where
  leads : ∃ d, Leads votes d
  highest : ∀ d, Leads votes d → numVotes votes d = r.highestNumVotes
  majority : ∃ c ∈ leadingVotes votes, r.majorityHeight = c.cachedRemoteHeight
  draw : r.draw = false → ∀ d d', Leads votes d → Leads votes d' → d = d'

theorem Leads.numVotes_le (h : Leads votes d) (d' : BlockDigest) :
    numVotes votes d' ≤ numVotes votes d := by
  by_cases hpos : 0 < numVotes votes d'
  · obtain ⟨c, hc, rfl⟩ := Multiset.countP_pos.mp hpos
    exact h.2 c hc
  · omega

/-- The leading digests are those whose lists are the longest. -/
theorem Tally.leads_iff (ht : Tally votes order) (hmax : ∃ d, Leads votes d ∧
    numVotes votes d = r.highestNumVotes) (hmem : (d, voters) ∈ order) :
    Leads votes d ↔ voters.length = r.highestNumVotes := by
  obtain ⟨m, hm, hhigh⟩ := hmax
  rw [ht.length_eq hmem]
  constructor
  · intro hd
    exact (le_antisymm (hm.numVotes_le d) (hd.numVotes_le m)).trans hhigh
  · intro hlen
    refine ⟨ht.pos hmem, fun c _ => ?_⟩
    rw [hlen, ← hhigh]
    exact hm.numVotes_le _

theorem Counted.exists_leads (h : Counted votes r) :
    ∃ d, Leads votes d ∧ numVotes votes d = r.highestNumVotes := by
  obtain ⟨d, hd⟩ := h.leads
  exact ⟨d, hd, h.highest d hd⟩

theorem Tally.length_le (ht : Tally votes order) (h : Counted votes r) :
    ∀ entry ∈ order, entry.2.length ≤ r.highestNumVotes := by
  rintro ⟨d, voters⟩ hmem
  obtain ⟨m, hm, hhigh⟩ := h.exists_leads
  rw [ht.length_eq hmem, ← hhigh]
  exact hm.numVotes_le d

/-- The first count. -/
theorem Tally.counted_reset (ht : Tally votes order) (hne : order ≠ []) :
    Counted votes (countLoop .reset order) ∧
      ∃ c, (countLoop .reset order).winner = some c ∧
        Leads votes c.cachedRemoteDigestOfLocalHeight := by
  obtain ⟨l₁, l₂, d, e, voters, rfl, hlt, hle, hcount⟩ := countLoop_reset hne ht.ne_nil_of_mem
  have hmem : (d, e :: voters) ∈ l₁ ++ (d, e :: voters) :: l₂ := by simp
  obtain ⟨hvote, hcand, hdigest⟩ := ht.vote hmem List.mem_cons_self
  -- the list that the result is about is one of the longest
  have hleads : Leads votes d := by
    refine ⟨ht.pos hmem, fun c hc => ?_⟩
    obtain ⟨voters', hmem'⟩ := ht.mem (Multiset.countP_pos.mpr ⟨c, hc, rfl⟩)
    rw [← ht.length_eq hmem, ← ht.length_eq hmem']
    simp only [List.mem_append, List.mem_cons] at hmem'
    rcases hmem' with h | h | h
    · exact (hlt _ h).le
    · rw [(Prod.mk.inj h).2]
    · exact hle _ h
  rw [hcount]
  refine ⟨⟨⟨d, hleads⟩, fun d' hd' => ?_, ⟨e.candidate, ?_, ?_⟩, fun hdraw d₁ d₂ h₁ h₂ => ?_⟩,
    e.candidate, rfl, hdigest ▸ hleads⟩
  · rw [ht.length_eq hmem]
    exact le_antisymm (hleads.numVotes_le d') (hd'.numVotes_le d)
  · exact Multiset.mem_filter.mpr ⟨hcand, hdigest ▸ hleads⟩
  · rw [hvote]
    rfl
  · -- without a draw there is no other list of this length
    have honly : ∀ d', Leads votes d' → d' = d := by
      intro d' hd'
      obtain ⟨voters', hmem'⟩ := ht.mem hd'.1
      have hlen : voters'.length = (e :: voters).length := by
        rw [ht.length_eq hmem', ht.length_eq hmem]
        exact le_antisymm (hleads.numVotes_le d') (hd'.numVotes_le d)
      simp only [List.mem_append, List.mem_cons] at hmem'
      rcases hmem' with h | h | h
      · exact absurd hlen (hlt _ h).ne
      · exact (Prod.mk.inj h).1
      · simp only [List.any_eq_false, decide_eq_true_eq] at hdraw
        exact absurd hlen (hdraw _ h)
    rw [honly d₁ h₁, honly d₂ h₂]

/-- A later count finds a draw. -/
theorem Tally.countLoop_eq (ht : Tally votes order) (h : Counted votes r) :
    countLoop r order = { r with draw := true } := by
  rw [countLoop_of_le (ht.length_le h)]
  obtain ⟨m, hm, hhigh⟩ := h.exists_leads
  obtain ⟨voters, hmem⟩ := ht.mem hm.1
  have hany : (order.any fun entry => entry.2.length = r.highestNumVotes) = true := by
    rw [List.any_eq_true]
    exact ⟨(m, voters), hmem, decide_eq_true ((ht.leads_iff ⟨m, hm, hhigh⟩ hmem).mp hm)⟩
  rw [hany, Bool.or_true]

theorem Counted.of_draw (h : Counted votes r) (w : Option Candidate) :
    Counted votes { r with draw := true, winner := w } :=
  ⟨h.leads, h.highest, h.majority, fun hdraw => nomatch hdraw⟩

/-! ## Enough votes -/

/-- The votes for different digests are different votes. -/
theorem sum_numVotes (votes : Multiset Candidate) {ds : List BlockDigest} (hd : ds.Nodup) :
    (ds.map (numVotes votes)).sum =
      votes.countP fun c => c.cachedRemoteDigestOfLocalHeight ∈ ds := by
  induction ds with
  | nil => simp
  | cons d ds ih =>
    obtain ⟨hnot, hd⟩ := List.nodup_cons.mp hd
    rw [List.map_cons, List.sum_cons, ih hd]
    simp only [numVotes, Multiset.countP_eq_card_filter]
    rw [← Multiset.card_add, Multiset.filter_add_filter, Multiset.card_add]
    have hnone : (votes.filter fun c => c.cachedRemoteDigestOfLocalHeight = d ∧
        c.cachedRemoteDigestOfLocalHeight ∈ ds) = 0 := by
      rw [Multiset.filter_eq_nil]
      rintro c - ⟨rfl, hc⟩
      exact hnot hc
    simp only [List.mem_cons, hnone, Multiset.card_zero, Nat.add_zero]

theorem drawVotes_eq : drawVotes r order =
    ((order.filter fun entry => r.highestNumVotes = entry.2.length).map
      fun entry => entry.2.length).sum := by
  induction order using List.reverseRecOn with
  | nil => rfl
  | append_singleton order entry ih =>
    have hconcat : drawVotes r (order ++ [entry]) =
        if r.highestNumVotes = entry.2.length then drawVotes r order + entry.2.length
        else drawVotes r order := by
      simp [drawVotes]
    rw [hconcat, ih, List.filter_append, List.map_append, List.sum_append]
    by_cases h : r.highestNumVotes = entry.2.length
    · rw [if_pos h, List.filter_singleton, decide_eq_true h]
      simp
    · rw [if_neg h, List.filter_singleton, decide_eq_false h]
      simp

theorem Tally.drawVotes_eq_card (ht : Tally votes order) (h : Counted votes r) :
    drawVotes r order = (leadingVotes votes).card := by
  rw [drawVotes_eq]
  have hlengths : ((order.filter fun entry => r.highestNumVotes = entry.2.length).map
      fun entry => entry.2.length) = ((order.filter fun entry =>
        r.highestNumVotes = entry.2.length).map Prod.fst).map (numVotes votes) := by
    rw [List.map_map]
    apply List.map_congr_left
    rintro ⟨d, voters⟩ hmem
    exact ht.length_eq (List.mem_of_mem_filter hmem)
  have hnodup := ht.nodup.sublist ((List.filter_sublist (l := order)
    (p := fun entry => r.highestNumVotes = entry.2.length)).map Prod.fst)
  rw [hlengths, sum_numVotes votes hnodup, leadingVotes, ← Multiset.countP_eq_card_filter]
  apply Multiset.countP_congr rfl
  intro c hc
  obtain ⟨voters, hmem⟩ := ht.mem (Multiset.countP_pos.mpr ⟨c, hc, rfl⟩)
  rw [ht.leads_iff h.exists_leads hmem, List.mem_map, eq_iff_iff]
  constructor
  · rintro ⟨⟨d, voters'⟩, hmem', heq⟩
    obtain rfl : d = c.cachedRemoteDigestOfLocalHeight := heq
    obtain ⟨hmem', hlen⟩ := List.mem_filter.mp hmem'
    rw [ht.length_eq hmem, ← ht.length_eq hmem']
    exact (of_decide_eq_true hlen).symm
  · intro hlen
    exact ⟨_, List.mem_filter.mpr ⟨hmem, decide_eq_true hlen.symm⟩, rfl⟩

/-- Whether there are enough votes does not depend on a draw. -/
theorem Tally.sufficientVotes_iff (ht : Tally votes order) (h : Counted votes r) :
    sufficientVotes r order = true ↔ 3 ≤ (leadingVotes votes).card := by
  cases hdraw : r.draw with
  | true => simp [sufficientVotes, hdraw, ht.drawVotes_eq_card h, minimumClients]
  | false =>
    have hcard : (leadingVotes votes).card = r.highestNumVotes := by
      obtain ⟨d, hd, hhigh⟩ := h.exists_leads
      rw [← hhigh, numVotes, leadingVotes, ← Multiset.countP_eq_card_filter]
      apply Multiset.countP_congr rfl
      intro c _
      rw [eq_iff_iff]
      constructor
      · intro hc
        exact h.draw hdraw _ _ hc hd
      · rintro rfl
        exact hd
    simp [sufficientVotes, hdraw, hcard, minimumClients]

/-! ## Draws -/

theorem allZeros_iff {s : BlockDigest} : allZeros s = true ↔ s = .zero 32 := by
  unfold allZeros
  rw [List.all_eq_true, ← FixedBytes.bytes_inj]
  constructor
  · intro h
    have hrep := List.eq_replicate_of_mem fun b hb => eq_of_beq (h b hb)
    rw [hrep, s.length_bytes]
    rfl
  · intro h
    rw [h]
    intro b hb
    exact beq_iff_eq.mpr (List.eq_of_mem_replicate hb)

/-- The candidates of a draw have the leading digests, each once. -/
theorem Tally.mem_sameVoteCandidates (ht : Tally votes order) (h : Counted votes r)
    {c : Candidate} (hc : c ∈ sameVoteCandidates order r.highestNumVotes) :
    Leads votes c.cachedRemoteDigestOfLocalHeight := by
  obtain ⟨⟨d, voters⟩, hmem, heq⟩ := List.mem_filterMap.mp hc
  split_ifs at heq with hlen
  obtain ⟨e, he, rfl⟩ := Option.map_eq_some_iff.mp heq
  rw [(ht.vote hmem (List.mem_of_head? he)).2.2]
  exact (ht.leads_iff h.exists_leads hmem).mpr hlen

theorem Tally.exists_sameVoteCandidate (ht : Tally votes order) (h : Counted votes r)
    (hd : Leads votes d) : ∃ c ∈ sameVoteCandidates order r.highestNumVotes,
      c.cachedRemoteDigestOfLocalHeight = d := by
  obtain ⟨voters, hmem⟩ := ht.mem hd.1
  have hlen := (ht.leads_iff h.exists_leads hmem).mp hd
  obtain ⟨e, voters, rfl⟩ : ∃ e rest, voters = e :: rest := by
    apply List.exists_cons_of_ne_nil
    rw [← List.length_pos_iff, ht.length_eq hmem]
    exact hd.1
  refine ⟨e.candidate, List.mem_filterMap.mpr ⟨_, hmem, ?_⟩, (ht.vote hmem List.mem_cons_self).2.2⟩
  rw [if_pos hlen]
  rfl

theorem smallerDigest_eq_or (c c' : Candidate) :
    smallerDigest c c' = c ∨ smallerDigest c c' = c' := by
  simp only [smallerDigest]
  split_ifs <;> simp

theorem foldl_smallerDigest_mem (c : Candidate) (cs : List Candidate) :
    cs.foldl smallerDigest c ∈ c :: cs := by
  induction cs generalizing c with
  | nil => simp
  | cons c' cs ih =>
    rw [List.foldl_cons]
    rcases smallerDigest_eq_or c c' with h | h
    · rw [h]
      rcases List.mem_cons.mp (ih c) with hmem | hmem
      · rw [hmem]
        exact List.mem_cons_self
      · exact List.mem_cons_of_mem _ (List.mem_cons_of_mem _ hmem)
    · rw [h]
      exact List.mem_cons_of_mem _ (ih c')

/-- A digest that is bytewise the smallest is elected, wherever it stands. -/
theorem foldl_smallerDigest_eq {c : Candidate} {cs : List Candidate}
    (hzero : ∀ x ∈ c :: cs, x.cachedRemoteDigestOfLocalHeight ≠ .zero 32)
    (hmem : ∃ x ∈ c :: cs, x.cachedRemoteDigestOfLocalHeight = d)
    (hle : ∀ x ∈ c :: cs, x.cachedRemoteDigestOfLocalHeight.smallerDigestThan d = false) :
    (cs.foldl smallerDigest c).cachedRemoteDigestOfLocalHeight = d := by
  induction cs generalizing c with
  | nil => simpa using hmem
  | cons c' cs ih =>
    rw [List.foldl_cons]
    have hz (x : Candidate) (hx : x ∈ c :: c' :: cs) :
        ¬ allZeros x.cachedRemoteDigestOfLocalHeight = true :=
      fun h => hzero x hx (allZeros_iff.mp h)
    have hstep : smallerDigest c c' =
        if c.cachedRemoteDigestOfLocalHeight.smallerDigestThan c'.cachedRemoteDigestOfLocalHeight
        then c else c' := by
      simp only [smallerDigest]
      rw [if_neg (not_or.mpr ⟨hz c (by simp), hz c' (by simp)⟩), ite_not]
    have hor := smallerDigest_eq_or c c'
    have hsub : ∀ x ∈ smallerDigest c c' :: cs, x ∈ c :: c' :: cs := by
      intro x hx
      rcases List.mem_cons.mp hx with rfl | hx
      · rcases hor with h | h <;> simp [h]
      · simp [hx]
    refine ih (fun x hx => hzero x (hsub x hx)) ?_ fun x hx => hle x (hsub x hx)
    obtain ⟨x, hx, hxd⟩ := hmem
    rcases List.mem_cons.mp hx with rfl | hx
    · -- the smallest stands first, and stays unless the second is the same digest
      refine ⟨smallerDigest x c', List.mem_cons_self, ?_⟩
      rw [hstep]
      split_ifs with hs
      · exact hxd
      · have hle₁ := BlockDigest.smallerDigestThan_eq_false.mp (hle c' (by simp))
        have hle₂ := BlockDigest.smallerDigestThan_eq_false.mp (Bool.not_eq_true _ ▸ hs)
        rw [hxd] at hle₂
        by_contra hne
        exact BlockDigest.leValue_ne hne (le_antisymm hle₂.leValue_le hle₁.leValue_le)
    · rcases List.mem_cons.mp hx with rfl | hx
      · refine ⟨smallerDigest c x, List.mem_cons_self, ?_⟩
        rw [hstep, hxd, if_neg (by simp [hle c (by simp)])]
        exact hxd
      · exact ⟨x, List.mem_cons_of_mem _ hx, hxd⟩

/-- The digest that is elected: the only one that leads, or the bytewise smallest of several, none
of which is zero. -/
def Elected (votes : Multiset Candidate) (d : BlockDigest) : Prop :=
  Leads votes d ∧ ((∀ d', Leads votes d' → d' = d) ∨
    (∀ d', Leads votes d' → d' ≠ .zero 32) ∧
      ∀ d', Leads votes d' → d'.smallerDigestThan d = false)

theorem Clear.exists_elected (hc : Clear votes) (hl : ∃ d, Leads votes d) :
    ∃ d, Elected votes d := by
  obtain ⟨d, hd⟩ := hl
  by_cases hdraw : ∃ d d', Leads votes d ∧ Leads votes d' ∧ d ≠ d'
  · obtain ⟨hzero, m, hm, hle⟩ := hc.draw hdraw
    exact ⟨m, hm, Or.inr ⟨hzero, hle⟩⟩
  · refine ⟨d, hd, Or.inl fun d' hd' => ?_⟩
    by_contra hne
    exact hdraw ⟨d', d, hd', hd, hne⟩

theorem Elected.wins (h : Elected votes d) : Wins votes d := by
  refine ⟨h.1, ?_⟩
  rintro ⟨d', hd', hne⟩
  rcases h.2 with honly | ⟨hzero, hle⟩
  · exact absurd (honly d' hd') hne
  · refine ⟨hzero d h.1, fun d'' hd'' _ => ?_⟩
    exact (BlockDigest.smallerDigestThan_eq_false.mp (hle d'' hd'')).leValue_le

/-- The candidates of a draw are not none. -/
theorem Tally.sameVoteCandidates_eq (ht : Tally votes order) (h : Counted votes r) :
    ∃ c cs, sameVoteCandidates order r.highestNumVotes = c :: cs := by
  obtain ⟨d, hd⟩ := h.leads
  obtain ⟨c, hc, -⟩ := ht.exists_sameVoteCandidate h hd
  exact List.exists_cons_of_ne_nil (List.ne_nil_of_mem hc)

theorem Counted.drawWinner_eq (h : Counted votes r) (order : List (BlockDigest × List Voters))
    (hheight : r.majorityHeight ≠ 0) : drawWinner r order =
      smallerDigestWinnerFrom (sameVoteCandidates order r.highestNumVotes) := by
  obtain ⟨d, hd, hhigh⟩ := h.exists_leads
  have hpos := hd.1
  rw [drawWinner, if_neg (by omega), if_neg hheight]

/-- A draw elects that digest. -/
theorem Elected.drawWinner (he : Elected votes d) (ht : Tally votes order) (h : Counted votes r)
    (hheight : r.majorityHeight ≠ 0) : ∃ c, Voting.drawWinner r order = .ok c ∧
      c.cachedRemoteDigestOfLocalHeight = d := by
  obtain ⟨c, cs, hcs⟩ := ht.sameVoteCandidates_eq h
  rw [h.drawWinner_eq order hheight, hcs]
  refine ⟨_, rfl, ?_⟩
  have hleads : ∀ x ∈ c :: cs, Leads votes x.cachedRemoteDigestOfLocalHeight := by
    intro x hx
    rw [← hcs] at hx
    exact ht.mem_sameVoteCandidates h hx
  rcases he.2 with honly | ⟨hzero, hle⟩
  · exact honly _ (hleads _ (foldl_smallerDigest_mem c cs))
  · refine foldl_smallerDigest_eq (fun x hx => hzero _ (hleads x hx)) ?_
      fun x hx => hle _ (hleads x hx)
    rw [← hcs]
    exact ht.exists_sameVoteCandidate h he.1

end Count

/-! ## Elections -/

section Elections

variable {votes : Multiset Candidate} {v : VotingData} {o : Orders} {minHeight : UInt64}
  {d : BlockDigest} {l : List Candidate}

/-- The records are those of the votes. -/
def Holds (votes : Multiset Candidate) (v : VotingData) : Prop :=
  ∀ order, v.votes.Ranges order → Tally votes order

theorem holds_cast (minHeight : UInt64) (l : List Candidate) :
    Holds (accepted minHeight ↑l) (cast minHeight l) := fun _ h => tally_cast h

/-- The result before a call: that of no count, or that of a count that had a winner. -/
def Ready (votes : Multiset Candidate) (r : ElectionResult) : Prop :=
  r = .reset ∨ Counted votes r ∧ ∃ c, r.winner = some c ∧
    Leads votes c.cachedRemoteDigestOfLocalHeight

theorem Tally.ne_nil {order : List (BlockDigest × List Voters)} (ht : Tally votes order)
    (hne : votes ≠ 0) : order ≠ [] := by
  obtain ⟨c, hc⟩ := Multiset.exists_mem_of_ne_zero hne
  obtain ⟨voters, hmem⟩ := ht.mem (Multiset.countP_pos.mpr ⟨c, hc, rfl⟩)
  exact List.ne_nil_of_mem hmem

/-- A count gives a winner that leads. -/
theorem Ready.countLoop {r : ElectionResult} {order : List (BlockDigest × List Voters)}
    (h : Ready votes r) (ht : Tally votes order) (hne : votes ≠ 0) :
    Counted votes (Voting.countLoop r order) ∧
      ∃ c, (Voting.countLoop r order).winner = some c ∧
        Leads votes c.cachedRemoteDigestOfLocalHeight := by
  rcases h with rfl | ⟨hr, hwinner⟩
  · exact ht.counted_reset (ht.ne_nil hne)
  · rw [ht.countLoop_eq hr]
    exact ⟨hr.of_draw _, hwinner⟩

/-- The outcome if there are votes. -/
def expected (votes : Multiset Candidate) (d : BlockDigest) : Except Stop BlockDigest :=
  if 3 ≤ (leadingVotes votes).card then .ok d else fault .votesInsufficient

/-- **One call**, when the votes are clear. -/
theorem Ready.electedCandidate (hr : Ready votes v.result) (hv : Holds votes v)
    (ho : o.Of v.votes) (hne : votes ≠ 0)
    (hclear : 3 ≤ (leadingVotes votes).card → Clear votes ∧ Elected votes d) :
    outcome (v.electedCandidate o).1 = expected votes d ∧
      (v.electedCandidate o).2.votes = v.votes ∧ Ready votes (v.electedCandidate o).2.result := by
  obtain ⟨hcounted, c, hwinner, hleads⟩ := hr.countLoop (hv _ ho.count) hne
  have hsuff := (hv _ ho.sufficient).sufficientVotes_iff hcounted
  simp only [VotingData.electedCandidate, hwinner]
  by_cases hcard : 3 ≤ (leadingVotes votes).card
  · obtain ⟨hclear, he⟩ := hclear hcard
    rw [expected, if_pos hcard, if_neg (not_not.mpr (hsuff.mpr hcard))]
    cases hdraw : (Voting.countLoop v.result o.count).draw with
    | false =>
      rw [if_neg Bool.false_ne_true]
      refine ⟨congrArg Except.ok ?_, rfl, Or.inr ⟨hcounted, c, hwinner, hleads⟩⟩
      exact hcounted.draw hdraw _ _ hleads he.1
    | true =>
      have hheight : (Voting.countLoop v.result o.count).majorityHeight ≠ 0 := by
        obtain ⟨c, hc, heq⟩ := hcounted.majority
        rw [heq]
        exact hclear.height c hc
      obtain ⟨c, hdrawn, hd⟩ := he.drawWinner (hv _ ho.same) hcounted hheight
      rw [if_pos rfl]
      simp only [VotingData.drawElection, hdrawn, outcome, hd]
      refine ⟨trivial, trivial, Or.inr ⟨?_, c, rfl, hd.symm ▸ he.1⟩⟩
      have := hcounted.of_draw (some c)
      rwa [← hdraw] at this
  · rw [expected, if_neg hcard, if_pos (fun h => hcard (hsuff.mp h))]
    exact ⟨rfl, rfl, Or.inr ⟨hcounted, c, hwinner, hleads⟩⟩

/-- All calls, when the votes are clear. -/
theorem Elects.eq_expected {rs : List (Except Stop BlockDigest)} (h : Elects v rs)
    (hr : Ready votes v.result) (hv : Holds votes v) (hne : votes ≠ 0)
    (hclear : 3 ≤ (leadingVotes votes).card → Clear votes ∧ Elected votes d) :
    ∀ x ∈ rs, x = expected votes d := by
  induction h with
  | nil => simp
  | @cons v o rs ho _ ih =>
    obtain ⟨hout, hvotes, hready⟩ := hr.electedCandidate hv ho hne hclear
    have hholds : Holds votes (v.electedCandidate o).2 := by
      rw [Holds, hvotes]
      exact hv
    rw [List.forall_mem_cons]
    exact ⟨hout, ih hready hholds⟩

/-- Without votes there is never a winner. -/
theorem Elects.eq_empty {rs : List (Except Stop BlockDigest)} (h : Elects v rs)
    (hr : v.result = .reset) (hv : Holds 0 v) : ∀ x ∈ rs, x = fault .votesWithEmptyWinner := by
  induction h with
  | nil => simp
  | @cons v o rs ho _ ih =>
    have hnil : o.count = [] := by
      apply List.eq_nil_iff_forall_not_mem.mpr
      rintro ⟨d, voters⟩ hmem
      exact absurd ((hv _ ho.count).pos hmem) (by simp [numVotes])
    have hcall : v.electedCandidate o = (fault .votesWithEmptyWinner, v) := by
      obtain ⟨votes, minHeight, result⟩ := v
      obtain rfl : result = .reset := hr
      simp only [VotingData.electedCandidate, hnil]
      rfl
    rw [hcall] at ih ⊢
    rw [List.forall_mem_cons]
    exact ⟨rfl, ih hr hv⟩

theorem settled_of_clear
    (hclear : 3 ≤ (leadingVotes (accepted minHeight votes)).card →
      Clear (accepted minHeight votes)) : Settled minHeight votes := by
  by_cases hne : accepted minHeight votes = 0
  · refine ⟨fault .votesWithEmptyWinner, ?_, fun d hd => nomatch hd⟩
    rintro l rfl rs hrs
    exact hrs.eq_empty cast_result (hne ▸ holds_cast minHeight l)
  · -- someone leads, as the first count shows
    have hleads : ∃ d, Leads (accepted minHeight votes) d := by
      obtain ⟨l, rfl⟩ := Quot.exists_rep votes
      obtain ⟨order, horder⟩ := Table.exists_ranges (cast minHeight l).votes
      have ht := tally_cast horder
      exact (ht.counted_reset (ht.ne_nil hne)).1.leads
    have helected : ∃ d, 3 ≤ (leadingVotes (accepted minHeight votes)).card →
        Clear (accepted minHeight votes) ∧ Elected (accepted minHeight votes) d := by
      by_cases hcard : 3 ≤ (leadingVotes (accepted minHeight votes)).card
      · obtain ⟨d, hd⟩ := (hclear hcard).exists_elected hleads
        exact ⟨d, fun _ => ⟨hclear hcard, hd⟩⟩
      · obtain ⟨d, -⟩ := hleads
        exact ⟨d, fun h => absurd h hcard⟩
    obtain ⟨d, hd⟩ := helected
    refine ⟨expected (accepted minHeight votes) d, ?_, ?_⟩
    · rintro l rfl rs hrs
      exact hrs.eq_expected (Or.inl cast_result) (holds_cast minHeight l) hne hd
    · intro d' heq
      unfold expected at heq
      split_ifs at heq with hcard
      · obtain rfl := Except.ok.inj heq
        exact (hd hcard).2.wins
      · cases heq

/-! ## What the condition is needed for -/

theorem electedCandidate_votes : (v.electedCandidate o).2.votes = v.votes := by
  simp only [VotingData.electedCandidate, VotingData.drawElection]
  split
  · rfl
  · split_ifs
    · split <;> rfl
    · rfl
    · rfl

theorem Elects.single (ho : o.Of v.votes) : Elects v [outcome (v.electedCandidate o).1] :=
  .cons ho .nil

theorem Elects.twice (ho : o.Of v.votes) : Elects v [outcome (v.electedCandidate o).1,
    outcome ((v.electedCandidate o).2.electedCandidate o).1] := by
  have ho' : o.Of (v.electedCandidate o).2.votes := by rwa [electedCandidate_votes]
  exact .cons ho (.cons ho' .nil)

/-- A call that finds a draw. -/
theorem electedCandidate_draw {r : ElectionResult} {c : Candidate}
    (hr : countLoop v.result o.count = r) (hwinner : r.winner = some c)
    (hsuff : sufficientVotes r o.sufficient = true) (hdraw : r.draw = true) :
    v.electedCandidate o = { v with result := r }.drawElection o.same := by
  simp only [VotingData.electedCandidate, hr, hwinner, hsuff, hdraw, not_true_eq_false, if_false,
    if_true]

/-- If a leading list stands first, its first vote gives the height. -/
theorem majorityHeight_cons {order : List (BlockDigest × List Voters)} {e : Voters}
    {voters : List Voters} (ht : Tally votes ((d, e :: voters) :: order)) (hd : Leads votes d) :
    (countLoop .reset ((d, e :: voters) :: order)).majorityHeight = e.height := by
  obtain ⟨l₁, l₂, d', e', voters', heq, hlt, -, hcount⟩ :=
    countLoop_reset (by simp) ht.ne_nil_of_mem
  rw [hcount]
  cases l₁ with
  | nil =>
    rw [List.nil_append, List.cons.injEq, Prod.mk.injEq, List.cons.injEq] at heq
    rw [heq.1.2.1]
  | cons entry l₁ =>
    rw [List.cons_append, List.cons.injEq] at heq
    have hlen := hlt (d, e :: voters) (heq.1 ▸ List.mem_cons_self)
    have hmem' : (d', e' :: voters') ∈ (d, e :: voters) :: order := by
      rw [heq.2]
      simp
    rw [ht.length_eq List.mem_cons_self, ht.length_eq hmem'] at hlen
    exact absurd (hd.numVotes_le d') (by omega)

/-- If the count gave height zero, the first call or the second is an error, and they differ. -/
theorem outcomes_ne_of_zero_height {r : ElectionResult}
    {order : List (BlockDigest × List Voters)} (ht : Tally votes order)
    (hcard : 3 ≤ (leadingVotes votes).card) (hv : v.result = .reset)
    (hr : countLoop .reset order = r) (hzero : r.majorityHeight = 0) :
    outcome (v.electedCandidate ⟨order, order, order⟩).1 ≠
      outcome ((v.electedCandidate ⟨order, order, order⟩).2.electedCandidate
        ⟨order, order, order⟩).1 := by
  have hne : votes ≠ 0 := by
    rintro rfl
    simp [leadingVotes] at hcard
  obtain ⟨hcounted, c, hwinner, -⟩ := ht.counted_reset (ht.ne_nil hne)
  rw [hr] at hcounted hwinner
  have hfail (w : Option Candidate) :
      drawWinner { r with winner := w, draw := true } order = fault .votesWithZeroHeight := by
    obtain ⟨d, hd, hhigh⟩ := hcounted.exists_leads
    have hpos := hd.1
    rw [drawWinner, if_neg (by dsimp only; omega), if_pos hzero]
  have hsuff := (ht.sufficientVotes_iff hcounted).mpr hcard
  have hcount : countLoop v.result order = r := by rw [hv, hr]
  cases hdraw : r.draw with
  | true =>
    -- the first call is an error, and leaves no winner
    have hr' : r = { r with winner := r.winner, draw := true } := by rw [← hdraw]
    have hfirst : v.electedCandidate ⟨order, order, order⟩ =
        (fault .votesWithZeroHeight, { v with result := { r with winner := none } }) := by
      rw [electedCandidate_draw hcount hwinner hsuff hdraw, VotingData.drawElection]
      rw [show drawWinner r order = fault .votesWithZeroHeight by rw [hr', hfail]]
      rfl
    have hsecond : countLoop { r with winner := none } order =
        { r with winner := none, draw := true } := by
      rw [ht.countLoop_eq]
      have := hcounted.of_draw none
      rwa [← hdraw] at this
    rw [hfirst]
    simp only [VotingData.electedCandidate, hsecond]
    simp [outcome, fault]
  | false =>
    -- the second call finds a draw
    have hfirst : v.electedCandidate ⟨order, order, order⟩ =
        (.ok (c, c.cachedRemoteHeight), { v with result := r }) := by
      simp only [VotingData.electedCandidate, hcount, hwinner, hsuff, hdraw, not_true_eq_false,
        if_false, Bool.false_eq_true]
    have hcounted' := hcounted.of_draw r.winner
    have hsecond : ({ v with result := r } : VotingData).electedCandidate ⟨order, order, order⟩ =
        { v with result := { r with draw := true } }.drawElection order :=
      electedCandidate_draw (ht.countLoop_eq hcounted) hwinner
        ((ht.sufficientVotes_iff hcounted').mpr hcard) rfl
    rw [hfirst, hsecond, VotingData.drawElection, hfail r.winner]
    simp [outcome, fault]

/-- A leading vote of height zero may be the one that is counted. -/
theorem not_settled_of_zero_height {c : Candidate}
    (hcard : 3 ≤ (leadingVotes (accepted minHeight votes)).card)
    (hc : c ∈ leadingVotes (accepted minHeight votes)) (hzero : c.cachedRemoteHeight = 0) :
    ¬ Settled minHeight votes := by
  rintro ⟨r, hall, -⟩
  obtain ⟨hacc, hd⟩ := Multiset.mem_filter.mp hc
  obtain ⟨hmem, hmin⟩ := Multiset.mem_filter.mp hacc
  obtain ⟨t, rfl⟩ := Multiset.exists_cons_of_mem hmem
  obtain ⟨l, rfl⟩ := Quot.exists_rep t
  have hlookup : (cast minHeight (c :: l)).votes.lookup c.cachedRemoteDigestOfLocalHeight =
      some (vote c :: ballots minHeight l c.cachedRemoteDigestOfLocalHeight) := by
    refine lookup_cast_eq_some.mpr ⟨by simp, ?_⟩
    rw [ballots, ballots, List.filter_cons_of_pos (by simpa using hmin), List.map_cons]
  obtain ⟨order, horder⟩ := Table.exists_ranges (cast minHeight (c :: l)).votes
  obtain ⟨rest, hrest⟩ := horder.exists_cons hlookup
  have ht := holds_cast minHeight (c :: l) _ hrest
  have hne := outcomes_ne_of_zero_height (v := cast minHeight (c :: l)) ht hcard cast_result rfl
    ((majorityHeight_cons ht hd).trans hzero)
  have htwice := hall (c :: l) rfl _ (Elects.twice (o := ⟨_, _, _⟩) ⟨hrest, hrest, hrest⟩)
  simp only [List.forall_mem_cons] at htwice
  exact hne (htwice.1.trans htwice.2.1.symm)

/-- What a draw gives, in any order of the candidates. -/
theorem outcome_of_draw {order same : List (BlockDigest × List Voters)} {c : Candidate}
    {cs : List Candidate} (ht : Tally votes order) (hcard : 3 ≤ (leadingVotes votes).card)
    (hheight : ∀ c ∈ leadingVotes votes, c.cachedRemoteHeight ≠ 0)
    (hdraw : ∃ d d', Leads votes d ∧ Leads votes d' ∧ d ≠ d') (hv : v.result = .reset)
    (hsame : sameVoteCandidates same (countLoop .reset order).highestNumVotes = c :: cs) :
    outcome (v.electedCandidate ⟨order, order, same⟩).1 =
      .ok (cs.foldl smallerDigest c).cachedRemoteDigestOfLocalHeight := by
  obtain ⟨d, d', hd, hd', hne⟩ := hdraw
  have hzero : votes ≠ 0 := by
    rintro rfl
    simp [leadingVotes] at hcard
  obtain ⟨hcounted, w, hwinner, -⟩ := ht.counted_reset (ht.ne_nil hzero)
  have hdraw : (countLoop .reset order).draw = true := by
    by_contra h
    exact hne (hcounted.draw (Bool.not_eq_true _ ▸ h) d d' hd hd')
  have hmajority : (countLoop .reset order).majorityHeight ≠ 0 := by
    obtain ⟨c, hc, heq⟩ := hcounted.majority
    rw [heq]
    exact hheight c hc
  rw [electedCandidate_draw (by rw [hv]) hwinner
    ((ht.sufficientVotes_iff hcounted).mpr hcard) hdraw, VotingData.drawElection,
    hcounted.drawWinner_eq same hmajority, hsame]
  rfl

/-- The candidate of a leading list. -/
theorem sameVoteCandidates_cons {same : List (BlockDigest × List Voters)} {e : Voters}
    {voters : List Voters} {n : ℕ} (hn : (e :: voters).length = n) :
    sameVoteCandidates ((d, e :: voters) :: same) n =
      e.candidate :: sameVoteCandidates same n := by
  rw [sameVoteCandidates, List.filterMap_cons, if_pos hn]
  rfl

/-- An all-zero digest stays elected. -/
theorem foldl_smallerDigest_zero {c : Candidate} (cs : List Candidate)
    (hc : c.cachedRemoteDigestOfLocalHeight = .zero 32) : cs.foldl smallerDigest c = c := by
  induction cs with
  | nil => rfl
  | cons c' cs ih =>
    rw [List.foldl_cons, show smallerDigest c c' = c from ?_, ih]
    simp [smallerDigest, allZeros_iff.mpr hc]

/-- The list of a leading digest. -/
theorem exists_lookup_of_leads (hd : Leads (accepted minHeight ↑l) d) :
    ∃ e voters, (cast minHeight l).votes.lookup d = some (e :: voters) ∧
      e.candidate.cachedRemoteDigestOfLocalHeight = d := by
  have hne : ballots minHeight l d ≠ [] := by
    rw [← List.length_pos_iff, length_ballots]
    exact hd.1
  obtain ⟨e, voters, heq⟩ := List.exists_cons_of_ne_nil hne
  exact ⟨e, voters, lookup_cast_eq_some.mpr ⟨by simp, heq.symm⟩,
    (mem_ballots (heq ▸ List.mem_cons_self)).2.2⟩

/-- Settled votes whose heights are not zero are clear in a draw. -/
theorem Settled.draw (hs : Settled minHeight votes)
    (hcard : 3 ≤ (leadingVotes (accepted minHeight votes)).card)
    (hheight : ∀ c ∈ leadingVotes (accepted minHeight votes), c.cachedRemoteHeight ≠ 0)
    (hdraw : ∃ d d', Leads (accepted minHeight votes) d ∧ Leads (accepted minHeight votes) d' ∧
      d ≠ d') :
    (∀ d, Leads (accepted minHeight votes) d → d ≠ .zero 32) ∧
      ∃ d, Leads (accepted minHeight votes) d ∧
        ∀ d', Leads (accepted minHeight votes) d' → d'.smallerDigestThan d = false := by
  obtain ⟨r, hall, hwins⟩ := hs
  obtain ⟨l, rfl⟩ := Quot.exists_rep votes
  obtain ⟨order, horder⟩ := Table.exists_ranges (cast minHeight l).votes
  have ht := holds_cast minHeight l _ horder
  have hne : accepted minHeight ↑l ≠ 0 := by
    obtain ⟨d, -, hd, -⟩ := hdraw
    obtain ⟨c, hc, -⟩ := Multiset.countP_pos.mp hd.1
    exact fun h => Multiset.notMem_zero c (h ▸ hc)
  have hcounted := (ht.counted_reset (ht.ne_nil hne)).1
  -- whatever the order of the candidates, the same digest is elected, and it wins
  have helected {same : List (BlockDigest × List Voters)} {c : Candidate} {cs : List Candidate}
      (hsame : (cast minHeight l).votes.Ranges same)
      (hcs : sameVoteCandidates same (countLoop .reset order).highestNumVotes = c :: cs) :
      r = .ok (cs.foldl smallerDigest c).cachedRemoteDigestOfLocalHeight := by
    have hcall := hall l rfl _ (Elects.single (o := ⟨order, order, same⟩) ⟨horder, horder, hsame⟩)
    rw [← hcall _ List.mem_cons_self]
    exact outcome_of_draw ht hcard hheight hdraw cast_result hcs
  have hlength {d : BlockDigest} {e : Voters} {voters : List Voters}
      (hd : Leads (accepted minHeight ↑l) d)
      (hlookup : (cast minHeight l).votes.lookup d = some (e :: voters)) :
      (e :: voters).length = (countLoop .reset order).highestNumVotes :=
    (ht.leads_iff hcounted.exists_leads (horder.mem_iff.mpr hlookup)).mp hd
  have hother (d : BlockDigest) : ∃ d', Leads (accepted minHeight ↑l) d' ∧ d' ≠ d := by
    obtain ⟨d₁, d₂, h₁, h₂, hne⟩ := hdraw
    by_cases h : d₁ = d
    · exact ⟨d₂, h₂, h ▸ hne.symm⟩
    · exact ⟨d₁, h₁, h⟩
  constructor
  · rintro d hd rfl
    obtain ⟨e, voters, hlookup, hdigest⟩ := exists_lookup_of_leads hd
    obtain ⟨rest, hrest⟩ := horder.exists_cons hlookup
    have hr := helected hrest (sameVoteCandidates_cons (hlength hd hlookup))
    rw [foldl_smallerDigest_zero _ hdigest, hdigest] at hr
    exact ((hwins _ hr).smallest (hother _)).1 rfl
  · obtain ⟨c, cs, hcs⟩ := ht.sameVoteCandidates_eq hcounted
    have hr := helected horder hcs
    generalize (cs.foldl smallerDigest c).cachedRemoteDigestOfLocalHeight = m at hr
    refine ⟨m, (hwins m hr).leads, fun d hd => ?_⟩
    by_contra hsmaller
    have hsmaller := Bool.not_eq_false _ ▸ hsmaller
    have hne : d ≠ m := by
      rintro rfl
      exact absurd hsmaller (by simp [BlockDigest.smallerDigestThan_eq_false.mpr fun _ _ => le_rfl])
    -- if `d` comes before `m`, it is not given up for it
    obtain ⟨e, voters, hlookup, hdigest⟩ := exists_lookup_of_leads hd
    obtain ⟨e', voters', hlookup', hdigest'⟩ := exists_lookup_of_leads (hwins m hr).leads
    obtain ⟨rest, hrest⟩ := horder.exists_cons_cons hlookup hlookup' hne
    have hr' := helected hrest (sameVoteCandidates_cons (hlength hd hlookup))
    rw [sameVoteCandidates_cons (hlength (hwins m hr).leads hlookup'), List.foldl_cons,
      show smallerDigest e.candidate e'.candidate = e.candidate by
        simp [smallerDigest, hdigest, hdigest', hsmaller], hr, Except.ok.injEq] at hr'
    have hmem := foldl_smallerDigest_mem e.candidate
      (sameVoteCandidates rest (countLoop .reset order).highestNumVotes)
    rcases List.mem_cons.mp hmem with heq | hmem
    · rw [heq, hdigest] at hr'
      exact hne hr'.symm
    · obtain ⟨⟨d', voters''⟩, hmem', heq⟩ := List.mem_filterMap.mp hmem
      split_ifs at heq with hlen
      obtain ⟨e'', he'', heq⟩ := Option.map_eq_some_iff.mp heq
      have hkey := ((holds_cast minHeight l _ hrest).vote
        (List.mem_cons_of_mem _ (List.mem_cons_of_mem _ hmem')) (List.mem_of_head? he'')).2.2
      rw [heq, ← hr'] at hkey
      have hnodup := hrest.nodup_keys
      simp only [List.map_cons, List.nodup_cons] at hnodup
      exact hnodup.2.1 (List.mem_map.mpr ⟨_, hmem', hkey.symm⟩)

/-- **Elections are settled** exactly if there are too few votes for the leading digests, or these
votes are clear. -/
theorem election_settled_iff (minHeight : UInt64) (votes : Multiset Candidate) :
    Settled minHeight votes ↔ (3 ≤ (leadingVotes (accepted minHeight votes)).card →
      Clear (accepted minHeight votes)) := by
  constructor
  · intro hs hcard
    have hheight : ∀ c ∈ leadingVotes (accepted minHeight votes), c.cachedRemoteHeight ≠ 0 :=
      fun c hc hzero => not_settled_of_zero_height hcard hc hzero hs
    exact ⟨hheight, hs.draw hcard hheight⟩
  · exact settled_of_clear

end Elections

/-! ### A draw between two digests that are both smaller -/

/-- A peer at height 10 with this digest. -/
def peer (d : BlockDigest) : Candidate := ⟨10, d⟩

/-- Two votes for each of two digests. -/
def drawnVotes : List Candidate :=
  [peer (Connector.lowBytes 0 1), peer (Connector.lowBytes 0 1),
    peer (Connector.lowBytes 1 0), peer (Connector.lowBytes 1 0)]

/-- The entries of the records, those of the first digest first. -/
def drawnOrder (d d' : BlockDigest) : List (BlockDigest × List Voters) :=
  [(d, [vote (peer d), vote (peer d)]), (d', [vote (peer d'), vote (peer d')])]

/-- The digest that comes first is elected, whichever it is. -/
theorem first_elected : ¬ Settled 1 ↑drawnVotes := by
  rintro ⟨r, hall, -⟩
  have hrange : (cast 1 drawnVotes).votes.Ranges
      (drawnOrder (Connector.lowBytes 0 1) (Connector.lowBytes 1 0)) := by
    decide +kernel
  have hrange' := hrange.perm (List.Perm.swap _ _ [])
  have hfirst := hall drawnVotes rfl _ (Elects.single (o := ⟨_, _, _⟩) ⟨hrange, hrange, hrange⟩)
  have hsecond := hall drawnVotes rfl _
    (Elects.single (o := ⟨_, _, _⟩) ⟨hrange', hrange', hrange'⟩)
  have heq := (hfirst _ List.mem_cons_self).trans (hsecond _ List.mem_cons_self).symm
  revert heq
  decide +kernel

end Bitmarkd.Voting
