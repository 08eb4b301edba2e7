import Bitmarkd.Fault
import Bitmarkd.Lib.Run
import Bitmarkd.Lib.Table

/-!
# The header store of the payment watcher

`payment/p2p.go` (`onPeerHeaders`, `rollbackBlock`) and `storage/payment.go`. The watcher follows
the headers of a currency in two tables, from hashes to heights and from heights to hashes, and
keeps the tip apart from them. A header is its hash and the hash it names as previous. The heights
in the tables are texts, read back to the same numbers. Writes succeed.

**The store is a chain** (`headers_chained`) in every run in which each message continues the chain
at its tip (`WatcherOp.Continues`). Otherwise it is not: a header that forks off below the tip takes
the height of another one, whose hash stays known (`Sample.fork_kept`).
-/

namespace Bitmarkd

open Lib

/-- `chainhash.Hash`. -/
abbrev ChainHash := FixedBytes 32

/-- `wire.BlockHeader`: its hash, and the hash of the header before it. -/
structure ChainHeader where
  hash : ChainHash
  prevBlock : ChainHash
deriving DecidableEq

/-- A result of the type `int32`. -/
def int32 (n : Int) : Int := n.bmod (2 ^ 32)

theorem int32_of_lt {n : Int} (h : 0 ≤ n) (h' : n < 2 ^ 31) : int32 n = n := by
  rw [int32, Int.bmod_eq_of_le_mul_two] <;> omega

/-! ## The tables -/

/-- `LevelDBPaymentStore`: the heights by hash and the hashes by height. -/
structure PaymentStore where
  hash : Table ChainHash Int
  height : Table Int ChainHash

namespace PaymentStore

/-- `GetHeight`. -/
def getHeight (s : PaymentStore) (hash : ChainHash) : Int := (s.hash.lookup hash).getD (-1)

/-- `GetHash`. -/
def getHash (s : PaymentStore) (height : Int) : Except Stop ChainHash :=
  match s.height.lookup height with
  | none => fault .hashNotFound
  | some hash => .ok hash

/-- `StoreBlock`. -/
def storeBlock (s : PaymentStore) (height : Int) (hash : ChainHash) : PaymentStore where
  hash := s.hash.insert hash height
  height := s.height.insert height hash

/-- The loop of `RollbackTo` on one height. -/
def deleteBlock (s : PaymentStore) (height : Int) : PaymentStore where
  height := s.height.erase height
  hash :=
    match s.height.lookup height with
    | none => s.hash
    | some hash => s.hash.erase hash

/-- The loop of `RollbackTo`: a number of heights, downwards. -/
def deleteBlocks : Nat → Int → PaymentStore → PaymentStore
  | 0, _, s => s
  | n + 1, i, s => deleteBlocks n (i - 1) (s.deleteBlock i)

/-- `RollbackTo`. -/
def rollbackTo (deleteFrom deleteTo : Int) (s : PaymentStore) : Except Stop PaymentStore :=
  if deleteFrom ≤ deleteTo then fault .incorrectBlockRangeToRollback
  else .ok (deleteBlocks (deleteFrom - deleteTo).toNat deleteFrom s)

/-- A header is omitted if its hash is stored, at a height where it is found again. -/
def knows (s : PaymentStore) (hash : ChainHash) : Bool :=
  0 < s.getHeight hash ∧ s.height.lookup (s.getHeight hash) = some hash

/-- The header before a new one is stored. -/
def hasPrevious (s : PaymentStore) (header : ChainHeader) : Bool :=
  s.getHeight header.prevBlock ≠ -1 ∧
    s.height.lookup (s.getHeight header.prevBlock) = some header.prevBlock

end PaymentStore

/-! ## The watcher -/

/-- `p2pWatcher`. -/
structure Watcher where
  storage : PaymentStore
  checkpointHeight : Int
  lastHash : ChainHash
  lastHeight : Int

/-- The watcher at its checkpoint. -/
def Watcher.start (hash : ChainHash) (height : Int) : Watcher where
  storage := PaymentStore.storeBlock ⟨∅, ∅⟩ height hash
  checkpointHeight := height
  lastHash := hash
  lastHeight := height

/-- The variables of the loop of `onPeerHeaders`. -/
structure HeadersLoop where
  w : Watcher
  hasNewHeader : Bool
  newHash : ChainHash
  newHeight : Int

/-- The loop of `onPeerHeaders`: the error it returned with, if any. -/
def headersLoop : List ChainHeader → HeadersLoop → Option Fault × HeadersLoop
  | [], s => (none, s)
  | h :: headers, s =>
    let s := { s with newHash := h.hash }
    if s.w.storage.knows h.hash then
      let nh := s.w.storage.getHeight h.hash
      if nh > s.w.lastHeight then
        headersLoop headers { s with w := { s.w with lastHash := h.hash, lastHeight := nh } }
      else headersLoop headers s
    else
      let s := { s with hasNewHeader := true }
      if s.w.storage.hasPrevious h then
        let newHeight := int32 (s.w.storage.getHeight h.prevBlock + 1)
        headersLoop headers
          { s with newHeight, w := { s.w with storage := s.w.storage.storeBlock newHeight h.hash } }
      else (some .missingPreviousBlockHeader, s)

/-- `onPeerHeaders`: the error that is reported, and the watcher. -/
def Watcher.onPeerHeaders (w : Watcher) (headers : List ChainHeader) : Option Fault × Watcher :=
  if headers = [] then (some .noNewBlockHeadersFromPeer, w)
  else
    match headersLoop headers ⟨w, false, .zero 32, 0⟩ with
    | (some e, s) => (some e, s.w)
    | (none, s) =>
      if s.hasNewHeader then (none, { s.w with lastHash := s.newHash, lastHeight := s.newHeight })
      else (some .noNewBlockHeadersFromPeer, s.w)

/-- `checkpointBackLimit`. -/
def checkpointBackLimit : Int := 2000

/-- `rollbackBlock`. -/
def Watcher.rollbackBlock (w : Watcher) : Except Stop Unit × Watcher :=
  let deleteDownTo := max (int32 (w.lastHeight - checkpointBackLimit)) w.checkpointHeight
  match w.storage.rollbackTo w.lastHeight deleteDownTo with
  | .error e => (.error e, w)
  | .ok storage =>
    match storage.getHash deleteDownTo with
    | .error e => (.error e, { w with storage })
    | .ok lastHash => (.ok (), { w with storage, lastHash, lastHeight := deleteDownTo })

/-- What the watcher handles. -/
inductive WatcherOp
  | headers (list : List ChainHeader)
  | rollback
deriving DecidableEq

/-- The watcher after it has handled something. -/
def WatcherOp.run : WatcherOp → Watcher → Watcher
  | .headers list, w => (w.onPeerHeaders list).2
  | .rollback, w => w.rollbackBlock.2

/-- The headers of a message. -/
def WatcherOp.received : WatcherOp → List ChainHeader
  | .headers list => list
  | .rollback => []

/-- A run from a checkpoint. -/
abbrev WatcherRun (hash : ChainHash) (height : Int) (trace : List (Watcher × WatcherOp))
    (w : Watcher) : Prop :=
  Run (fun w op w' => op.run w = w') (Watcher.start hash height) trace w

/-- The headers received in a run. -/
def headersIn (trace : List (Watcher × WatcherOp)) : List ChainHeader :=
  trace.flatMap fun x => x.2.received

/-! ## Chains -/

/-- The store is a chain from the checkpoint to the tip, made of some headers. -/
structure Watcher.Chained (seen : List ChainHeader) (w : Watcher) : Prop where
  last : w.storage.getHash w.lastHeight = .ok w.lastHash
  linked : ∀ n, w.checkpointHeight ≤ n → n < w.lastHeight → ∃ header ∈ seen,
    w.storage.getHash (n + 1) = .ok header.hash ∧ w.storage.getHash n = .ok header.prevBlock
  inverse : ∀ n hash, w.checkpointHeight ≤ n → n ≤ w.lastHeight →
    (w.storage.getHash n = .ok hash ↔ w.storage.getHeight hash = n)
  known : ∀ hash, w.storage.getHeight hash ≤ w.lastHeight

/-- The tables hold a chain up to a hash at some height. -/
structure PaymentStore.Holds (s : PaymentStore) (checkpointHeight : Int) (seen : List ChainHeader)
    (top : ChainHash) (height : Int) : Prop where
  inverse : ∀ n hash, s.hash.lookup hash = some n ↔ s.height.lookup n = some hash
  range : ∀ n hash, s.height.lookup n = some hash → checkpointHeight ≤ n ∧ n ≤ height
  top : s.height.lookup height = some top
  linked : ∀ n, checkpointHeight ≤ n → n < height → ∃ header ∈ seen,
    s.height.lookup (n + 1) = some header.hash ∧ s.height.lookup n = some header.prevBlock
  nonneg : 0 ≤ checkpointHeight
  le : checkpointHeight ≤ height
  lt : height < 2 ^ 31

section Chain

variable {s s' : PaymentStore} {c height : Int} {seen : List ChainHeader} {top : ChainHash}
  {header : ChainHeader}

theorem PaymentStore.getHash_eq_ok {n : Int} {hash : ChainHash} :
    s.getHash n = .ok hash ↔ s.height.lookup n = some hash := by
  unfold getHash
  split <;> simp_all

namespace PaymentStore.Holds

/-- The height of a stored hash. -/
theorem getHeight_eq (h : s.Holds c seen top height) {n : Int} {hash : ChainHash}
    (hn : s.height.lookup n = some hash) : s.getHeight hash = n := by
  rw [getHeight, (h.inverse n hash).mpr hn, Option.getD_some]

theorem getHeight_eq_iff (h : s.Holds c seen top height) {n : Int} (hn : 0 ≤ n)
    {hash : ChainHash} : s.getHeight hash = n ↔ s.height.lookup n = some hash := by
  constructor
  · intro heq
    rw [← h.inverse]
    rcases hl : s.hash.lookup hash with _ | m
    · rw [getHeight, hl, Option.getD_none] at heq
      omega
    · rw [getHeight, hl, Option.getD_some] at heq
      rw [heq]
  · exact h.getHeight_eq

theorem getHeight_le (h : s.Holds c seen top height) (hash : ChainHash) :
    s.getHeight hash ≤ height := by
  rcases hl : s.hash.lookup hash with _ | m
  · have hnonneg := h.nonneg
    have hle := h.le
    rw [getHeight, hl, Option.getD_none]
    omega
  · rw [getHeight, hl, Option.getD_some]
    exact (h.range m hash ((h.inverse m hash).mp hl)).2

/-- The next header goes on top. -/
theorem storeBlock (h : s.Holds c seen top height) (hmem : header ∈ seen)
    (hprev : header.prevBlock = top) (hnew : s.hash.lookup header.hash = none)
    (hlt : height + 1 < 2 ^ 31) :
    (s.storeBlock (height + 1) header.hash).Holds c seen header.hash (height + 1) := by
  have hfree : s.height.lookup (height + 1) = none := by
    rcases hl : s.height.lookup (height + 1) with _ | hash
    · rfl
    · have hrange := (h.range _ _ hl).2
      omega
  have hfresh (n : Int) : s.height.lookup n ≠ some header.hash := by
    rw [Ne, ← h.inverse, hnew]
    simp
  have hlookup (n : Int) : (s.storeBlock (height + 1) header.hash).height.lookup n =
      if n = height + 1 then some header.hash else s.height.lookup n :=
    Table.lookup_insert _ _ _ _
  refine ⟨?_, ?_, ?_, ?_, h.nonneg, ?_, hlt⟩
  · intro n hash
    rw [hlookup, PaymentStore.storeBlock, Table.lookup_insert]
    by_cases hhash : hash = header.hash
    · subst hhash
      by_cases hn : n = height + 1
      · simp [hn]
      · simp [hn, Ne.symm hn, hfresh]
    · rw [if_neg hhash, h.inverse]
      by_cases hn : n = height + 1
      · subst hn
        rw [if_pos rfl, hfree]
        simp [Ne.symm hhash]
      · rw [if_neg hn]
  · intro n hash hn
    rw [hlookup] at hn
    split_ifs at hn with heq
    · have hle := h.le
      omega
    · have hrange := h.range n hash hn
      omega
  · rw [hlookup, if_pos rfl]
  · intro n hn hlt'
    by_cases heq : n = height
    · subst heq
      refine ⟨header, hmem, ?_, ?_⟩
      · rw [hlookup, if_pos rfl]
      · rw [hlookup, if_neg (by omega), hprev, h.top]
    · obtain ⟨below, hbelow, hnext, hthis⟩ := h.linked n hn (by omega)
      refine ⟨below, hbelow, ?_, ?_⟩
      · rw [hlookup, if_neg (by omega), hnext]
      · rw [hlookup, if_neg (by omega), hthis]
  · have hle := h.le
    omega

/-- The top is deleted. -/
theorem deleteBlock (h : s.Holds c seen top height) (hc : c < height) :
    ∃ top', (s.deleteBlock height).Holds c seen top' (height - 1) := by
  obtain ⟨header, hmem, hnext, hthis⟩ := h.linked (height - 1) (by omega) (by omega)
  have hlookup (n : Int) : (s.deleteBlock height).height.lookup n =
      if n = height then none else s.height.lookup n := Table.lookup_erase _ _ _
  refine ⟨header.prevBlock, ?_, ?_, ?_, ?_, h.nonneg, by omega, by have := h.lt; omega⟩
  · intro n hash
    rw [hlookup]
    simp only [PaymentStore.deleteBlock, h.top]
    rw [Table.lookup_erase]
    by_cases hhash : hash = top
    · subst hhash
      by_cases hn : n = height
      · simp [hn]
      · have hother : s.height.lookup n ≠ some hash := by
          intro hl
          exact hn ((h.getHeight_eq hl).symm.trans (h.getHeight_eq h.top))
        simp [hn, hother]
    · rw [if_neg hhash, h.inverse]
      by_cases hn : n = height
      · subst hn
        rw [if_pos rfl, h.top]
        simp [Ne.symm hhash]
      · rw [if_neg hn]
  · intro n hash hn
    rw [hlookup] at hn
    split_ifs at hn with heq
    have hrange := h.range n hash hn
    omega
  · rw [hlookup, if_neg (by omega), hthis]
  · intro n hn hlt
    obtain ⟨below, hbelow, hnext', hthis'⟩ := h.linked n hn (by omega)
    refine ⟨below, hbelow, ?_, ?_⟩
    · rw [hlookup, if_neg (by omega), hnext']
    · rw [hlookup, if_neg (by omega), hthis']

/-- Several are deleted from the top. -/
theorem deleteBlocks (h : s.Holds c seen top height) {n : Nat} (hn : c + n ≤ height) :
    ∃ top', (PaymentStore.deleteBlocks n height s).Holds c seen top' (height - n) := by
  induction n generalizing s height top with
  | zero =>
    rw [PaymentStore.deleteBlocks, Nat.cast_zero, sub_zero]
    exact ⟨top, h⟩
  | succ n ih =>
    push_cast at hn
    obtain ⟨top₁, h₁⟩ := h.deleteBlock (by omega)
    obtain ⟨top', h'⟩ := ih h₁ (by omega)
    refine ⟨top', ?_⟩
    rw [PaymentStore.deleteBlocks]
    convert h' using 1
    push_cast
    omega

end PaymentStore.Holds

end Chain

/-! ## Messages that continue the chain -/

/-- After the first new header of a message, each header is stored already or comes after the top,
and the last one is the top. -/
def PaymentStore.Extends (s : PaymentStore) (top : ChainHash) (height : Int) :
    ChainHash → List ChainHeader → Prop
  | newHash, [] => newHash = top
  | _, h :: headers =>
    if s.knows h.hash then s.Extends top height h.hash headers
    else h.prevBlock = top ∧ s.hash.lookup h.hash = none ∧ height + 1 < 2 ^ 31 ∧
      (s.storeBlock (height + 1) h.hash).Extends h.hash (height + 1) h.hash headers

/-- A message continues the chain: the first header that is not stored comes after the tip, and the
rest extends the chain from there; or it comes after no stored header. -/
def Watcher.Continues (w : Watcher) : List ChainHeader → Prop
  | [] => True
  | h :: headers =>
    if w.storage.knows h.hash then w.Continues headers
    else w.storage.hasPrevious h = false ∨
      h.prevBlock = w.lastHash ∧ w.storage.hash.lookup h.hash = none ∧ w.lastHeight + 1 < 2 ^ 31 ∧
        (w.storage.storeBlock (w.lastHeight + 1) h.hash).Extends h.hash (w.lastHeight + 1) h.hash
          headers

/-- Every message continues the chain. -/
def WatcherOp.Continues (w : Watcher) : WatcherOp → Prop
  | .headers list => w.Continues list
  | .rollback => True

/-- `Extends` is decided header by header. -/
def PaymentStore.decidableExtends : (headers : List ChainHeader) → (s : PaymentStore) →
    (top : ChainHash) → (height : Int) → (newHash : ChainHash) →
    Decidable (s.Extends top height newHash headers)
  | [], _, top, _, newHash => inferInstanceAs (Decidable (newHash = top))
  | h :: headers, s, top, height, _ =>
    have := decidableExtends headers s top height h.hash
    have := decidableExtends headers (s.storeBlock (height + 1) h.hash) h.hash (height + 1) h.hash
    inferInstanceAs (Decidable (if s.knows h.hash then s.Extends top height h.hash headers
      else h.prevBlock = top ∧ s.hash.lookup h.hash = none ∧ height + 1 < 2 ^ 31 ∧
        (s.storeBlock (height + 1) h.hash).Extends h.hash (height + 1) h.hash headers))

/-- `Continues` is decided header by header. -/
def Watcher.decidableContinues (w : Watcher) :
    (headers : List ChainHeader) → Decidable (w.Continues headers)
  | [] => inferInstanceAs (Decidable True)
  | h :: headers =>
    have := w.decidableContinues headers
    have := PaymentStore.decidableExtends headers
      (w.storage.storeBlock (w.lastHeight + 1) h.hash) h.hash (w.lastHeight + 1) h.hash
    inferInstanceAs (Decidable (if w.storage.knows h.hash then w.Continues headers
      else w.storage.hasPrevious h = false ∨
        h.prevBlock = w.lastHash ∧ w.storage.hash.lookup h.hash = none ∧
          w.lastHeight + 1 < 2 ^ 31 ∧ (w.storage.storeBlock (w.lastHeight + 1) h.hash).Extends
            h.hash (w.lastHeight + 1) h.hash headers))

instance (w : Watcher) : (op : WatcherOp) → Decidable (op.Continues w)
  | .headers list => w.decidableContinues list
  | .rollback => inferInstanceAs (Decidable True)

section Messages

variable {c height : Int} {seen list : List ChainHeader} {top : ChainHash} {w : Watcher}
  {l : HeadersLoop}

/-- The height of the header after the top. -/
theorem PaymentStore.Holds.next {s : PaymentStore} (h : s.Holds c seen top height)
    {header : ChainHeader} (hprev : header.prevBlock = top) (hlt : height + 1 < 2 ^ 31) :
    s.hasPrevious header = true ∧ int32 (s.getHeight header.prevBlock + 1) = height + 1 := by
  have hnonneg := h.nonneg
  have hle := h.le
  have hheight : s.getHeight header.prevBlock = height := by
    rw [hprev]
    exact h.getHeight_eq h.top
  refine ⟨?_, ?_⟩
  · rw [PaymentStore.hasPrevious, hheight, hprev, decide_eq_true_eq]
    exact ⟨by omega, h.top⟩
  · rw [hheight]
    exact int32_of_lt (by omega) hlt

/-- **From the first new header on**, the loop extends the chain and ends with its top. -/
theorem headersLoop_extends (hs : l.w.storage.Holds c seen top l.newHeight)
    (hnew : l.hasNewHeader = true) (hsub : list ⊆ seen)
    (hext : l.w.storage.Extends top l.newHeight l.newHash list) :
    ∃ l', headersLoop list l = (none, l') ∧ l'.hasNewHeader = true ∧
      l'.w.checkpointHeight = l.w.checkpointHeight ∧
      l'.w.storage.Holds c seen l'.newHash l'.newHeight := by
  induction list generalizing l top with
  | nil =>
    obtain rfl : l.newHash = top := hext
    exact ⟨l, rfl, hnew, rfl, hs⟩
  | cons h list ih =>
    obtain ⟨hmem, hsub⟩ := List.cons_subset.mp hsub
    rw [PaymentStore.Extends] at hext
    rw [headersLoop]
    dsimp only
    by_cases hknown : l.w.storage.knows h.hash = true
    · rw [if_pos hknown] at hext ⊢
      split_ifs
      · exact ih hs hnew hsub hext
      · exact ih hs hnew hsub hext
    · rw [if_neg hknown] at hext ⊢
      obtain ⟨hprev, hfresh, hlt, hext⟩ := hext
      obtain ⟨hprevious, hnext⟩ := hs.next hprev hlt
      rw [if_pos hprevious, hnext]
      exact ih (hs.storeBlock hmem hprev hfresh hlt) rfl hsub hext

/-- **A message that continues the chain**: the loop stores nothing, or it extends the chain. -/
theorem headersLoop_continues (hs : l.w.storage.Holds c seen l.w.lastHash l.w.lastHeight)
    (hnew : l.hasNewHeader = false) (hsub : list ⊆ seen) (hcont : l.w.Continues list) :
    ∃ e l', headersLoop list l = (e, l') ∧
      (l'.w = l.w ∧ (e = none → l'.hasNewHeader = false) ∨
        e = none ∧ l'.hasNewHeader = true ∧ l'.w.checkpointHeight = l.w.checkpointHeight ∧
          l'.w.storage.Holds c seen l'.newHash l'.newHeight) := by
  induction list generalizing l with
  | nil => exact ⟨none, l, rfl, Or.inl ⟨rfl, fun _ => hnew⟩⟩
  | cons h list ih =>
    obtain ⟨hmem, hsub⟩ := List.cons_subset.mp hsub
    rw [Watcher.Continues] at hcont
    rw [headersLoop]
    dsimp only
    by_cases hknown : l.w.storage.knows h.hash = true
    · rw [if_pos hknown] at hcont ⊢
      -- no hash is known above the tip
      rw [if_neg (Int.not_lt.mpr (hs.getHeight_le h.hash))]
      exact ih hs hnew hsub hcont
    · rw [if_neg hknown] at hcont ⊢
      rcases hcont with horphan | ⟨hprev, hfresh, hlt, hext⟩
      · rw [if_neg (by simp [horphan])]
        exact ⟨_, _, rfl, Or.inl ⟨rfl, by simp⟩⟩
      · obtain ⟨hprevious, hnext⟩ := hs.next hprev hlt
        rw [if_pos hprevious, hnext]
        let storage := l.w.storage.storeBlock (l.w.lastHeight + 1) h.hash
        let l₁ : HeadersLoop := ⟨{ l.w with storage }, true, h.hash, l.w.lastHeight + 1⟩
        obtain ⟨l', hloop, hnew', hcheck, hholds⟩ := headersLoop_extends (l := l₁)
          (hs.storeBlock hmem hprev hfresh hlt) rfl hsub hext
        exact ⟨none, l', hloop, Or.inr ⟨rfl, hnew', hcheck, hholds⟩⟩

/-- The store is a chain up to the tip. -/
def Watcher.Holds (seen : List ChainHeader) (w : Watcher) : Prop :=
  w.storage.Holds w.checkpointHeight seen w.lastHash w.lastHeight

theorem start_holds (hash : ChainHash) (hnonneg : 0 ≤ height) (hlt : height < 2 ^ 31)
    (seen : List ChainHeader) : (Watcher.start hash height).Holds seen := by
  have hheights (n : Int) : (Watcher.start hash height).storage.height.lookup n =
      if n = height then some hash else none := Table.lookup_insert _ _ _ _
  have hhashes (h : ChainHash) : (Watcher.start hash height).storage.hash.lookup h =
      if h = hash then some height else none := Table.lookup_insert _ _ _ _
  refine ⟨?_, ?_, ?_, ?_, hnonneg, le_rfl, hlt⟩
  · intro n h
    rw [hheights, hhashes]
    by_cases hh : h = hash
    · by_cases hn : n = height
      · simp [hh, hn]
      · simp [hh, hn, Ne.symm hn]
    · by_cases hn : n = height
      · simp [hh, hn, Ne.symm hh]
      · simp [hh, hn]
  · intro n h hn
    rw [hheights] at hn
    split_ifs at hn with heq
    exact ⟨heq.ge, heq.le⟩
  · exact (hheights height).trans (if_pos rfl)
  · intro n hn hlt
    exact absurd hlt (Int.not_lt.mpr hn)

theorem Watcher.Holds.onPeerHeaders (h : w.Holds seen) (hsub : list ⊆ seen)
    (hcont : w.Continues list) : (w.onPeerHeaders list).2.Holds seen := by
  rw [Watcher.onPeerHeaders]
  split_ifs
  · exact h
  · obtain ⟨e, l', hloop, hcases⟩ := headersLoop_continues (l := ⟨w, false, .zero 32, 0⟩) h rfl hsub
      hcont
    rw [hloop]
    rcases hcases with ⟨hw, hnone⟩ | ⟨rfl, hnew, hcheck, hholds⟩
    · cases e with
      | some e =>
        change l'.w.Holds seen
        rwa [hw]
      | none =>
        simp only [hnone rfl, Bool.false_eq_true, if_false]
        rwa [hw]
    · simp only [hnew, if_true]
      rw [Watcher.Holds, hcheck]
      exact hholds

theorem Watcher.Holds.rollbackBlock (h : w.Holds seen) : w.rollbackBlock.2.Holds seen := by
  have hnonneg := h.nonneg
  have hle := h.le
  have hlt := h.lt
  rw [Watcher.rollbackBlock]
  generalize hto : max (int32 (w.lastHeight - checkpointBackLimit)) w.checkpointHeight = deleteTo
  have hcheck : w.checkpointHeight ≤ deleteTo := hto ▸ le_max_right _ _
  rw [PaymentStore.rollbackTo]
  by_cases hdel : w.lastHeight ≤ deleteTo
  · rw [if_pos hdel]
    exact h
  · rw [if_neg hdel]
    obtain ⟨top, htop⟩ := PaymentStore.Holds.deleteBlocks h (n := (w.lastHeight - deleteTo).toNat)
      (by omega)
    have hheight : w.lastHeight - (w.lastHeight - deleteTo).toNat = deleteTo := by omega
    rw [hheight] at htop
    simp only [PaymentStore.getHash, fault]
    rw [htop.top]
    exact htop

theorem Watcher.Holds.chained (h : w.Holds seen) : w.Chained seen where
  last := PaymentStore.getHash_eq_ok.mpr h.top
  linked := by
    intro n hn hlt
    obtain ⟨header, hmem, hnext, hthis⟩ := h.linked n hn hlt
    exact ⟨header, hmem, PaymentStore.getHash_eq_ok.mpr hnext, PaymentStore.getHash_eq_ok.mpr hthis⟩
  inverse := by
    intro n hash hn _
    rw [PaymentStore.getHash_eq_ok, PaymentStore.Holds.getHeight_eq_iff h (h.nonneg.trans hn)]
  known := PaymentStore.Holds.getHeight_le h

end Messages

/-- **The header store is a chain** after every run in which each message continues the chain. -/
theorem headers_chained {hash : ChainHash} {height : Int} {trace : List (Watcher × WatcherOp)}
    {w : Watcher} (hrun : WatcherRun hash height trace w) (hnonneg : 0 ≤ height)
    (hlt : height < 2 ^ 31) (hcont : Guarded WatcherOp.Continues trace) :
    w.Chained (headersIn trace) := by
  have hguard : Guarded (fun w op => op.Continues w ∧ op.received ⊆ headersIn trace) trace := by
    intro x hx
    exact ⟨hcont x hx, fun h hh => List.mem_flatMap.mpr ⟨x, hx, hh⟩⟩
  have hstart : (Watcher.start hash height).Holds (headersIn trace) :=
    start_holds hash hnonneg hlt _
  refine (hrun.invariant (P := Watcher.Holds (headersIn trace)) hguard hstart ?_).chained
  rintro w op w' hw ⟨hop, hsub⟩ rfl
  cases op with
  | headers list => exact hw.onPeerHeaders hsub hop
  | rollback => exact hw.rollbackBlock

namespace Sample

/-- The hash of the checkpoint and of other headers. -/
def chainHash (k : UInt8) : ChainHash := ⟨List.replicate 32 k, List.length_replicate⟩

/-- A header on top of another one. -/
def chainHeader (k prev : UInt8) : ChainHeader := ⟨chainHash k, chainHash prev⟩

/-- Handle something. -/
def watch (w : Watcher) (op : WatcherOp) : Option Watcher := some (op.run w)

theorem watcherRun_of_execute {ops : List WatcherOp} {w : Watcher}
    (h : execute watch ops (Watcher.start (chainHash 0) 100) = some w) :
    WatcherRun (chainHash 0) 100 (executeTrace watch ops (Watcher.start (chainHash 0) 100)) w := by
  refine run_of_execute ?_ h
  intro w op w' hstep
  exact Option.some.inj hstep

/-- Two headers, of which one is sent again with a third, and an orphan. -/
def continuing : List WatcherOp :=
  [.headers [chainHeader 1 0, chainHeader 2 1], .headers [chainHeader 2 1, chainHeader 3 2],
    .headers [chainHeader 9 8]]

theorem headers_chained_continuing : ∃ trace w, WatcherRun (chainHash 0) 100 trace w ∧
    Guarded WatcherOp.Continues trace ∧ w.lastHeight = 103 ∧ w.Chained (headersIn trace) := by
  have hops : (execute watch continuing (Watcher.start (chainHash 0) 100)).any fun w =>
      w.lastHeight = 103 := by
    decide +kernel
  obtain ⟨w, hw, h⟩ := (Option.any_eq_true _ _).mp hops
  have hcont : Guarded WatcherOp.Continues
      (executeTrace watch continuing (Watcher.start (chainHash 0) 100)) := by
    unfold Guarded
    decide +kernel
  have hrun := watcherRun_of_execute hw
  exact ⟨_, w, hrun, hcont, of_decide_eq_true h,
    headers_chained hrun (by decide) (by decide) hcont⟩

/-- A header that competes with the first of two takes its height, and the second one is known above
the tip. -/
theorem fork_kept : ∃ trace w, WatcherRun (chainHash 0) 100 trace w ∧
    (∀ a ∈ headersIn trace, ∀ b ∈ headersIn trace, a.hash = b.hash → a = b) ∧
    ¬ w.Chained (headersIn trace) := by
  have hops : (execute watch [.headers [chainHeader 1 0, chainHeader 2 1],
      .headers [chainHeader 7 0]] (Watcher.start (chainHash 0) 100)).any fun w =>
      w.lastHeight = 101 ∧ w.storage.getHeight (chainHash 2) = 102 := by
    decide +kernel
  obtain ⟨w, hw, h⟩ := (Option.any_eq_true _ _).mp hops
  rw [decide_eq_true_eq] at h
  refine ⟨_, w, watcherRun_of_execute hw, by decide +kernel, fun hchained => ?_⟩
  have hknown := hchained.known (chainHash 2)
  omega

end Sample

end Bitmarkd
