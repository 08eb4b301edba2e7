import Bitmarkd.Difficulty
import Bitmarkd.Storage

/-!
# Block headers

Package `blockrecord`: the packed header, the checks on an incoming header, the foundation tx id,
and the difficulty adjustment, which reads the headers of stored blocks.

`now` is the reading of the clock, in seconds, at which a header is unpacked.
-/

namespace Bitmarkd

open Lib

/-! ## The header -/

/-- `blockrecord.Header`. -/
structure Header where
  version : UInt16
  transactionCount : UInt16
  number : UInt64
  previousBlock : BlockDigest
  merkleRoot : Digest
  timestamp : UInt64
  difficulty : Difficulty
  nonce : UInt64
deriving DecidableEq

/-- `totalBlockSize`. -/
def totalBlockSize : Nat := 2 + 2 + 8 + 32 + 32 + 8 + 8 + 8

/-- The counts that `Unpack` accepts: those of the genesis block, or those of a normal block. -/
def checkHeaderCounts (version transactionCount : UInt16) (number : UInt64) : Except Stop Unit :=
  if number = 1 ∧ transactionCount = 1 ∧ version = 1 then .ok ()
  else if version < 1 ∨ number < 2 then fault .invalidBlockHeaderVersion
  else if transactionCount < 2 ∨ transactionCount > 10000 then fault .transactionCountOutOfRange
  else .ok ()

/-- `PackedHeader.Unpack`. -/
def unpackHeader (env : Env) (now : UInt64) (record : Bytes) : Except Stop Header := do
  let version := ofLE16 record
  let transactionCount := ofLE16 (record.drop 2)
  let number := ofLE64 (record.drop 4)
  checkHeaderCounts version transactionCount number
  let timestamp := ofLE64 (record.drop 76)
  failIf (timestamp > now + 5 * 60) .invalidBlockHeaderTimestamp
  let difficulty ← Difficulty.setBits env (ofLE64 (record.drop 84))
  return {
    version, transactionCount, number, timestamp, difficulty
    previousBlock := .ofSlice 32 (record.drop 12)
    merkleRoot := .ofSlice 32 (record.drop 44)
    nonce := ofLE64 (record.drop 92) }

/-- `Header.Pack`. -/
def Header.pack (h : Header) : Bytes :=
  le16 h.version ++ (le16 h.transactionCount ++ (le64 h.number ++ (h.previousBlock.bytes ++
    (h.merkleRoot.bytes ++ (le64 h.timestamp ++ (le64 h.difficulty.bits ++ le64 h.nonce))))))

/-- `DigestFromHashPool`: all zero if there is none. -/
def digestFromHashPool (v : View) (blockNumber : UInt64) : BlockDigest :=
  match v.get .blockHeaderHash (be64 blockNumber) with
  | none => .zero 32
  | some digestBytes => (FixedBytes.ofBytes? 32 digestBytes).getD (.zero 32)

/-- `validNextHeightFromExpected`. -/
def validNextHeightFromExpected (expectedNextHeight nextHeight : UInt64) : Except Stop Unit :=
  if nextHeight < expectedNextHeight - 1 ∨ nextHeight > expectedNextHeight then
    fault .heightOutOfSequence
  else .ok ()

/-- The digest of a header: the stored one of that block, or else the hash. -/
def headerDigest (env : Env) (v : View) (packedHeader : Bytes) (number : UInt64) : BlockDigest :=
  let digest := digestFromHashPool v number
  if digest ≠ .zero 32 then digest else env.argon2Hash packedHeader

/-- `ExtractHeader`: the header, the digest (all zero if skipped) and the transaction data. -/
def extractHeader (env : Env) (now : UInt64) (v : View) (block : Bytes) (checkHeight : UInt64)
    (skipDigest : Bool) : Except Stop (Header × BlockDigest × Bytes) := do
  failIf (block.length < totalBlockSize) .invalidBlockHeaderSize
  let packedHeader := block.take totalBlockSize
  let header ← unpackHeader env now packedHeader
  (if checkHeight > 1 then validNextHeightFromExpected checkHeight header.number else .ok ())
  let digest :=
    if skipDigest then .zero 32 else headerDigest env v packedHeader header.number
  return (header, digest, block.drop totalBlockSize)

/-- The bytes of a header are those of `h`, whatever the clock says. -/
def HeaderOf (env : Env) (record : Bytes) (h : Header) : Prop :=
  ∃ now, unpackHeader env now record = .ok h

section Headers

variable {env : Env} {now now' checkHeight : UInt64} {v : View} {record block data : Bytes}
  {h h' : Header} {digest : BlockDigest} {skip : Bool}

/-- `Unpack` succeeds with the fields of the record. -/
theorem unpackHeader_eq_ok : unpackHeader env now record = .ok h ↔
    checkHeaderCounts h.version h.transactionCount h.number = .ok () ∧
      ¬ h.timestamp > now + 5 * 60 ∧
      Difficulty.setBits env (ofLE64 (record.drop 84)) = .ok h.difficulty ∧
      h = ⟨ofLE16 record, ofLE16 (record.drop 2), ofLE64 (record.drop 4),
        .ofSlice 32 (record.drop 12), .ofSlice 32 (record.drop 44), ofLE64 (record.drop 76),
        h.difficulty, ofLE64 (record.drop 92)⟩ := by
  constructor
  · intro hh
    obtain ⟨⟨⟩, hcounts, hh⟩ := bind_eq_ok.mp hh
    obtain ⟨⟨⟩, htime, hh⟩ := bind_eq_ok.mp hh
    obtain ⟨d, hd, hh⟩ := bind_eq_ok.mp hh
    cases hh
    exact ⟨hcounts, failIf_eq_ok.mp htime, hd, rfl⟩
  · rintro ⟨hcounts, htime, hd, hh⟩
    rw [hh] at hcounts htime
    refine bind_eq_ok.mpr ⟨(), hcounts, bind_eq_ok.mpr ⟨(), failIf_eq_ok.mpr htime, ?_⟩⟩
    exact bind_eq_ok.mpr ⟨_, hd, by rw [hh]; rfl⟩

@[simp] theorem length_pack (h : Header) : h.pack.length = totalBlockSize := by
  simp [Header.pack, totalBlockSize]

/-- A packed header reads back, if its counts, its timestamp and its difficulty bits are ones that
`Unpack` accepts. -/
theorem unpackHeader_pack : unpackHeader env now h.pack = .ok h ↔
    checkHeaderCounts h.version h.transactionCount h.number = .ok () ∧
      ¬ h.timestamp > now + 5 * 60 ∧
        Difficulty.setBits env h.difficulty.bits = .ok h.difficulty := by
  have hnext {k m : Nat} {x rest : Bytes} (hk : h.pack.drop k = x ++ rest) (hx : x.length = m) :
      h.pack.drop (k + m) = rest := by
    rw [← List.drop_drop, hk, List.drop_left' hx]
  have h0 : h.pack.drop 0 = _ := rfl
  have h2 := hnext h0 (length_le16 _)
  have h4 := hnext h2 (length_le16 _)
  have h12 := hnext h4 (length_le64 _)
  have h44 := hnext h12 h.previousBlock.length_eq
  have h76 := hnext h44 h.merkleRoot.length_eq
  have h84 := hnext h76 (length_le64 _)
  have h92 := hnext h84 (length_le64 _)
  have hlast (n : UInt64) : ofLE64 (le64 n) = n := by simpa using ofLE64_le64_append n []
  rw [unpackHeader_eq_ok]
  rw [h2, h4, h12, h44, h76, h84, h92]
  simp [Header.pack, hlast]

/-- A record has one header. -/
theorem HeaderOf.unique (hh : HeaderOf env record h) (hh' : HeaderOf env record h') : h = h' := by
  obtain ⟨now, hh⟩ := hh
  obtain ⟨now', hh'⟩ := hh'
  obtain ⟨-, -, hd, hh⟩ := unpackHeader_eq_ok.mp hh
  obtain ⟨-, -, hd', hh'⟩ := unpackHeader_eq_ok.mp hh'
  rw [hd] at hd'
  rw [hh, hh', Except.ok.inj hd']

/-- The clock only decides whether the timestamp is too far ahead. -/
theorem HeaderOf.unpackHeader (hh : HeaderOf env record h) (now : UInt64) :
    Bitmarkd.unpackHeader env now record =
      if h.timestamp > now + 5 * 60 then fault .invalidBlockHeaderTimestamp else .ok h := by
  obtain ⟨now₀, hh⟩ := hh
  obtain ⟨hcounts, -, hd, hh⟩ := unpackHeader_eq_ok.mp hh
  split
  next ht =>
    rw [hh] at hcounts ht
    have hcheck : checkHeaderCounts (ofLE16 record) (ofLE16 (record.drop 2))
        (ofLE64 (record.drop 4)) = .ok () := hcounts
    simp only [Bitmarkd.unpackHeader, hcheck, bind, Except.bind, failIf, if_pos ht]
    rfl
  next ht => exact unpackHeader_eq_ok.mpr ⟨hcounts, ht, hd, hh⟩

/-- The number in a header. -/
theorem HeaderOf.number_eq (hh : HeaderOf env record h) : h.number = ofLE64 (record.drop 4) := by
  obtain ⟨now, hh⟩ := hh
  obtain ⟨-, -, -, hh⟩ := unpackHeader_eq_ok.mp hh
  rw [hh]

theorem HeaderOf.counts (hh : HeaderOf env record h) :
    checkHeaderCounts h.version h.transactionCount h.number = .ok () := by
  obtain ⟨now, hh⟩ := hh
  exact (unpackHeader_eq_ok.mp hh).1

/-- `ExtractHeader` succeeds with the header, its digest and the rest. -/
theorem extractHeader_eq_ok :
    extractHeader env now v block checkHeight skip = .ok (h, digest, data) ↔
      totalBlockSize ≤ block.length ∧
      unpackHeader env now (block.take totalBlockSize) = .ok h ∧
      (checkHeight > 1 → validNextHeightFromExpected checkHeight h.number = .ok ()) ∧
      digest = (if skip then .zero 32 else
        headerDigest env v (block.take totalBlockSize) h.number) ∧
      data = block.drop totalBlockSize := by
  constructor
  · intro hh
    obtain ⟨⟨⟩, hlen, hh⟩ := bind_eq_ok.mp hh
    obtain ⟨header, hu, hh⟩ := bind_eq_ok.mp hh
    obtain ⟨⟨⟩, hnext, hh⟩ := bind_eq_ok.mp hh
    cases hh
    refine ⟨by simpa using hlen, hu, fun hc => ?_, rfl, rfl⟩
    rwa [if_pos hc] at hnext
  · rintro ⟨hlen, hu, hnext, rfl, rfl⟩
    refine bind_eq_ok.mpr ⟨(), failIf_eq_ok.mpr (by omega), bind_eq_ok.mpr ⟨h, hu, ?_⟩⟩
    refine bind_eq_ok.mpr ⟨(), ?_, rfl⟩
    split
    next hc => exact hnext hc
    next => rfl

end Headers

/-- The bytes that `FoundationTxId` hashes. -/
def foundationBytes (blockNumber : UInt64) (digest : BlockDigest) : Bytes :=
  digest.bytes ++ le64 blockNumber

/-- `FoundationTxId`. -/
def foundationTxId (env : Env) (blockNumber : UInt64) (digest : BlockDigest) : Digest :=
  env.newDigest (foundationBytes blockNumber digest)

/-! ## Checks on an incoming header -/

/-- `ValidBlockTimeSpacingAtVersion`. -/
def validBlockTimeSpacingAtVersion (version : UInt16) (timeSpacing : UInt64) : Except Stop Unit :=
  if version = 1 ∧ timeSpacing > 240 * 60 then fault .invalidBlockHeaderTimestamp
  else if version ≥ 2 ∧ timeSpacing > 10 * 60 then fault .invalidBlockHeaderTimestamp
  else .ok ()

/-- `IsDifficultyAppliedVersion`. -/
def isDifficultyAppliedVersion (version : UInt16) : Bool := version ≥ 5

/-- `isDifficultyAdjustmentBlock`. -/
def isDifficultyAdjustmentBlock (height : UInt64) : Bool :=
  height % Difficulty.adjustTimespanInBlocks = 0

/-- `IsBlockToAdjustDifficulty`. -/
def isBlockToAdjustDifficulty (height : UInt64) (version : UInt16) : Bool :=
  isDifficultyAppliedVersion version && isDifficultyAdjustmentBlock height

/-- `ValidIncomingDifficulty`. -/
def validIncomingDifficulty (env : Env) (current : Float64) (header : Header) :
    Except Stop Unit :=
  if ¬ isDifficultyAppliedVersion header.version then .ok ()
  else if env.chain = .local then .ok ()
  else if header.difficulty.reciprocal ≠ current then fault .difficultyDoesNotMatchCalculated
  else .ok ()

/-- `ValidHeaderVersion`. -/
def validHeaderVersion (currentVersion incomingVersion : UInt16) : Except Stop Unit :=
  if incomingVersion < 1 then fault .invalidBlockHeaderVersion
  else if currentVersion > incomingVersion then fault .blockVersionMustNotDecrease
  else .ok ()

/-- `ValidBlockLinkage`. -/
def validBlockLinkage (currentDigest incomingDigestOfPreviousBlock : BlockDigest) :
    Except Stop Unit :=
  if currentDigest ≠ incomingDigestOfPreviousBlock then fault .previousBlockDigestDoesNotMatch
  else .ok ()

/-- `IsValidByDifficulty`: the digest, as a little-endian number, is at most the target. -/
def isValidByDifficulty (env : Env) (digest : BlockDigest) (difficulty : Difficulty) : Bool :=
  if env.chain = .local then true else leValue digest.bytes ≤ difficulty.big

/-! ## Difficulty adjustment -/

/-- The header of a stored block, as `timestampOfBlock` and `difficultyOfBlock` read it. -/
def headerOfBlock (env : Env) (now : UInt64) (v : View) (height : UInt64) : Except Stop Header :=
  match v.get .blocks (be64 height) with
  | none => fault .blockNotFound
  | some packed => do
    let (header, _, _) ← extractHeader env now v packed 0 true
    return header

/-- `timestampOfBlock`. -/
def timestampOfBlock (env : Env) (now : UInt64) (v : View) (height : UInt64) :
    Except Stop UInt64 := do
  let header ← headerOfBlock env now v height
  return header.timestamp

/-- `difficultyOfBlock`. -/
def difficultyOfBlock (env : Env) (now : UInt64) (v : View) (height : UInt64) :
    Except Stop Float64 := do
  let header ← headerOfBlock env now v height
  return header.difficulty.reciprocal

/-- `timespanOfBlockFromBeginToEnd`. -/
def timespanOfBlockFromBeginToEnd (env : Env) (now : UInt64) (v : View)
    (beginBlock endBlock : UInt64) : Except Stop UInt64 := do
  let beginTime ← timestampOfBlock env now v beginBlock
  let endTime ← timestampOfBlock env now v endBlock
  failIf (endTime ≤ beginTime) .blockEndEarlierThanBegin
  return endTime - beginTime

/-- `prevDifficultyTimespan`. -/
def prevDifficultyTimespan (env : Env) (now : UInt64) (v : View) (height : UInt64) :
    Except Stop UInt64 :=
  let (beginBlock, endBlock) := Difficulty.prevTimespanBlockBeginAndEnd height
  timespanOfBlockFromBeginToEnd env now v beginBlock endBlock

/-- The block whose difficulty `prevDifficultyBaseAtBlock` starts from. -/
def baseBlockHeight (height : UInt64) : UInt64 :=
  let base :=
    if isDifficultyAdjustmentBlock height then height - 1
    else height - Difficulty.adjustTimespanInBlocks
  if base ≤ 2 ∨ height ≤ Difficulty.adjustTimespanInBlocks then 3 else base

/-- `prevDifficultyBaseAtBlock`. -/
def prevDifficultyBaseAtBlock (env : Env) (now : UInt64) (v : View) (height : UInt64) :
    Except Stop Float64 :=
  difficultyOfBlock env now v (baseBlockHeight height)

/-- `DifficultyByPreviousTimespanAtBlock`. -/
def difficultyByPreviousTimespanAtBlock (env : Env) (now : UInt64) (v : View) (height : UInt64) :
    Except Stop Float64 := do
  let actualTimespan ← prevDifficultyTimespan env now v height
  let prevDifficulty ← prevDifficultyBaseAtBlock env now v height
  return env.nextDifficultyByPreviousTimespan actualTimespan prevDifficulty

/-- `AdjustDifficultyAtBlock`: the new value of `difficulty.Current`. -/
def adjustDifficultyAtBlock (env : Env) (now : UInt64) (v : View) (current : Float64)
    (height : UInt64) : Except Stop Float64 :=
  if 2 ≥ height then .ok current
  else do
    let nextDifficulty ← difficultyByPreviousTimespanAtBlock env now v height
    return Difficulty.set nextDifficulty

end Bitmarkd
