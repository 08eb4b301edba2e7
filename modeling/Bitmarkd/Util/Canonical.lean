import Bitmarkd.Fault

/-!
# Packed connections

`util/canonical.go`: an address and a port, packed into 7 or 19 bytes of which the first is their
number, and the loops that read several of them in a row: `Unpack46`, and the one of `Fetch` of the
announced RPC listeners.

A string is some complete records followed by a rest that does not begin with one
(`exists_records`). The rest may be less than the 19 bytes its first byte promises: then `Unpack`
slices beyond the end (`CutShort`). Up to there the loops read the records.

**Main result** (`packed_connections`). Every string is decoded without a panic, and within its
bounds, just when no such rest is behind its records. What `Pack` makes of some connections is read
back as these connections, and `Unpack46` returns the first of either kind.
-/

namespace Bitmarkd

open Lib

/-- `Connection`. -/
structure Connection where
  ip : Bytes
  port : UInt16
deriving DecidableEq

namespace Connection

/-- `net.IP.To4` is not `nil`: four bytes, or sixteen that stand for four. -/
def isIPv4 (c : Connection) : Bool :=
  c.ip.length = 4 ∨ c.ip.length = 16 ∧ c.ip.take 12 = List.replicate 10 0 ++ [0xff, 0xff]

/-- The packed form: its length, the port and the address. -/
def bytes (c : Connection) : Bytes :=
  UInt8.ofNat (c.ip.length + 3) :: (c.port >>> 8).toUInt8 :: c.port.toUInt8 :: c.ip

/-- `Pack`. -/
def pack (c : Connection) : Except Stop Bytes :=
  if c.ip.length ≠ 4 ∧ c.ip.length ≠ 16 then panicAt .invalidIPLength else .ok c.bytes

/-- An address of four or sixteen bytes. -/
def Valid (c : Connection) : Prop := c.ip.length = 4 ∨ c.ip.length = 16

theorem length_bytes (c : Connection) : c.bytes.length = c.ip.length + 3 := rfl

theorem Valid.length_pos {c : Connection} (hc : c.Valid) : 7 ≤ c.bytes.length := by
  rw [c.length_bytes]
  rcases hc with h | h <;> omega

end Connection

namespace PackedConnection

/-- `PackedConnection.Unpack`; behind the bytes of the slice are those that its capacity covers. -/
def unpack (packed spare : Bytes) : Except Stop (Option Connection × ℕ) :=
  match packed with
  | n :: high :: low :: rest =>
    if packed.length < 7 then .ok (none, 0)
    else if n ≠ 7 ∧ n ≠ 19 then .ok (none, 0)
    else if packed.length + spare.length < n.toNat then panicAt .indexOutOfRange
    else
      let ip := (rest ++ spare).take (n.toNat - 3)
      .ok (some ⟨ip, (high.toUInt16 <<< 8) + low.toUInt16⟩, n.toNat)
  | _ => .ok (none, 0)

/-- The slice `packed[n:]`. -/
def sliceFrom (packed : Bytes) (n : ℕ) : Except Stop Bytes :=
  if packed.length < n then panicAt .indexOutOfRange else .ok (packed.drop n)

/-- The loop of `Unpack46`, with the connections found so far. -/
def unpack46Loop (spare : Bytes) : ℕ → Bytes → Option Connection → Option Connection →
    Except Stop (Option Connection × Option Connection)
  | 0, _, _, _ => .error .outOfSteps
  | turns + 1, packed, ipv4, ipv6 => do
    let (conn, n) ← unpack packed spare
    let packed ← sliceFrom packed n
    match conn with
    | none => .ok (ipv4, ipv6)
    | some conn =>
      let ipv4 := if conn.isIPv4 ∧ ipv4 = none then some conn else ipv4
      let ipv6 := if ¬ conn.isIPv4 ∧ ipv6 = none then some conn else ipv6
      if ipv4 ≠ none ∧ ipv6 ≠ none then .ok (ipv4, ipv6)
      else unpack46Loop spare turns packed ipv4 ipv6

/-- `Unpack46`: the first IPv4 and the first IPv6 connection. -/
def unpack46 (turns : ℕ) (packed spare : Bytes) :
    Except Stop (Option Connection × Option Connection) :=
  unpack46Loop spare turns packed none none

/-- The loop of `rpc.Fetch` over the address of one entry, with the connections read so far. -/
def fetchLoop (spare : Bytes) : ℕ → Bytes → List Connection → Except Stop (List Connection)
  | 0, _, _ => .error .outOfSteps
  | turns + 1, a, conns => do
    let (c, n) ← unpack a spare
    if n = 0 then .ok conns
    else
      let a ← sliceFrom a n
      fetchLoop spare turns a (conns ++ c.toList)

/-! ## Records and what is behind them -/

/-- Nothing that `Unpack` takes for a record. -/
def NoRecord (p : Bytes) : Prop := p.length < 7 ∨ p.head? ≠ some 7 ∧ p.head? ≠ some 19

/-- The beginning of a record of 19 bytes, long enough for one of 7. -/
def CutShort (p : Bytes) : Prop := p.head? = some 19 ∧ 7 ≤ p.length ∧ p.length < 19

/-- Behind some records comes the beginning of another one. -/
def Truncated (p : Bytes) : Prop :=
  ∃ (l : List Connection) (rest : Bytes),
    (∀ c ∈ l, c.Valid) ∧ p = l.flatMap Connection.bytes ++ rest ∧ CutShort rest

theorem port_bytes (port : UInt16) :
    ((port >>> 8).toUInt8.toUInt16 <<< 8) + port.toUInt8.toUInt16 = port := by
  have hlt := port.toNat_lt
  have hhigh : ((port >>> 8).toUInt8.toUInt16 <<< 8).toNat = port.toNat / 256 * 256 := by
    rw [UInt16.toNat_shiftLeft, UInt8.toNat_toUInt16, UInt16.toNat_toUInt8,
      UInt16.toNat_shiftRight, Nat.shiftRight_eq_div_pow, Nat.shiftLeft_eq]
    show port.toNat / 256 % 256 * 256 % 65536 = _
    omega
  apply UInt16.toNat_inj.mp
  rw [UInt16.toNat_add, hhigh, UInt8.toNat_toUInt16, UInt16.toNat_toUInt8]
  omega

theorem bytes_port (high low : UInt8) :
    (((high.toUInt16 <<< 8) + low.toUInt16) >>> 8).toUInt8 = high ∧
      ((high.toUInt16 <<< 8) + low.toUInt16).toUInt8 = low := by
  have hh := high.toNat_lt
  have hl := low.toNat_lt
  have hword : ((high.toUInt16 <<< 8) + low.toUInt16).toNat = high.toNat * 256 + low.toNat := by
    rw [UInt16.toNat_add, UInt16.toNat_shiftLeft, UInt8.toNat_toUInt16, UInt8.toNat_toUInt16,
      Nat.shiftLeft_eq]
    show (high.toNat * 256 % 65536 + low.toNat) % 65536 = _
    omega
  constructor <;> apply UInt8.toNat_inj.mp
  · rw [UInt16.toNat_toUInt8, UInt16.toNat_shiftRight, hword, Nat.shiftRight_eq_div_pow]
    show (high.toNat * 256 + low.toNat) / 256 % 256 = _
    omega
  · rw [UInt16.toNat_toUInt8, hword]
    omega

/-- A complete record is read. -/
theorem unpack_bytes {c : Connection} (hc : c.Valid) (rest spare : Bytes) :
    unpack (c.bytes ++ rest) spare = .ok (some c, c.bytes.length) := by
  have hn : (UInt8.ofNat (c.ip.length + 3)).toNat = c.ip.length + 3 := by
    rcases hc with h | h <;> rw [h] <;> rfl
  have hkind : ¬ (UInt8.ofNat (c.ip.length + 3) ≠ 7 ∧ UInt8.ofNat (c.ip.length + 3) ≠ 19) := by
    rcases hc with h | h <;> rw [h] <;> decide
  have hlong : ¬ (c.bytes ++ rest).length < 7 := by
    have := hc.length_pos
    rw [List.length_append]
    omega
  have hcapacity : ¬ (c.bytes ++ rest).length + spare.length < c.ip.length + 3 := by
    rw [List.length_append, c.length_bytes]
    omega
  rw [Connection.bytes, List.cons_append, List.cons_append, List.cons_append] at hlong hcapacity ⊢
  rw [unpack, if_neg hlong, if_neg hkind, hn, if_neg hcapacity, Nat.add_sub_cancel,
    List.append_assoc, List.take_left' rfl, port_bytes]
  rfl

theorem unpack_of_noRecord {p : Bytes} (h : NoRecord p) (spare : Bytes) :
    unpack p spare = .ok (none, 0) := by
  obtain _ | ⟨n, _ | ⟨high, _ | ⟨low, rest⟩⟩⟩ := p
  · rfl
  · rfl
  · rfl
  · by_cases hlong : (n :: high :: low :: rest).length < 7
    · rw [unpack, if_pos hlong]
    · have hkind : n ≠ 7 ∧ n ≠ 19 := by simpa using h.resolve_left hlong
      rw [unpack, if_neg hlong, if_pos hkind]

/-- The beginning of a record is read beyond its end. -/
theorem unpack_of_cut {p : Bytes} (h : CutShort p) (spare : Bytes) :
    unpack p spare = panicAt .indexOutOfRange ∨ ∃ conn, unpack p spare = .ok (conn, 19) := by
  obtain ⟨hhead, hlow, hhigh⟩ := h
  obtain _ | ⟨n, _ | ⟨high, _ | ⟨low, rest⟩⟩⟩ := p
  · cases hhead
  · simp at hlow
  · simp at hlow
  · obtain rfl : n = 19 := by simpa using hhead
    rw [unpack, if_neg (not_lt.mpr hlow), if_neg (by decide)]
    split
    · exact .inl rfl
    · exact .inr ⟨_, rfl⟩

/-- A string begins with a record, or with the beginning of one, or with none. -/
theorem record_cases (p : Bytes) :
    (∃ c rest, Connection.Valid c ∧ p = c.bytes ++ rest) ∨ NoRecord p ∨ CutShort p := by
  by_cases hnone : NoRecord p
  · exact .inr (.inl hnone)
  rw [NoRecord, not_or, not_and_or, not_not, not_not] at hnone
  obtain ⟨hlong, hkind⟩ := hnone
  by_cases hcut : CutShort p
  · exact .inr (.inr hcut)
  left
  obtain _ | ⟨n, _ | ⟨high, _ | ⟨low, rest⟩⟩⟩ := p
  · simp at hlong
  · simp at hlong
  · simp at hlong
  have hn : (n.toNat = 7 ∨ n.toNat = 19) ∧ n.toNat ≤ rest.length + 3 := by
    simp only [List.head?_cons, Option.some.injEq, List.length_cons] at hkind hlong
    rcases hkind with rfl | rfl
    · exact ⟨.inl rfl, by show 7 ≤ _; omega⟩
    · refine ⟨.inr rfl, ?_⟩
      show 19 ≤ _
      by_contra hshort
      refine hcut ⟨rfl, ?_, ?_⟩ <;> simp only [List.length_cons] <;> omega
  have hlength : (rest.take (n.toNat - 3)).length = n.toNat - 3 :=
    List.length_take_of_le (by omega)
  refine ⟨⟨rest.take (n.toNat - 3), (high.toUInt16 <<< 8) + low.toUInt16⟩,
    rest.drop (n.toNat - 3), ?_, ?_⟩
  · show _ = 4 ∨ _ = 16
    rw [hlength]
    omega
  · obtain ⟨hhigh, hlow⟩ := bytes_port high low
    have hsize : n.toNat - 3 + 3 = n.toNat := by omega
    rw [Connection.bytes, hlength, hsize, UInt8.ofNat_toNat, hhigh, hlow]
    simp

/-- A string is some records and a rest. -/
theorem exists_records (p : Bytes) :
    ∃ (l : List Connection) (rest : Bytes), (∀ c ∈ l, c.Valid) ∧
      p = l.flatMap Connection.bytes ++ rest ∧ (NoRecord rest ∨ CutShort rest) := by
  induction hlen : p.length using Nat.strong_induction_on generalizing p with
  | h len ih =>
    rcases record_cases p with ⟨c, rest, hc, rfl⟩ | hend
    · have hlt : rest.length < len := by
        have := hc.length_pos
        rw [← hlen, List.length_append]
        omega
      obtain ⟨l, rest', hl, rfl, hend⟩ := ih _ hlt rest rfl
      refine ⟨c :: l, rest', ?_, ?_, hend⟩
      · intro d hd
        rcases List.mem_cons.mp hd with rfl | hd
        · exact hc
        · exact hl d hd
      · rw [List.flatMap_cons, List.append_assoc]
    · exact ⟨[], p, by simp, rfl, hend⟩

/-! ## The loops -/

theorem sliceFrom_append (b rest : Bytes) : sliceFrom (b ++ rest) b.length = .ok rest := by
  have hle : ¬ (b ++ rest).length < b.length := by
    rw [List.length_append]
    omega
  rw [sliceFrom, if_neg hle, List.drop_left]

section

variable {l : List Connection} {rest spare : Bytes} {turns : ℕ}

/-- One turn over a complete record. -/
theorem fetchLoop_cons {c : Connection} (hc : c.Valid) (rest spare : Bytes) (turns : ℕ)
    (conns : List Connection) :
    fetchLoop spare (turns + 1) (c.bytes ++ rest) conns
      = fetchLoop spare turns rest (conns ++ [c]) := by
  have hpos : c.bytes.length ≠ 0 := by
    have := hc.length_pos
    omega
  rw [fetchLoop, unpack_bytes hc]
  show (if c.bytes.length = 0 then Except.ok conns
    else sliceFrom (c.bytes ++ rest) c.bytes.length >>= fun a => _) = _
  rw [if_neg hpos, sliceFrom_append]
  rfl

/-- The loop reads the records, and comes to the rest. -/
theorem fetchLoop_records (rest spare : Bytes) (hl : ∀ c ∈ l, c.Valid) (hturns : l.length < turns)
    (conns : List Connection) :
    ∃ left, fetchLoop spare turns (l.flatMap Connection.bytes ++ rest) conns
      = fetchLoop spare (left + 1) rest (conns ++ l) := by
  induction l generalizing turns conns with
  | nil =>
    obtain ⟨left, rfl⟩ := Nat.exists_eq_add_of_lt hturns
    exact ⟨left, by simp⟩
  | cons c l ih =>
    obtain ⟨hc, hl⟩ := List.forall_mem_cons.mp hl
    obtain _ | turns := turns
    · exact absurd hturns (Nat.not_lt_zero _)
    obtain ⟨left, hleft⟩ := ih hl (Nat.lt_of_succ_lt_succ hturns) (conns ++ [c])
    refine ⟨left, ?_⟩
    rw [List.flatMap_cons, List.append_assoc, fetchLoop_cons hc, hleft, List.append_assoc]
    rfl

theorem fetchLoop_of_noRecord (h : NoRecord rest) (conns : List Connection) :
    fetchLoop spare (turns + 1) rest conns = .ok conns := by
  rw [fetchLoop, unpack_of_noRecord h]
  rfl

theorem sliceFrom_of_cut (h : CutShort rest) : sliceFrom rest 19 = panicAt .indexOutOfRange :=
  if_pos h.2.2

theorem fetchLoop_of_cut (h : CutShort rest) (conns : List Connection) :
    fetchLoop spare (turns + 1) rest conns = panicAt .indexOutOfRange := by
  rw [fetchLoop]
  rcases unpack_of_cut h spare with hpanic | ⟨conn, hok⟩
  · rw [hpanic]
    rfl
  · rw [hok]
    show (sliceFrom rest 19 >>= fun _ => _) = _
    rw [sliceFrom_of_cut h]
    rfl

/-- One turn of `Unpack46` over a complete record. -/
theorem unpack46Loop_cons {c : Connection} (hc : c.Valid) (rest spare : Bytes) (turns : ℕ)
    (ipv4 ipv6 : Option Connection) :
    unpack46Loop spare (turns + 1) (c.bytes ++ rest) ipv4 ipv6 =
      let ipv4 := ipv4.or (if c.isIPv4 then some c else none)
      let ipv6 := ipv6.or (if c.isIPv4 then none else some c)
      if ipv4 ≠ none ∧ ipv6 ≠ none then .ok (ipv4, ipv6)
      else unpack46Loop spare turns rest ipv4 ipv6 := by
  rw [unpack46Loop, unpack_bytes hc]
  show (sliceFrom (c.bytes ++ rest) c.bytes.length >>= fun _ => _) = _
  rw [sliceFrom_append]
  show (if _ ∧ _ then _ else _) = _
  have h4 : (if c.isIPv4 ∧ ipv4 = none then some c else ipv4)
      = ipv4.or (if c.isIPv4 then some c else none) := by
    cases ipv4 <;> simp
  have h6 : (if ¬ c.isIPv4 ∧ ipv6 = none then some c else ipv6)
      = ipv6.or (if c.isIPv4 then none else some c) := by
    cases ipv6 <;> by_cases hkind : c.isIPv4 <;> simp [hkind]
  rw [h4, h6]

/-- `Unpack46` finds the first connection of either kind among the records, if the rest does not
stop it. -/
theorem unpack46Loop_records (spare : Bytes) (hl : ∀ c ∈ l, c.Valid) (hturns : l.length < turns)
    (hrest : NoRecord rest) (ipv4 ipv6 : Option Connection) :
    unpack46Loop spare turns (l.flatMap Connection.bytes ++ rest) ipv4 ipv6 =
      .ok (ipv4.or (l.find? (·.isIPv4)), ipv6.or (l.find? (!·.isIPv4))) := by
  induction l generalizing turns ipv4 ipv6 with
  | nil =>
    obtain ⟨left, rfl⟩ := Nat.exists_eq_add_of_lt hturns
    rw [List.flatMap_nil, List.nil_append, unpack46Loop, unpack_of_noRecord hrest]
    simp [sliceFrom, bind, Except.bind]
  | cons c l ih =>
    obtain ⟨hc, hl⟩ := List.forall_mem_cons.mp hl
    obtain _ | turns := turns
    · exact absurd hturns (Nat.not_lt_zero _)
    rw [List.flatMap_cons, List.append_assoc, unpack46Loop_cons hc]
    have h4 : (if c.isIPv4 then some c else none).or (l.find? (·.isIPv4))
        = (c :: l).find? (·.isIPv4) := by
      by_cases hkind : c.isIPv4 <;> simp [hkind]
    have h6 : (if c.isIPv4 then none else some c).or (l.find? (!·.isIPv4))
        = (c :: l).find? (!·.isIPv4) := by
      by_cases hkind : c.isIPv4 <;> simp [hkind]
    dsimp only
    rw [ih hl (Nat.lt_of_succ_lt_succ hturns), ← h4, ← h6, ← Option.or_assoc, ← Option.or_assoc]
    generalize ipv4.or (if c.isIPv4 then some c else none) = found4
    generalize ipv6.or (if c.isIPv4 then none else some c) = found6
    split
    next hboth =>
      -- both are found: the rest of the records does not matter
      rw [Option.or_of_isSome (Option.isSome_iff_ne_none.mpr hboth.1),
        Option.or_of_isSome (Option.isSome_iff_ne_none.mpr hboth.2)]
    next => rfl

end

/-! ## Every string, and every list of connections -/

/-- The string is decoded: every call returns, and stays within its bounds. -/
structure Decodes (p spare : Bytes) : Prop where
  unpack : ∃ conn n, unpack p spare = .ok (conn, n) ∧ n ≤ p.length
  unpack46 : ∃ conns, ∀ turns, p.length < turns → unpack46 turns p spare = .ok conns
  fetch : ∃ (l : List Connection) (rest : Bytes), p = l.flatMap Connection.bytes ++ rest ∧
    ∀ turns, p.length < turns → fetchLoop spare turns p [] = .ok l

theorem length_le_length_flatMap {l : List Connection} (rest : Bytes) :
    l.length ≤ (l.flatMap Connection.bytes ++ rest).length := by
  induction l with
  | nil => exact Nat.zero_le _
  | cons c l ih =>
    rw [List.flatMap_cons, List.append_assoc, List.length_append, c.length_bytes, List.length_cons]
    omega

theorem decodes_iff (p spare : Bytes) : Decodes p spare ↔ ¬ Truncated p := by
  constructor
  · rintro ⟨-, -, l', rest', -, hfetch⟩ ⟨l, rest, hl, rfl, hcut⟩
    have hlong := length_le_length_flatMap (l := l) rest
    obtain ⟨left, hleft⟩ := fetchLoop_records rest spare hl (Nat.lt_succ_of_le hlong) []
    rw [fetchLoop_of_cut hcut, hfetch _ (Nat.lt_succ_self _)] at hleft
    cases hleft
  · intro hwhole
    obtain ⟨l, rest, hl, rfl, hnone | hcut⟩ := exists_records p
    · have hlong := length_le_length_flatMap (l := l) rest
      have h46 (turns : ℕ) (hturns : _ < turns) :=
        unpack46Loop_records spare hl (hlong.trans_lt hturns) hnone none none
      refine ⟨?_, ⟨_, h46⟩, l, rest, rfl, fun turns hturns => ?_⟩
      · obtain _ | ⟨c, l⟩ := l
        · exact ⟨none, 0, unpack_of_noRecord hnone spare, Nat.zero_le _⟩
        · have hc := hl c List.mem_cons_self
          rw [List.flatMap_cons, List.append_assoc]
          refine ⟨_, _, unpack_bytes hc _ spare, ?_⟩
          rw [List.length_append]
          exact Nat.le_add_right _ _
      · obtain ⟨left, hleft⟩ := fetchLoop_records rest spare hl (hlong.trans_lt hturns) []
        rw [hleft, fetchLoop_of_noRecord hnone]
        rfl
    · exact absurd ⟨l, rest, hl, rfl, hcut⟩ hwhole

theorem mapM_pack {l : List Connection} (hl : ∀ c ∈ l, c.Valid) :
    l.mapM Connection.pack = .ok (l.map Connection.bytes) := by
  induction l with
  | nil => rfl
  | cons c l ih =>
    obtain ⟨hc, hl⟩ := List.forall_mem_cons.mp hl
    have hpack : c.pack = .ok c.bytes := by
      apply if_neg
      rw [not_and_or, not_not, not_not]
      exact hc
    rw [List.mapM_cons, hpack, ih hl]
    rfl

/-- **Packed connection lists.** A string is decoded just when it does not end with the beginning of
a record; and what some connections were packed to is read back. -/
theorem packed_connections (spare : Bytes) :
    (∀ p, Decodes p spare ↔ ¬ Truncated p) ∧
    ∀ l : List Connection, (∀ c ∈ l, c.Valid) →
      ∃ chunks, l.mapM Connection.pack = .ok chunks ∧
        ∀ turns, chunks.flatten.length < turns →
          fetchLoop spare turns chunks.flatten [] = .ok l ∧
          unpack46 turns chunks.flatten spare
            = .ok (l.find? (·.isIPv4), l.find? (!·.isIPv4)) := by
  refine ⟨fun p => decodes_iff p spare, fun l hl => ⟨_, mapM_pack hl, fun turns hturns => ?_⟩⟩
  have hempty : NoRecord [] := .inl (by decide)
  have hbytes : (l.map Connection.bytes).flatten = l.flatMap Connection.bytes ++ [] := by
    rw [List.append_nil]
    rfl
  rw [hbytes] at hturns ⊢
  have hlong := (length_le_length_flatMap []).trans_lt hturns
  constructor
  · obtain ⟨left, hleft⟩ := fetchLoop_records [] spare hl hlong []
    rw [hleft, fetchLoop_of_noRecord hempty]
    rfl
  · rw [unpack46, unpack46Loop_records spare hl hlong hempty]
    rfl

/-- Seven bytes that begin as nineteen do. -/
theorem cut_connection_panics :
    unpack [19, 0, 0, 0, 0, 0, 0] [] = panicAt .indexOutOfRange ∧
      unpack46 8 [19, 0, 0, 0, 0, 0, 0] [] = panicAt .indexOutOfRange ∧
      fetchLoop [] 8 [19, 0, 0, 0, 0, 0, 0] [] = panicAt .indexOutOfRange := by decide

end PackedConnection

end Bitmarkd
