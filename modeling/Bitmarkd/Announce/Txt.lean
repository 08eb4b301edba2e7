import Bitmarkd.Returns

/-!
# DNS TXT records

`announce/domain/txt.go`. A record is a supported tag and some words `letter=parameter`, separated
by spaces. `Parse` goes through the words, checks each, counts those that must be there once, and
collects their values; the counts are checked at the end.

`Grammar` says which records are meant, without the loops: the words are items (`IsItem`), of which
some kinds are there once, and the result is made of these.

**Main result** (`parse_iff`). `Parse` accepts the records of the grammar and no others, and returns
an error for these. It panics on some: an address is indexed before it is known not to be empty, so
`a=1.2.3.4;` in an otherwise good record stops the node (`ReachesEmptyAddress`).
-/

namespace Bitmarkd.Txt

open Lib

/-- What the package uses of the standard library. -/
structure Library where
  /-- `strings.TrimSpace`. -/
  trimSpace : Bytes → Bytes
  /-- `net.ParseIP`. -/
  parseIP : Bytes → Option Bytes
  /-- `net.IP.To4` is not `nil`. -/
  isIPv4 : Bytes → Bool
  /-- `hex.DecodeString`. -/
  decodeString : Bytes → Option Bytes
  /-- `strconv.Atoi`. -/
  atoi : Bytes → Option ℤ

/-- `supported`: the tags `bitmark=v2` and `bitmark=v3`. -/
def supported : List Bytes :=
  [[0x62, 0x69, 0x74, 0x6d, 0x61, 0x72, 0x6b, 0x3d, 0x76, 0x32],
    [0x62, 0x69, 0x74, 0x6d, 0x61, 0x72, 0x6b, 0x3d, 0x76, 0x33]]

/-- `DnsTXT`. -/
structure DnsTXT where
  ipv4 : Option Bytes
  ipv6 : Option Bytes
  rpcPort : UInt16
  connectPort : UInt16
  certificateFingerprint : Bytes
  publicKey : Bytes
deriving DecidableEq

/-- The variables of `Parse`. -/
structure Parsing where
  t : DnsTXT
  countA : ℕ
  countC : ℕ
  countF : ℕ
  countP : ℕ
  countR : ℕ
deriving DecidableEq

variable (lib : Library)

/-- `getPort`. -/
def getPort (s : Bytes) : Except Stop UInt16 :=
  match lib.atoi s with
  | none => fault .invalidPortNumber
  | some port =>
    if port < 1 ∨ port > 65535 then fault .invalidPortNumber else .ok (UInt16.ofNat port.toNat)

/-- The bytes between brackets, or all of them. -/
def unbracket (address : Bytes) : Bytes :=
  if address.head? = some 0x5b ∧ address.getLast? = some 0x5d then (address.drop 1).dropLast
  else address

/-- The loop `addresses`: the last address of either kind. The first byte of an address is looked at
before anything else. -/
def addressLoop : List Bytes → Option Bytes → Option Bytes →
    Except Stop (Option Bytes × Option Bytes)
  | [], ipv4, ipv6 => .ok (ipv4, ipv6)
  | address :: rest, ipv4, ipv6 =>
    if address = [] then panicAt .indexOutOfRange
    else
      match lib.parseIP (unbracket address) with
      | none => fault .invalidIpAddress
      | some ip =>
        if lib.isIPv4 ip then addressLoop rest (some ip) ipv6
        else addressLoop rest ipv4 (some ip)

/-- A key of 64 hexadecimal digits. -/
def decodeKey (e : Fault) (parameter : Bytes) : Except Stop Bytes :=
  if parameter.length ≠ 2 * 32 then fault e
  else
    match lib.decodeString parameter with
    | none => fault e
    | some key => .ok key

/-- One turn of the loop `words`, after the tag. -/
def parseWord (p : Parsing) : Bytes → Except Stop Parsing
  | [] => .ok p
  | [_] => fault .invalidDnsTxtRecord
  | letter :: equals :: parameter =>
    if parameter = [] ∨ equals ≠ 0x3d then fault .invalidDnsTxtRecord
    else if letter = 0x61 then do
      let (ipv4, ipv6) ← addressLoop lib (parameter.splitOn 0x3b) p.t.ipv4 p.t.ipv6
      .ok { p with t := { p.t with ipv4, ipv6 }, countA := p.countA + 1 }
    else if letter = 0x63 then do
      let connectPort ← getPort lib parameter
      .ok { p with t := { p.t with connectPort }, countC := p.countC + 1 }
    else if letter = 0x73 then do
      let _ ← getPort lib parameter
      .ok p
    else if letter = 0x72 then do
      let rpcPort ← getPort lib parameter
      .ok { p with t := { p.t with rpcPort }, countR := p.countR + 1 }
    else if letter = 0x70 then do
      let publicKey ← decodeKey lib .invalidPublicKey parameter
      .ok { p with t := { p.t with publicKey }, countP := p.countP + 1 }
    else if letter = 0x66 then do
      let certificateFingerprint ← decodeKey lib .invalidFingerprint parameter
      .ok { p with t := { p.t with certificateFingerprint }, countF := p.countF + 1 }
    else fault .invalidDnsTxtRecord

/-- The start of `Parse`. -/
def Parsing.init : Parsing := ⟨⟨none, none, 0, 0, [], []⟩, 0, 0, 0, 0, 0⟩

/-- `Parse`. -/
def parse (s : Bytes) : Except Stop DnsTXT :=
  match (lib.trimSpace s).splitOn 0x20 with
  | [] => fault .invalidDnsTxtRecord
  | tag :: words =>
    if tag ∉ supported then fault .invalidDnsTxtRecord
    else do
      let p ← words.foldlM (parseWord lib) .init
      if p.countA ≠ 1 ∨ p.countC ≠ 1 ∨ p.countF ≠ 1 ∨ p.countP ≠ 1 ∨ p.countR ≠ 1 then
        fault .invalidDnsTxtRecord
      else .ok p.t

/-! ## The grammar -/

/-- A word with its value. -/
inductive Item
  | addresses (ips : List Bytes)
  | connectPort (port : UInt16)
  | unusedPort (port : UInt16)
  | rpcPort (port : UInt16)
  | publicKey (key : Bytes)
  | fingerprint (key : Bytes)

namespace Item

def letter : Item → UInt8
  | addresses _ => 0x61
  | connectPort _ => 0x63
  | unusedPort _ => 0x73
  | rpcPort _ => 0x72
  | publicKey _ => 0x70
  | fingerprint _ => 0x66

def addresses? : Item → Option (List Bytes)
  | addresses ips => some ips
  | _ => none

def connectPort? : Item → Option UInt16
  | connectPort port => some port
  | _ => none

def rpcPort? : Item → Option UInt16
  | rpcPort port => some port
  | _ => none

def publicKey? : Item → Option Bytes
  | publicKey key => some key
  | _ => none

def fingerprint? : Item → Option Bytes
  | fingerprint key => some key
  | _ => none

end Item

/-- An address, possibly in brackets. -/
def IsAddress (address ip : Bytes) : Prop :=
  address ≠ [] ∧ lib.parseIP (unbracket address) = some ip

/-- A port from 1 to 65535. -/
def IsPort (s : Bytes) (port : UInt16) : Prop :=
  ∃ n : ℤ, lib.atoi s = some n ∧ 1 ≤ n ∧ n ≤ 65535 ∧ port = UInt16.ofNat n.toNat

/-- Sixty-four hexadecimal digits. -/
def IsKey (s key : Bytes) : Prop := s.length = 2 * 32 ∧ lib.decodeString s = some key

/-- The parameter of a word has the value. -/
def Item.Reads : Item → Bytes → Prop
  | .addresses ips, s => List.Forall₂ (IsAddress lib) (s.splitOn 0x3b) ips
  | .connectPort port, s | .unusedPort port, s | .rpcPort port, s => IsPort lib s port
  | .publicKey key, s | .fingerprint key, s => IsKey lib s key

/-- The word is `letter=parameter` with a parameter of the kind. -/
def IsItem (w : Bytes) (i : Item) : Prop :=
  ∃ parameter, w = i.letter :: 0x3d :: parameter ∧ parameter ≠ [] ∧ i.Reads lib parameter

/-- The last address of a kind. -/
def lastOf (kind : Bytes → Bool) (ips : List Bytes) : Option Bytes := (ips.filter kind).getLast?

/-- **The grammar.** A supported tag and words, among them one for each of the addresses, the two
ports and the two keys, and any number of unused ports. -/
def Grammar (s : Bytes) (t : DnsTXT) : Prop :=
  ∃ tag words items ips connect rpc fin key,
    (lib.trimSpace s).splitOn 0x20 = tag :: words ∧ tag ∈ supported ∧
    List.Forall₂ (IsItem lib) (words.filter (· ≠ [])) items ∧
    items.filterMap Item.addresses? = [ips] ∧ items.filterMap Item.connectPort? = [connect] ∧
    items.filterMap Item.rpcPort? = [rpc] ∧ items.filterMap Item.fingerprint? = [fin] ∧
    items.filterMap Item.publicKey? = [key] ∧
    t = ⟨lastOf lib.isIPv4 ips, lastOf (fun ip => !lib.isIPv4 ip) ips, rpc, connect, fin, key⟩

/-- Behind good addresses comes an empty one. -/
def HasEmpty (addresses : List Bytes) : Prop :=
  Reaches (fun a => ∃ ip, IsAddress lib a ip) (· = []) addresses

/-- An `a` word with an empty address behind good ones. -/
def EmptyAddress (w : Bytes) : Prop :=
  ∃ parameter, w = 0x61 :: 0x3d :: parameter ∧ parameter ≠ [] ∧
    HasEmpty lib (parameter.splitOn 0x3b)

/-- Behind the tag and good words comes an `a` word with an empty address behind good ones. -/
def ReachesEmptyAddress (s : Bytes) : Prop :=
  ∃ tag words, (lib.trimSpace s).splitOn 0x20 = tag :: words ∧ tag ∈ supported ∧
    Reaches (fun w => w = [] ∨ ∃ i, IsItem lib w i) (EmptyAddress lib) words

/-! ## Words -/

variable {lib} {s : Bytes} {p p' : Parsing}

theorem getPort_eq_ok {port : UInt16} : getPort lib s = .ok port ↔ IsPort lib s port := by
  unfold getPort IsPort
  cases hatoi : lib.atoi s with
  | none => simp
  | some n =>
    by_cases hrange : n < 1 ∨ n > 65535
    · simp only [if_pos hrange, fault_ne_ok, false_iff, not_exists, Option.some.injEq]
      omega
    · simp only [if_neg hrange, Except.ok.injEq, Option.some.injEq]
      constructor
      · rintro rfl
        exact ⟨n, rfl, by omega, by omega, rfl⟩
      · rintro ⟨m, rfl, -, -, rfl⟩
        rfl

theorem getPort_returns (s : Bytes) : Returns (getPort lib s) := by
  unfold getPort
  split <;> simp

theorem decodeKey_eq_ok {e : Fault} {key : Bytes} :
    decodeKey lib e s = .ok key ↔ IsKey lib s key := by
  unfold decodeKey IsKey
  by_cases hlength : s.length ≠ 2 * 32
  · simp [hlength]
  · rw [if_neg hlength]
    cases hkey : lib.decodeString s <;> simp [not_not.mp hlength]

theorem decodeKey_returns (e : Fault) (s : Bytes) : Returns (decodeKey lib e s) := by
  unfold decodeKey
  split
  · simp
  · split <;> simp

theorem lastOf_cons (kind : Bytes → Bool) (ip : Bytes) (ips : List Bytes) (start : Option Bytes) :
    (lastOf kind (ip :: ips)).or start =
      (lastOf kind ips).or (if kind ip then some ip else start) := by
  unfold lastOf
  by_cases hkind : kind ip
  · rw [List.filter_cons_of_pos hkind, if_pos hkind, List.getLast?_cons]
    cases (ips.filter kind).getLast? <;> simp
  · rw [List.filter_cons_of_neg hkind, if_neg hkind]

/-- The loop succeeds with the last address of either kind. -/
theorem addressLoop_eq_ok {l : List Bytes} {ipv4 ipv6 : Option Bytes}
    {r : Option Bytes × Option Bytes} :
    addressLoop lib l ipv4 ipv6 = .ok r ↔
      ∃ ips, List.Forall₂ (IsAddress lib) l ips ∧
        r = ((lastOf lib.isIPv4 ips).or ipv4, (lastOf (fun ip => !lib.isIPv4 ip) ips).or ipv6) := by
  induction l generalizing ipv4 ipv6 with
  | nil =>
    rw [addressLoop]
    constructor
    · intro h
      cases h
      exact ⟨[], .nil, rfl⟩
    · rintro ⟨ips, hips, rfl⟩
      cases hips
      rfl
  | cons address rest ih =>
    rw [addressLoop]
    by_cases hempty : address = []
    · rw [if_pos hempty, panicAt_ne_ok, false_iff]
      rintro ⟨ips, hips, -⟩
      cases hips with
      | cons h _ => exact h.1 hempty
    rw [if_neg hempty]
    cases hip : lib.parseIP (unbracket address) with
    | none =>
      simp only [fault_ne_ok, false_iff]
      rintro ⟨ips, hips, -⟩
      cases hips with
      | cons h _ => rw [h.2] at hip; cases hip
    | some ip =>
      have hkinds : (if lib.isIPv4 ip then addressLoop lib rest (some ip) ipv6
          else addressLoop lib rest ipv4 (some ip)) =
          addressLoop lib rest (if lib.isIPv4 ip then some ip else ipv4)
            (if !lib.isIPv4 ip then some ip else ipv6) := by
        by_cases hkind : lib.isIPv4 ip <;> simp [hkind]
      dsimp only
      rw [hkinds, ih]
      constructor
      · rintro ⟨ips, hips, rfl⟩
        exact ⟨ip :: ips, .cons ⟨hempty, hip⟩ hips, by rw [lastOf_cons, lastOf_cons]⟩
      · rintro ⟨ips, hips, rfl⟩
        cases hips with
        | cons h hips =>
          obtain rfl : ip = _ := Option.some.inj (hip.symm.trans h.2)
          exact ⟨_, hips, by rw [lastOf_cons, lastOf_cons]⟩

/-- The loop panics at an empty address that it comes to. -/
theorem addressLoop_returns {l : List Bytes} {ipv4 ipv6 : Option Bytes} :
    Returns (addressLoop lib l ipv4 ipv6) ↔ ¬ HasEmpty lib l := by
  induction l generalizing ipv4 ipv6 with
  | nil => simp [addressLoop, HasEmpty, not_reaches_nil]
  | cons address rest ih =>
    rw [addressLoop, HasEmpty, reaches_cons]
    by_cases hempty : address = []
    · simp [hempty]
    rw [if_neg hempty]
    cases hip : lib.parseIP (unbracket address) with
    | none => simp [IsAddress, hip, hempty]
    | some ip =>
      have haddress : ∃ ip, IsAddress lib address ip := ⟨ip, hempty, hip⟩
      simp only [returns_ite, ih, haddress, hempty, true_and, false_or]
      exact ⟨fun h => by_cases h.1 h.2, fun h => ⟨fun _ => h, fun _ => h⟩⟩

/-- What an item adds to the variables. -/
def Parsing.add (lib : Library) (p : Parsing) : Item → Parsing
  | .addresses ips => { p with
      t := { p.t with
        ipv4 := (lastOf lib.isIPv4 ips).or p.t.ipv4
        ipv6 := (lastOf (fun ip => !lib.isIPv4 ip) ips).or p.t.ipv6 }
      countA := p.countA + 1 }
  | .connectPort port => { p with t := { p.t with connectPort := port }, countC := p.countC + 1 }
  | .unusedPort _ => p
  | .rpcPort port => { p with t := { p.t with rpcPort := port }, countR := p.countR + 1 }
  | .publicKey key => { p with t := { p.t with publicKey := key }, countP := p.countP + 1 }
  | .fingerprint key =>
    { p with t := { p.t with certificateFingerprint := key }, countF := p.countF + 1 }

variable {w : Bytes} {i : Item}

theorem parseWord_of_isItem (h : IsItem lib w i) (p : Parsing) :
    parseWord lib p w = .ok (p.add lib i) := by
  obtain ⟨parameter, rfl, hne, hreads⟩ := h
  have hform : ¬ (parameter = [] ∨ (0x3d : UInt8) ≠ 0x3d) := by simp [hne]
  rw [parseWord, if_neg hform]
  cases i with
  | addresses ips =>
    have hloop : addressLoop lib (parameter.splitOn 0x3b) p.t.ipv4 p.t.ipv6 = .ok _ :=
      addressLoop_eq_ok.mpr ⟨ips, hreads, rfl⟩
    rw [hloop]
    rfl
  | connectPort port =>
    rw [getPort_eq_ok.mpr hreads]
    rfl
  | unusedPort port =>
    rw [getPort_eq_ok.mpr hreads]
    rfl
  | rpcPort port =>
    rw [getPort_eq_ok.mpr hreads]
    rfl
  | publicKey key =>
    rw [decodeKey_eq_ok.mpr hreads]
    rfl
  | fingerprint key =>
    rw [decodeKey_eq_ok (e := .invalidFingerprint).mpr hreads]
    rfl

theorem isItem_of_parseWord (h : parseWord lib p w = .ok p') : w = [] ∨ ∃ i, IsItem lib w i := by
  obtain _ | ⟨letter, _ | ⟨equals, parameter⟩⟩ := w
  · exact .inl rfl
  · cases h
  right
  rw [parseWord] at h
  by_cases hform : parameter = [] ∨ equals ≠ 0x3d
  · rw [if_pos hform] at h
    cases h
  rw [if_neg hform] at h
  obtain ⟨hne, hequals⟩ := not_or.mp hform
  obtain rfl := not_not.mp hequals
  split at h
  next hletter =>
    obtain ⟨r, hr, -⟩ := bind_eq_ok.mp h
    obtain ⟨ips, hips, -⟩ := addressLoop_eq_ok.mp hr
    exact ⟨.addresses ips, parameter, by rw [hletter]; rfl, hne, hips⟩
  split at h
  next hletter =>
    obtain ⟨port, hport, -⟩ := bind_eq_ok.mp h
    exact ⟨.connectPort port, parameter, by rw [hletter]; rfl, hne, getPort_eq_ok.mp hport⟩
  split at h
  next hletter =>
    obtain ⟨port, hport, -⟩ := bind_eq_ok.mp h
    exact ⟨.unusedPort port, parameter, by rw [hletter]; rfl, hne, getPort_eq_ok.mp hport⟩
  split at h
  next hletter =>
    obtain ⟨port, hport, -⟩ := bind_eq_ok.mp h
    exact ⟨.rpcPort port, parameter, by rw [hletter]; rfl, hne, getPort_eq_ok.mp hport⟩
  split at h
  next hletter =>
    obtain ⟨key, hkey, -⟩ := bind_eq_ok.mp h
    exact ⟨.publicKey key, parameter, by rw [hletter]; rfl, hne, decodeKey_eq_ok.mp hkey⟩
  split at h
  next hletter =>
    obtain ⟨key, hkey, -⟩ := bind_eq_ok.mp h
    exact ⟨.fingerprint key, parameter, by rw [hletter]; rfl, hne, decodeKey_eq_ok.mp hkey⟩
  · cases h

theorem emptyAddress_iff {equals : UInt8} {parameter : Bytes} :
    EmptyAddress lib (0x61 :: equals :: parameter) ↔
      ¬ (parameter = [] ∨ equals ≠ 0x3d) ∧ HasEmpty lib (parameter.splitOn 0x3b) := by
  constructor
  · rintro ⟨parameter', h, hne, hempty⟩
    cases h
    exact ⟨by simp [hne], hempty⟩
  · rintro ⟨hform, hempty⟩
    obtain ⟨hne, hequals⟩ := not_or.mp hform
    exact ⟨parameter, by rw [not_not.mp hequals], hne, hempty⟩

theorem parseWord_returns : Returns (parseWord lib p w) ↔ ¬ EmptyAddress lib w := by
  obtain _ | ⟨letter, _ | ⟨equals, parameter⟩⟩ := w
  · simp [parseWord, EmptyAddress]
  · simp [parseWord, EmptyAddress]
  rw [parseWord]
  by_cases hletter : letter = 0x61
  · subst hletter
    rw [returns_ite, if_pos rfl, returns_bind, addressLoop_returns, emptyAddress_iff, not_and]
    simp
  · have hother : ¬ EmptyAddress lib (letter :: equals :: parameter) := by
      rintro ⟨parameter', h, -⟩
      exact hletter (List.cons.inj h).1
    simp [hletter, hother, getPort_returns, decodeKey_returns]

/-! ## The loop over the words -/

/-- The loop succeeds when every word is empty or an item. -/
theorem foldlM_parseWord_eq_ok {words : List Bytes} :
    words.foldlM (parseWord lib) p = .ok p' ↔
      ∃ items, List.Forall₂ (IsItem lib) (words.filter (· ≠ [])) items ∧
        p' = items.foldl (Parsing.add lib) p := by
  induction words generalizing p with
  | nil =>
    rw [List.foldlM_nil]
    constructor
    · intro h
      cases h
      exact ⟨[], .nil, rfl⟩
    · rintro ⟨items, hitems, rfl⟩
      cases hitems
      rfl
  | cons w words ih =>
    rw [List.foldlM_cons, bind_eq_ok]
    by_cases hw : w = []
    · subst hw
      simp only [parseWord, Except.ok.injEq, exists_eq_left', ih]
      simp
    rw [List.filter_cons_of_pos (by simpa using hw)]
    constructor
    · rintro ⟨q, hq, h⟩
      obtain ⟨i, hi⟩ := (isItem_of_parseWord hq).resolve_left hw
      rw [parseWord_of_isItem hi] at hq
      cases hq
      obtain ⟨items, hitems, rfl⟩ := ih.mp h
      exact ⟨i :: items, .cons hi hitems, rfl⟩
    · rintro ⟨items, hitems, rfl⟩
      cases hitems with
      | cons hi hitems => exact ⟨_, parseWord_of_isItem hi p, ih.mpr ⟨_, hitems, rfl⟩⟩

theorem parseWord_eq_ok : (∃ p', parseWord lib p w = .ok p') ↔ w = [] ∨ ∃ i, IsItem lib w i := by
  constructor
  · rintro ⟨p', h⟩
    exact isItem_of_parseWord h
  · rintro (rfl | ⟨i, hi⟩)
    · exact ⟨p, rfl⟩
    · exact ⟨_, parseWord_of_isItem hi p⟩

/-! ## What the items add up to -/

theorem foldl_add_counts (lib : Library) (items : List Item) (p : Parsing) :
    (items.foldl (Parsing.add lib) p).countA = p.countA + (items.filterMap Item.addresses?).length ∧
    (items.foldl (Parsing.add lib) p).countC
      = p.countC + (items.filterMap Item.connectPort?).length ∧
    (items.foldl (Parsing.add lib) p).countR = p.countR + (items.filterMap Item.rpcPort?).length ∧
    (items.foldl (Parsing.add lib) p).countF
      = p.countF + (items.filterMap Item.fingerprint?).length ∧
    (items.foldl (Parsing.add lib) p).countP
      = p.countP + (items.filterMap Item.publicKey?).length := by
  induction items generalizing p with
  | nil => simp
  | cons i items ih =>
    rw [List.foldl_cons]
    obtain ⟨ha, hc, hr, hf, hp⟩ := ih (p.add lib i)
    rw [ha, hc, hr, hf, hp]
    cases i <;> simp [Parsing.add, List.filterMap_cons, Item.addresses?, Item.connectPort?,
      Item.rpcPort?, Item.fingerprint?, Item.publicKey?, Nat.add_assoc, Nat.add_comm 1]

theorem foldl_add_init_counts (lib : Library) (items : List Item) :
    (items.foldl (Parsing.add lib) .init).countA = (items.filterMap Item.addresses?).length ∧
    (items.foldl (Parsing.add lib) .init).countC = (items.filterMap Item.connectPort?).length ∧
    (items.foldl (Parsing.add lib) .init).countR = (items.filterMap Item.rpcPort?).length ∧
    (items.foldl (Parsing.add lib) .init).countF = (items.filterMap Item.fingerprint?).length ∧
    (items.foldl (Parsing.add lib) .init).countP = (items.filterMap Item.publicKey?).length := by
  simpa [Parsing.init] using foldl_add_counts lib items .init

theorem lastOf_append (kind : Bytes → Bool) (ips ips' : List Bytes) :
    lastOf kind (ips ++ ips') = (lastOf kind ips').or (lastOf kind ips) := by
  rw [lastOf, List.filter_append, List.getLast?_append]
  rfl

theorem foldl_add_values (items : List Item) (p : Parsing) :
    (items.foldl (Parsing.add lib) p).t =
      ⟨(lastOf lib.isIPv4 (items.filterMap Item.addresses?).flatten).or p.t.ipv4,
        (lastOf (fun ip => !lib.isIPv4 ip) (items.filterMap Item.addresses?).flatten).or p.t.ipv6,
        (items.filterMap Item.rpcPort?).getLastD p.t.rpcPort,
        (items.filterMap Item.connectPort?).getLastD p.t.connectPort,
        (items.filterMap Item.fingerprint?).getLastD p.t.certificateFingerprint,
        (items.filterMap Item.publicKey?).getLastD p.t.publicKey⟩ := by
  induction items generalizing p with
  | nil => rfl
  | cons i items ih =>
    rw [List.foldl_cons, ih]
    cases i <;> simp only [Parsing.add, List.filterMap_cons, Item.addresses?, Item.connectPort?,
      Item.rpcPort?, Item.fingerprint?, Item.publicKey?, List.flatten_cons, lastOf_append,
      Option.or_assoc, List.getLastD_cons]

/-! ## Every string -/

theorem parse_eq_ok {t : DnsTXT} : parse lib s = .ok t ↔ Grammar lib s t := by
  unfold parse Grammar
  cases hsplit : (lib.trimSpace s).splitOn 0x20 with
  | nil => simp
  | cons tag words =>
    by_cases htag : tag ∈ supported
    · dsimp only
      rw [if_neg (not_not.mpr htag), bind_eq_ok]
      constructor
      · rintro ⟨p, hp, h⟩
        obtain ⟨items, hitems, rfl⟩ := foldlM_parseWord_eq_ok.mp hp
        obtain ⟨ha, hc, hr, hf, hk⟩ := foldl_add_init_counts lib items
        rw [ha, hc, hr, hf, hk] at h
        split at h
        · cases h
        next hcounts =>
          cases h
          simp only [not_or, not_not] at hcounts
          obtain ⟨ha, hc, hf, hk, hr⟩ := hcounts
          obtain ⟨ips, hips⟩ := List.length_eq_one_iff.mp ha
          obtain ⟨connect, hconnect⟩ := List.length_eq_one_iff.mp hc
          obtain ⟨rpc, hrpc⟩ := List.length_eq_one_iff.mp hr
          obtain ⟨fin, hfin⟩ := List.length_eq_one_iff.mp hf
          obtain ⟨key, hkey⟩ := List.length_eq_one_iff.mp hk
          refine ⟨tag, words, items, ips, connect, rpc, fin, key, rfl, htag, hitems, hips, hconnect,
            hrpc, hfin, hkey, ?_⟩
          rw [foldl_add_values, hips, hconnect, hrpc, hfin, hkey]
          simp [Parsing.init]
      · rintro ⟨tag', words', items, ips, connect, rpc, fin, key, h, -, hitems, hips, hconnect,
          hrpc, hfin, hkey, rfl⟩
        cases h
        refine ⟨_, foldlM_parseWord_eq_ok.mpr ⟨items, hitems, rfl⟩, ?_⟩
        obtain ⟨ha, hc, hr, hf, hk⟩ := foldl_add_init_counts lib items
        rw [ha, hc, hr, hf, hk, foldl_add_values, hips, hconnect, hrpc, hfin, hkey]
        simp [Parsing.init]
    · simp only [if_pos htag, fault_ne_ok, false_iff]
      rintro ⟨tag', words', items, ips, connect, rpc, fin, key, h, htag', -⟩
      cases h
      exact htag htag'

theorem parse_returns : Returns (parse lib s) ↔ ¬ ReachesEmptyAddress lib s := by
  unfold parse ReachesEmptyAddress
  cases hsplit : (lib.trimSpace s).splitOn 0x20 with
  | nil => simp
  | cons tag words =>
    by_cases htag : tag ∈ supported
    · have hloop : Returns (words.foldlM (parseWord lib) .init) ↔
          ¬ Reaches (fun w => w = [] ∨ ∃ i, IsItem lib w i) (EmptyAddress lib) words :=
        returns_foldlM (fun _ _ => parseWord_eq_ok) (fun _ _ => parseWord_returns)
      dsimp only
      rw [if_neg (not_not.mpr htag), returns_bind, hloop]
      simp [htag]
    · simp [htag]

/-- **Parsing is exact**, and total unless an empty address is reached. -/
theorem parse_iff (lib : Library) (s : Bytes) :
    (Returns (parse lib s) ∧ ∀ t, parse lib s = .ok t ↔ Grammar lib s t) ↔
      ¬ ReachesEmptyAddress lib s := by
  rw [parse_returns]
  exact and_iff_left fun t => parse_eq_ok

/-- A library for which `1.2.3.4` is the only address, and nothing is a port or a key. -/
def oneAddress : Library where
  trimSpace s := s
  parseIP s := if s = [0x31, 0x2e, 0x32, 0x2e, 0x33, 0x2e, 0x34] then some [1, 2, 3, 4] else none
  isIPv4 _ := true
  decodeString _ := none
  atoi _ := none

/-- The record `bitmark=v3 a=1.2.3.4;`. -/
theorem parse_trailing_semicolon_panics :
    parse oneAddress [0x62, 0x69, 0x74, 0x6d, 0x61, 0x72, 0x6b, 0x3d, 0x76, 0x33, 0x20, 0x61, 0x3d,
      0x31, 0x2e, 0x32, 0x2e, 0x33, 0x2e, 0x34, 0x3b] = panicAt .indexOutOfRange := by
  decide +kernel

end Bitmarkd.Txt
