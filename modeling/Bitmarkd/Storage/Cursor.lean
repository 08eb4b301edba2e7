import Bitmarkd.Storage
import Bitmarkd.Util.Base58Inverse
import Bitmarkd.Lib.Pages

/-!
# Fetch cursors

`storage/cursor.go`. A cursor is the start of a range of keys of one pool. `Fetch` reads some
elements from there on and moves the start behind the last one: the key of that element is read as
a number, one is added, and the bytes of the sum are copied over the start.

The bytes of a number do not begin with a zero and are as many as it needs. So the copy is the next
key only if the sum has as many bytes as the key (`nextStart_le_iff`):

- for a key with zeros in front, the bytes of the sum land too far to the left, and the keys up to
  there are skipped;
- for a key of bytes 0xff only, the sum has one byte more and the last one is cut off, so that the
  keys from 0x01 0x00 … on are read again.

**Main result** (`cursor_paging_iff`). The pages are the elements from the seek key on, each once
and in order, just when no page but the last ends with such a key, or nothing was skipped.
-/

namespace Bitmarkd

open Lib Util

/-- `Element`. -/
structure Element where
  key : Bytes
  value : Bytes
deriving DecidableEq, Repr

/-- The `limit` of a pool: no pool has the prefix 0xff. -/
def Pool.limit (p : Pool) : Bytes := [p.tag + 1]

/-- `FetchCursor`, with the start of its range; the limit is that of the pool. -/
structure FetchCursor where
  pool : Pool
  start : Bytes
deriving DecidableEq, Repr

/-- `NewFetchCursor`. -/
def newFetchCursor (p : Pool) : FetchCursor := ⟨p, [p.tag]⟩

/-- `copy` of Go: as much of the source as fits. -/
def copyBytes (dst src : Bytes) : Bytes := src.take dst.length ++ dst.drop src.length

/-- The loop of `Fetch` over a database iterator, with the keys the iterator has still to go
through. -/
def iterating (db : Database) : ℕ → Finset Bytes → List Element
  | 0, _ => []
  | n + 1, keys =>
    match keys.min with
    | none => []
    | some key => ⟨key.drop 1, (db.lookup key).getD []⟩ :: iterating db n (keys.erase key)

/-- The keys of a range: its start is included, its limit is not. -/
def Database.range (db : Database) (start limit : Bytes) : Finset Bytes :=
  db.keys.filter fun k => start ≤ k ∧ k < limit

/-- The start of the range behind an element. -/
def nextStart (start key : Bytes) : Bytes := copyBytes start (bigBytes (beValue key + 1))

namespace FetchCursor

/-- `Seek`. -/
def seek (cursor : FetchCursor) (key : Bytes) : FetchCursor :=
  { cursor with start := prefixKey cursor.pool key }

/-- `Fetch`. -/
def fetch (db : Database) (cursor : FetchCursor) (count : ℤ) :
    Except Stop (List Element × FetchCursor) :=
  if count ≤ 0 then fault .invalidCount
  else
    let results := iterating db count.toNat (db.range cursor.start cursor.pool.limit)
    match results.getLast? with
    | none => .ok (results, cursor)
    | some last =>
      let keyLen := last.key.length
      let start :=
        if cursor.start.length ≠ keyLen + 1 then List.replicate (keyLen + 1) 0 else cursor.start
      .ok (results, { cursor with start := cursor.pool.tag :: nextStart (start.drop 1) last.key })

/-- Successive calls of `Fetch` on one cursor. -/
def fetchAll (db : Database) : FetchCursor → List ℕ → Except Stop (List (List Element))
  | _, [] => .ok []
  | cursor, count :: counts => do
    let (page, cursor) ← cursor.fetch db count
    let rest ← fetchAll db cursor counts
    return page :: rest

end FetchCursor

/-! ## The elements of a pool -/

/-- The elements of a pool whose keys satisfy a condition, in the order of their keys. -/
structure Lists (db : Database) (p : Pool) (P : Bytes → Prop) (l : List Element) : Prop where
  ascending : Ascending Element.key l
  mem : ∀ e, e ∈ l ↔ db.lookup (prefixKey p e.key) = some e.value ∧ P e.key

section

variable {db : Database} {p : Pool} {P Q : Bytes → Prop} {l l' : List Element}

theorem prefixKey_le_iff {k k' : Bytes} : prefixKey p k ≤ prefixKey p k' ↔ k ≤ k' := by
  rw [← not_lt, ← not_lt, prefixKey, prefixKey, List.cons_lt_cons_iff]
  simp

theorem prefixKey_lt_iff {k k' : Bytes} : prefixKey p k < prefixKey p k' ↔ k < k' := by
  rw [← not_le, ← not_le, prefixKey_le_iff]

/-- A range that begins in a pool stays in the pool. -/
theorem mem_range {start k : Bytes} : k ∈ db.range (prefixKey p start) p.limit ↔
    ∃ key, k = prefixKey p key ∧ (db.lookup k).isSome ∧ start ≤ key := by
  rw [Database.range, Finset.mem_filter, Finmap.mem_keys, ← Finmap.lookup_isSome]
  constructor
  · rintro ⟨hsome, hle, hlt⟩
    have hfirst : [p.tag] ≤ prefixKey p start := (mem_poolRange.mpr ⟨start, rfl⟩).1
    obtain ⟨key, rfl⟩ := mem_poolRange.mp ⟨hfirst.trans hle, hlt⟩
    exact ⟨key, rfl, hsome, prefixKey_le_iff.mp hle⟩
  · rintro ⟨key, rfl, hsome, hle⟩
    exact ⟨hsome, prefixKey_le_iff.mpr hle, (mem_poolRange.mpr ⟨key, rfl⟩).2⟩

/-- The loop reads the first elements of the range. -/
theorem iterating_eq (n : ℕ) {keys : Finset Bytes} (hasc : Ascending Element.key l)
    (hkeys : ∀ k, k ∈ keys ↔ ∃ e ∈ l, k = prefixKey p e.key)
    (hvalue : ∀ e ∈ l, db.lookup (prefixKey p e.key) = some e.value) :
    iterating db n keys = l.take n := by
  induction n generalizing keys l with
  | zero => rfl
  | succ n ih =>
    unfold iterating
    cases l with
    | nil =>
      split
      · rfl
      next key hmin =>
        obtain ⟨e, he, -⟩ := (hkeys key).mp (Finset.mem_of_min hmin)
        cases he
    | cons e l =>
      have he : prefixKey p e.key ∈ keys := (hkeys _).mpr ⟨e, List.mem_cons_self, rfl⟩
      obtain ⟨hhead, htail⟩ := List.pairwise_cons.mp hasc
      split
      next hmin =>
        rw [Finset.min_eq_top.mp hmin] at he
        cases he
      next key hmin =>
        -- the smallest key is that of the first element
        obtain ⟨e', he', rfl⟩ := (hkeys key).mp (Finset.mem_of_min hmin)
        have hle := prefixKey_le_iff.mp (Finset.min_le_of_eq he hmin)
        obtain rfl : e' = e := by
          rcases List.mem_cons.mp he' with heq | hmem
          · exact heq
          · exact absurd (hhead e' hmem) (not_lt.mpr hle)
        rw [hvalue e' List.mem_cons_self, List.take_succ_cons, ih htail ?_ ?_]
        · rfl
        · intro k
          rw [Finset.mem_erase, hkeys]
          constructor
          · rintro ⟨hne, x, hx, rfl⟩
            rcases List.mem_cons.mp hx with rfl | hx
            · exact absurd rfl hne
            · exact ⟨x, hx, rfl⟩
          · rintro ⟨x, hx, rfl⟩
            refine ⟨fun heq => ?_, x, List.mem_cons_of_mem _ hx, rfl⟩
            exact absurd (hhead x hx) (by rw [(prefixKey_inj.mp heq).2]; exact lt_irrefl _)
        · exact fun x hx => hvalue x (List.mem_cons_of_mem _ hx)

theorem Lists.iterating {start : Bytes} (h : Lists db p (start ≤ ·) l) (n : ℕ) :
    iterating db n (db.range (prefixKey p start) p.limit) = l.take n := by
  refine iterating_eq n h.ascending (fun k => ?_) fun e he => ((h.mem e).mp he).1
  rw [mem_range]
  constructor
  · rintro ⟨key, rfl, hsome, hle⟩
    obtain ⟨value, hvalue⟩ := Option.isSome_iff_exists.mp hsome
    exact ⟨⟨key, value⟩, (h.mem _).mpr ⟨hvalue, hle⟩, rfl⟩
  · rintro ⟨e, he, rfl⟩
    obtain ⟨hvalue, hle⟩ := (h.mem e).mp he
    exact ⟨e.key, rfl, by rw [hvalue]; rfl, hle⟩

/-- Every range of a pool can be listed. -/
theorem exists_lists (db : Database) (p : Pool) (start : Bytes) :
    ∃ l, Lists db p (start ≤ ·) l := by
  let keys := db.range (prefixKey p start) p.limit
  have hkey : ∀ k ∈ keys.sort (· ≤ ·), ∃ key, k = prefixKey p key ∧ (db.lookup k).isSome ∧
      start ≤ key := fun k hk => mem_range.mp ((Finset.mem_sort _).mp hk)
  refine ⟨(keys.sort (· ≤ ·)).map fun k => ⟨k.drop 1, (db.lookup k).getD []⟩, ?_, fun e => ?_⟩
  · refine List.pairwise_map.mpr ((Finset.sortedLT_sort keys).pairwise.imp_of_mem ?_)
    intro k k' hk hk' hlt
    obtain ⟨key, rfl, -⟩ := hkey k hk
    obtain ⟨key', rfl, -⟩ := hkey k' hk'
    exact prefixKey_lt_iff.mp hlt
  · rw [List.mem_map]
    constructor
    · rintro ⟨k, hk, rfl⟩
      obtain ⟨key, rfl, hsome, hle⟩ := hkey k hk
      obtain ⟨value, hvalue⟩ := Option.isSome_iff_exists.mp hsome
      refine ⟨?_, hle⟩
      rw [hvalue]
      exact hvalue
    · rintro ⟨hvalue, hle⟩
      have hmem : prefixKey p e.key ∈ keys := mem_range.mpr ⟨e.key, rfl, by rw [hvalue]; rfl, hle⟩
      refine ⟨prefixKey p e.key, (Finset.mem_sort _).mpr hmem, ?_⟩
      rw [hvalue]
      rfl

end

/-! ## The start behind a page -/

section

variable {start key : Bytes}

theorem length_copyBytes (dst src : Bytes) : (copyBytes dst src).length = dst.length := by
  simp only [copyBytes, List.length_append, List.length_take, List.length_drop]
  omega

theorem le_iff_beValue_le {b c : Bytes} (hlen : b.length = c.length) :
    b ≤ c ↔ beValue b ≤ beValue c := by
  rw [← not_lt, lt_iff_beValue_lt hlen.symm, not_lt]

/-- Only bytes 0xff make the largest number of a length. -/
theorem beValue_succ_eq_iff (b : Bytes) : beValue b + 1 = 256 ^ b.length ↔ ∀ x ∈ b, x = 0xff := by
  induction b with
  | nil => simp [beValue, leValue]
  | cons x b ih =>
    have hx := x.toNat_lt
    have hb := beValue_lt b
    have hxmax : x = 0xff ↔ x.toNat = 255 := by
      rw [← UInt8.toNat_inj]
      rfl
    rw [List.forall_mem_cons, ← ih, beValue_cons, List.length_cons, pow_succ, hxmax]
    constructor
    · intro h
      have hmax : x.toNat = 255 := by
        by_contra hne
        have hle : x.toNat * 256 ^ b.length ≤ 254 * 256 ^ b.length :=
          Nat.mul_le_mul_right _ (by omega)
        omega
      rw [hmax] at h
      exact ⟨hmax, by omega⟩
    · rintro ⟨hmax, h⟩
      rw [hmax]
      omega

/-- The next start is behind the key, unless all its bytes are 0xff. -/
theorem lt_nextStart (hlen : start.length = key.length)
    (hmax : beValue key + 1 < 256 ^ key.length) :
    key < nextStart start key := by
  have hfits := (length_bigBytes_le_iff _ _).mpr hmax
  rw [lt_iff_beValue_lt (by rw [nextStart, length_copyBytes, hlen]), nextStart, copyBytes,
    List.take_of_length_le (by omega), beValue_append, beValue_bigBytes]
  have hpos : 0 < 256 ^ (start.drop (bigBytes (beValue key + 1)).length).length :=
    Nat.pow_pos (by decide)
  nlinarith

/-- A key of bytes 0xff only is not behind the next start. -/
theorem nextStart_le (hlen : start.length = key.length)
    (hmax : beValue key + 1 = 256 ^ key.length) :
    nextStart start key ≤ key := by
  have hlength : (nextStart start key).length = key.length := by
    rw [nextStart, length_copyBytes, hlen]
  have hlt := beValue_lt (nextStart start key)
  rw [hlength] at hlt
  rw [le_iff_beValue_le hlength]
  omega

/-- If the sum has as many bytes as the key, the next start is the next key. -/
theorem nextStart_le_iff {key' : Bytes} (hlen : start.length = key.length)
    (hlen' : key'.length = key.length) (hmax : beValue key + 1 < 256 ^ key.length)
    (hfull : 256 ^ (key.length - 1) ≤ beValue key + 1) :
    nextStart start key ≤ key' ↔ key < key' := by
  have hfits := (length_bigBytes_le_iff _ _).mpr hmax
  have hlong := mt (length_bigBytes_le_iff _ _).mp (not_lt.mpr hfull)
  have hstart : nextStart start key = bigBytes (beValue key + 1) := by
    rw [nextStart, copyBytes, List.take_of_length_le (by omega), List.drop_eq_nil_of_le (by omega),
      List.append_nil]
  have hlength : (nextStart start key).length = key.length := by
    rw [nextStart, length_copyBytes, hlen]
  rw [le_iff_beValue_le (hlength.trans hlen'.symm), lt_iff_beValue_lt hlen'.symm, hstart,
    beValue_bigBytes]
  rfl

end

/-! ## Pages -/

/-- A page with this last key can be continued: not all bytes of the key are 0xff, and if the key
has so many zeros in front that the next start is shifted, nothing that comes after the page is
skipped. -/
def EndsWell (start last : Bytes) (rest : List Element) : Prop :=
  (∃ b ∈ last, b ≠ 0xff) ∧
    (beValue last + 1 < 256 ^ (last.length - 1) → ∀ e ∈ rest, nextStart start last ≤ e.key)

/-- Every page but the last can be continued. -/
def PagesEndWell : Bytes → List Element → List ℕ → Prop
  | start, l, n :: m :: counts =>
    ∀ e ∈ (l.take n).getLast?, EndsWell start e.key (l.drop n) ∧
      PagesEndWell (nextStart start e.key) (l.drop n) (m :: counts)
  | _, _, _ => True

section

variable {db : Database} {p : Pool} {l l' : List Element} {start : Bytes} {length n : ℕ}

/-- All keys of a pool have one length. -/
def KeysHaveLength (db : Database) (p : Pool) (length : ℕ) : Prop :=
  ∀ key, (db.lookup (prefixKey p key)).isSome → key.length = length

theorem Lists.length_key (h : Lists db p (start ≤ ·) l) (hkeys : KeysHaveLength db p length)
    {e : Element} (he : e ∈ l) : e.key.length = length :=
  hkeys e.key (by rw [((h.mem e).mp he).1]; rfl)

/-- The start after a page. -/
def startAfter (start : Bytes) (page : List Element) : Bytes :=
  (page.getLast?.map fun e => nextStart start e.key).getD start

theorem length_startAfter (start : Bytes) (page : List Element) :
    (startAfter start page).length = start.length := by
  unfold startAfter
  cases page.getLast? with
  | none => rfl
  | some e => exact length_copyBytes start _

theorem fetch_eq (h : Lists db p (start ≤ ·) l) (hkeys : KeysHaveLength db p length)
    (hstart : start.length = length) (hn : 0 < n) :
    (⟨p, prefixKey p start⟩ : FetchCursor).fetch db n =
      .ok (l.take n, ⟨p, prefixKey p (startAfter start (l.take n))⟩) := by
  have hcount : ¬ (n : ℤ) ≤ 0 := by omega
  simp only [FetchCursor.fetch, hcount, if_false, Int.toNat_natCast, h.iterating, startAfter]
  cases hlast : (l.take n).getLast? with
  | none => rfl
  | some e =>
    have hlength := h.length_key hkeys (List.mem_of_mem_take (List.mem_of_getLast? hlast))
    have hsame : ¬ (prefixKey p start).length ≠ e.key.length + 1 := by
      rw [prefixKey, List.length_cons, hstart, hlength]
      exact not_not.mpr rfl
    simp only [hsame, if_false]
    rfl

/-- The elements from the next start on are what comes after the page, if it ends well. -/
theorem Lists.next (h : Lists db p (start ≤ ·) l) (hkeys : KeysHaveLength db p length)
    (hstart : start.length = length) {e : Element} (he : e ∈ (l.take n).getLast?)
    (hwell : EndsWell start e.key (l.drop n)) :
    Lists db p (nextStart start e.key ≤ ·) (l.drop n) := by
  have hel : e ∈ l := List.mem_of_mem_take (List.mem_of_getLast? he)
  have hlength := h.length_key hkeys hel
  have hsame : start.length = e.key.length := hstart.trans hlength.symm
  have hmax : beValue e.key + 1 < 256 ^ e.key.length := by
    have hne : beValue e.key + 1 ≠ 256 ^ e.key.length := by
      intro heq
      obtain ⟨b, hb, hff⟩ := hwell.1
      exact hff ((beValue_succ_eq_iff e.key).mp heq b hb)
    have hlt := beValue_lt e.key
    omega
  have hbehind := lt_nextStart hsame hmax
  refine ⟨h.ascending.sublist (List.drop_sublist n l), fun x => ?_⟩
  rw [h.ascending.mem_drop he, h.mem]
  constructor
  · rintro ⟨⟨hlookup, hle⟩, hlt⟩
    have hx : x ∈ l.drop n := (h.ascending.mem_drop he x).mpr ⟨(h.mem x).mpr ⟨hlookup, hle⟩, hlt⟩
    refine ⟨hlookup, ?_⟩
    by_cases hshort : beValue e.key + 1 < 256 ^ (e.key.length - 1)
    · exact hwell.2 hshort x hx
    · have hxlength := h.length_key hkeys ((h.mem x).mpr ⟨hlookup, hle⟩)
      exact (nextStart_le_iff hsame (hxlength.trans hlength.symm) hmax (not_lt.mp hshort)).mpr hlt
  · rintro ⟨hlookup, hle⟩
    have hlt := hbehind.trans_le hle
    exact ⟨⟨hlookup, ((h.mem e).mp hel).2.trans hlt.le⟩, hlt⟩

/-- After a page that does not end well, the next page is wrong. -/
theorem take_ne_of_not_endsWell (h : Lists db p (start ≤ ·) l) (hkeys : KeysHaveLength db p length)
    (hstart : start.length = length) {e : Element} (he : e ∈ (l.take n).getLast?)
    (hwell : ¬ EndsWell start e.key (l.drop n)) (h' : Lists db p (nextStart start e.key ≤ ·) l')
    {m : ℕ} (hm : 0 < m) : l'.take m ≠ (l.drop n).take m := by
  have hel : e ∈ l := List.mem_of_mem_take (List.mem_of_getLast? he)
  have hlength := h.length_key hkeys hel
  have hsame : start.length = e.key.length := hstart.trans hlength.symm
  intro heq
  by_cases hff : ∃ b ∈ e.key, b ≠ 0xff
  · -- the first element after the page is skipped
    have hskip : ¬ ∀ x ∈ l.drop n, nextStart start e.key ≤ x.key := fun hall =>
      hwell ⟨hff, fun _ => hall⟩
    push Not at hskip
    obtain ⟨x, hx, hlt⟩ := hskip
    obtain ⟨f, rest, hrest⟩ := List.exists_cons_of_ne_nil (List.ne_nil_of_mem hx)
    have hfx : f.key ≤ x.key := by
      have hasc := h.ascending.sublist (List.drop_sublist n l)
      rw [hrest] at hx hasc
      rcases List.mem_cons.mp hx with rfl | hmem
      · exact le_refl _
      · exact le_of_lt ((List.pairwise_cons.mp hasc).1 x hmem)
    have hf : f ∈ l'.take m := by
      rw [heq, hrest, ← Nat.succ_pred_eq_of_pos hm, List.take_succ_cons]
      exact List.mem_cons_self
    have hle := ((h'.mem f).mp (List.mem_of_mem_take hf)).2
    exact absurd (hle.trans hfx) (not_le.mpr hlt)
  · -- the last element is read again
    push Not at hff
    have hmax := (beValue_succ_eq_iff e.key).mpr hff
    have hagain : e ∈ l' := (h'.mem e).mpr ⟨((h.mem e).mp hel).1, nextStart_le hsame hmax⟩
    have hempty : l.drop n = [] := by
      refine List.eq_nil_iff_forall_not_mem.mpr fun x hx => ?_
      obtain ⟨hxl, hlt⟩ := (h.ascending.mem_drop he x).mp hx
      have hxlength := (h.length_key hkeys hxl).trans hlength.symm
      have hbound := beValue_lt x.key
      rw [lt_iff_beValue_lt hxlength.symm] at hlt
      rw [hxlength] at hbound
      omega
    rw [hempty, List.take_nil, List.take_eq_nil_iff] at heq
    rcases heq with hzero | hnil
    · exact absurd hzero hm.ne'
    · rw [hnil] at hagain
      cases hagain

/-- One call, and the others after it. -/
theorem fetchAll_cons_eq_ok (h : Lists db p (start ≤ ·) l) (hkeys : KeysHaveLength db p length)
    (hstart : start.length = length) (hn : 0 < n) {counts : List ℕ} {result : List (List Element)} :
    (⟨p, prefixKey p start⟩ : FetchCursor).fetchAll db (n :: counts) = .ok result ↔
      ∃ rest, result = l.take n :: rest ∧
        (⟨p, prefixKey p (startAfter start (l.take n))⟩ : FetchCursor).fetchAll db counts =
          .ok rest := by
  rw [FetchCursor.fetchAll, fetch_eq h hkeys hstart hn]
  change ((FetchCursor.fetchAll db _ counts >>= fun rest => pure (l.take n :: rest)) = _) ↔ _
  rw [bind_eq_ok]
  constructor
  · rintro ⟨rest, hrest, heq⟩
    exact ⟨rest, (Except.ok.inj heq).symm, hrest⟩
  · rintro ⟨rest, rfl, hrest⟩
    exact ⟨rest, hrest, rfl⟩

/-- Nothing is read from an empty range. -/
theorem fetchAll_of_empty (h : Lists db p (start ≤ ·) []) (hkeys : KeysHaveLength db p length)
    (hstart : start.length = length) (counts : List ℕ) (hcounts : ∀ n ∈ counts, 0 < n) :
    (⟨p, prefixKey p start⟩ : FetchCursor).fetchAll db counts = .ok (pages [] counts) := by
  induction counts with
  | nil => rfl
  | cons n counts ih =>
    obtain ⟨hn, hcounts⟩ := List.forall_mem_cons.mp hcounts
    refine (fetchAll_cons_eq_ok h hkeys hstart hn).mpr ⟨pages [] counts, ?_, ?_⟩
    · rw [pages, List.drop_nil]
    · rw [List.take_nil]
      exact ih hcounts

/-- **The pages are right just when all but the last can be continued.** -/
theorem fetchAll_iff (h : Lists db p (start ≤ ·) l) (hkeys : KeysHaveLength db p length)
    (hstart : start.length = length) (counts : List ℕ) (hcounts : ∀ n ∈ counts, 0 < n) :
    (⟨p, prefixKey p start⟩ : FetchCursor).fetchAll db counts = .ok (pages l counts) ↔
      PagesEndWell start l counts := by
  -- induction on the number of calls; the elements from the start of the cursor on are `l`
  induction counts generalizing start l with
  | nil => simp [FetchCursor.fetchAll, pages, PagesEndWell]
  | cons n counts ih =>
    obtain ⟨hn, hcounts⟩ := List.forall_mem_cons.mp hcounts
    have hlength : (startAfter start (l.take n)).length = length := by
      rw [length_startAfter, hstart]
    rw [pages, fetchAll_cons_eq_ok h hkeys hstart hn]
    simp only [List.cons.injEq, true_and, exists_eq_left']
    cases hlast : (l.take n).getLast? with
    | none =>
      -- an empty page: there is nothing left
      have hpage := List.getLast?_eq_none_iff.mp hlast
      have hnil : l = [] := by
        rcases List.take_eq_nil_iff.mp hpage with hzero | hnil
        · exact absurd hzero hn.ne'
        · exact hnil
      subst hnil
      rw [List.take_nil, List.drop_nil]
      refine iff_of_true (fetchAll_of_empty h hkeys hstart counts hcounts) ?_
      cases counts <;> simp [PagesEndWell]
    | some e =>
      have hafter : startAfter start (l.take n) = nextStart start e.key := by
        rw [startAfter, hlast]
        rfl
      rw [hafter] at hlength ⊢
      cases counts with
      | nil => simp [FetchCursor.fetchAll, pages, PagesEndWell]
      | cons m counts =>
        have hm : 0 < m := hcounts m List.mem_cons_self
        obtain ⟨l', hl'⟩ := exists_lists db p (nextStart start e.key)
        have hpages : PagesEndWell start l (n :: m :: counts) ↔
            EndsWell start e.key (l.drop n) ∧
              PagesEndWell (nextStart start e.key) (l.drop n) (m :: counts) := by
          simp [PagesEndWell, hlast]
        rw [hpages]
        by_cases hwell : EndsWell start e.key (l.drop n)
        · rw [ih (h.next hkeys hstart hlast hwell) hlength hcounts]
          exact (and_iff_right hwell).symm
        · refine iff_of_false (fun hok => ?_) fun hand => hwell hand.1
          obtain ⟨rest, heq, -⟩ := (fetchAll_cons_eq_ok hl' hkeys hlength hm).mp hok
          have hfirst := take_ne_of_not_endsWell h hkeys hstart hlast hwell hl' hm
          exact hfirst (List.cons.inj heq).1.symm

/-- Every sequence of calls returns, and returns elements of the pool. -/
theorem fetchAll_returns (hkeys : KeysHaveLength db p length) (hstart : start.length = length)
    (counts : List ℕ) (hcounts : ∀ n ∈ counts, 0 < n) :
    ∃ result, (⟨p, prefixKey p start⟩ : FetchCursor).fetchAll db counts = .ok result ∧
      ∀ page ∈ result, ∀ e ∈ page, db.lookup (prefixKey p e.key) = some e.value := by
  induction counts generalizing start with
  | nil => exact ⟨[], rfl, by simp⟩
  | cons n counts ih =>
    obtain ⟨hn, hcounts⟩ := List.forall_mem_cons.mp hcounts
    obtain ⟨l, hl⟩ := exists_lists db p start
    have hlength : (startAfter start (l.take n)).length = length := by
      rw [length_startAfter, hstart]
    obtain ⟨rest, hrest, hmem⟩ := ih hlength hcounts
    refine ⟨l.take n :: rest, (fetchAll_cons_eq_ok hl hkeys hstart hn).mpr ⟨rest, rfl, hrest⟩, ?_⟩
    refine List.forall_mem_cons.mpr ⟨fun e he => ?_, hmem⟩
    exact ((hl.mem e).mp (List.mem_of_mem_take he)).1

end

/-- **Paging with a cursor.** All keys of a pool have one length, and so has the key the cursor is
moved to. Successive calls of `Fetch` return the elements of the pool from that key on, as many as
each call asks for, each once and in the order of their keys, just when every page that another call
follows can be continued. Nothing of another pool is ever returned. -/
theorem cursor_paging_iff (db : Database) (p : Pool) (seek : Bytes) (counts : List ℕ)
    (hkeys : KeysHaveLength db p seek.length) (hcounts : ∀ n ∈ counts, 0 < n) :
    ∃ l, Lists db p (seek ≤ ·) l ∧
      (((newFetchCursor p).seek seek).fetchAll db counts = .ok (pages l counts) ↔
        PagesEndWell seek l counts) ∧
      ∃ result, ((newFetchCursor p).seek seek).fetchAll db counts = .ok result ∧
        ∀ page ∈ result, ∀ e ∈ page, db.lookup (prefixKey p e.key) = some e.value := by
  obtain ⟨l, hl⟩ := exists_lists db p seek
  exact ⟨l, hl, fetchAll_iff hl hkeys rfl counts hcounts, fetchAll_returns hkeys rfl counts hcounts⟩

namespace Sample

/-- A pool with some keys of two bytes, and one key of the next pool. -/
def testData : Database :=
  ((((∅ : Database).insert (prefixKey .testData [0x00, 0x01]) [1]).insert
    (prefixKey .testData [0x00, 0x02]) [2]).insert (prefixKey .testData [0xff, 0xff]) [3]).insert
    [0x5b, 0x00, 0x00] [4]

theorem testData_keys : KeysHaveLength testData .testData 2 := by
  intro key hsome
  have hkeys : ∀ k ∈ testData.keys, k.head? = some Pool.testData.tag → k.length = 3 := by
    decide +kernel
  have hlength := hkeys _ (Finmap.mem_keys.mpr (Finmap.lookup_isSome.mp hsome)) rfl
  rwa [prefixKey, List.length_cons, Nat.succ_inj] at hlength

/-- Two calls that go through the pool. -/
theorem cursor_paging_testData : ∃ l, Lists testData .testData ([0x00, 0x00] ≤ ·) l ∧
    (((newFetchCursor .testData).seek [0x00, 0x00]).fetchAll testData [3, 1]
      = .ok (pages l [3, 1]) ↔
      PagesEndWell [0x00, 0x00] l [3, 1]) ∧
    ∃ result, ((newFetchCursor .testData).seek [0x00, 0x00]).fetchAll testData [3, 1] =
        .ok result ∧
      ∀ page ∈ result, ∀ e ∈ page,
        testData.lookup (prefixKey .testData e.key) = some e.value :=
  cursor_paging_iff testData .testData [0x00, 0x00] [3, 1] testData_keys (by decide)

/-- The first call ends at 0x00 0x01, the second one skips 0x00 0x02, and the third one returns the
last element again. -/
theorem cursor_skips_and_repeats :
    ((newFetchCursor .testData).seek [0x00, 0x00]).fetchAll testData [1, 1, 1] =
      .ok [[⟨[0x00, 0x01], [1]⟩], [⟨[0xff, 0xff], [3]⟩], [⟨[0xff, 0xff], [3]⟩]] ∧
    testData.lookup (prefixKey .testData [0x00, 0x02]) = some [2] := by
  decide +kernel

end Sample

end Bitmarkd
