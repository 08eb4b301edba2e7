import Mathlib

/-!
# Byte strings and fixed-width integers

A byte string is a list of bytes. The two byte orders are the base-256 digits of a number, least
significant first (`leBytes`) or most significant first (`beBytes`), cut at a fixed width; reading
one back is `leValue` and `beValue`.

The big-endian order is the one a byte-ordered store sorts by: `lt_iff_beValue_lt` says that, at
one length, the lexicographic order of byte strings is the order of the numbers they encode.
-/

namespace Bitmarkd.Lib

/-- A byte string. -/
abbrev Bytes := List UInt8

/-- Bytes are ordered as numbers, so byte strings are ordered lexicographically. -/
instance byteLinearOrder : LinearOrder UInt8 where
  le_refl := fun _ => UInt8.le_refl _
  le_trans := fun _ _ _ => UInt8.le_trans
  lt_iff_le_not_ge := fun a b => by
    rw [UInt8.lt_iff_toNat_lt, UInt8.le_iff_toNat_le, UInt8.le_iff_toNat_le]
    omega
  le_antisymm := fun _ _ => UInt8.le_antisymm
  le_total := fun _ _ => UInt8.le_total _ _
  toDecidableLE := inferInstance
  toDecidableEq := inferInstance
  toDecidableLT := inferInstance

/-- A byte array of fixed length. -/
@[ext] structure FixedBytes (n : Nat) where
  bytes : Bytes
  length_eq : bytes.length = n
deriving DecidableEq

namespace FixedBytes

variable {n : Nat}

@[simp] theorem length_bytes (d : FixedBytes n) : d.bytes.length = n := d.length_eq

@[simp] theorem bytes_inj {d e : FixedBytes n} : d.bytes = e.bytes ↔ d = e :=
  ⟨FixedBytes.ext, fun h => by rw [h]⟩

/-- The array with these bytes, if there are `n` of them. -/
def ofBytes? (n : Nat) (b : Bytes) : Option (FixedBytes n) :=
  if h : b.length = n then some ⟨b, h⟩ else none

@[simp] theorem ofBytes?_bytes (d : FixedBytes n) : ofBytes? n d.bytes = some d := by
  simp [ofBytes?]

theorem bytes_of_ofBytes? {b : Bytes} {d : FixedBytes n} (h : ofBytes? n b = some d) :
    d.bytes = b := by
  unfold ofBytes? at h
  split at h
  · cases h
    rfl
  · cases h

/-- The array of the first `n` bytes of a buffer that has at least `n`. -/
def ofSlice (n : Nat) (b : Bytes) : FixedBytes n := ⟨b.takeD n 0, List.takeD_length n b 0⟩

@[simp] theorem ofSlice_bytes_append (d : FixedBytes n) (b : Bytes) :
    ofSlice n (d.bytes ++ b) = d := by
  apply FixedBytes.ext
  simp only [ofSlice]
  rw [List.takeD_eq_take _ (by simp), List.take_left' d.length_eq]

@[simp] theorem ofSlice_bytes (d : FixedBytes n) : ofSlice n d.bytes = d := by
  simpa using ofSlice_bytes_append d []

/-- The array of `n` zero bytes. -/
def zero (n : Nat) : FixedBytes n := ⟨List.replicate n 0, List.length_replicate⟩

/-- Two concatenations that end in arrays of one length agree piece by piece. -/
theorem append_inj {b c : Bytes} {d e : FixedBytes n} :
    b ++ d.bytes = c ++ e.bytes ↔ b = c ∧ d = e := by
  constructor
  · intro h
    obtain ⟨hbc, hde⟩ := List.append_inj' h (by simp)
    exact ⟨hbc, bytes_inj.mp hde⟩
  · rintro ⟨rfl, rfl⟩
    rfl

end FixedBytes

/-! ## Little endian -/

/-- The `k` low base-256 digits of `n`, least significant first. -/
def leBytes : Nat → Nat → Bytes
  | 0, _ => []
  | k + 1, n => UInt8.ofNat n :: leBytes k (n / 256)

/-- The number whose base-256 digits, least significant first, are `b`. -/
def leValue : Bytes → Nat
  | [] => 0
  | x :: xs => x.toNat + 256 * leValue xs

@[simp] theorem length_leBytes (k n : Nat) : (leBytes k n).length = k := by
  induction k generalizing n with
  | zero => rfl
  | succ k ih => simp [leBytes, ih]

theorem leValue_lt (b : Bytes) : leValue b < 256 ^ b.length := by
  induction b with
  | nil => simp [leValue]
  | cons x xs ih =>
    have hx : x.toNat < 256 := x.toNat_lt
    simp only [leValue, List.length_cons, pow_succ]
    omega

theorem leValue_leBytes (k n : Nat) : leValue (leBytes k n) = n % 256 ^ k := by
  induction k generalizing n with
  | zero => simp [leValue, leBytes, Nat.mod_one]
  | succ k ih =>
    have hcut : n % 256 ^ (k + 1) = n % 256 + 256 * (n / 256 % 256 ^ k) := by
      rw [pow_succ, Nat.mul_comm, Nat.mod_mul]
    rw [leBytes, leValue, ih, UInt8.toNat_ofNat', hcut]

theorem leBytes_leValue (b : Bytes) : leBytes b.length (leValue b) = b := by
  induction b with
  | nil => rfl
  | cons x xs ih =>
    have hx : x.toNat < 256 := x.toNat_lt
    have hdiv : (x.toNat + 256 * leValue xs) / 256 = leValue xs := by omega
    have hmod : UInt8.ofNat (x.toNat + 256 * leValue xs) = x := by
      apply UInt8.toNat_inj.mp
      rw [UInt8.toNat_ofNat']
      omega
    simp only [List.length_cons, leValue, leBytes, hdiv, hmod, ih]

theorem leValue_inj {b c : Bytes} (hlen : b.length = c.length) (h : leValue b = leValue c) :
    b = c := by
  rw [← leBytes_leValue b, ← leBytes_leValue c, hlen, h]

/-- A string whose bytes are at most those of another encodes a number that is at most the other's.
-/
theorem leValue_le_of_forall {b c : Bytes} (hlen : b.length = c.length)
    (h : ∀ i, b.getD i 0 ≤ c.getD i 0) : leValue b ≤ leValue c := by
  induction b generalizing c with
  | nil => simp [leValue]
  | cons x xs ih =>
    cases c with
    | nil => simp at hlen
    | cons y ys =>
      have hx : x.toNat ≤ y.toNat := by simpa [UInt8.le_iff_toNat_le] using h 0
      have hxs := ih (by simpa using hlen) fun i => by simpa using h (i + 1)
      simp only [leValue]
      omega

/-! ## Big endian -/

/-- The `k` low base-256 digits of `n`, most significant first. -/
def beBytes (k n : Nat) : Bytes := (leBytes k n).reverse

/-- The number whose base-256 digits, most significant first, are `b`. -/
def beValue (b : Bytes) : Nat := leValue b.reverse

@[simp] theorem length_beBytes (k n : Nat) : (beBytes k n).length = k := by
  simp [beBytes]

theorem beValue_beBytes (k n : Nat) : beValue (beBytes k n) = n % 256 ^ k := by
  rw [beValue, beBytes, List.reverse_reverse, leValue_leBytes]

theorem beBytes_beValue (b : Bytes) : beBytes b.length (beValue b) = b := by
  rw [beBytes, beValue, ← List.length_reverse, leBytes_leValue, List.reverse_reverse]

theorem leValue_append (b c : Bytes) :
    leValue (b ++ c) = leValue b + 256 ^ b.length * leValue c := by
  induction b with
  | nil => simp [leValue]
  | cons x xs ih =>
    simp only [List.cons_append, leValue, ih, List.length_cons, pow_succ]
    ring

theorem beValue_lt (b : Bytes) : beValue b < 256 ^ b.length := by
  have h := leValue_lt b.reverse
  rwa [List.length_reverse] at h

theorem beValue_append (b c : Bytes) :
    beValue (b ++ c) = beValue b * 256 ^ c.length + beValue c := by
  rw [beValue, List.reverse_append, leValue_append, List.length_reverse, Nat.add_comm, Nat.mul_comm]
  rfl

theorem beValue_cons (x : UInt8) (b : Bytes) :
    beValue (x :: b) = x.toNat * 256 ^ b.length + beValue b := by
  simp only [beValue, List.reverse_cons, leValue_append, leValue, List.length_reverse]
  ring

/-- At one length, the lexicographic order of byte strings is the order of the numbers they
encode. -/
theorem lt_iff_beValue_lt {b c : Bytes} (hlen : b.length = c.length) :
    b < c ↔ beValue b < beValue c := by
  induction b generalizing c with
  | nil =>
    cases c with
    | nil => simp
    | cons y ys => simp at hlen
  | cons x xs ih =>
    cases c with
    | nil => simp at hlen
    | cons y ys =>
      have hlen' : xs.length = ys.length := by simpa using hlen
      have hx : beValue xs < 256 ^ xs.length := by
        simpa [beValue] using leValue_lt xs.reverse
      have hy : beValue ys < 256 ^ xs.length := by
        simpa [beValue, hlen'] using leValue_lt ys.reverse
      rw [List.cons_lt_cons_iff, beValue_cons, beValue_cons, ← hlen', ih hlen',
        UInt8.lt_iff_toNat_lt, ← UInt8.toNat_inj]
      constructor
      · rintro (h | ⟨h, hlt⟩)
        · have := Nat.mul_le_mul_right (256 ^ xs.length) (Nat.succ_le_of_lt h)
          rw [Nat.succ_mul] at this
          omega
        · rw [h]
          omega
      · intro h
        rcases Nat.lt_trichotomy x.toNat y.toNat with hlt | heq | hgt
        · exact Or.inl hlt
        · rw [heq] at h
          exact Or.inr ⟨heq, by omega⟩
        · have := Nat.mul_le_mul_right (256 ^ xs.length) (Nat.succ_le_of_lt hgt)
          rw [Nat.succ_mul] at this
          omega

/-! ## Sixty-four bits -/

/-- A 64-bit word, most significant byte first. -/
def be64 (n : UInt64) : Bytes := beBytes 8 n.toNat

/-- The word in the first eight bytes, most significant byte first. -/
def ofBE64 (b : Bytes) : UInt64 := UInt64.ofNat (beValue (b.take 8))

/-- A 64-bit word, least significant byte first. -/
def le64 (n : UInt64) : Bytes := leBytes 8 n.toNat

/-- The word in the first eight bytes, least significant byte first. -/
def ofLE64 (b : Bytes) : UInt64 := UInt64.ofNat (leValue (b.take 8))

/-- A 16-bit word, least significant byte first. -/
def le16 (n : UInt16) : Bytes := leBytes 2 n.toNat

/-- The 16-bit word in the first two bytes, least significant byte first. -/
def ofLE16 (b : Bytes) : UInt16 := UInt16.ofNat (leValue (b.take 2))

@[simp] theorem length_be64 (n : UInt64) : (be64 n).length = 8 := by simp [be64]

@[simp] theorem length_le64 (n : UInt64) : (le64 n).length = 8 := by simp [le64]

@[simp] theorem length_le16 (n : UInt16) : (le16 n).length = 2 := by simp [le16]

theorem beValue_be64 (n : UInt64) : beValue (be64 n) = n.toNat := by
  rw [be64, beValue_beBytes]
  exact Nat.mod_eq_of_lt n.toNat_lt

theorem leValue_le64 (n : UInt64) : leValue (le64 n) = n.toNat := by
  rw [le64, leValue_leBytes]
  exact Nat.mod_eq_of_lt n.toNat_lt

@[simp] theorem ofLE64_le64_append (n : UInt64) (b : Bytes) : ofLE64 (le64 n ++ b) = n := by
  rw [ofLE64, List.take_left' (length_le64 n), leValue_le64, UInt64.ofNat_toNat]

@[simp] theorem ofLE16_le16_append (n : UInt16) (b : Bytes) : ofLE16 (le16 n ++ b) = n := by
  have hv : leValue (le16 n) = n.toNat := by
    rw [le16, leValue_leBytes]
    exact Nat.mod_eq_of_lt n.toNat_lt
  rw [ofLE16, List.take_left' (length_le16 n), hv, UInt16.ofNat_toNat]

@[simp] theorem ofBE64_be64_append (n : UInt64) (b : Bytes) : ofBE64 (be64 n ++ b) = n := by
  rw [ofBE64, List.take_left' (length_be64 n), beValue_be64, UInt64.ofNat_toNat]

@[simp] theorem ofBE64_be64 (n : UInt64) : ofBE64 (be64 n) = n := by
  simpa using ofBE64_be64_append n []

@[simp] theorem be64_inj {n m : UInt64} : be64 n = be64 m ↔ n = m :=
  ⟨fun h => by rw [← ofBE64_be64 n, h, ofBE64_be64], fun h => by rw [h]⟩

@[simp] theorem le64_inj {n m : UInt64} : le64 n = le64 m ↔ n = m := by
  refine ⟨fun h => UInt64.toNat_inj.mp ?_, fun h => by rw [h]⟩
  rw [← leValue_le64 n, h, leValue_le64]

theorem be64_ofBE64 {b : Bytes} (hb : b.length = 8) : be64 (ofBE64 b) = b := by
  have hv : beValue b < 2 ^ 64 := by
    simpa [beValue, hb] using leValue_lt b.reverse
  rw [be64, ofBE64, List.take_of_length_le hb.le, UInt64.toNat_ofNat', Nat.mod_eq_of_lt hv, ← hb,
    beBytes_beValue]

/-! ## Reading words from longer strings -/

theorem be64_ofBE64_of_le {b : Bytes} (hb : 8 ≤ b.length) : be64 (ofBE64 b) = b.take 8 := by
  have htake : ofBE64 (b.take 8) = ofBE64 b := by rw [ofBE64, ofBE64, List.take_take, Nat.min_self]
  rw [← htake]
  exact be64_ofBE64 (List.length_take_of_le hb)

theorem le64_ofLE64 {b : Bytes} (hb : 8 ≤ b.length) : le64 (ofLE64 b) = b.take 8 := by
  have hlength : (b.take 8).length = 8 := List.length_take_of_le hb
  have hv : leValue (b.take 8) < 2 ^ 64 := by
    simpa [hlength] using leValue_lt (b.take 8)
  have hword : (ofLE64 b).toNat = leValue (b.take 8) := by
    rw [ofLE64, UInt64.toNat_ofNat', Nat.mod_eq_of_lt hv]
  have hback := leBytes_leValue (b.take 8)
  rwa [hlength, ← hword] at hback

theorem le16_ofLE16 {b : Bytes} (hb : 2 ≤ b.length) : le16 (ofLE16 b) = b.take 2 := by
  have hlength : (b.take 2).length = 2 := List.length_take_of_le hb
  have hv : leValue (b.take 2) < 2 ^ 16 := by
    simpa [hlength] using leValue_lt (b.take 2)
  have hword : (ofLE16 b).toNat = leValue (b.take 2) := by
    rw [ofLE16, UInt16.toNat_ofNat', Nat.mod_eq_of_lt hv]
  have hback := leBytes_leValue (b.take 2)
  rwa [hlength, ← hword] at hback

theorem bytes_ofSlice {n : ℕ} {b : Bytes} (hb : n ≤ b.length) :
    (FixedBytes.ofSlice n b).bytes = b.take n :=
  List.takeD_eq_take 0 hb

/-! ## Order -/

/-- The big-endian words are sorted as the words are. -/
theorem be64_lt_iff {n m : UInt64} : be64 n < be64 m ↔ n < m := by
  rw [lt_iff_beValue_lt (by simp), beValue_be64, beValue_be64, UInt64.lt_iff_toNat_lt]

end Bitmarkd.Lib
