import Bitmarkd.BlockRecord
import Bitmarkd.Difficulty.Target

/-!
# The header codec

`Pack` and `Unpack` write and read the fields of a header at fixed offsets. `Unpack` accepts only
some counts and timestamps, and it rebuilds the difficulty from its bits.

**Main result** (`header_codec`). A string of `totalBlockSize` bytes that unpacks is the packed form
of the header it unpacks to. A header with accepted counts, timestamp and difficulty bits reads back
with every field; the difficulty that is read back has the bits that were packed and their target,
so it is the one of the header just if `SetBits` made that one too.
-/

namespace Bitmarkd

open Lib Difficulty

/-! ## Both ways -/

variable {env : Env} {now : UInt64} {record : Bytes} {h : Header}

/-- What unpacks is a packed header: the fields cover the record without gaps. -/
theorem pack_of_unpackHeader (hlength : record.length = totalBlockSize)
    (hh : unpackHeader env now record = .ok h) : h.pack = record := by
  obtain ⟨-, -, hd, hh⟩ := unpackHeader_eq_ok.mp hh
  obtain ⟨-, hbits, -⟩ := setBits_eq_ok hd
  have hlong (k m : ℕ) (hk : k + m ≤ 100) : m ≤ (record.drop k).length := by
    rw [List.length_drop, hlength]
    show m ≤ 100 - k
    omega
  have hnext (k m : ℕ) : (record.drop k).take m ++ record.drop (k + m) = record.drop k := by
    rw [← List.drop_drop]
    exact List.take_append_drop m _
  have hlast : (record.drop 92).take 8 = record.drop 92 := by
    apply List.take_of_length_le
    rw [List.length_drop, hlength]
    decide
  have hversion : le16 (ofLE16 record) = record.take 2 := le16_ofLE16 (hlong 0 2 (by decide))
  rw [hh, Header.pack]
  dsimp only
  rw [hbits, hversion, le16_ofLE16 (hlong 2 2 (by decide)), le64_ofLE64 (hlong 4 8 (by decide)),
    bytes_ofSlice (hlong 12 32 (by decide)), bytes_ofSlice (hlong 44 32 (by decide)),
    le64_ofLE64 (hlong 76 8 (by decide)), le64_ofLE64 (hlong 84 8 (by decide)),
    le64_ofLE64 (hlong 92 8 (by decide)), hlast, hnext 84 8, hnext 76 8, hnext 44 32, hnext 12 32,
    hnext 4 8, hnext 2 2, List.take_append_drop]

/-- A packed header reads back with the difficulty of its bits. -/
theorem unpackHeader_pack_of_setBits {d : Difficulty} (hd : setBits env h.difficulty.bits = .ok d)
    (hcounts : checkHeaderCounts h.version h.transactionCount h.number = .ok ())
    (htime : ¬ h.timestamp > now + 5 * 60) :
    unpackHeader env now h.pack = .ok { h with difficulty := d } := by
  have hbits : d.bits = h.difficulty.bits := (setBits_eq_ok hd).2.1
  have hpack : Header.pack { h with difficulty := d } = h.pack := by
    rw [Header.pack, Header.pack, hbits]
  rw [← hpack]
  exact unpackHeader_pack.mpr ⟨hcounts, htime, by rw [hbits]; exact hd⟩

/-- **The header codec.** Packing is the inverse of unpacking on records of `totalBlockSize` bytes,
and unpacking that of packing on headers which pass the checks and whose difficulty is the one of
its bits. -/
theorem header_codec (env : Env) (now : UInt64) :
    (∀ record h, record.length = totalBlockSize → unpackHeader env now record = .ok h →
      h.pack = record) ∧
    ∀ h : Header, checkHeaderCounts h.version h.transactionCount h.number = .ok () →
      ¬ h.timestamp > now + 5 * 60 → exponent h.difficulty.bits < 0xc0 →
      ∃ d, setBits env h.difficulty.bits = .ok d ∧
        d.bits = h.difficulty.bits ∧ d.big = target h.difficulty.bits ∧
        unpackHeader env now h.pack = .ok { h with difficulty := d } ∧
        (unpackHeader env now h.pack = .ok h ↔ h.difficulty = d) := by
  refine ⟨fun record h hlength hh => pack_of_unpackHeader hlength hh, ?_⟩
  intro h hcounts htime hexponent
  obtain ⟨r, hd⟩ := setBits_of_lt env hexponent
  have hread := unpackHeader_pack_of_setBits hd hcounts htime
  refine ⟨_, hd, rfl, rfl, hread, ?_⟩
  rw [hread]
  constructor
  · intro heq
    exact congrArg Header.difficulty (Except.ok.inj heq).symm
  · intro heq
    rw [← heq]

end Bitmarkd

namespace Bitmarkd.Sample

open Difficulty

/-- A header of block 2 with two transactions. -/
def headerWith (version : UInt16) (difficulty : Difficulty) : Header :=
  ⟨version, 2, 2, id 0, id 0, 0, difficulty, 0⟩

/-- The difficulty that `Set` makes of 3.0: the bits are rounded, the target is not. -/
def thirdDifficulty : Difficulty := ⟨0x0155555555555554, one / 3, 0x4008000000000000⟩

/-- No header has 132 bytes, a header of version 0 does not read back, and one with a difficulty
that `Set` made reads back with another target. -/
theorem header_codec_limits :
    (∀ h : Header, h.pack.length ≠ 132) ∧
    (exponent (headerWith 0 ⟨oneUint64, one, minimumReciprocal⟩).difficulty.bits < 0xc0 ∧
      unpackHeader env 0 (headerWith 0 ⟨oneUint64, one, minimumReciprocal⟩).pack
        = fault .invalidBlockHeaderVersion) ∧
    convertDifficultyIntoReciprocal (fun _ => .ok (one / 3)) 8 ⟨oneUint64, one, minimumReciprocal⟩
        0x4008000000000000 = .ok thirdDifficulty ∧
      exponent thirdDifficulty.bits < 0xc0 ∧
      unpackHeader env 0 (headerWith 1 thirdDifficulty).pack
        ≠ .ok (headerWith 1 thirdDifficulty) := by
  refine ⟨?_, ⟨by decide, by decide +kernel⟩, by decide +kernel, by decide, by decide +kernel⟩
  intro h
  rw [length_pack]
  decide

end Bitmarkd.Sample
