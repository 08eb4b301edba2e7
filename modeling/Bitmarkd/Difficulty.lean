import Bitmarkd.Account

/-!
# Difficulty

Package `difficulty`: the compact form of a target, and the block numbers that the periodic
adjustment looks at. The value of a difficulty is a `float64`; the division that produces it and
the adjustment formula are left to `Env`.
-/

namespace Bitmarkd

open Lib

/-- `difficulty.Difficulty`: the compact bits, the target, and the value. -/
structure Difficulty where
  bits : UInt64
  big : Nat
  reciprocal : Float64
deriving DecidableEq

namespace Difficulty

/-- `OneUint64`. -/
def oneUint64 : UInt64 := 0x00ffffffffffffff

/-- `constOne`: the target of difficulty one. -/
def one : Nat := 0x00ffffffffffffff800000000000000000000000000000000000000000000000

/-- `minimumReciprocal`, that is 1.0. -/
def minimumReciprocal : Float64 := 0x3ff0000000000000

/-- `f < 1.0`: `f` is negative and a number, or its bits are below those of 1.0. -/
def belowOne (f : Float64) : Bool :=
  if f &&& 0x8000000000000000 ≠ 0 then f &&& 0x7fffffffffffffff ≤ 0x7ff0000000000000
  else f < minimumReciprocal

/-- `SetBits`. -/
def setBits (env : Env) (u : UInt64) : Except Stop Difficulty :=
  if u = oneUint64 then .ok ⟨oneUint64, one, minimumReciprocal⟩
  else
    let exponent := (u >>> 56).toNat
    let mantissa := (u &&& 0x00ffffffffffffff ||| 0x0100000000000000).toNat
    if exponent ≥ 0xc0 then panicAt .difficultySetBits
    else .ok ⟨u, mantissa <<< (256 - 65 - exponent), env.reciprocalOfBits u⟩

/-- The value of `Current` after `Set`. -/
def set (f : Float64) : Float64 := if belowOne f then minimumReciprocal else f

/-- `AdjustTimespanInBlocks`. -/
def adjustTimespanInBlocks : UInt64 := 200

/-- `prevBeginBlockWhenAtBeginOfNextTimespan`. -/
def prevBeginBlockWhenAtBeginOfNextTimespan (height : UInt64) : UInt64 × UInt64 :=
  let quotient := height / adjustTimespanInBlocks
  if quotient ≥ 2 then (height - 1 - adjustTimespanInBlocks, height - 1)
  else (2, adjustTimespanInBlocks - 1)

/-- `PrevTimespanBlockBeginAndEnd`. -/
def prevTimespanBlockBeginAndEnd (height : UInt64) : UInt64 × UInt64 :=
  let remainder := height % adjustTimespanInBlocks
  if remainder ≠ 0 then prevBeginBlockWhenAtBeginOfNextTimespan (height - remainder)
  else prevBeginBlockWhenAtBeginOfNextTimespan height

end Difficulty

end Bitmarkd
