import TaoDag.Core.Machine

namespace TaoDag.Consensus

/-- A PoW threshold: a hash meets it when it is no larger. -/
abbrev Target := Bytes32

/-- Largest `U256`. -/
def u256Max : Nat := 2^256 - 1

def meetsTarget (hash : Bytes32) (target : Target) : Bool := decide (hash.toNat ≤ target.toNat)

/-- Expected number of hashes to beat `target`: `2^256 / (target + 1)`, within 256 bits. -/
def workForTarget (target : Target) : Nat :=
  let t := target.toNat
  if t = 0 then u256Max
  else (u256Max - t) / min (t + 1) u256Max + 1

/-- Number of leading zero bits of the big-endian bytes. -/
def leadingZeroBits (x : Bytes32) : Nat := if x.toNat = 0 then 256 else 255 - Nat.log2 x.toNat

/-- The PoW level of a solved block: how many more leading zero bits than demanded. -/
def powLevel (powHash : Bytes32) (target : Target) : Nat :=
  if meetsTarget powHash target then leadingZeroBits powHash - leadingZeroBits target else 0

end TaoDag.Consensus
