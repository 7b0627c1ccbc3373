import TaoDag.Consensus.Target

namespace TaoDag.Consensus

/-- What the difficulty rule reads of a header. -/
structure TimedTarget where
  timestamp : Int
  target : Target

/-- `T`, the desired seconds per block, and `N`, the window in blocks. -/
structure DifficultyParams where
  targetBlockTimeSecs : Nat
  window : Nat

def DifficultyParams.new (targetBlockTimeSecs window : Nat) : Result DifficultyParams := do
  assert (0 < targetBlockTimeSecs ∧ 2 ≤ window) "invalid difficulty params"
  return ⟨targetBlockTimeSecs, window⟩

def i64Min : Int := -2^63

def i64Max : Int := 2^63 - 1

/-- A checked `i64` operation with the exact result `x`. -/
def i64 (x : Int) : Result Int :=
  if i64Min ≤ x ∧ x ≤ i64Max then .ok x else .error (.panic "attempt to compute with overflow")

def u256 (x : Nat) : Result Nat :=
  if x ≤ u256Max then .ok x else .error (.panic "arithmetic operation overflow")

/-- `u64 as i64`. -/
def asI64 (x : Nat) : Int := (BitVec.ofNat 64 x).toInt

def difficultyToTarget (difficulty : Nat) : Target :=
  if difficulty = 0 then BitVec.allOnes 256 else BitVec.ofNat 256 (u256Max / difficulty)

/-- The loop over the window: `i`-weighted solve times, and the sum of works. -/
def lwmaLoop (maxSolvetime : Int) :
    Nat → TimedTarget → List TimedTarget → Int → Nat → Result (Int × Nat)
  | _, _, [], weightedTime, difficultySum => .ok (weightedTime, difficultySum)
  | i, prev, cur :: rest, weightedTime, difficultySum => do
      -- `Ord::clamp` asserts its bounds.
      assert (1 ≤ maxSolvetime) "assertion failed: min <= max"
      let solvetime := max 1 (min (← i64 (cur.timestamp - prev.timestamp)) maxSolvetime)
      let weightedTime ← i64 (weightedTime + (← i64 (i * solvetime)))
      let difficultySum ← u256 (difficultySum + workForTarget cur.target)
      lwmaLoop maxSolvetime (i + 1) cur rest weightedTime difficultySum

/-- LWMA target for the block that extends `recent`, in ascending order. -/
def nextTarget (recent : List TimedTarget) (params : DifficultyParams) (genesisTarget : Target) :
    Result Target :=
  let n := params.window
  let t := asI64 params.targetBlockTimeSecs
  if recent.length ≤ n then .ok ((recent.getLast?.map (·.target)).getD genesisTarget)
  else do
    let window := recent.drop (recent.length - (n + 1))
    let maxSolvetime ← i64 (6 * t)
    let prev ← expect "index out of bounds" window.head?
    let (weightedTime, difficultySum) ← lwmaLoop maxSolvetime 1 prev window.tail 0 0
    let avgDifficulty := difficultySum / n
    let k ← mulU64 params.targetBlockTimeSecs ((← mulU64 n (← addU64 n 1)) / 2)
    let weightedTime := (max weightedTime 1).toNat
    return difficultyToTarget (min (avgDifficulty * k) u256Max / weightedTime)

end TaoDag.Consensus
