import TaoDag.Consensus.Block
import TaoDag.Consensus.Difficulty

namespace TaoDag.Consensus

/-- Result of accepting a header. -/
inductive BlockStatus where
  | extendedTip
  | reorg (oldTip newTip : BlockId)
  | sideChain
  deriving DecidableEq

/-- Why a header was rejected. -/
inductive ChainError where
  | duplicate
  | unknownParent
  | badHeight (expected got : Nat)
  | badTimestamp
  | badTarget
  | badPow
  deriving DecidableEq

/-- The text of the error. -/
def ChainError.message : ChainError → String
  | .duplicate => "duplicate block"
  | .unknownParent => "unknown parent (orphan)"
  | .badHeight expected got =>
      "bad height: expected " ++ toString expected ++ ", got " ++ toString got
  | .badTimestamp => "non-increasing timestamp"
  | .badTarget => "wrong difficulty target"
  | .badPow => "invalid proof-of-work"

@[ext] structure Entry where
  header : BlockHeader
  cumulativeWork : Nat
  deriving DecidableEq

/-- The headers by id, and the best tip by cumulative work. `pow` is the check of the PoW
algorithm. -/
structure ChainState where
  blocks : BlockHashMap Entry
  tip : BlockId
  genesis : BlockId
  params : DifficultyParams
  genesisTarget : Target
  pow : BlockHeader → Bool

/-- `Blake3Pow`: the block id is the PoW hash. -/
def blake3Pow (blake3 : Bytes → Hash) (h : BlockHeader) : Bool :=
  meetsTarget (blake3 h.serialize) h.target

/-- What the difficulty rule reads of a header. -/
def BlockHeader.timedTarget (h : BlockHeader) : TimedTarget := ⟨h.timestamp.toInt, h.target⟩

namespace ChainState

/-- A chain that holds `genesis` alone. Its PoW is not checked. -/
def new (blake3 : Bytes → Hash) (genesis : BlockHeader) (params : DifficultyParams)
    (pow : BlockHeader → Bool) : Result ChainState := do
  assert (genesis.isGenesis = true) "genesis header must be at height 0 with zero prev_hash"
  let id := genesis.id blake3
  return {
    blocks := AList.singleton id ⟨genesis, workForTarget genesis.target⟩
    tip := id
    genesis := id
    params
    genesisTarget := genesis.target
    pow }

def contains (c : ChainState) (id : BlockId) : Bool := (c.blocks.lookup id).isSome

def tipEntry (c : ChainState) : Result Entry :=
  expect "no entry found for key" (c.blocks.lookup c.tip)

def tipHeader (c : ChainState) : Result BlockHeader := do return (← c.tipEntry).header

/-- Height of the best tip. -/
def height (c : ChainState) : Result Nat := do return (← c.tipHeader).height.toNat

/-- Total accumulated work at the best tip. -/
def tipWork (c : ChainState) : Result Nat := do return (← c.tipEntry).cumulativeWork

/-- The walk of `recent_headers`, newest first, onto the headers above. -/
def recentLoop (c : ChainState) : Nat → BlockId → List BlockHeader → List BlockHeader
  | 0, _, above => above
  | count+1, cur, above =>
      match c.blocks.lookup cur with
      | none => above
      | some entry =>
          if entry.header.isGenesis then entry.header :: above
          else recentLoop c count entry.header.prevHash (entry.header :: above)

/-- Up to `count` headers back from `start`, in ascending order of height. -/
def recentHeaders (c : ChainState) (start : BlockId) (count : Nat) : List BlockHeader :=
  c.recentLoop count start []

/-- The target of a block on `parent`. -/
def targetAfter (c : ChainState) (parent : BlockId) : Result Target := do
  let count ← addU64 c.params.window 1
  Consensus.nextTarget ((c.recentHeaders parent count).map BlockHeader.timedTarget) c.params
    c.genesisTarget

/-- The target the next block on the best tip must use. -/
def nextTarget (c : ChainState) : Result Target := c.targetAfter c.tip

/-- An unmined header on the best tip. -/
def buildCandidate (blake3 : Bytes → Hash) (c : ChainState) (miner : Pubkey)
    (timestamp : BitVec 64) (transactions : List Bytes) : Result BlockHeader := do
  let parent ← c.tipHeader
  let height ← addU64 parent.height.toNat 1
  return {
    version := headerVersion
    prevHash := c.tip
    height := BitVec.ofNat 64 height
    timestamp
    txMerkleRoot := Consensus.txMerkleRoot blake3 transactions
    stateRoot := 0
    target := ← c.nextTarget
    nonce := 0
    miner }

/-- The checks of `add_header` on a header whose parent is stored. -/
def checkHeader (c : ChainState) (parent : Entry) (header : BlockHeader) :
    Result (Except ChainError Unit) := do
  let expected ← addU64 parent.header.height.toNat 1
  if header.height.toNat ≠ expected then
    return .error (.badHeight expected header.height.toNat)
  else if header.timestamp.toInt < parent.header.timestamp.toInt then return .error .badTimestamp
  else
    let target ← c.targetAfter header.prevHash
    if header.target ≠ target then return .error .badTarget
    else if !c.pow header then return .error .badPow
    else return .ok ()

/-- Stores a header and moves the tip to it when it is strictly heavier. -/
def insertHeader (c : ChainState) (id : BlockId) (entry : Entry) :
    Result (BlockStatus × ChainState) := do
  let c := { c with blocks := c.blocks.insert id entry }
  let tip ← c.tipEntry
  if tip.cumulativeWork < entry.cumulativeWork then
    let status := if entry.header.prevHash = c.tip then .extendedTip else .reorg c.tip id
    return (status, { c with tip := id })
  else return (.sideChain, c)

/-- Validates a header and adds it to the chain. -/
def addHeader (blake3 : Bytes → Hash) (c : ChainState) (header : BlockHeader) :
    Result (Except ChainError BlockStatus × ChainState) :=
  let id := header.id blake3
  if c.contains id then return (.error .duplicate, c)
  else
    match c.blocks.lookup header.prevHash with
    | none => return (.error .unknownParent, c)
    | some parent => do
        match ← c.checkHeader parent header with
        | .error e => return (.error e, c)
        | .ok () =>
            let work ← u256 (parent.cumulativeWork + workForTarget header.target)
            let (status, c) ← c.insertHeader id ⟨header, work⟩
            return (.ok status, c)

end ChainState

end TaoDag.Consensus
