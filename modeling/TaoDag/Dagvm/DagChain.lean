import TaoDag.Consensus.Difficulty
import TaoDag.Database.BlockLog
import TaoDag.Dagvm.LogRecord
import TaoDag.Ghostdag.Engine

namespace TaoDag.Dagvm

open Consensus (Pubkey DagBlockHeader DagBlock Target TimedTarget DifficultyParams)
open Database (Account BlockLog AppendFault)
open Ghostdag (DagEngine SortableBlock GhostdagManager)
open TaoDag.Runtime (Env Bank)

def maxSnapshotBytes : Nat := 256 * 1024 * 1024

def maxParents : Nat := 16

def maxBlockTxs : Nat := 4096

/-- Transaction payload per block: 1 MiB. -/
def maxBlockTxBytes : Nat := 2^20

/-- Allowed clock drift, forward of the local time and back from the selected parent. -/
def maxTimestampDriftSecs : Int := 600

def defaultFinalityDepth : Nat := 100

/-- The account set after the first `len` blocks of the total order, the last of which is
`lastId`. -/
structure Checkpoint where
  len : Nat
  lastId : Hash
  accounts : List (Pubkey × Account)

/-- The parameters a chain is opened with. -/
structure Params where
  k : Nat
  genesisTarget : Target
  miner : Pubkey
  reward : BitVec 64
  allocations : List (Pubkey × BitVec 64)
  blockTimeSecs : Nat
  lwmaWindow : Nat
  genesisCommitment : Bytes32

/-- A single-node block DAG with PoW, persistence and executed state. -/
structure DagChain (Tx : Type) where
  engine : DagEngine
  log : BlockLog
  tips : List Hash
  blocks : Finset Hash
  blockTxs : BlockHashMap (List Tx)
  headers : BlockHashMap DagBlockHeader
  genesisDag : Hash
  genesisTarget : Target
  blockTimeSecs : Nat
  lwmaWindow : Nat
  k : Nat
  miner : Pubkey
  reward : BitVec 64
  allocations : List (Pubkey × BitVec 64)
  baseAccounts : Option (List (Pubkey × Account))
  state : Option Bank
  executed : List Hash
  finalityDepth : Nat
  checkpoint : Option Checkpoint
  historyPruned : Bool
  proof : List DagBlockHeader
  bootstrapped : Bool
  bootstrapWork : Nat
  originalGenesis : Hash

/-- An engine that holds only `origin`, as a child of the virtual ORIGIN. -/
def freshEngine (fr : Reachability.Interval.Fractions) (k : Nat) (origin : Hash) :
    Result DagEngine := do
  (← DagEngine.new k origin).addBlock fr origin [blockhash.origin]

/-- The deterministic genesis header: no parents, no transactions. -/
def genesisHeader (p : Params) : DagBlockHeader where
  version := Consensus.headerVersion
  parents := []
  timestamp := 1750000000
  txMerkleRoot := 0
  stateRoot := p.genesisCommitment
  target := p.genesisTarget
  interlink := []
  nonce := 0
  miner := 0

/-- Keeps the first of equal items. -/
def dedupFirst : List Hash → List Hash → List Hash
  | _, [] => []
  | seen, p :: rest => if p ∈ seen then dedupFirst seen rest else p :: dedupFirst (p :: seen) rest

namespace DagChain

variable {Tx : Type}

/-- A chain of the genesis block alone, over the log it is about to replay. -/
def genesis (env : Env Tx) (p : Params) (log : BlockLog) : Result (DagChain Tx) := do
  let header := genesisHeader p
  let genesisId := header.id env.blake3
  let engine ← freshEngine env.fractions p.k genesisId
  return {
    engine
    log
    tips := [genesisId]
    blocks := {genesisId}
    blockTxs := ∅
    headers := AList.singleton genesisId header
    genesisDag := genesisId
    genesisTarget := p.genesisTarget
    blockTimeSecs := p.blockTimeSecs
    lwmaWindow := p.lwmaWindow
    k := p.k
    miner := p.miner
    reward := p.reward
    allocations := p.allocations
    baseAccounts := none
    state := none
    executed := []
    finalityDepth := defaultFinalityDepth
    checkpoint := none
    historyPruned := false
    proof := []
    bootstrapped := false
    bootstrapWork := 0
    originalGenesis := genesisId }

/-- The parents as the engine gets them: one that is not known is remapped to the origin,
and repetitions are dropped. -/
def engineParents (c : DagChain Tx) (parents : List Hash) : List Hash :=
  let mapped := parents.map fun p => if p = c.genesisDag ∨ p ∈ c.blocks then p else c.genesisDag
  match dedupFirst [] mapped with
  | [] => [c.genesisDag]
  | ps => ps

/-- Decodes the transactions of a block, in order. -/
def decodeTxs (env : Env Tx) (transactions : List Bytes) : Except String (List Tx) :=
  transactions.mapM fun b =>
    match env.decodeTx b with
    | .ok tx => .ok tx
    | .error e => .error ("decode tx: " ++ e)

/-- The chain with a block that the engine holds and whose transactions are decoded: the
tips lose its parents and gain the block. -/
def insertBlock (c : DagChain Tx) (block : DagBlock) (id : Hash) (txs : List Tx) : DagChain Tx :=
  { c with
    blockTxs := if txs.isEmpty then c.blockTxs else c.blockTxs.insert id txs
    headers := c.headers.insert id block.header
    blocks := insert id c.blocks
    tips := c.tips.filter (· ∉ block.header.parents) ++ [id] }

/-- Adds a block to the in-memory DAG. The engine has taken the block when a transaction
fails to decode. -/
def applyWithId (env : Env Tx) (c : DagChain Tx) (block : DagBlock) (id : Hash) :
    Result (Except String Unit × DagChain Tx) :=
  if id ∈ c.blocks then return (.ok (), c)
  else do
    let engine ← c.engine.addBlock env.fractions id (c.engineParents block.header.parents)
    let c := { c with engine }
    match decodeTxs env block.transactions with
    | .error e => return (.error e, c)
    | .ok txs => return (.ok (), c.insertBlock block id txs)

def apply (env : Env Tx) (c : DagChain Tx) (block : DagBlock) :
    Result (Except String Unit × DagChain Tx) :=
  c.applyWithId env block (block.id env.blake3)

/-- Re-anchors the chain onto a snapshot origin. -/
def loadSnapshot (env : Env Tx) (c : DagChain Tx) (originHeader : DagBlockHeader)
    (accounts : List (Pubkey × Account)) (proof : List DagBlockHeader) :
    Result (DagChain Tx) := do
  let origin := originHeader.id env.blake3
  let engine ← freshEngine env.fractions c.k origin
  return { c with
    engine
    genesisDag := origin
    tips := [origin]
    blocks := {origin}
    headers := AList.singleton origin originHeader
    blockTxs := ∅
    baseAccounts := some accounts
    historyPruned := true
    checkpoint := none
    proof
    state := none
    executed := [] }

/-- Replays one record: in the current format, or else in the legacy one, whose block keeps
the id of its old bytes. -/
def replayRecord (env : Env Tx) (c : DagChain Tx) (bytes : Bytes) :
    Result (Except String Unit × DagChain Tx) :=
  match LogRecord.codec.deserialize bytes with
  | .ok (.snapshot originHeader accounts proof) => do
      return (.ok (), ← c.loadSnapshot env originHeader accounts proof)
  | .ok (.block block) => c.apply env block
  | .error primary =>
      match legacyLogRecordCodec.deserialize bytes with
      | .ok legacy =>
          c.applyWithId env legacy.migrate (legacyBlockId env.blake3 legacy.header)
      | .error _ => return (.error primary, c)

def replayRecords (env : Env Tx) :
    DagChain Tx → List Bytes → Result (Except String (DagChain Tx))
  | c, [] => return .ok c
  | c, bytes :: rest => do
      match ← c.replayRecord env bytes with
      | (.ok (), c) => replayRecords env c rest
      | (.error e, _) => return .error e

/-- Opens the chain over the bytes of its log file and replays them. -/
def openWithGenesis (env : Env Tx) (p : Params) (file : Bytes) :
    Result (Except String (DagChain Tx)) := do
  let log := BlockLog.openAt file
  let c ← genesis env p log
  match log.readAll with
  | .error e => return .error e
  | .ok records => replayRecords env c records

/-- The parent with the greatest blue work, ties by larger hash. -/
def selectedParentDag (c : DagChain Tx) (parents : List Hash) : Result Hash := do
  let weighed ← parents.mapM fun p => do
    return (⟨p, (← c.engine.data p).blueWork⟩ : SortableBlock)
  match weighed with
  | [] => return c.genesisDag
  | b :: rest => return (GhostdagManager.maxSortable b rest).hash

/-- The last `take` blocks of the selected chain that ends at `cur`, ascending. -/
def sampleChain (c : DagChain Tx) (take : Nat) : Nat → Hash → List Hash → Result (List Hash)
  | 0, _, _ => .error .diverge
  | fuel+1, cur, above =>
      if take ≤ above.length + 1 ∨ cur = c.genesisDag then return cur :: above
      else do sampleChain c take fuel (← c.engine.selectedParent cur) (cur :: above)

def timedTarget (h : DagBlockHeader) : TimedTarget := ⟨h.timestamp.toInt, h.target⟩

/-- LWMA target over the selected chain that ends at `selectedParent`. -/
def selectedChainTarget (c : DagChain Tx) (selectedParent : Hash) : Result Target := do
  let take := min (c.lwmaWindow + 1) u64Max
  let chain ← c.sampleChain take (c.engine.gd.entries.length + 1) selectedParent []
  let headers := (chain.filterMap c.headers.lookup).map timedTarget
  let params ← DifficultyParams.new (max c.blockTimeSecs 1) (max c.lwmaWindow 2)
  Consensus.nextTarget headers params c.genesisTarget

def nextTarget (c : DagChain Tx) : Result Target := c.selectedChainTarget c.engine.tip

def expectedTarget (c : DagChain Tx) (parents : List Hash) : Result Target := do
  c.selectedChainTarget (← c.selectedParentDag parents)

/-- The interlink of a block on selected parent `sp`: the one of `sp`, with the entries up
to the level of `sp` pointing at `sp`. -/
def interlinkForParent (c : DagChain Tx) (sp : Hash) : List Hash :=
  match c.headers.lookup sp with
  | none => []
  | some header =>
      (List.range (Consensus.powLevel sp header.target + 1)).foldl
        (fun il k => if k < il.length then il.set k sp else il ++ [sp]) header.interlink

/-- All tips, or the heaviest and the first others up to the cap. -/
def buildParents (c : DagChain Tx) : List Hash :=
  if maxParents < c.tips.length then
    c.engine.tip :: (c.tips.filter (· ≠ c.engine.tip)).take (maxParents - 1)
  else c.tips

/-- Grinds the nonce until the PoW is met. The nonce wraps, so that the search never ends
when every nonce has failed. -/
def grind (env : Env Tx) (target : Target) : Nat → DagBlockHeader → Result DagBlockHeader
  | 0, _ => .error .diverge
  | fuel+1, header =>
      if Consensus.meetsTarget (header.id env.blake3) target then return header
      else grind env target fuel { header with nonce := header.nonce + 1 }

def buildBlockAt (env : Env Tx) (c : DagChain Tx) (transactions : List Tx)
    (timestamp : BitVec 64) : Result DagBlock := do
  let serialized := transactions.map fun t =>
    match env.encodeTx t with
    | .ok bytes => bytes
    | .error _ => []
  let target ← c.nextTarget
  let header ← grind env target (2^64)
    { version := Consensus.headerVersion
      parents := c.buildParents
      timestamp
      txMerkleRoot := Consensus.txMerkleRoot env.blake3 serialized
      stateRoot := 0
      target
      interlink := c.interlinkForParent c.engine.tip
      nonce := 0
      miner := c.miner }
  return ⟨header, serialized⟩

/-- Appends the record of `block` to the log, then applies the block. -/
def appendAndApply (env : Env Tx) (io : Option AppendFault) (c : DagChain Tx) (block : DagBlock) :
    Result (Except String Unit × DagChain Tx) :=
  match c.log.append io (LogRecord.block block).serialize with
  | (.error e, log) => return (.error e, { c with log })
  | (.ok (), log) => { c with log }.apply env block

/-- Mines a block on the current tips: build, persist, apply. -/
def mineAt (env : Env Tx) (io : Option AppendFault) (c : DagChain Tx) (transactions : List Tx)
    (timestamp : BitVec 64) : Result (Except String DagBlock × DagChain Tx) := do
  let block ← c.buildBlockAt env transactions timestamp
  match ← c.appendAndApply env io block with
  | (.ok (), c) => return (.ok block, c)
  | (.error e, c) => return (.error e, c)

/-- Context-free validity of a block at local time `now`. -/
def validateBlockIntrinsic (env : Env Tx) (now : Int) (block : DagBlock) : Except String Unit :=
  let h := block.header
  let txBytes := (block.transactions.map List.length).sum
  if ¬Consensus.meetsTarget (h.id env.blake3) h.target then .error "invalid proof-of-work"
  else if h.parents.isEmpty then .error "non-genesis block without parents"
  else if maxParents < h.parents.length then
    .error ("too many parents: " ++ toString h.parents.length ++ " > " ++ toString maxParents)
  else if ¬h.parents.Nodup then .error "duplicate parent"
  else if maxBlockTxs < block.transactions.length then
    .error ("too many transactions: " ++ toString block.transactions.length ++ " > " ++
      toString maxBlockTxs)
  else if maxBlockTxBytes < txBytes then
    .error ("block too large: " ++ toString txBytes ++ " > " ++ toString maxBlockTxBytes ++
      " tx bytes")
  else if Consensus.txMerkleRoot env.blake3 block.transactions ≠ h.txMerkleRoot then
    .error "tx merkle root mismatch (transaction set not the PoW-committed one)"
  else if min (now + maxTimestampDriftSecs) Consensus.i64Max < h.timestamp.toInt then
    .error "timestamp too far in the future"
  else .ok ()

/-- What `accept` checks against the chain before it persists a block. -/
def checkContext (c : DagChain Tx) (block : DagBlock) : Result (Except String Unit) :=
  let h := block.header
  if !h.parents.all (· ∈ c.blocks) then
    if h.parents.any fun p => p ≠ c.genesisDag ∧ c.historyPruned ∧ p ∉ c.blocks then
      return .error "parent pruned"
    else return .error "unknown parent (orphan)"
  else do
    let sp ← c.selectedParentDag h.parents
    let expected ← c.selectedChainTarget sp
    if h.target ≠ expected then return .error "unexpected difficulty target"
    else
      let regresses ← match c.headers.lookup sp with
        | some spHeader => do
            let earliest ← Consensus.i64 (spHeader.timestamp.toInt - maxTimestampDriftSecs)
            pure (decide (h.timestamp.toInt < earliest))
        | none => pure false
      if regresses then return .error "timestamp regresses below selected parent"
      else if h.interlink ≠ c.interlinkForParent sp then return .error "invalid interlink"
      else return .ok ()

/-- Accepts an externally produced block: validate, persist, apply. -/
def accept (env : Env Tx) (io : Option AppendFault) (now : Int) (c : DagChain Tx)
    (block : DagBlock) : Result (Except String Unit × DagChain Tx) :=
  if block.id env.blake3 ∈ c.blocks then return (.ok (), c)
  else
    match validateBlockIntrinsic env now block with
    | .error e => return (.error e, c)
    | .ok () => do
        match ← c.checkContext block with
        | .error e => return (.error e, c)
        | .ok () => c.appendAndApply env io block

/-- The total order, genesis first. -/
def totalOrder (c : DagChain Tx) : Result (List Hash) := c.engine.totalOrder

/-- The depth is at least one. -/
def setFinalityDepth (c : DagChain Tx) (depth : Nat) : DagChain Tx :=
  { c with finalityDepth := max depth 1 }

end DagChain

end TaoDag.Dagvm
