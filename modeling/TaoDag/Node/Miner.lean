import TaoDag.Consensus.ChainState
import TaoDag.Database.BlockLog
import TaoDag.Runtime.Bank

namespace TaoDag.Node

open Consensus (Pubkey Target Block BlockHeader ChainState DifficultyParams)
open Database (Account AccountsDb AppendFault BlockLog)
open TaoDag.Runtime (Env Bank)

/-- What the node reads of the genesis file. -/
structure GenesisConfig where
  creationTime : BitVec 64
  targetBlockTimeSecs : Nat
  lwmaWindow : Nat
  initialTarget : Target
  initialLamports : BitVec 64
  halvingInterval : Nat
  allocations : List (Pubkey × BitVec 64)
  commitment : Bytes32

/-- The deterministic genesis header. -/
def genesisHeader (g : GenesisConfig) : BlockHeader where
  version := Consensus.headerVersion
  prevHash := 0
  height := 0
  timestamp := g.creationTime
  txMerkleRoot := 0
  stateRoot := g.commitment
  target := g.initialTarget
  nonce := 0
  miner := 0

/-- Block reward at `height`, which halves. -/
def emission (g : GenesisConfig) (height : Nat) : BitVec 64 :=
  if g.halvingInterval = 0 then g.initialLamports
  else
    let halvings := height / g.halvingInterval
    if 64 ≤ halvings then 0 else g.initialLamports >>> halvings

variable {Tx : Type}

/-- Funds the allocations; an account that exists is left as it is. -/
def loadAllocations (env : Env Tx) (g : GenesisConfig) (db : AccountsDb) : AccountsDb :=
  g.allocations.foldl
    (fun db p =>
      if (db.get p.1).isSome then db
      else db.set env.blake3 p.1 (Account.new p.2 0 Runtime.Ids.systemProgram))
    db

/-- Decodes the transactions of a block, in order. -/
def decodeTxs (env : Env Tx) (serialized : List Bytes) : Except String (List Tx) :=
  serialized.mapM fun b =>
    match env.decodeTx b with
    | .ok tx => .ok tx
    | .error e => .error ("decode tx: " ++ e)

/-- The consensus, log and execution state of the linear node. -/
structure Miner where
  chain : ChainState
  log : BlockLog
  bank : Bank
  genesis : GenesisConfig
  miner : Pubkey

/-- Executes a block on `bank`, with the reward of its height. -/
def executeOn (env : Env Tx) (g : GenesisConfig) (bank : Bank) (header : BlockHeader)
    (txs : List Tx) : Result (Runtime.BlockExecution × Bank) :=
  bank.executeBlock env txs header.prevHash header.miner (emission g header.height.toNat)

/-- Replays one record of the log. The verdict on the header is ignored. -/
def replayRecord (env : Env Tx) (g : GenesisConfig) (chain : ChainState) (bank : Bank)
    (bytes : Bytes) : Result (Except String (ChainState × Bank)) :=
  match Block.codec.deserialize bytes with
  | .error e => return .error ("corrupt block in log: " ++ e)
  | .ok block =>
      match decodeTxs env block.transactions with
      | .error e => return .error e
      | .ok txs => do
          let (_, chain) ← chain.addHeader env.blake3 block.header
          let (exec, bank) ← executeOn env g bank block.header txs
          if exec.stateRoot ≠ block.header.stateRoot then
            return .error ("state root mismatch at height " ++ toString block.header.height.toNat)
          else return .ok (chain, bank)

def replayRecords (env : Env Tx) (g : GenesisConfig) :
    ChainState → Bank → List Bytes → Result (Except String (ChainState × Bank))
  | chain, bank, [] => return .ok (chain, bank)
  | chain, bank, bytes :: rest => do
      match ← replayRecord env g chain bank bytes with
      | .ok (chain, bank) => replayRecords env g chain bank rest
      | .error e => return .error e

/-- The bank over a wiped account store. -/
def genesisBank (env : Env Tx) (g : GenesisConfig) : Bank :=
  Bank.new env (loadAllocations env g AccountsDb.empty) 0

/-- Builds the chain and the account state by replaying the log file. -/
def prepare (env : Env Tx) (g : GenesisConfig) (miner : Pubkey) (pow : BlockHeader → Bool)
    (file : Bytes) : Result (Except String Miner) := do
  let params ← DifficultyParams.new g.targetBlockTimeSecs g.lwmaWindow
  let chain ← ChainState.new env.blake3 (genesisHeader g) params pow
  let log := BlockLog.openAt file
  match log.readAll with
  | .error _ => return .error "read block log"
  | .ok records =>
      match ← replayRecords env g chain (genesisBank env g) records with
      | .error e => return .error e
      | .ok (chain, bank) => return .ok ⟨chain, log, bank, g, miner⟩

/-- Up to `n` attempts at the PoW. The nonce wraps. -/
def grind (pow : BlockHeader → Bool) : Nat → BlockHeader → Except BlockHeader BlockHeader
  | 0, header => .error header
  | n+1, header =>
      if pow header then .ok header else grind pow n { header with nonce := header.nonce + 1 }

/-- Grinds in batches; after a batch in vain the header takes the next clock reading. -/
def grindLoop (pow : BlockHeader → Bool) (batch : Nat) :
    List (BitVec 64) → BlockHeader → Result BlockHeader
  | readings, header =>
      match grind pow batch header with
      | .ok header => return header
      | .error header =>
          match readings with
          | [] => .error .diverge
          | now :: readings => grindLoop pow batch readings { header with timestamp := now }

/-- Serializes the drained transactions. -/
def serializeTxs (env : Env Tx) (txs : List Tx) : Result (List Bytes) :=
  txs.mapM fun tx =>
    match env.encodeTx tx with
    | .ok bytes => .ok bytes
    | .error _ => .error (.panic "tx serialize")

namespace Miner

/-- What the clock and the file system do during a call of `mine_one`: the reading at its
start, those after each batch of the grind, and a fault of the append. -/
structure MineInput where
  now : BitVec 64
  readings : List (BitVec 64)
  batch : Nat
  io : Option AppendFault

/-- Produces one block: execute, grind, persist, add. -/
def mineOne (env : Env Tx) (m : Miner) (txs : List Tx) (input : MineInput) :
    Result (Except String Unit × Miner) := do
  let height ← addU64 (← m.chain.height) 1
  let serialized ← serializeTxs env txs
  let (exec, bank) ←
    m.bank.executeBlock env txs m.chain.tip m.miner (emission m.genesis height)
  let m := { m with bank }
  let header ← m.chain.buildCandidate env.blake3 m.miner input.now serialized
  let header ← grindLoop m.chain.pow input.batch input.readings
    { header with stateRoot := exec.stateRoot }
  match m.log.append input.io (Block.codec.encode ⟨header, serialized⟩) with
  | (.error _, log) => return (.error "append block", { m with log })
  | (.ok (), log) =>
      let m := { m with log }
      match ← m.chain.addHeader env.blake3 header with
      | (.error e, _) => return (.error ("self-mined block rejected: " ++ e.message), m)
      | (.ok _, chain) => return (.ok (), { m with chain })

/-- Validates, executes and applies a block received from a peer. -/
def applyPeerBlock (env : Env Tx) (m : Miner) (bytes : Bytes) (io : Option AppendFault) :
    Result (Except String Unit × Miner) :=
  match Block.codec.deserialize bytes with
  | .error e => return (.error ("decode peer block: " ++ e), m)
  | .ok block =>
      if m.chain.contains (block.id env.blake3) then return (.ok (), m)
      else
        match decodeTxs env block.transactions with
        | .error e => return (.error e, m)
        | .ok txs => do
            match ← m.chain.addHeader env.blake3 block.header with
            | (.error _, _) => return (.ok (), m)
            | (.ok _, chain) =>
                let m := { m with chain }
                let (exec, bank) ← executeOn env m.genesis m.bank block.header txs
                let m := { m with bank }
                if exec.stateRoot ≠ block.header.stateRoot then return (.ok (), m)
                else
                  match m.log.append io bytes with
                  | (.error _, log) => return (.error "append peer block", { m with log })
                  | (.ok (), log) => return (.ok (), { m with log })

end Miner

end TaoDag.Node
