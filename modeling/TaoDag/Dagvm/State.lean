import TaoDag.Dagvm.DagChain

namespace TaoDag.Dagvm

open Consensus (Pubkey)
open Database (Account AccountsDb)
open TaoDag.Runtime (Env Bank BankError BankM)

/-- The fixed blockhash of the execution environment. -/
def envBlockhash : Bytes32 := BitVec.ofNat 256 (ofBE (List.replicate 32 7))

namespace DagChain

variable {Tx : Type}

/-- The genesis state: the base accounts of a pruned chain, or the allocations. -/
def seedAccounts (env : Env Tx) (c : DagChain Tx) : AccountsDb :=
  match c.baseAccounts with
  | some base => AccountsDb.empty.commit env.blake3 base
  | none =>
      c.allocations.foldl
        (fun db p => db.set env.blake3 p.1 (Account.new p.2 0 Runtime.Ids.systemProgram)) AccountsDb.empty

/-- A `Bank` over a wiped store, seeded with the genesis state or empty. -/
def openBank (env : Env Tx) (c : DagChain Tx) (seedGenesis : Bool) : Bank :=
  Bank.new env (if seedGenesis then c.seedAccounts env else AccountsDb.empty) 0

def freshBank (env : Env Tx) (c : DagChain Tx) : Bank := c.openBank env true

/-- Executes the transactions of a block in order. An error of one ends the replay. -/
def replayTxs (env : Env Tx) : Bank → List Tx → BankM Bank
  | bank, [] => return bank
  | bank, tx :: rest => do
      let (_, bank) ← bank.executeTransaction env tx envBlockhash
      replayTxs env bank rest

/-- Pays the coinbase of a block to the miner of its header. -/
def replayCoinbase (env : Env Tx) (c : DagChain Tx) (bank : Bank) (block : Hash) : BankM Bank :=
  if c.reward = 0 then return bank
  else
    match c.headers.lookup block with
    | none => throw (.storage "missing header for coinbase")
    | some header => return bank.airdrop env header.miner c.reward

def replayBlock (env : Env Tx) (c : DagChain Tx) (bank : Bank) (block : Hash) : BankM Bank :=
  if block = c.genesisDag then return bank
  else do
    let bank ← c.replayCoinbase env bank block
    replayTxs env bank ((c.blockTxs.lookup block).getD [])

/-- Executes the blocks in order: each non-genesis block pays its miner, then runs its
transactions. -/
def replayBlocks (env : Env Tx) (c : DagChain Tx) (bank : Bank) (blocks : List Hash) :
    BankM Bank :=
  blocks.foldlM (c.replayBlock env) bank

/-- Executes the whole total order from the genesis state. -/
def rebuildState (env : Env Tx) (c : DagChain Tx) : BankM Bank :=
  if c.historyPruned ∧ c.baseAccounts.isNone then
    throw (.storage "history pruned; query state via virtual_state")
  else do
    let order ← c.totalOrder
    c.replayBlocks env (c.freshBank env) order

/-- The checkpoint, if the order has its last block at its place. -/
def matchingCheckpoint (c : DagChain Tx) (order : List Hash) : Result (Option Checkpoint) :=
  match c.checkpoint with
  | none => return none
  | some cp => do
      if cp.len ≤ order.length then
        let last ← expect "index out of bounds" order[(← subU64 cp.len 1)]?
        return if last = cp.lastId then some cp else none
      else return none

/-- The bank of a checkpoint: an empty store, its builtins, then the snapshot over them. -/
def restoreCheckpoint (env : Env Tx) (c : DagChain Tx) (cp : Checkpoint) : Bank :=
  (c.openBank env false).commit env cp.accounts

/-- The bank for `order`, and the state it leaves cached when the replay fails: the cached
bank is taken out, or dropped, before the replay. -/
def virtualBank (env : Env Tx) (c : DagChain Tx) (order : List Hash) : BankM Bank :=
  match c.state, decide (c.executed <+: order) with
  | some bank, true => c.replayBlocks env bank (order.drop c.executed.length)
  | _, _ => do
      match ← c.matchingCheckpoint order with
      | some cp =>
          c.replayBlocks env (c.restoreCheckpoint env cp) (order.drop cp.len)
      | none =>
          if c.historyPruned ∧ c.baseAccounts.isNone then
            throw (.storage "reorg below pruned history (deeper than finality)")
          else c.replayBlocks env (c.freshBank env) order

/-- The snapshot of the first `target` executed blocks, computed from the previous
checkpoint, or from genesis. -/
def advanceCheckpoint (env : Env Tx) (c : DagChain Tx) (target : Nat) : BankM Checkpoint := do
  let bank ← match c.checkpoint with
    | some cp =>
        c.replayBlocks env ((c.openBank env false).commit env cp.accounts)
          ((c.executed.take target).drop cp.len)
    | none => c.replayBlocks env (c.openBank env true) (c.executed.take target)
  let lastId ← (expect "index out of bounds" c.executed[target - 1]? : Result Hash)
  return ⟨target, lastId, bank.db.dump⟩

/-- Advances the checkpoint in chunks, never into the last `finality_depth` blocks. -/
def maybeAdvanceCheckpoint (env : Env Tx) (c : DagChain Tx) : BankM (Option Checkpoint) :=
  let fd := c.finalityDepth
  if fd = 0 then return c.checkpoint
  else do
    let cpLen := (c.checkpoint.map (·.len)).getD 0
    if c.executed.length < (← addU64 cpLen (← mulU64 2 fd)) then return c.checkpoint
    else
      let target := c.executed.length - fd
      if target ≤ cpLen then return c.checkpoint
      else return some (← c.advanceCheckpoint env target)

/-- The current state, kept incrementally: only an appended suffix of the order is
executed; a reorg replays from the checkpoint, or from the genesis state. -/
def virtualState (env : Env Tx) (c : DagChain Tx) :
    Result (Except BankError Bank × DagChain Tx) := do
  let order ← c.totalOrder
  match ← (c.virtualBank env order).run with
  | .error e => return (.error e, { c with state := none })
  | .ok bank =>
      let c := { c with state := some bank, executed := order }
      match ← (c.maybeAdvanceCheckpoint env).run with
      | .error e => return (.error e, c)
      | .ok checkpoint => return (.ok bank, { c with checkpoint })

/-- `virtual_state` changes its caches only. -/
theorem virtualState_frame {env : Env Tx} {c c' : DagChain Tx} {r : Except BankError Bank}
    (h : c.virtualState env = .ok (r, c')) :
    ∃ state executed checkpoint, c' = { c with state, executed, checkpoint } := by
  rw [virtualState] at h
  obtain ⟨order, _, h⟩ := bind_eq_ok.mp h
  obtain ⟨b, _, h⟩ := bind_eq_ok.mp h
  cases b with
  | error e =>
    cases h
    exact ⟨none, c.executed, c.checkpoint, rfl⟩
  | ok bank =>
    obtain ⟨cp, _, h⟩ := bind_eq_ok.mp h
    cases cp with
    | error e =>
      cases h
      exact ⟨some bank, order, c.checkpoint, rfl⟩
    | ok checkpoint =>
      cases h
      exact ⟨some bank, order, checkpoint, rfl⟩

end DagChain

end TaoDag.Dagvm
