import TaoDag.Dagvm.Execution
import TaoDag.Node.DagNode
import TaoDag.Node.Shared

namespace TaoDag.Node

open Database (AppendFault ReplaceFault)
open Dagvm (Checkpoint DagChain Execution Params envBlockhash)
open TaoDag.Runtime (Env Bank BankM)

variable {Tx Peer : Type}

/-- The DAG node, what it shares with the RPC server, and the signatures of the transactions it
has relayed. -/
structure DagServer (Tx : Type) where
  node : DagNode Tx
  shared : Shared Tx
  seenTx : Finset Signature

/-- What the node does next: a submission over RPC, or a part of its loop. -/
inductive DagEvent (Tx Peer : Type) where
  | submit (tx : Tx)
  | receive (io : Option ReplaceFault) (now : Int) (peer : Peer) (msg : NetMsg)
  | receiveTx (bytes : Bytes)
  | applyPending (input : Nat → AcceptInput)
  | maintain (io : Option ReplaceFault)
  | mine (io : Option AppendFault) (timestamp : BitVec 64)

namespace DagServer

/-- Opens the chain and computes its state, before the loop. -/
def start (env : Env Tx) (p : Params) (depth : Nat) (file : Bytes) :
    Result (Except String (DagServer Tx)) := do
  match ← DagChain.openWithGenesis env p file with
  | .error e => return .error ("open dag chain: " ++ e)
  | .ok chain =>
      match ← (chain.setFinalityDepth depth).virtualState env with
      | (.error e, _) => return .error ("init virtual state: " ++ e.message)
      | (.ok _, chain) => do
          let order ← chain.totalOrder
          return .ok ⟨⟨chain, []⟩,
            Shared.new (BitVec.ofNat 64 (order.length - 1)) envBlockhash, ∅⟩

section Loop

variable (env : Env Tx) (signature : Tx → Option Signature)

/-- Takes a transaction from a peer into the mempool, when its signature is new. -/
def receiveTx (s : DagServer Tx) (bytes : Bytes) : Result (DagServer Tx) :=
  match env.decodeTx bytes with
  | .error _ => return s
  | .ok tx =>
      match signature tx with
      | none => return s
      | some sig =>
          if sig ∈ s.seenTx then return s
          else do
            let shared ← s.shared.submit signature tx
            return { s with shared, seenTx := insert sig s.seenTx }

/-- Mines the drained mempool on the current tips, and confirms every transaction of the block. -/
def mine (s : DagServer Tx) (io : Option AppendFault) (timestamp : BitVec 64) :
    Result (Except String (List (Outgoing Peer)) × DagServer Tx) := do
  let (txs, shared) := s.shared.drainMempool signature
  match ← s.node.mine env io txs timestamp with
  | (.error e, node) => return (.error e, { s with node, shared })
  | (.ok out, node) => do
      let order ← node.chain.totalOrder
      let shared := shared.advance (BitVec.ofNat 64 (order.length - 1)) envBlockhash
      return (.ok out,
        { s with node, shared := shared.confirmAll signature (txs.map fun tx => (tx, none)) })

def step (s : DagServer Tx) : DagEvent Tx Peer → Result (DagServer Tx)
  | .submit tx => do return { s with shared := ← s.shared.submit signature tx }
  | .receive io now peer msg => do return { s with node := (← s.node.receive env io now peer msg).1 }
  | .receiveTx bytes => s.receiveTx env signature bytes
  | .applyPending input => do return { s with node := (← s.node.applyPending env input).1 }
  | .maintain io => do return { s with node := ← s.node.maintain env io }
  | .mine io timestamp => do
      return (← (s.mine env signature io timestamp :
        Result (Except String (List (Outgoing Peer)) × DagServer Tx))).2

end Loop

end DagServer

/-- The executions of a replay, of which there are none when it fails. -/
def logOf (replay : BankM (List (Execution Tx) × Bank)) : List (Execution Tx) :=
  match replay.run with
  | .ok (.ok (log, _)) => log
  | _ => []

/-- Where the accounts of a chain come from: what the node has executed on the way to its base
accounts, to those of its checkpoint, and to the state it computed last. -/
structure Lineage (Tx : Type) where
  base : List (Execution Tx)
  checkpoint : List (Execution Tx)
  state : List (Execution Tx)

namespace Lineage

/-- A chain that is open and has executed nothing. -/
def new : Lineage Tx := ⟨[], [], []⟩

variable (env : Env Tx)

/-- What `virtual_state` executes on the way to the state of `order`. -/
def toOrder (g : Lineage Tx) (c : DagChain Tx) (order : List Hash) : List (Execution Tx) :=
  match c.state, decide (c.executed <+: order) with
  | some bank, true =>
      g.state ++ logOf (c.executeBlocks env bank (order.drop c.executed.length))
  | _, _ =>
      match c.matchingCheckpoint order with
      | .ok (some cp) =>
          g.checkpoint ++
            logOf (c.executeBlocks env (c.restoreCheckpoint env cp) (order.drop cp.len))
      | _ => g.base ++ logOf (c.executeBlocks env (c.freshBank env) order)

/-- What `advance_checkpoint` executes on the way to the first `target` executed blocks. -/
def toCheckpoint (g : Lineage Tx) (c : DagChain Tx) (target : Nat) : List (Execution Tx) :=
  match c.checkpoint with
  | some cp =>
      g.checkpoint ++ logOf (c.executeBlocks env (c.restoreCheckpoint env cp)
        ((c.executed.take target).drop cp.len))
  | none => g.base ++ logOf (c.executeBlocks env (c.freshBank env) (c.executed.take target))

/-- What `prune` executes on the way to the accounts of its pruning point. -/
def toPruned (g : Lineage Tx) (c : DagChain Tx) : List (Execution Tx) :=
  match c.totalOrder with
  | .error _ => []
  | .ok order =>
      match c.prunePoint order with
      | .ok (some pIdx) =>
          let pruned := order.take (pIdx + 1)
          if c.historyPruned ∧ c.baseAccounts.isNone then
            match c.checkpoint with
            | none => []
            | some cp =>
                g.checkpoint ++
                  logOf (c.executeBlocks env (c.restoreCheckpoint env cp) (pruned.drop cp.len))
          else
            match c.baseAccounts with
            | some base =>
                g.base ++ logOf (c.executeBlocks env ((c.openBank env false).commit env base) pruned)
            | none => g.base ++ logOf (c.executeBlocks env (c.freshBank env) pruned)
      | _ => []

/-- The lineage after a call of `virtual_state`. -/
def virtualState (g : Lineage Tx) (c : DagChain Tx) : Lineage Tx :=
  match c.totalOrder with
  | .error _ => g
  | .ok order =>
      match (c.virtualBank env order).run with
      | .ok (.ok bank) =>
          let advanced := { g with state := g.toOrder env c order }
          let cached := { c with state := some bank, executed := order }
          match (cached.maybeAdvanceCheckpoint env).run with
          | .ok (.ok (some cp)) =>
              if c.checkpoint.map (·.len) = some cp.len then advanced
              else { advanced with checkpoint := g.toCheckpoint env cached cp.len }
          | _ => advanced
      | _ => g

/-- The lineage when the chain is re-anchored on accounts that `base` leads to. -/
def reanchored (g : Lineage Tx) (c c' : DagChain Tx) (base : List (Execution Tx)) : Lineage Tx :=
  if c'.genesisDag = c.genesisDag then g else { g with base, checkpoint := [] }

/-- The lineage after maintenance. -/
def maintain (g : Lineage Tx) (c : DagChain Tx) (io : Option ReplaceFault) : Lineage Tx :=
  let settled := g.virtualState env c
  match c.virtualState env with
  | .ok (.ok _, cached) =>
      match cached.prune env io with
      | .ok (_, pruned) => settled.reanchored cached pruned (settled.toPruned env cached)
      | .error _ => settled
  | _ => settled

/-- The lineage after an event. The accounts of a snapshot were executed by others. -/
def step (signature : Tx → Option Signature) (g : Lineage Tx) (s : DagServer Tx) :
    DagEvent Tx Peer → Lineage Tx
  | .receive io now peer msg =>
      match s.node.receive env io now peer msg with
      | .ok (node, _) => g.reanchored s.node.chain node.chain []
      | .error _ => g
  | .maintain io => g.maintain env s.node.chain io
  | .mine io timestamp =>
      match s.node.chain.mineAt env io (s.shared.drainMempool signature).1 timestamp with
      | .ok (.ok _, c) => g.virtualState env c
      | _ => g
  | .submit _ | .receiveTx _ | .applyPending _ => g

end Lineage

end TaoDag.Node
