import TaoDag.Dagvm.Run

namespace TaoDag.Node

open Consensus (DagBlock)
open Database (AppendFault ReplaceFault)
open Dagvm (DagChain)
open TaoDag.Runtime (Env)

/-- A gossip message about blocks. -/
inductive NetMsg where
  | newBlock (bytes : Bytes)
  | getBlock (id : Hash)
  | getTips
  | tips (ids : List Hash)
  | getSnapshot
  | snapshot (bytes : Bytes)

/-- A message on its way out: to every peer, or to one. -/
inductive Outgoing (Peer : Type) where
  | broadcast (msg : NetMsg)
  | sendTo (peer : Peer) (msg : NetMsg)

/-- `str::contains`. -/
def containsText (text pattern : String) : Bool := decide (pattern.toList <:+: text.toList)

/-- The chain of a DAG node and its buffer of announced blocks. -/
structure DagNode (Tx : Type) where
  chain : DagChain Tx
  pending : List DagBlock

/-- What a call of `accept` meets: a fault of the append, and the clock. -/
structure AcceptInput where
  io : Option AppendFault
  now : Int

/-- The state of the pending loop: the chain, whether this pass got a block accepted, the
blocks that stay buffered, those to relay, and the number of calls so far. -/
structure Pass (Tx : Type) where
  chain : DagChain Tx
  progress : Bool
  still : List DagBlock
  relay : List DagBlock
  calls : Nat

namespace DagNode

variable {Tx Peer : Type}

/-- Handles one inbound message: buffers announced blocks and serves requests. -/
def receive (env : Env Tx) (io : Option ReplaceFault) (now : Int) (n : DagNode Tx) (peer : Peer) :
    NetMsg → Result (DagNode Tx × List (Outgoing Peer))
  | .newBlock bytes =>
      match DagBlock.fromBytes bytes with
      | .ok block => return ({ n with pending := n.pending ++ [block] }, [])
      | .error _ => return (n, [])
  | .getBlock id =>
      match n.chain.getBlock env id with
      | some block => return (n, [.sendTo peer (.newBlock (DagBlock.codec.encode block))])
      | none => return (n, [])
  | .getTips => return (n, [.sendTo peer (.tips n.chain.tips)])
  | .tips ids =>
      return (n, (ids.filter (· ∉ n.chain.blocks)).map fun id => .broadcast (.getBlock id))
  | .getSnapshot => do
      match ← n.chain.exportSnapshot env with
      | some bytes => return (n, [.sendTo peer (.snapshot bytes)])
      | none => return (n, [])
  | .snapshot bytes => do
      let (_, chain) ← n.chain.importSnapshot env io now bytes
      return ({ n with chain }, [])

/-- One call of `accept` in the pending loop: a block is relayed, kept as an orphan, or
dropped. -/
def acceptOne (env : Env Tx) (input : Nat → AcceptInput) (s : Pass Tx) (block : DagBlock) :
    Result (Pass Tx) := do
  let i := input s.calls
  let calls := s.calls + 1
  match ← s.chain.accept env i.io i.now block with
  | (.ok (), chain) =>
      return { s with chain, calls, progress := true, relay := s.relay ++ [block] }
  | (.error e, chain) =>
      if containsText e "orphan" then return { s with chain, calls, still := s.still ++ [block] }
      else return { s with chain, calls }

/-- The passes over the buffer, until one gets no block accepted. -/
def pendingLoop (env : Env Tx) (input : Nat → AcceptInput) :
    Nat → Pass Tx → List DagBlock → Result (Pass Tx)
  | 0, _, _ => .error .diverge
  | fuel+1, s, pending => do
      let s ← pending.foldlM (acceptOne env input) { s with progress := false, still := [] }
      if s.progress then pendingLoop env input fuel s s.still else return s

/-- Applies the buffered blocks, retrying orphans, and relays those accepted. A pass that makes
progress shortens the buffer, so its length bounds the loop. -/
def applyPending (env : Env Tx) (input : Nat → AcceptInput) (n : DagNode Tx) :
    Result (DagNode Tx × List DagBlock) := do
  let s ← pendingLoop env input (n.pending.length + 1) ⟨n.chain, false, [], [], 0⟩ n.pending
  return (⟨s.chain, s.still⟩, s.relay)

/-- The missing parents of buffered blocks, which the node asks for. -/
def backfill (n : DagNode Tx) : List (Outgoing Peer) :=
  let wanted := n.pending.flatMap fun b => b.header.parents.filter (· ∉ n.chain.blocks)
  wanted.dedup.map fun id => .broadcast (.getBlock id)

/-- Maintenance: advances the virtual state, then prunes. -/
def maintain (env : Env Tx) (io : Option ReplaceFault) (n : DagNode Tx) :
    Result (DagNode Tx) := do
  match ← n.chain.virtualState env with
  | (.error _, chain) => return { n with chain }
  | (.ok _, chain) => do
      let (_, chain) ← chain.prune env io
      return { n with chain }

/-- Mines on the current tips and announces the block; an error ends the process. -/
def mine (env : Env Tx) (io : Option AppendFault) (n : DagNode Tx) (txs : List Tx)
    (timestamp : BitVec 64) : Result (Except String (List (Outgoing Peer)) × DagNode Tx) := do
  match ← n.chain.mineAt env io txs timestamp with
  | (.error e, chain) => return (.error ("mine: " ++ e), { n with chain })
  | (.ok block, chain) => do
      let (_, chain) ← chain.virtualState env
      return (.ok [.broadcast (.newBlock (DagBlock.codec.encode block))], { n with chain })

end DagNode

end TaoDag.Node
