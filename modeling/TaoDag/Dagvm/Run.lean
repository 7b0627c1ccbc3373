import TaoDag.Core.Blake3
import TaoDag.Dagvm.Sync

namespace TaoDag.Dagvm

open Consensus (DagBlock)
open Database (AppendFault ReplaceFault)
open TaoDag.Runtime (Env)

/-- One call on a chain, with the clock reading and the file fault it meets. -/
inductive Call (Tx : Type) where
  | mine (io : Option AppendFault) (transactions : List Tx) (timestamp : BitVec 64)
  | accept (io : Option AppendFault) (now : Int) (block : DagBlock)
  | virtualState
  | setFinalityDepth (depth : Nat)
  | pruneFinalizedTransactions
  | prune (io : Option ReplaceFault)
  | importSnapshot (io : Option ReplaceFault) (now : Int) (bytes : Bytes)

namespace DagChain

variable {Tx : Type}

/-- The chain after a call that does not panic, whatever it replies. -/
def step (env : Env Tx) (c : DagChain Tx) : Call Tx → Result (DagChain Tx)
  | .mine io transactions timestamp => (·.2) <$> c.mineAt env io transactions timestamp
  | .accept io now block => (·.2) <$> c.accept env io now block
  | .virtualState => (·.2) <$> c.virtualState env
  | .setFinalityDepth depth => .ok (c.setFinalityDepth depth)
  | .pruneFinalizedTransactions => (·.2) <$> c.pruneFinalizedTransactions
  | .prune io => (·.2) <$> c.prune env io
  | .importSnapshot io now bytes => (·.2) <$> c.importSnapshot env io now bytes

/-- One call that meets the condition `P`. -/
def StepOn (env : Env Tx) (P : DagChain Tx → Call Tx → Prop) (c c' : DagChain Tx) : Prop :=
  ∃ call, P c call ∧ c.step env call = .ok c'

/-- A run of calls each of which meets the condition `P`. -/
def Reaches (env : Env Tx) (P : DagChain Tx → Call Tx → Prop) : DagChain Tx → DagChain Tx → Prop :=
  Relation.ReflTransGen (StepOn env P)

/-- An invariant of every step is an invariant of every run. -/
theorem Reaches.invariant {env : Env Tx} {P : DagChain Tx → Call Tx → Prop}
    {Inv : DagChain Tx → Prop} {c c' : DagChain Tx} (h : Reaches env P c c') (hc : Inv c)
    (hstep : ∀ d call d', Inv d → P d call → d.step env call = .ok d' → Inv d') : Inv c' := by
  induction h with
  | refl => exact hc
  | tail _ hs ih =>
    obtain ⟨call, hp, hs⟩ := hs
    exact hstep _ call _ ih hp hs

end DagChain

/-- A chain at the easiest difficulty, which is held fixed: every nonce is a solution. -/
def easyParams : Params where
  k := 3
  genesisTarget := BitVec.allOnes 256
  miner := 0
  reward := 0
  allocations := []
  blockTimeSecs := 10
  lwmaWindow := u64Max
  genesisCommitment := 0

/-- The genesis id of `easyParams` under BLAKE3. -/
def easyGenesis : Hash := 0x1dcabacd9cfe6f452163ddbf407b1f8f23aecc51dd467682fb14e600d74f142c

/-- A block of an easy chain. -/
def easyBlock (blake3 : Bytes → Hash) (parents interlink : List Hash) (timestamp : BitVec 64)
    (transactions : List Bytes) : DagBlock where
  header :=
    { version := Consensus.headerVersion
      parents
      timestamp
      txMerkleRoot := Consensus.txMerkleRoot blake3 transactions
      stateRoot := 0
      target := BitVec.allOnes 256
      interlink
      nonce := 0
      miner := 0 }
  transactions

/-- A child of the easy genesis. -/
def easyChild (transactions : List Bytes) : DagBlock :=
  easyBlock Blake3.hash [easyGenesis] (List.replicate 4 easyGenesis) 1750000010 transactions

end TaoDag.Dagvm
