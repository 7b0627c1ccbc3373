import TaoDag.Dagvm.Prune

namespace TaoDag.Dagvm

open Consensus (DagBlock)
open Database (ReplaceFault)
open TaoDag.Runtime (Env)

namespace DagChain

variable {Tx : Type}

/-- The bootstrap payload of a pruned chain. -/
def exportSnapshot (env : Env Tx) (c : DagChain Tx) : Result (Option Bytes) :=
  match c.historyPruned, c.headers.lookup c.genesisDag, c.baseAccounts with
  | true, some originHeader, some accounts => do
      let order ← c.totalOrder
      let suffix := (order.drop 1).filterMap (c.getBlock env)
      return some (SyncSnapshot.codec.encode ⟨originHeader, accounts, suffix, c.proof⟩)
  | _, _, _ => return none

def validateSuffix (env : Env Tx) (now : Int) : List DagBlock → Except String Unit
  | [] => .ok ()
  | block :: rest => do
      validateBlockIntrinsic env now block
      validateSuffix env now rest

def applySuffix (env : Env Tx) :
    DagChain Tx → List DagBlock → Result (Except String Unit × DagChain Tx)
  | c, [] => return (.ok (), c)
  | c, block :: rest => do
      match ← c.apply env block with
      | (.error e, c) => return (.error e, c)
      | (.ok (), c) => applySuffix env c rest

/-- Adopts the bootstrap snapshot of a pruned peer: a fresh node takes any proven one, a
bootstrapped node one with more work. -/
def importSnapshot (env : Env Tx) (io : Option ReplaceFault) (now : Int) (c : DagChain Tx)
    (bytes : Bytes) : Result (Except String Bool × DagChain Tx) :=
  if maxSnapshotBytes < bytes.length then
    return (.error ("snapshot too large: " ++ toString bytes.length ++ " > " ++
      toString maxSnapshotBytes), c)
  else
    match SyncSnapshot.codec.deserialize bytes with
    | .error e => return (.error e, c)
    | .ok snap =>
        let origin := snap.originHeader.id env.blake3
        if origin ∈ c.blocks then return (.ok false, c)
        else
          match verifyProof env.blake3 snap.proof origin c.originalGenesis with
          | .error e => return (.error e, c)
          | .ok work =>
              let fresh := c.blocks.card = 1 ∧ ¬c.historyPruned
              let stronger := c.bootstrapped ∧ c.bootstrapWork < work
              if ¬fresh ∧ ¬stronger then return (.ok false, c)
              else
                match validateSuffix env now snap.suffix with
                | .error e => return (.error e, c)
                | .ok () => do
                    let c ← c.loadSnapshot env snap.originHeader snap.accounts snap.proof
                    match ← c.applySuffix env snap.suffix with
                    | (.error e, c) => return (.error e, c)
                    | (.ok (), c) =>
                        let records :=
                          (LogRecord.snapshot snap.originHeader snap.accounts
                            snap.proof).serialize ::
                          snap.suffix.map fun b => (LogRecord.block b).serialize
                        match c.log.replaceAll io records with
                        | (.error e, log) => return (.error e, { c with log })
                        | (.ok (), log) =>
                            return (.ok true,
                              { c with log, bootstrapped := true, bootstrapWork := work })

end DagChain

end TaoDag.Dagvm
