import TaoDag.Node.DagStatuses
import TaoDag.Node.Wallet

namespace TaoDag.Node

open Consensus (Pubkey)
open Dagvm (Params Succeeds envBlockhash)
open Database (Account)

variable {Tx : Type}

namespace LinearNode

variable {env : Runtime.Env Tx} {signature : Tx → Option Signature}

theorem Serves.trans {n₀ n n' : LinearNode Tx} (first : Serves env signature n₀ n)
    (second : Serves env signature n n') : Serves env signature n₀ n' := by
  induction second with
  | start => exact first
  | submit _ run ih => exact Serves.submit ih run
  | mine _ run ih => exact Serves.mine ih run
  | gossip _ run ih => exact Serves.gossip ih run

/-- The linear node as a host: its RPC reads the store that the bank writes. -/
def host (genesisHash : Hash) (faucet : Option (BitVec 512)) (networked : Bool) :
    RpcHost (LinearNode Tx) Tx where
  server n :=
    ⟨n.shared, fun key => .ok (n.miner.bank.db.get key), genesisHash, faucet, networked, []⟩
  withShared n shared := { n with shared }

theorem Serves.submits {env : RpcEnv Tx} {n₀ n : LinearNode Tx} {shared : Shared Tx}
    (h : Serves env.txs env.signature n₀ n) (run : RpcServer.Submits env n.shared shared) :
    Serves env.txs env.signature n₀ { n with shared } := by
  induction run with
  | refl => exact h
  | @tail before after _ hsubmit ih =>
    obtain ⟨tx, hsubmit⟩ := hsubmit
    exact Serves.submit (n := { n with shared := before }) ih hsubmit

/-- A client sees only states that the node reaches. -/
theorem invariant_serves (env : RpcEnv Tx) (genesisHash : Hash) (faucet : Option (BitVec 512))
    (networked : Bool) (n₀ : LinearNode Tx) :
    Session.Invariant (Serves env.txs env.signature)
      ((host genesisHash faucet networked).Answers env) (Serves env.txs env.signature n₀) where
  moves h run := h.trans run
  answers h answered := by
    cases answered with
    | served run => exact h.submits (RpcServer.handle_submits run)
    | responseLost run => exact h.submits (RpcServer.handle_submits run)
    | requestLost => exact h

end LinearNode

namespace DagServer

variable {Peer : Type} {p : Params}

/-- What the DAG node does on its own between requests: sound events. -/
abbrev Moves (Peer : Type) (env : Runtime.Env Tx) (signature : Tx → Option Signature) :
    DagServer Tx × Lineage Tx → DagServer Tx × Lineage Tx → Prop :=
  Relation.ReflTransGen fun a b => ∃ event : DagEvent Tx Peer,
    a.1.Sound env signature a.2 event ∧ a.1.step env signature event = .ok b.1 ∧
      b.2 = a.2.step env signature a.1 event

/-- The DAG node as a host, which has no faucet. The lineage of its state is a ghost. -/
def host (genesisHash : Hash) (accounts : DagServer Tx → Pubkey → Except String (Option Account)) :
    RpcHost (DagServer Tx × Lineage Tx) Tx where
  server n := ⟨n.1.shared, accounts n.1, genesisHash, none, true, []⟩
  withShared n shared := ({ n.1 with shared }, n.2)

theorem Serves.moves {env : Runtime.Env Tx} {signature : Tx → Option Signature}
    {n n' : DagServer Tx × Lineage Tx} (h : Serves Peer env signature p n.1 n.2)
    (run : Moves Peer env signature n n') : Serves Peer env signature p n'.1 n'.2 := by
  induction run with
  | refl => exact h
  | tail _ hstep ih =>
    obtain ⟨event, hsound, hrun, hlineage⟩ := hstep
    rw [hlineage]
    exact ih.step hsound hrun

theorem Serves.submits {env : RpcEnv Tx} {s : DagServer Tx} {g : Lineage Tx} {shared : Shared Tx}
    (h : Serves Peer env.txs env.signature p s g) (run : RpcServer.Submits env s.shared shared) :
    Serves Peer env.txs env.signature p { s with shared } g := by
  induction run with
  | refl => exact h
  | @tail before after _ hsubmit ih =>
    obtain ⟨tx, hsubmit⟩ := hsubmit
    have hsound : ({ s with shared := before } : DagServer Tx).Sound env.txs env.signature g
        (.submit tx : DagEvent Tx Peer) := trivial
    have hrun : ({ s with shared := before } : DagServer Tx).step env.txs env.signature
        (.submit tx : DagEvent Tx Peer) = .ok { s with shared := after } := by
      simp only [DagServer.step, hsubmit]
      rfl
    exact ih.step hsound hrun

theorem invariant_serves (env : RpcEnv Tx) (genesisHash : Hash)
    (accounts : DagServer Tx → Pubkey → Except String (Option Account)) (p : Params) :
    Session.Invariant (Moves Peer env.txs env.signature) ((host genesisHash accounts).Answers env)
      (fun n => Serves Peer env.txs env.signature p n.1 n.2) where
  moves h run := h.moves run
  answers h answered := by
    cases answered with
    | served run => exact h.submits (RpcServer.handle_submits run)
    | responseLost run => exact h.submits (RpcServer.handle_submits run)
    | requestLost => exact h

end DagServer

section Example

open Dagvm (fundedParams signedTransfer)
open TaoDag.Runtime (Transaction transferEnv)

/-- The transfers of the payer of `signedTransfer`, under its signature. -/
def payerTransfer (payee : Pubkey) (lamports : BitVec 64) (blockhash : Hash) : Transaction :=
  { signedTransfer with
    accountKeys := [0x8a88e3dd7409f195fd52db2d3cba5d72ca6709bf1d94121bf3748801b40f6f5c, payee, 0]
    recentBlockhash := blockhash
    instructions := [⟨2, [0, 1], [2, 0, 0, 0] ++ leBytes 8 lamports.toNat⟩] }

def transferWallet : WalletEnv Transaction where
  toRpcEnv := RpcServer.transferRpc
  text _ := "\x7b\x7d"
  pubkeyError _ := "Invalid Base58 string"

theorem decode_payerTransfer (payee : Pubkey) (lamports : BitVec 64) (blockhash : Hash)
    (raw : Bytes) (h : transferEnv.encodeTx (payerTransfer payee lamports blockhash) = .ok raw) :
    transferEnv.decodeTx raw = .ok (payerTransfer payee lamports blockhash) := by
  cases h
  apply Codec.deserialize_encode
  have hbyte : ∀ b : UInt8, Transaction.byte.Fits b := fun b => rfl
  have hsignatures : (Codec.shortVec (Codec.raw 64)).Fits signedTransfer.signatures := by
    refine ⟨by decide, fun sig hsig => ?_⟩
    obtain rfl := List.mem_singleton.mp hsig
    exact beBytes_length 64 _
  have hinstruction : Transaction.instructionCodec.Fits
      ⟨2, [0, 1], [2, 0, 0, 0] ++ leBytes 8 lamports.toNat⟩ := by
    refine ⟨hbyte _, ⟨(by decide : 2 < 128), fun b _ => hbyte b⟩, ?_, fun b _ => hbyte b⟩
    simp
  refine ⟨hsignatures, hbyte _, hbyte _, hbyte _, ⟨(by decide : 3 < 128), fun _ _ => trivial⟩,
    trivial, (by decide : 1 < 128), fun i hi => ?_⟩
  obtain rfl := List.mem_singleton.mp hi
  exact hinstruction

abbrev transferHost : RpcHost (DagServer Transaction × Lineage Transaction) Transaction :=
  DagServer.host 0 fun _ _ => .ok none

/-- The DAG node takes the transfer over RPC, and mines it. -/
private theorem transfer_mined : ∃ (s₀ s₁ s₂ : DagServer Transaction) (g : Lineage Transaction)
    (sig : Signature), DagServer.Serves Unit transferEnv signatureBytes fundedParams s₀ g ∧
    s₀.shared.slot.toNat + 150 ≤ u64Max ∧ s₀.shared.latestBlockhash = envBlockhash ∧
    signatureBytes signedTransfer = some sig ∧
    s₀.step transferEnv signatureBytes submitTransfer = .ok s₁ ∧
    s₁.Sound transferEnv signatureBytes g mineTransfer ∧
    s₁.step transferEnv signatureBytes mineTransfer = .ok s₂ ∧
    s₂.shared.signatureStatus sig = some none := by
  have hrun : (signatureBytes signedTransfer).any (fun sig =>
      returnsWith (Dagvm.DagChain.openWithGenesis transferEnv fundedParams []) fun o =>
        returnsWith o fun c =>
          returnsWith (DagServer.start transferEnv fundedParams 100 []) fun r =>
            returnsWith r fun s₀ =>
              decide (s₀.shared.slot.toNat + 150 ≤ u64Max ∧
                s₀.shared.latestBlockhash = envBlockhash) &&
              returnsWith (s₀.step transferEnv signatureBytes submitTransfer) fun s₁ =>
                returnsWith (s₁.step transferEnv signatureBytes mineTransfer) fun s₂ =>
                  let g := Lineage.new.virtualState transferEnv (c.setFinalityDepth 100)
                  let txs := (s₁.shared.drainMempool signatureBytes).1
                  decide (s₂.shared.signatureStatus sig = some none ∧ txs = [signedTransfer]) &&
                  returnsWith (s₁.node.chain.mineAt transferEnv none txs 1750000010) fun mined =>
                    mined.2.state.any (fun _ => returnsWith mined.2.totalOrder fun order =>
                      decide (mined.2.executed <+: order)) &&
                    (g.virtualState transferEnv mined.2).state.any fun e =>
                      decide (signatureBytes e.tx = some sig ∧ e.outcome.succeeded = true)) =
      true := by
    decide +kernel
  simp only [returnsWith_iff, Option.any_eq_true, List.any_eq_true, Bool.and_eq_true,
    decide_eq_true_eq] at hrun
  obtain ⟨sig, hsigned, _, hopen, c, rfl, _, hstart, s₀, rfl, ⟨hslot, hlatest⟩, s₁, hsubmit, s₂,
    hmine, ⟨hstatus, htxs⟩, ⟨mined, chain⟩, hmined, ⟨bank, hstate, order, horder, hextends⟩, e, he,
    hsucceeded⟩ := hrun
  refine ⟨s₀, s₁, s₂, _, sig, .start hopen hstart, hslot, hlatest, hsigned, hsubmit, ?_, hmine,
    hstatus⟩
  intro block c₁ hc₁
  cases hmined.symm.trans hc₁
  refine ⟨Or.inl ⟨bank, order, hstate, horder, hextends⟩, fun tx htx other hother => ?_⟩
  rw [htxs] at htx
  obtain rfl := List.mem_singleton.mp htx
  cases hsigned.symm.trans hother
  exact ⟨e, he, hsucceeded⟩

end Example

end TaoDag.Node
