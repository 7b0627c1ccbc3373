import TaoDag.Runtime.Bank

namespace TaoDag.Dagvm

open Consensus (Pubkey DagBlockHeader DagBlock Target)
open Database (Account)

/-- A durable log record: a block, or the leading snapshot that a prune writes. -/
inductive LogRecord where
  | block (block : DagBlock)
  | snapshot (originHeader : DagBlockHeader) (accounts : List (Pubkey × Account))
      (proof : List DagBlockHeader)
  deriving DecidableEq

def accountsCodec : Codec (List (Pubkey × Account)) := Codec.vec (Codec.bytes32.seq Account.codec)

namespace LogRecord

def codec : Codec LogRecord :=
  Codec.via
    (DagBlock.codec.variants
      (DagBlockHeader.codec.seq (accountsCodec.seq (Codec.vec DagBlockHeader.codec))))
    (fun r => match r with
      | .block b => .inl b
      | .snapshot originHeader accounts proof => .inr (originHeader, accounts, proof))
    (fun r => match r with
      | .inl b => .block b
      | .inr (originHeader, accounts, proof) => .snapshot originHeader accounts proof)
    (fun r => by cases r <;> rfl)

def serialize (r : LogRecord) : Bytes := codec.encode r

theorem deserialize_block {b : DagBlock} (h : b.Fits) :
    codec.deserialize (LogRecord.block b).serialize = .ok (.block b) :=
  codec.deserialize_encode (DagBlock.codec_fits h)

end LogRecord

/-- The header format before `state_root` and `interlink`. -/
structure LegacyDagBlockHeader where
  version : BitVec 32
  parents : List Hash
  timestamp : BitVec 64
  txMerkleRoot : Bytes32
  target : Target
  nonce : BitVec 64
  miner : Pubkey

def LegacyDagBlockHeader.codec : Codec LegacyDagBlockHeader :=
  Codec.via
    (Codec.u32.seq <| (Codec.vec .bytes32).seq <| Codec.u64.seq <| Codec.bytes32.seq <|
      Codec.bytes32.seq <| Codec.u64.seq Codec.bytes32)
    (fun h => (h.version, h.parents, h.timestamp, h.txMerkleRoot, h.target, h.nonce, h.miner))
    (fun (version, parents, timestamp, txMerkleRoot, target, nonce, miner) =>
      { version, parents, timestamp, txMerkleRoot, target, nonce, miner })
    (fun _ => rfl)

structure LegacyDagBlock where
  header : LegacyDagBlockHeader
  transactions : List Bytes

def LegacyDagBlock.codec : Codec LegacyDagBlock :=
  Codec.via (LegacyDagBlockHeader.codec.seq (Codec.vec .byteVec))
    (fun b => (b.header, b.transactions)) (fun (header, transactions) => { header, transactions })
    (fun _ => rfl)

/-- `LegacyLogRecord`, whose only variant is a block. -/
def legacyLogRecordCodec : Codec LegacyDagBlock := LegacyDagBlock.codec.variant

def legacyBlockId (blake3 : Bytes → Hash) (header : LegacyDagBlockHeader) : Hash :=
  blake3 (LegacyDagBlockHeader.codec.encode header)

/-- A legacy block in the current format; its two missing fields are empty. -/
def LegacyDagBlock.migrate (b : LegacyDagBlock) : DagBlock where
  header :=
    { version := b.header.version
      parents := b.header.parents
      timestamp := b.header.timestamp
      txMerkleRoot := b.header.txMerkleRoot
      stateRoot := 0
      target := b.header.target
      interlink := []
      nonce := b.header.nonce
      miner := b.header.miner }
  transactions := b.transactions

/-- Bootstrap payload of a pruned node: the pruning point with its account set and proof,
and the kept suffix. -/
structure SyncSnapshot where
  originHeader : DagBlockHeader
  accounts : List (Pubkey × Account)
  suffix : List DagBlock
  proof : List DagBlockHeader

def SyncSnapshot.codec : Codec SyncSnapshot :=
  Codec.via
    (DagBlockHeader.codec.seq <| accountsCodec.seq <| (Codec.vec DagBlock.codec).seq <|
      Codec.vec DagBlockHeader.codec)
    (fun s => (s.originHeader, s.accounts, s.suffix, s.proof))
    (fun (originHeader, accounts, suffix, proof) => { originHeader, accounts, suffix, proof })
    (fun _ => rfl)

/-- The steps of `verify_proof` after the first header. -/
def verifyProofFrom (blake3 : Bytes → Hash) :
    Hash → Nat → List DagBlockHeader → Except String Nat
  | _, work, [] => .ok work
  | prev, work, h :: rest =>
      if ¬Consensus.meetsTarget (h.id blake3) h.target then
        .error "invalid proof-of-work in proof"
      else if h.interlink.getLast? ≠ some prev then .error "proof not interlink-connected"
      else
        verifyProofFrom blake3 (h.id blake3)
          (min (work + Consensus.workForTarget h.target) Consensus.u256Max) rest

/-- Verifies an interlink-connected header chain from genesis to `origin`, and returns its
accumulated work. -/
def verifyProof (blake3 : Bytes → Hash) (proof : List DagBlockHeader) (origin genesisId : Hash) :
    Except String Nat :=
  match proof with
  | [] => .error "empty proof"
  | first :: rest =>
      if first.id blake3 ≠ genesisId then .error "proof not anchored at genesis"
      else if ((first :: rest).getLast (by simp)).id blake3 ≠ origin then
        .error "proof does not end at the claimed origin"
      else verifyProofFrom blake3 (first.id blake3) (Consensus.workForTarget first.target) rest

end TaoDag.Dagvm
