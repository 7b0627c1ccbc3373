import TaoDag.Consensus.Target
import TaoDag.Framework.Codec

namespace TaoDag.Consensus

abbrev BlockId := Bytes32

abbrev Pubkey := Bytes32

def headerVersion : BitVec 32 := 1

/-- Block header of the linear chain. -/
structure BlockHeader where
  version : BitVec 32
  prevHash : BlockId
  height : BitVec 64
  timestamp : BitVec 64
  txMerkleRoot : Bytes32
  stateRoot : Bytes32
  target : Target
  nonce : BitVec 64
  miner : Pubkey
  deriving DecidableEq

namespace BlockHeader

def codec : Codec BlockHeader :=
  Codec.via
    (Codec.u32.seq <| Codec.bytes32.seq <| Codec.u64.seq <| Codec.u64.seq <| Codec.bytes32.seq <|
      Codec.bytes32.seq <| Codec.bytes32.seq <| Codec.u64.seq Codec.bytes32)
    (fun h => (h.version, h.prevHash, h.height, h.timestamp, h.txMerkleRoot, h.stateRoot, h.target,
      h.nonce, h.miner))
    (fun (version, prevHash, height, timestamp, txMerkleRoot, stateRoot, target, nonce, miner) =>
      { version, prevHash, height, timestamp, txMerkleRoot, stateRoot, target, nonce, miner })
    (fun _ => rfl)

def serialize (h : BlockHeader) : Bytes := codec.encode h

/-- The block id. -/
def id (blake3 : Bytes → Hash) (h : BlockHeader) : BlockId := blake3 h.serialize

def isGenesis (h : BlockHeader) : Bool := h.height == 0 && h.prevHash == 0

theorem codec_fits (h : BlockHeader) : codec.Fits h :=
  ⟨trivial, trivial, trivial, trivial, trivial, trivial, trivial, trivial, trivial⟩

theorem encode_length (h : BlockHeader) : (codec.encode h).length = 188 := by
  change (Codec.u32.encode _ ++ (Codec.bytes32.encode _ ++ (Codec.u64.encode _ ++
    (Codec.u64.encode _ ++ (Codec.bytes32.encode _ ++ (Codec.bytes32.encode _ ++
    (Codec.bytes32.encode _ ++ (Codec.u64.encode _ ++ Codec.bytes32.encode _)))))))).length = _
  simp only [List.length_append]
  rfl

end BlockHeader

/-- A block of the linear chain: a header and serialized transactions. -/
structure Block where
  header : BlockHeader
  transactions : List Bytes
  deriving DecidableEq

namespace Block

def id (blake3 : Bytes → Hash) (b : Block) : BlockId := b.header.id blake3

def codec : Codec Block :=
  Codec.via (BlockHeader.codec.seq (Codec.vec .byteVec)) (fun b => (b.header, b.transactions))
    (fun (header, transactions) => { header, transactions }) (fun _ => rfl)

/-- A block whose lists have a `u64` length. -/
structure Fits (b : Block) : Prop where
  count : b.transactions.length < 2^64
  size : ∀ t ∈ b.transactions, t.length < 2^64

theorem codec_fits {b : Block} (hf : b.Fits) : codec.Fits b :=
  ⟨b.header.codec_fits, hf.count, hf.size⟩

theorem encode_length (b : Block) : (codec.encode b).length =
    196 + (b.transactions.flatMap Codec.byteVec.encode).length := by
  change (BlockHeader.codec.encode b.header ++
    (Codec.u64.encode _ ++ b.transactions.flatMap Codec.byteVec.encode)).length = _
  rw [List.length_append, List.length_append, BlockHeader.encode_length, ← Nat.add_assoc]
  rfl

/-- The lists of a block are no longer than its encoding. -/
theorem fits_of_length {b : Block} (h : (codec.encode b).length < 2^64) : b.Fits := by
  rw [encode_length] at h
  have hitem : ∀ t : Bytes, (Codec.byteVec.encode t).length = t.length + 8 := by
    intro t
    change (Codec.u64.encode _ ++ t).length = _
    rw [List.length_append, Nat.add_comm]
    rfl
  have hlist : ∀ ts : List Bytes, ts.length ≤ (ts.flatMap Codec.byteVec.encode).length ∧
      ∀ t ∈ ts, t.length ≤ (ts.flatMap Codec.byteVec.encode).length := by
    intro ts
    induction ts with
    | nil => simp
    | cons t ts ih =>
      rw [List.flatMap_cons, List.length_append, hitem, List.length_cons]
      refine ⟨by omega, fun q hq => ?_⟩
      rcases List.mem_cons.mp hq with rfl | hq
      · omega
      · have := ih.2 q hq
        omega
  obtain ⟨hcount, hsize⟩ := hlist b.transactions
  refine ⟨by omega, fun t ht => ?_⟩
  have := hsize t ht
  omega

end Block

/-- Block header of the DAG: PoW and the block id cover its bincode bytes. -/
structure DagBlockHeader where
  version : BitVec 32
  parents : List BlockId
  timestamp : BitVec 64
  txMerkleRoot : Bytes32
  stateRoot : Bytes32
  target : Target
  interlink : List BlockId
  nonce : BitVec 64
  miner : Pubkey
  deriving DecidableEq

namespace DagBlockHeader

def codec : Codec DagBlockHeader :=
  Codec.via
    (Codec.u32.seq <| (Codec.vec .bytes32).seq <| Codec.u64.seq <| Codec.bytes32.seq <|
      Codec.bytes32.seq <| Codec.bytes32.seq <| (Codec.vec .bytes32).seq <|
      Codec.u64.seq Codec.bytes32)
    (fun h => (h.version, h.parents, h.timestamp, h.txMerkleRoot, h.stateRoot, h.target,
      h.interlink, h.nonce, h.miner))
    (fun (version, parents, timestamp, txMerkleRoot, stateRoot, target, interlink, nonce,
        miner) =>
      { version, parents, timestamp, txMerkleRoot, stateRoot, target, interlink, nonce, miner })
    (fun _ => rfl)

def serialize (h : DagBlockHeader) : Bytes := codec.encode h

/-- The block id, which is also the PoW hash. -/
def id (blake3 : Bytes → Hash) (h : DagBlockHeader) : BlockId := blake3 h.serialize

/-- A header that fits in memory: its two lists have a `u64` length. -/
def Fits (h : DagBlockHeader) : Prop := h.parents.length < 2^64 ∧ h.interlink.length < 2^64

theorem codec_fits {h : DagBlockHeader} (hf : h.Fits) : codec.Fits h := by
  have all32 : ∀ l : List BlockId, ∀ a ∈ l, Codec.bytes32.Fits a := fun _ _ _ => trivial
  exact ⟨trivial, ⟨hf.1, all32 _⟩, trivial, trivial, trivial, trivial, ⟨hf.2, all32 _⟩,
    trivial, trivial⟩

theorem serialize_inj {h h' : DagBlockHeader} (hf : h.Fits) (hf' : h'.Fits)
    (he : h.serialize = h'.serialize) : h = h' :=
  codec.encode_inj (codec_fits hf) (codec_fits hf') he

end DagBlockHeader

/-- A block: a header and serialized transactions. -/
structure DagBlock where
  header : DagBlockHeader
  transactions : List Bytes
  deriving DecidableEq

namespace DagBlock

def id (blake3 : Bytes → Hash) (b : DagBlock) : BlockId := b.header.id blake3

def codec : Codec DagBlock :=
  Codec.via (DagBlockHeader.codec.seq (Codec.vec .byteVec)) (fun b => (b.header, b.transactions))
    (fun (header, transactions) => { header, transactions }) (fun _ => rfl)

/-- A block whose lists have a `u64` length. -/
structure Fits (b : DagBlock) : Prop where
  header : b.header.Fits
  count : b.transactions.length < 2^64
  size : ∀ t ∈ b.transactions, t.length < 2^64

theorem codec_fits {b : DagBlock} (hf : b.Fits) : codec.Fits b :=
  ⟨DagBlockHeader.codec_fits hf.header, hf.count, hf.size⟩

end DagBlock

/-- The block format before `state_root` and `interlink`. -/
structure LegacyDagBlockV1 where
  version : BitVec 32
  parents : List BlockId
  timestamp : BitVec 64
  txMerkleRoot : Bytes32
  target : Target
  nonce : BitVec 64
  miner : Pubkey
  transactions : List Bytes

namespace LegacyDagBlockV1

def codec : Codec LegacyDagBlockV1 :=
  Codec.via
    (Codec.u32.seq <| (Codec.vec .bytes32).seq <| Codec.u64.seq <| Codec.bytes32.seq <|
      Codec.bytes32.seq <| Codec.u64.seq <| Codec.bytes32.seq (Codec.vec .byteVec))
    (fun b => (b.version, b.parents, b.timestamp, b.txMerkleRoot, b.target, b.nonce, b.miner,
      b.transactions))
    (fun (version, parents, timestamp, txMerkleRoot, target, nonce, miner, transactions) =>
      { version, parents, timestamp, txMerkleRoot, target, nonce, miner, transactions })
    (fun _ => rfl)

/-- In the current format; the two missing fields are empty. -/
def into (b : LegacyDagBlockV1) : DagBlock where
  header :=
    { version := b.version
      parents := b.parents
      timestamp := b.timestamp
      txMerkleRoot := b.txMerkleRoot
      stateRoot := 0
      target := b.target
      interlink := []
      nonce := b.nonce
      miner := b.miner }
  transactions := b.transactions

end LegacyDagBlockV1

/-- The block format before `interlink`. -/
structure LegacyDagBlockV2 where
  version : BitVec 32
  parents : List BlockId
  timestamp : BitVec 64
  txMerkleRoot : Bytes32
  stateRoot : Bytes32
  target : Target
  nonce : BitVec 64
  miner : Pubkey
  transactions : List Bytes

namespace LegacyDagBlockV2

def codec : Codec LegacyDagBlockV2 :=
  Codec.via
    (Codec.u32.seq <| (Codec.vec .bytes32).seq <| Codec.u64.seq <| Codec.bytes32.seq <|
      Codec.bytes32.seq <| Codec.bytes32.seq <| Codec.u64.seq <| Codec.bytes32.seq
      (Codec.vec .byteVec))
    (fun b => (b.version, b.parents, b.timestamp, b.txMerkleRoot, b.stateRoot, b.target, b.nonce,
      b.miner, b.transactions))
    (fun (version, parents, timestamp, txMerkleRoot, stateRoot, target, nonce, miner,
        transactions) =>
      { version, parents, timestamp, txMerkleRoot, stateRoot, target, nonce, miner, transactions })
    (fun _ => rfl)

/-- In the current format; the missing interlink is empty. -/
def into (b : LegacyDagBlockV2) : DagBlock where
  header :=
    { version := b.version
      parents := b.parents
      timestamp := b.timestamp
      txMerkleRoot := b.txMerkleRoot
      stateRoot := b.stateRoot
      target := b.target
      interlink := []
      nonce := b.nonce
      miner := b.miner }
  transactions := b.transactions

end LegacyDagBlockV2

/-- Decodes a block in the current format or one of the two before it. -/
def DagBlock.fromBytes (bytes : Bytes) : Except String DagBlock :=
  match DagBlock.codec.deserialize bytes with
  | .ok block => .ok block
  | .error e =>
      match LegacyDagBlockV2.codec.deserialize bytes with
      | .ok block => .ok block.into
      | .error _ =>
          match LegacyDagBlockV1.codec.deserialize bytes with
          | .ok block => .ok block.into
          | .error _ => .error e

theorem DagBlock.fromBytes_encode {b : DagBlock} (hf : b.Fits) :
    DagBlock.fromBytes (DagBlock.codec.encode b) = .ok b := by
  rw [DagBlock.fromBytes, DagBlock.codec.deserialize_encode (DagBlock.codec_fits hf)]

/-- An odd level repeats its last node. -/
def padOdd (level : List Hash) : List Hash :=
  if level.length % 2 = 1 then level ++ level.getLast?.toList else level

/-- `chunks_exact(2)`, each pair hashed. -/
def hashPairs (blake3 : Bytes → Hash) : List Hash → List Hash
  | l :: r :: rest =>
      blake3 (Codec.bytes32.encode l ++ Codec.bytes32.encode r) :: hashPairs blake3 rest
  | _ => []

/-- The loop `while level.len() > 1`; a level at least halves, so its length bounds it. -/
def merkleLoop (blake3 : Bytes → Hash) : Nat → List Hash → List Hash
  | 0, level => level
  | fuel+1, level =>
      if 1 < level.length then merkleLoop blake3 fuel (hashPairs blake3 (padOdd level)) else level

/-- Merkle root over serialized transactions; the empty list has the zero root. -/
def txMerkleRoot (blake3 : Bytes → Hash) (transactions : List Bytes) : Hash :=
  if transactions.isEmpty then 0
  else (merkleLoop blake3 transactions.length (transactions.map blake3)).headD 0

end TaoDag.Consensus
