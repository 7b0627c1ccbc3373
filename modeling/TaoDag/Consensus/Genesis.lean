import TaoDag.Consensus.Target
import TaoDag.Framework.Codec

namespace TaoDag.Consensus

/-- Proof-of-work parameters of a network. -/
structure PowParams where
  targetBlockTimeSecs : BitVec 64
  lwmaWindow : BitVec 64
  initialTarget : String
  algorithm : String
  switchHeight : Option (BitVec 64)

/-- Coinbase emission schedule. -/
structure RewardParams where
  initialLamports : BitVec 64
  halvingInterval : BitVec 64

/-- An initial balance. -/
structure Allocation where
  address : String
  lamports : BitVec 64

/-- The model of the matmul puzzle. -/
structure PouwModelParams where
  name : String
  n : BitVec 64
  rank : BitVec 64
  tiles : BitVec 64
  weightSeed : String
  modelId : Option String

/-- The genesis configuration that the nodes of a network share. -/
structure GenesisConfig where
  network : String
  creationTime : BitVec 64
  pow : PowParams
  reward : RewardParams
  allocations : List Allocation
  pouw : Option PouwModelParams

def PowParams.codec : Codec PowParams :=
  Codec.via
    (Codec.u64.seq <| Codec.u64.seq <| Codec.string.seq <| Codec.string.seq Codec.u64.option)
    (fun p => (p.targetBlockTimeSecs, p.lwmaWindow, p.initialTarget, p.algorithm, p.switchHeight))
    (fun (targetBlockTimeSecs, lwmaWindow, initialTarget, algorithm, switchHeight) =>
      { targetBlockTimeSecs, lwmaWindow, initialTarget, algorithm, switchHeight })
    (fun _ => rfl)

def RewardParams.codec : Codec RewardParams :=
  Codec.via (Codec.u64.seq Codec.u64) (fun r => (r.initialLamports, r.halvingInterval))
    (fun (initialLamports, halvingInterval) => { initialLamports, halvingInterval }) (fun _ => rfl)

def Allocation.codec : Codec Allocation :=
  Codec.via (Codec.string.seq Codec.u64) (fun a => (a.address, a.lamports))
    (fun (address, lamports) => { address, lamports }) (fun _ => rfl)

def PouwModelParams.codec : Codec PouwModelParams :=
  Codec.via
    (Codec.string.seq <| Codec.u64.seq <| Codec.u64.seq <| Codec.u64.seq <| Codec.string.seq
      Codec.string.option)
    (fun m => (m.name, m.n, m.rank, m.tiles, m.weightSeed, m.modelId))
    (fun (name, n, rank, tiles, weightSeed, modelId) => { name, n, rank, tiles, weightSeed, modelId })
    (fun _ => rfl)

namespace GenesisConfig

def codec : Codec GenesisConfig :=
  Codec.via
    (Codec.string.seq <| Codec.u64.seq <| PowParams.codec.seq <| RewardParams.codec.seq <|
      (Codec.vec Allocation.codec).seq PouwModelParams.codec.option)
    (fun g => (g.network, g.creationTime, g.pow, g.reward, g.allocations, g.pouw))
    (fun (network, creationTime, pow, reward, allocations, pouw) =>
      { network, creationTime, pow, reward, allocations, pouw })
    (fun _ => rfl)

/-- Every string and list of the configuration fits in memory. -/
def Fits (g : GenesisConfig) : Prop := codec.Fits g

/-- The hash of the whole configuration. -/
def commitment (blake3 : Bytes → Bytes32) (g : GenesisConfig) : Bytes32 := blake3 (codec.encode g)

/-- The commitment determines the configuration, down to its last parameter. -/
theorem commitment_inj {blake3 : Bytes → Bytes32} {g g' : GenesisConfig} (hg : g.Fits)
    (hg' : g'.Fits) (hfree : Set.InjOn blake3 {codec.encode g, codec.encode g'})
    (h : g.commitment blake3 = g'.commitment blake3) : g = g' :=
  codec.encode_inj hg hg' (hfree (by simp) (by simp) h)

end GenesisConfig

/-- Parses a target of 64 hex digits; `hexDecode` is the decoder of the hex crate. -/
def parseTarget (hexDecode : String → Except String Bytes) (hexStr : String) :
    Except String Target :=
  match hexDecode hexStr with
  | .error e => .error ("invalid target hex: " ++ e)
  | .ok bytes =>
      if bytes.length = 32 then .ok (BitVec.ofNat 256 (ofBE bytes))
      else .error ("target must be 32 bytes, got " ++ toString bytes.length)

end TaoDag.Consensus
