import Mathlib.Data.List.AList
import TaoDag.Consensus.Target
import TaoDag.Framework.PairTree
import TaoDag.Pouw.Gemm

namespace TaoDag.Pouw

open Consensus (Target meetsTarget)

/-- A Merkle inclusion proof: sibling hashes bottom-up, and the leaf index. -/
structure MerkleProof where
  index : Nat
  siblings : List Hash
  deriving DecidableEq

section Merkle

variable (blake3 : Bytes → Hash)

def text (s : String) : Bytes := s.toUTF8.toList

/-- The byte string of a tile. -/
def tileBytes (tile : List I64) : Bytes := text "tao-tile" ++ entryBytes tile

def tileLeaf (tile : List I64) : Hash := blake3 (tileBytes tile)

/-- The byte string of an inner node. -/
def nodeBytes (l r : Hash) : Bytes := Codec.bytes32.encode l ++ Codec.bytes32.encode r

def nodeHash (l r : Hash) : Hash := blake3 (nodeBytes l r)

/-- Doubles `p` until it reaches `n`. -/
def nextPow2From (n : Nat) : Nat → Nat → Nat
  | 0, p => p
  | fuel+1, p => if p < n then nextPow2From n fuel (p * 2) else p

def nextPow2 (n : Nat) : Nat := nextPow2From n n 1

def emptyTile : Bytes := text "tao-empty-tile"

/-- Pads the leaves to a power of two with the empty leaf. -/
def paddedLeaves (leaves : List Hash) : List Hash :=
  leaves ++ List.replicate (nextPow2 (max leaves.length 1) - leaves.length) (blake3 emptyTile)

/-- One level up, by chunks of two. -/
def hashChunks : List Hash → Result (List Hash)
  | a :: b :: rest => do return nodeHash blake3 a b :: (← hashChunks rest)
  | [_] => .error (.panic "index out of bounds")
  | [] => return []

def merkleRootLoop : Nat → List Hash → Result Hash
  | 0, _ => .error .diverge
  | fuel+1, level => do
      if 1 < level.length then merkleRootLoop fuel (← hashChunks blake3 level)
      else index level 0

def merkleRoot (leaves : List Hash) : Result Hash :=
  merkleRootLoop blake3 (leaves.length + 1) leaves

def merkleProofLoop : Nat → List Hash → Nat → Result (List Hash)
  | 0, _, _ => .error .diverge
  | fuel+1, level, idx => do
      if 1 < level.length then
        let sibling ← index level (idx ^^^ 1)
        return sibling :: (← merkleProofLoop fuel (← hashChunks blake3 level) (idx / 2))
      else return []

def merkleProof (leaves : List Hash) (index : Nat) : Result MerkleProof := do
  return ⟨index, ← merkleProofLoop blake3 (leaves.length + 1) leaves index⟩

def merkleVerify (root leaf : Hash) (proof : MerkleProof) : Bool :=
  decide (PairTree.walk (nodeHash blake3) proof.index leaf proof.siblings = root)

end Merkle

/-- Identifies a model; commits to its weights. -/
abbrev ModelId := Hash

/-- A registered model: its weight Merkle root and dimensions. -/
structure RegisteredModel where
  name : String
  n : Nat
  weightRoot : Hash
  numTiles : Nat
  paddedLeaves : List Hash

/-- Registry of models by id. -/
structure ModelRegistry where
  models : AList (fun _ : ModelId => RegisteredModel)

namespace ModelRegistry

def new : ModelRegistry := ⟨∅⟩

/-- The record of a model with these weight tiles, each an `n × n` matrix, and its id. -/
def record (blake3 : Bytes → Hash) (name : String) (n : Nat) (tiles : List (List I64)) :
    Result (ModelId × RegisteredModel) := do
  assert (tiles ≠ [] ∧ ∀ t ∈ tiles, t.length = n * n) "assertion failed"
  let leaves := paddedLeaves blake3 (tiles.map (tileLeaf blake3))
  let weightRoot ← merkleRoot blake3 leaves
  let id := blake3 (text "tao-model" ++ name.toUTF8.toList ++ leBytes 8 n ++
    Codec.bytes32.encode weightRoot)
  return (id, ⟨name, n, weightRoot, tiles.length, leaves⟩)

def register (blake3 : Bytes → Hash) (registry : ModelRegistry) (name : String) (n : Nat)
    (tiles : List (List I64)) : Result (ModelId × ModelRegistry) := do
  let (id, model) ← record blake3 name n tiles
  return (id, ⟨registry.models.insert id model⟩)

def get (registry : ModelRegistry) (id : ModelId) : Option RegisteredModel :=
  registry.models.lookup id

/-- The Merkle proof of a tile of a registered model. -/
def tileProof (blake3 : Bytes → Hash) (registry : ModelRegistry) (id : ModelId) (index : Nat) :
    Result (Option MerkleProof) :=
  match registry.get id with
  | none => return none
  | some m => do return some (← merkleProof blake3 m.paddedLeaves index)

end ModelRegistry

/-- A request to apply a tile of a model to an input. -/
structure WorkItem where
  modelId : ModelId
  tileIndex : Nat
  input : List I64

def WorkItem.commitment (blake3 : Bytes → Hash) (work : WorkItem) : Hash :=
  blake3 (text "tao-work" ++ Codec.bytes32.encode work.modelId ++ leBytes 8 work.tileIndex ++
    Codec.bytes32.encode (tileLeaf blake3 work.input))

/-- A mined solution. -/
structure BoundSolution where
  workCommitment : Hash
  weightTile : List I64
  weightProof : MerkleProof
  input : List I64
  nonce : BitVec 64

/-- Why a solution was rejected. -/
inductive GateError where
  | unknownModel
  | workMismatch
  | inputMismatch
  | forgedWeights
  | powNotMet
  deriving DecidableEq

structure UtilityGate where
  rank : Nat

namespace UtilityGate

def noiseSeed (blake3 : Bytes → Hash) (workCommitment : Hash) (nonce : BitVec 64) : Hash :=
  blake3 (text "tao-noise" ++ Codec.bytes32.encode workCommitment ++ Codec.u64.encode nonce)

/-- The hash of the noised product of a solution. -/
def transcript (hash : Hashing) (gate : UtilityGate) (n : Nat) (sol : BoundSolution) :
    Result Hash :=
  noisyProductTranscript hash sol.weightTile sol.input n gate.rank
    (noiseSeed hash.blake3 sol.workCommitment sol.nonce)

/-- Verifies a solution against the registry, the work item and the target. -/
def verify (hash : Hashing) (gate : UtilityGate) (registry : ModelRegistry) (work : WorkItem)
    (target : Target) (sol : BoundSolution) : Result (Except GateError Unit) :=
  match registry.get work.modelId with
  | none => return .error .unknownModel
  | some model =>
      if sol.workCommitment ≠ work.commitment hash.blake3 then return .error .workMismatch
      else if sol.input ≠ work.input then return .error .inputMismatch
      else if sol.weightProof.index ≠ work.tileIndex then return .error .forgedWeights
      else if merkleVerify hash.blake3 model.weightRoot (tileLeaf hash.blake3 sol.weightTile)
          sol.weightProof = false then return .error .forgedWeights
      else do
        let h ← gate.transcript hash model.n sol
        if meetsTarget h target then return .ok () else return .error .powNotMet

/-- The real product of the tile and the input. -/
def usefulOutput (sol : BoundSolution) (n : Nat) : Result (List I64) :=
  matmul sol.weightTile sol.input n

/-- Grinds the nonces from this one on, of which so many remain. -/
def solveLoop (hash : Hashing) (gate : UtilityGate) (n : Nat) (target : Target)
    (attempt : BitVec 64 → BoundSolution) : Nat → BitVec 64 → Result BoundSolution
  | 0, _ => .error (.panic "attempt to add with overflow")
  | remaining+1, nonce => do
      let h ← gate.transcript hash n (attempt nonce)
      if meetsTarget h target then return attempt nonce
      else solveLoop hash gate n target attempt remaining (nonce + 1)

/-- Mines a solution with this tile and its proof. -/
def solve (hash : Hashing) (gate : UtilityGate) (n : Nat) (work : WorkItem) (target : Target)
    (weightTile : List I64) (weightProof : MerkleProof) : Result BoundSolution :=
  solveLoop hash gate n target (fun nonce =>
    ⟨work.commitment hash.blake3, weightTile, weightProof, work.input, nonce⟩) (2^64) 0

end UtilityGate

end TaoDag.Pouw
