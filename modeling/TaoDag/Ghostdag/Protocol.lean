import TaoDag.Core.Machine
import Mathlib.Data.List.Sort

namespace TaoDag.Ghostdag

/-- Largest value of `KType`, a `u16`. -/
def kTypeMax : Nat := 2^16 - 1

/-- Largest value of `BlueWork`, a `u128`. -/
def blueWorkMax : Nat := 2^128 - 1

/-- A block sortable by blue work, then by hash. -/
structure SortableBlock where
  hash : Hash
  blueWork : Nat
  deriving DecidableEq

namespace SortableBlock

/-- `self <= other` of the source's `Ord`. -/
def le (a b : SortableBlock) : Prop :=
  a.blueWork < b.blueWork ∨ (a.blueWork = b.blueWork ∧ a.hash.toNat ≤ b.hash.toNat)

instance : DecidableRel le := fun a b =>
  inferInstanceAs
    (Decidable (a.blueWork < b.blueWork ∨ (a.blueWork = b.blueWork ∧ a.hash.toNat ≤ b.hash.toNat)))

end SortableBlock

structure GhostdagData where
  blueScore : Nat
  blueWork : Nat
  selectedParent : Hash
  mergesetBlues : List Hash
  mergesetReds : List Hash
  bluesAnticoneSizes : BlockHashMap Nat

namespace GhostdagData

def newWithSelectedParent (selectedParent : Hash) (k : Nat) : Result GhostdagData := do
  -- The capacity hint `k + 1` is computed in `u16`.
  let _ ← addUpTo kTypeMax k 1
  return ⟨0, 0, selectedParent, [selectedParent], [], AList.singleton selectedParent 0⟩

/-- The mergeset without the selected parent, blues before reds. -/
def unorderedMergesetWithoutSelectedParent (d : GhostdagData) : List Hash :=
  d.mergesetBlues.drop 1 ++ d.mergesetReds

def bumpSizes : BlockHashMap Nat → List ((_ : Hash) × Nat) → Result (BlockHashMap Nat)
  | sizes, [] => .ok sizes
  | sizes, ⟨blue, size⟩ :: rest => do bumpSizes (sizes.insert blue (← addUpTo kTypeMax size 1)) rest

def addBlue (d : GhostdagData) (block : Hash) (blueAnticoneSize : Nat)
    (blockBluesAnticoneSizes : BlockHashMap Nat) : Result GhostdagData := do
  let sizes ← bumpSizes (d.bluesAnticoneSizes.insert block blueAnticoneSize)
    blockBluesAnticoneSizes.entries
  return { d with mergesetBlues := d.mergesetBlues ++ [block], bluesAnticoneSizes := sizes }

def addRed (d : GhostdagData) (block : Hash) : GhostdagData :=
  { d with mergesetReds := d.mergesetReds ++ [block] }

def finalizeScoreAndWork (d : GhostdagData) (blueScore blueWork : Nat) : GhostdagData :=
  { d with blueScore, blueWork }

end GhostdagData

inductive ColoringState where
  | blue
  | red
  | pending
  deriving DecidableEq

inductive ColoringOutput where
  | blue (blueAnticoneSize : Nat) (bluesAnticoneSizes : BlockHashMap Nat)
  | red

/-- The protocol over its stores and the reachability service, each seen through its
queries. `bound` is the number of stored blocks, which bounds every walk. -/
structure GhostdagManager where
  genesisHash : Hash
  k : Nat
  getData : Hash → Result GhostdagData
  getParents : Hash → Result (List Hash)
  isDagAncestorOf : Hash → Hash → Result Bool
  getWork : Hash → Nat
  bound : Nat

namespace GhostdagManager

def originGhostdagData : GhostdagData := ⟨0, 0, blockhash.none, [], [], ∅⟩

def getBlueWork (m : GhostdagManager) (h : Hash) : Result Nat := do
  return (← unwrap (m.getData h)).blueWork

def sortable (m : GhostdagManager) (h : Hash) : Result SortableBlock := do
  return ⟨h, ← m.getBlueWork h⟩

/-- `Iterator::max`: the last of the greatest elements. -/
def maxSortable : SortableBlock → List SortableBlock → SortableBlock
  | best, [] => best
  | best, b :: rest => maxSortable (if best.le b then b else best) rest

def findSelectedParent (m : GhostdagManager) (parents : List Hash) : Result Hash := do
  match ← parents.mapM m.sortable with
  | [] => .error (.panic "called `Option::unwrap()` on a `None` value")
  | b :: rest => return (maxSortable b rest).hash

/-- One pass over the parents of a dequeued block. -/
def visitParents (m : GhostdagManager) (selectedParent : Hash) :
    List Hash → List Hash → List Hash → List Hash → Result (List Hash × List Hash × List Hash)
  | [], queue, mergeset, past => .ok (queue, mergeset, past)
  | parent :: rest, queue, mergeset, past =>
      if parent ∈ mergeset ∨ parent ∈ past then
        visitParents m selectedParent rest queue mergeset past
      else do
        if ← m.isDagAncestorOf parent selectedParent then
          visitParents m selectedParent rest queue mergeset (past ++ [parent])
        else
          visitParents m selectedParent rest (queue ++ [parent]) (mergeset ++ [parent]) past

def mergesetLoop (m : GhostdagManager) (selectedParent : Hash) :
    Nat → List Hash → List Hash → List Hash → Result (List Hash)
  | 0, _, _, _ => .error .diverge
  | _+1, [], mergeset, _ => .ok mergeset
  | fuel+1, current :: queue, mergeset, past => do
      let currentParents ← unwrap (m.getParents current)
      let (queue, mergeset, past) ← m.visitParents selectedParent currentParents queue mergeset past
      mergesetLoop m selectedParent fuel queue mergeset past

/-- The blocks reached from the other parents outside the past of the selected parent. The
search does not test the parents it starts from. -/
def unorderedMergesetWithoutSelectedParent (m : GhostdagManager) (selectedParent : Hash)
    (parents : List Hash) : Result (List Hash) :=
  let queue := parents.filter (· ≠ selectedParent)
  m.mergesetLoop selectedParent (parents.length + m.bound + 1) queue queue.dedup []

def sortBlocks (m : GhostdagManager) (blocks : List Hash) : Result (List Hash) := do
  return ((← blocks.mapM m.sortable).insertionSort SortableBlock.le).map (·.hash)

def orderedMergesetWithoutSelectedParent (m : GhostdagManager) (selectedParent : Hash)
    (parents : List Hash) : Result (List Hash) := do
  m.sortBlocks (← m.unorderedMergesetWithoutSelectedParent selectedParent parents)

def blueAnticoneSizeLoop (m : GhostdagManager) (block : Hash) :
    Nat → BlockHashMap Nat → Hash → Result Nat
  | 0, _, _ => .error .diverge
  | fuel+1, currentBluesAnticoneSizes, currentSelectedParent =>
      match currentBluesAnticoneSizes.lookup block with
      | some size => .ok size
      | none =>
          if currentSelectedParent = m.genesisHash ∨ currentSelectedParent = blockhash.origin then
            .error (.panic "block is not in blue set of the given context")
          else do
            let data ← unwrap (m.getData currentSelectedParent)
            blueAnticoneSizeLoop m block fuel data.bluesAnticoneSizes data.selectedParent

/-- Blue anticone size of `block` from the worldview of `context`. -/
def blueAnticoneSize (m : GhostdagManager) (block : Hash) (context : GhostdagData) : Result Nat :=
  m.blueAnticoneSizeLoop block (m.bound + 1) context.bluesAnticoneSizes context.selectedParent

/-- The candidate's blue anticone met so far: the sizes of its members, and their number. -/
structure Candidate where
  bluesAnticoneSizes : BlockHashMap Nat
  blueAnticoneSize : Nat

def checkPeers (m : GhostdagManager) (newBlockData : GhostdagData) (blueCandidate : Hash) :
    List Hash → Candidate → Result (ColoringState × Candidate)
  | [], c => .ok (.pending, c)
  | peer :: rest, c => do
      if ← m.isDagAncestorOf peer blueCandidate then
        checkPeers m newBlockData blueCandidate rest c
      else
        let peerBlueAnticoneSize ← m.blueAnticoneSize peer newBlockData
        let c : Candidate :=
          ⟨c.bluesAnticoneSizes.insert peer peerBlueAnticoneSize,
            ← addUpTo kTypeMax c.blueAnticoneSize 1⟩
        if m.k < c.blueAnticoneSize then return (.red, c)
        else if peerBlueAnticoneSize = m.k then return (.red, c)
        else
          assert (peerBlueAnticoneSize ≤ m.k) "found blue anticone larger than K"
          checkPeers m newBlockData blueCandidate rest c

/-- A block of the selected chain under examination; `none` is the new block itself. -/
structure ChainBlock where
  hash : Option Hash
  data : GhostdagData

def checkBlueCandidateWithChainBlock (m : GhostdagManager) (newBlockData : GhostdagData)
    (chainBlock : ChainBlock) (blueCandidate : Hash) (c : Candidate) :
    Result (ColoringState × Candidate) := do
  let inFuture ← match chainBlock.hash with
    | some hash => m.isDagAncestorOf hash blueCandidate
    | none => pure false
  if inFuture then return (.blue, c)
  else m.checkPeers newBlockData blueCandidate chainBlock.data.mergesetBlues c

def checkLoop (m : GhostdagManager) (newBlockData : GhostdagData) (blueCandidate : Hash) :
    Nat → ChainBlock → Candidate → Result ColoringOutput
  | 0, _, _ => .error .diverge
  | fuel+1, chainBlock, c => do
      let (state, c) ←
        m.checkBlueCandidateWithChainBlock newBlockData chainBlock blueCandidate c
      match state with
      | .blue => return .blue c.blueAnticoneSize c.bluesAnticoneSizes
      | .red => return .red
      | .pending =>
          let sp := chainBlock.data.selectedParent
          checkLoop m newBlockData blueCandidate fuel ⟨some sp, ← unwrap (m.getData sp)⟩ c

def checkBlueCandidate (m : GhostdagManager) (newBlockData : GhostdagData)
    (blueCandidate : Hash) : Result ColoringOutput := do
  let limit ← addUpTo kTypeMax m.k 1
  -- The length is cast to `u16`.
  if newBlockData.mergesetBlues.length % (kTypeMax + 1) = limit then return .red
  else m.checkLoop newBlockData blueCandidate (m.bound + 2) ⟨none, newBlockData⟩ ⟨∅, 0⟩

def colour (m : GhostdagManager) (newBlockData : GhostdagData) (blueCandidate : Hash) :
    Result GhostdagData := do
  match ← m.checkBlueCandidate newBlockData blueCandidate with
  | .blue blueAnticoneSize bluesAnticoneSizes =>
      newBlockData.addBlue blueCandidate blueAnticoneSize bluesAnticoneSizes
  | .red => return newBlockData.addRed blueCandidate

def sumWork : List Nat → Result Nat
  | [] => .ok 0
  | a :: as => do addUpTo blueWorkMax a (← sumWork as)

/-- GHOSTDAG data for a block with the given parents. -/
def ghostdag (m : GhostdagManager) (parents : List Hash) : Result GhostdagData := do
  assert (parents ≠ []) "genesis must be added via init"
  let selectedParent ← m.findSelectedParent parents
  if selectedParent = blockhash.origin then
    GhostdagData.newWithSelectedParent selectedParent 1
  else
    let newBlockData ← GhostdagData.newWithSelectedParent selectedParent m.k
    let orderedMergeset ← m.orderedMergesetWithoutSelectedParent selectedParent parents
    let newBlockData ← orderedMergeset.foldlM m.colour newBlockData
    let spData ← unwrap (m.getData selectedParent)
    let blueScore ← addU64 spData.blueScore newBlockData.mergesetBlues.length
    let addedBlueWork ← sumWork (newBlockData.mergesetBlues.map m.getWork)
    let blueWork ← addUpTo blueWorkMax spData.blueWork addedBlueWork
    return newBlockData.finalizeScoreAndWork blueScore blueWork

end GhostdagManager

end TaoDag.Ghostdag
