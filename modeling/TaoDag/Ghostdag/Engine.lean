import TaoDag.Ghostdag.Protocol
import TaoDag.Reachability.Tree

namespace TaoDag.Ghostdag

open Reachability (Store Interval.Fractions)

/-- The in-memory engine: reachability index, GHOSTDAG data, relations and the heaviest tip. -/
structure DagEngine where
  genesis : Hash
  k : Nat
  reach : Store
  gd : BlockHashMap GhostdagData
  relations : BlockHashMap (List Hash)
  tip : Hash

namespace DagEngine

def new (k : Nat) (genesis : Hash) : Result DagEngine := do
  let reach ← unwrap (Reachability.init Reachability.MemoryReachabilityStore.empty)
  return ⟨genesis, k, reach, AList.singleton blockhash.origin GhostdagManager.originGhostdagData,
    ∅, genesis⟩

def getData (e : DagEngine) (h : Hash) : Result GhostdagData :=
  match e.gd.lookup h with
  | some d => .ok d
  | none => .error (.error (.storeError (.keyNotFound h)))

def getParents (e : DagEngine) (h : Hash) : Result (List Hash) :=
  match e.relations.lookup h with
  | some ps => .ok ps
  | none => .error (.error (.storeError (.keyNotFound h)))

/-- Is `ancestor` a DAG ancestor of `descendant`, by the reachability index? -/
def isDagAncestorOf (e : DagEngine) (ancestor descendant : Hash) : Result Bool :=
  unwrap (Reachability.isDagAncestorOf e.reach ancestor descendant)

/-- Every block has unit work. -/
def manager (e : DagEngine) : GhostdagManager where
  genesisHash := e.genesis
  k := e.k
  getData := e.getData
  getParents := e.getParents
  isDagAncestorOf := e.isDagAncestorOf
  getWork := fun _ => 1
  bound := e.gd.entries.length

def data (e : DagEngine) (block : Hash) : Result GhostdagData := unwrap (e.getData block)

def selectedParent (e : DagEngine) (block : Hash) : Result Hash := do
  return (← e.data block).selectedParent

def blueScore (e : DagEngine) (block : Hash) : Result Nat := do
  return (← e.data block).blueScore

def addBlock (fr : Interval.Fractions) (e : DagEngine) (block : Hash) (parents : List Hash) :
    Result DagEngine := do
  let data ← e.manager.ghostdag parents
  let mergeset := data.unorderedMergesetWithoutSelectedParent
  let reach ← unwrap (Reachability.addBlock fr e.reach block data.selectedParent mergeset)
  let reach ← unwrap (Reachability.hintVirtualSelectedParent fr reach block)
  let e := { e with
    reach
    gd := e.gd.insert block data
    relations := e.relations.insert block parents }
  let tipWork := (← e.data e.tip).blueWork
  if tipWork < data.blueWork ∨ (data.blueWork = tipWork ∧ e.tip.toNat < block.toNat) then
    return { e with tip := block }
  else return e

/-- The selected chain from genesis to `cur`. -/
def chainLoop (e : DagEngine) : Nat → Hash → List Hash → Result (List Hash)
  | 0, _, _ => .error .diverge
  | fuel+1, cur, above =>
      if cur = e.genesis then .ok (cur :: above)
      else do chainLoop e fuel (← e.selectedParent cur) (cur :: above)

def selectedChain (e : DagEngine) : Result (List Hash) :=
  e.chainLoop (e.gd.entries.length + 1) e.tip []

/-- The blocks a chain block adds to the order: its mergeset by ascending blue work, then
itself. -/
def orderSegment (e : DagEngine) (b : Hash) : Result (List Hash) := do
  if b = e.genesis then return [b]
  else
    let d ← e.data b
    return (← e.manager.sortBlocks d.unorderedMergesetWithoutSelectedParent) ++ [b]

/-- The deterministic total order up to the current tip. -/
def totalOrder (e : DagEngine) : Result (List Hash) := do
  return (← (← e.selectedChain).mapM e.orderSegment).flatten

end DagEngine

end TaoDag.Ghostdag
