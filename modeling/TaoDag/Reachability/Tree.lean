import TaoDag.Reachability.Reindex

namespace TaoDag.Reachability

open MemoryReachabilityStore

/-- How far behind the tip the reindex root trails. -/
def defaultReindexDepth : Nat := 100

/-- Slack reserved per chain block below the reindex root. -/
def defaultReindexSlack : Nat := 2^14

/-- Adds `newBlock` as the last tree child of `parent`, reindexing when no interval is left. -/
def addTreeBlock (fr : Interval.Fractions) (s : Store) (newBlock parent : Hash) (slack : Nat) :
    Result Store := do
  let remaining ← s.intervalRemainingAfter parent
  let s ← s.appendChild parent newBlock
  let parentHeight ← s.getHeight parent
  let height ← addU64 parentHeight 1
  if remaining.isEmpty then
    let s ← s.insert newBlock parent remaining height
    let reindexRoot ← s.getReindexRoot
    return (← (ReindexOperationContext.new s slack).reindexIntervals fr newBlock reindexRoot).store
  else
    let (allocated, _) ← remaining.splitHalf
    s.insert newBlock parent allocated height

def findCommonTreeAncestor (s : Store) (reindexRoot : Hash) : Nat → Hash → Result Hash
  | 0, _ => .error .diverge
  | fuel+1, current => do
      if ← isChainAncestorOf s current reindexRoot then return current
      else findCommonTreeAncestor s reindexRoot fuel (← s.getParent current)

/-- The descending loop of `find_next_reindex_root`: stay `reindexDepth` behind the hint. -/
def advanceNext (s : Store) (hint : Hash) (hintHeight reindexDepth : Nat) :
    Nat → Hash → Result Hash
  | 0, _ => .error .diverge
  | fuel+1, next => do
      let child ← getNextChainAncestorUnchecked s hint next
      let childHeight ← s.getHeight child
      if hintHeight < childHeight then .error (.error .dataInconsistency)
      else if hintHeight - childHeight < reindexDepth then return next
      else advanceNext s hint hintHeight reindexDepth fuel child

/-- A common ancestor of the old and the new reindex root, and the new root. -/
def findNextReindexRoot (s : Store) (current hint : Hash) (reindexDepth reindexSlack : Nat) :
    Result (Hash × Hash) := do
  let hintHeight ← s.getHeight hint
  if ← isChainAncestorOf s current hint then
    return (current, ← advanceNext s hint hintHeight reindexDepth (s.count + 1) current)
  else
    let currentHeight ← s.getHeight current
    -- Switching chains takes a lead of `reindexSlack`, to resist alternating reorgs.
    if hintHeight < currentHeight ∨ hintHeight - currentHeight < reindexSlack then
      return (current, current)
    else
      let common ← findCommonTreeAncestor s current (s.count + 1) hint
      return (common, ← advanceNext s hint hintHeight reindexDepth (s.count + 1) common)

def concentrateLoop (fr : Interval.Fractions) (next : Hash) (slack : Nat) :
    Nat → Store → Hash → Result Store
  | 0, _, _ => .error .diverge
  | fuel+1, s, ancestor =>
      if ancestor = next then .ok s
      else do
        let child ← getNextChainAncestorUnchecked s next ancestor
        let ctx ← (ReindexOperationContext.new s slack).concentrateInterval fr ancestor child
          (child == next)
        concentrateLoop fr next slack fuel ctx.store child

/-- Moves the reindex root towards the hint, concentrating intervals along the way. -/
def tryAdvancingReindexRoot (fr : Interval.Fractions) (s : Store) (hint : Hash)
    (reindexDepth reindexSlack : Nat) : Result Store := do
  let current ← s.getReindexRoot
  let (ancestor, next) ← findNextReindexRoot s current hint reindexDepth reindexSlack
  if current = next then return s
  else
    let s ← concentrateLoop fr next reindexSlack (s.count + 1) s ancestor
    return s.setReindexRoot next

/-- `inquirer::init`. -/
def init (s : Store) : Result Store :=
  if s.has blockhash.origin then .ok s else s.init blockhash.origin Interval.maximal

/-- `inquirer::add_block`: `selectedParent` is the tree parent, `mergeset` lists the blocks
merged off the selected chain. -/
def addBlock (fr : Interval.Fractions) (s : Store) (newBlock selectedParent : Hash)
    (mergeset : List Hash) : Result Store := do
  addDagBlock (← addTreeBlock fr s newBlock selectedParent defaultReindexSlack) newBlock mergeset

def hintVirtualSelectedParent (fr : Interval.Fractions) (s : Store) (hint : Hash) :
    Result Store :=
  tryAdvancingReindexRoot fr s hint defaultReindexDepth defaultReindexSlack

end TaoDag.Reachability
