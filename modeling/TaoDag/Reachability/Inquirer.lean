import TaoDag.Reachability.Store

namespace TaoDag.Reachability

open MemoryReachabilityStore

abbrev Store := MemoryReachabilityStore

/-- Is `this` a strict chain ancestor of `queried`? -/
def isStrictChainAncestorOf (s : Store) (this queried : Hash) : Result Bool := do
  return (← s.getInterval this).strictlyContains (← s.getInterval queried)

/-- Is `this` on the chain of `queried`, or `queried` itself? -/
def isChainAncestorOf (s : Store) (this queried : Hash) : Result Bool := do
  return (← s.getInterval this).contains (← s.getInterval queried)

inductive SearchOutput where
  | notFound (index : Nat)
  | found (hash : Hash) (index : Nat)
  deriving DecidableEq

/-- `debug_assert!` that the hashes are ordered by interval, without overlap. -/
def assertHashesOrdered (s : Store) (orderedHashes : List Hash) : Result Unit := do
  let intervals ← orderedHashes.mapM (unwrap <| s.getInterval ·)
  assert (intervals.IsChain fun a b => a.stop < b.start) "assertion failed: hashes ordered"

/-- `slice::binary_search_by_key` on an increasing key: the index of the key that equals
`point`, or the number of smaller keys. -/
def binarySearchByKey (starts : List Nat) (point : Nat) : Except Nat Nat :=
  let i := starts.findIdx (point ≤ ·)
  if starts[i]? = some point then .ok i else .error i

def binarySearchDescendant (s : Store) (orderedHashes : List Hash) (descendant : Hash) :
    Result SearchOutput := do
  assertHashesOrdered s orderedHashes
  let point := (← s.getInterval descendant).stop
  let starts ← orderedHashes.mapM fun c => do return (← unwrap (s.getInterval c)).start
  match binarySearchByKey starts point with
  | .ok i => return .found (← expect "index out of bounds" orderedHashes[i]?) i
  | .error i =>
      if 0 < i then
        let candidate ← expect "index out of bounds" orderedHashes[i-1]?
        if ← isChainAncestorOf s candidate descendant then return .found candidate (i-1)
        else return .notFound i
      else return .notFound i

/-- Is `this` in the DAG past of `queried`, or `queried` itself? -/
def isDagAncestorOf (s : Store) (this queried : Hash) : Result Bool := do
  if ← isChainAncestorOf s this queried then return true
  else
    match ← binarySearchDescendant s (← s.getFutureCoveringSet this) queried with
    | .found _ _ => return true
    | .notFound _ => return false

/-- The tree child of `ancestor` that is a chain ancestor of `descendant`. -/
def getNextChainAncestorUnchecked (s : Store) (descendant ancestor : Hash) : Result Hash := do
  match ← binarySearchDescendant s (← s.getChildren ancestor) descendant with
  | .found h _ => return h
  | .notFound _ => .error (.error .badQuery)

def getNextChainAncestor (s : Store) (descendant ancestor : Hash) : Result Hash := do
  if descendant = ancestor then .error (.error .badQuery)
  else if ← isStrictChainAncestorOf s ancestor descendant then
    getNextChainAncestorUnchecked s descendant ancestor
  else .error (.error .badQuery)

def insertToFutureCoveringSet (s : Store) (mergedBlock newBlock : Hash) : Result Store := do
  match ← binarySearchDescendant s (← s.getFutureCoveringSet mergedBlock) newBlock with
  | .found _ _ => .error (.error .dataInconsistency)
  | .notFound i => s.insertFutureCoveringItem mergedBlock newBlock i

def addDagBlock (s : Store) (newBlock : Hash) (mergeset : List Hash) : Result Store :=
  mergeset.foldlM (fun s mergedBlock => insertToFutureCoveringSet s mergedBlock newBlock) s

/-- The place of `block` in a list that has to hold it. -/
def indexOfBlock (s : Store) (orderedHashes : List Hash) (block : Hash) : Result Nat := do
  match ← binarySearchDescendant s orderedHashes block with
  | .notFound _ => .error (.error .dataInconsistency)
  | .found hash i => do
      assert (hash = block) "assertion `left == right` failed"
      return i

/-- The labels of a deleted block go to its first and last child, or to the sibling before it. -/
def inheritInterval (s : Store) (parent : Hash) (blockIndex : Nat) (interval : Interval) :
    List Hash → Result Store
  | [] =>
      if 0 < blockIndex then do
        let sibling ← expect "index out of bounds" (← s.getChildren parent)[blockIndex - 1]?
        let siblingInterval ← s.getInterval sibling
        s.setInterval sibling (← Interval.new siblingInterval.start interval.stop)
      else return s
  | [child] => s.setInterval child interval
  | firstChild :: rest => do
      let firstInterval ← s.getInterval firstChild
      let s ← s.setInterval firstChild (← Interval.new interval.start firstInterval.stop)
      let lastChild ← expect "len > 1" rest.getLast?
      let lastInterval ← s.getInterval lastChild
      s.setInterval lastChild (← Interval.new lastInterval.start interval.stop)

/-- Deletes a block; the index answers for the others as before. `mergeset` lists the blocks whose
future-covering set holds it. -/
def deleteBlock (s : Store) (block : Hash) (mergeset : List Hash) : Result Store := do
  let interval ← s.getInterval block
  let parent ← s.getParent block
  let children ← s.getChildren block
  let blockIndex ← indexOfBlock s (← s.getChildren parent) block
  let s ← s.replaceChild parent block blockIndex children
  let s ← children.foldlM (fun s child => s.setParent child parent) s
  let s ← mergeset.foldlM (fun s mergedBlock => do
    let i ← indexOfBlock s (← s.getFutureCoveringSet mergedBlock) block
    s.replaceFutureCoveringItem mergedBlock block i children) s
  return (← inheritInterval s parent blockIndex interval children).delete block

end TaoDag.Reachability
