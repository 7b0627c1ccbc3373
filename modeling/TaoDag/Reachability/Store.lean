import TaoDag.Reachability.Interval

namespace TaoDag.Reachability

structure MemoryReachabilityData where
  children : List Hash
  parent : Hash
  interval : Interval
  height : Nat
  futureCoveringSet : List Hash
  deriving DecidableEq

def MemoryReachabilityData.new (parent : Hash) (interval : Interval) (height : Nat) :
    MemoryReachabilityData := ⟨[], parent, interval, height, []⟩

/-- The in-memory reachability store: tree links, intervals, heights and
future-covering sets by block. -/
structure MemoryReachabilityStore where
  map : BlockHashMap MemoryReachabilityData
  reindexRoot : Option Hash

namespace MemoryReachabilityStore

def empty : MemoryReachabilityStore := ⟨∅, none⟩

def getData (s : MemoryReachabilityStore) (h : Hash) : Result MemoryReachabilityData :=
  match s.map.lookup h with
  | some d => .ok d
  | none => .error (.error (.storeError (.keyNotFound h)))

def has (s : MemoryReachabilityStore) (h : Hash) : Bool := (s.map.lookup h).isSome

def getInterval (s : MemoryReachabilityStore) (h : Hash) : Result Interval := do
  return (← s.getData h).interval

def getParent (s : MemoryReachabilityStore) (h : Hash) : Result Hash := do
  return (← s.getData h).parent

def getChildren (s : MemoryReachabilityStore) (h : Hash) : Result (List Hash) := do
  return (← s.getData h).children

def getFutureCoveringSet (s : MemoryReachabilityStore) (h : Hash) : Result (List Hash) := do
  return (← s.getData h).futureCoveringSet

def getHeight (s : MemoryReachabilityStore) (h : Hash) : Result Nat := do
  return (← s.getData h).height

def count (s : MemoryReachabilityStore) : Nat := s.map.entries.length

def insert (s : MemoryReachabilityStore) (h parent : Hash) (interval : Interval) (height : Nat) :
    Result MemoryReachabilityStore :=
  if s.has h then .error (.error (.storeError (.hashAlreadyExists h)))
  else .ok { s with map := s.map.insert h (.new parent interval height) }

/-- `get_data_mut` followed by a write through the reference. -/
def update (s : MemoryReachabilityStore) (h : Hash)
    (f : MemoryReachabilityData → MemoryReachabilityData) : Result MemoryReachabilityStore := do
  return { s with map := s.map.replace h (f (← s.getData h)) }

def setInterval (s : MemoryReachabilityStore) (h : Hash) (interval : Interval) :
    Result MemoryReachabilityStore :=
  s.update h fun d => { d with interval }

def appendChild (s : MemoryReachabilityStore) (h child : Hash) :
    Result MemoryReachabilityStore :=
  s.update h fun d => { d with children := d.children ++ [child] }

def insertFutureCoveringItem (s : MemoryReachabilityStore) (h fci : Hash)
    (insertionIndex : Nat) : Result MemoryReachabilityStore := do
  assert (insertionIndex ≤ (← s.getFutureCoveringSet h).length)
    "insertion index (is out of bounds)"
  s.update h fun d =>
    { d with futureCoveringSet := d.futureCoveringSet.insertIdx insertionIndex fci }

def setParent (s : MemoryReachabilityStore) (h newParent : Hash) :
    Result MemoryReachabilityStore :=
  s.update h fun d => { d with parent := newParent }

/-- `Vec::splice` of the one item at `index`, which has to be `replaced`. -/
def spliceItem (l : List Hash) (replaced : Hash) (index : Nat) (replaceWith : List Hash) :
    Result (List Hash) := do
  assert (index + 1 ≤ l.length) "range end index out of range for slice"
  assert (l[index]? = some replaced) "assertion `left == right` failed"
  return l.take index ++ (replaceWith ++ l.drop (index + 1))

def replaceChild (s : MemoryReachabilityStore) (h replacedHash : Hash) (replacedIndex : Nat)
    (replaceWith : List Hash) : Result MemoryReachabilityStore := do
  let children ← spliceItem (← s.getChildren h) replacedHash replacedIndex replaceWith
  s.update h fun d => { d with children }

def replaceFutureCoveringItem (s : MemoryReachabilityStore) (h replacedHash : Hash)
    (replacedIndex : Nat) (replaceWith : List Hash) : Result MemoryReachabilityStore := do
  let futureCoveringSet ←
    spliceItem (← s.getFutureCoveringSet h) replacedHash replacedIndex replaceWith
  s.update h fun d => { d with futureCoveringSet }

def delete (s : MemoryReachabilityStore) (h : Hash) : MemoryReachabilityStore :=
  { s with map := s.map.erase h }

def setReindexRoot (s : MemoryReachabilityStore) (root : Hash) : MemoryReachabilityStore :=
  { s with reindexRoot := some root }

def getReindexRoot (s : MemoryReachabilityStore) : Result Hash :=
  match s.reindexRoot with
  | some r => .ok r
  | none => .error (.error (.storeError (.keyNotFound blockhash.none)))

def init (s : MemoryReachabilityStore) (origin : Hash) (capacity : Interval) :
    Result MemoryReachabilityStore := do
  return (← s.insert origin blockhash.none capacity 0).setReindexRoot origin

/-- The capacity for the children of `h`: its interval without the last label. -/
def intervalChildrenCapacity (s : MemoryReachabilityStore) (h : Hash) : Result Interval := do
  (← s.getInterval h).decreaseEnd 1

def intervalRemainingBefore (s : MemoryReachabilityStore) (h : Hash) : Result Interval := do
  let allocCapacity ← s.intervalChildrenCapacity h
  match (← s.getChildren h).head? with
  | some firstChild => do
      let firstAlloc ← s.getInterval firstChild
      Interval.new allocCapacity.start (← subU64 firstAlloc.start 1)
  | none => return allocCapacity

def intervalRemainingAfter (s : MemoryReachabilityStore) (h : Hash) : Result Interval := do
  let allocCapacity ← s.intervalChildrenCapacity h
  match (← s.getChildren h).getLast? with
  | some lastChild => do
      let lastAlloc ← s.getInterval lastChild
      Interval.new (← addU64 lastAlloc.stop 1) allocCapacity.stop
  | none => return allocCapacity

end MemoryReachabilityStore

end TaoDag.Reachability
