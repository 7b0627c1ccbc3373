import TaoDag.Reachability.Inquirer

namespace TaoDag.Reachability

open MemoryReachabilityStore

/-- Subtree sizes cached during a single reindex, with the store being reindexed. -/
structure ReindexOperationContext where
  store : Store
  subtreeSizes : BlockHashMap Nat
  slack : Nat

namespace ReindexOperationContext

def new (store : Store) (slack : Nat) : ReindexOperationContext := ⟨store, ∅, slack⟩

def subtreeSize (ctx : ReindexOperationContext) (h : Hash) : Result Nat :=
  expect "no entry found for key" (ctx.subtreeSizes.lookup h)

/-- The inner `while current != block` of `count_subtrees`: a finished subtree is counted
at its parent, and the last child to finish fixes the parent's size. -/
def pushUp (block : Hash) :
    Nat → ReindexOperationContext → BlockHashMap Nat → Hash →
      Result (ReindexOperationContext × BlockHashMap Nat)
  | 0, _, _, _ => .error .diverge
  | fuel+1, ctx, counts, current =>
      if current = block then .ok (ctx, counts)
      else do
        let current ← ctx.store.getParent current
        let children ← ctx.store.getChildren current
        let count ← addU64 ((counts.lookup current).getD 0) 1
        let counts := counts.insert current count
        if count < children.length then return (ctx, counts)
        else
          let subtreeSum ← sumU64 (← children.mapM ctx.subtreeSize)
          let size ← addU64 subtreeSum 1
          let ctx := { ctx with subtreeSizes := ctx.subtreeSizes.insert current size }
          pushUp block fuel ctx counts current

def countLoop (block : Hash) :
    Nat → ReindexOperationContext → BlockHashMap Nat → List Hash →
      Result ReindexOperationContext
  | 0, _, _, _ => .error .diverge
  | _+1, ctx, _, [] => .ok ctx
  | fuel+1, ctx, counts, current :: queue => do
      let children ← ctx.store.getChildren current
      if !children.isEmpty && (ctx.subtreeSizes.lookup current).isNone then
        countLoop block fuel ctx counts (queue ++ children)
      else
        let ctx := if children.isEmpty then
          { ctx with subtreeSizes := ctx.subtreeSizes.insert current 1 } else ctx
        let (ctx, counts) ← pushUp block (ctx.store.count + 1) ctx counts current
        countLoop block fuel ctx counts queue

def countSubtrees (ctx : ReindexOperationContext) (block : Hash) :
    Result ReindexOperationContext :=
  if (ctx.subtreeSizes.lookup block).isSome then .ok ctx
  else countLoop block (ctx.store.count + 1) ctx ∅ [block]

def setIntervals (s : Store) : List (Hash × Interval) → Result Store
  | [] => .ok s
  | (c, ci) :: rest => do setIntervals (← s.setInterval c ci) rest

def propagateLoop (fr : Interval.Fractions) :
    Nat → ReindexOperationContext → List Hash → Result ReindexOperationContext
  | 0, _, _ => .error .diverge
  | _+1, ctx, [] => .ok ctx
  | fuel+1, ctx, current :: queue => do
      let children ← ctx.store.getChildren current
      if children.isEmpty then propagateLoop fr fuel ctx queue
      else
        let sizes ← children.mapM ctx.subtreeSize
        let interval ← ctx.store.intervalChildrenCapacity current
        let intervals ← interval.splitExponential fr sizes
        let store ← setIntervals ctx.store (children.zip intervals)
        propagateLoop fr fuel { ctx with store } (queue ++ children)

/-- Reallocates the subtree of `block` inside its interval, by subtree size. -/
def propagateInterval (fr : Interval.Fractions) (ctx : ReindexOperationContext) (block : Hash) :
    Result ReindexOperationContext := do
  let ctx ← ctx.countSubtrees block
  propagateLoop fr (ctx.store.count + 1) ctx [block]

abbrev IntervalOp := Interval → Nat → Result Interval

def applyIntervalOp (ctx : ReindexOperationContext) (block : Hash) (offset : Nat)
    (op : IntervalOp) : Result ReindexOperationContext := do
  let interval ← op (← ctx.store.getInterval block) offset
  return { ctx with store := ← ctx.store.setInterval block interval }

def applyIntervalOpAndPropagate (fr : Interval.Fractions) (ctx : ReindexOperationContext)
    (block : Hash) (offset : Nat) (op : IntervalOp) : Result ReindexOperationContext := do
  (← ctx.applyIntervalOp block offset op).propagateInterval fr block

/-- The children before `pivot` and the children after it. -/
def splitChildren (children : List Hash) (pivot : Hash) : Result (List Hash × List Hash) :=
  match children.idxOf? pivot with
  | some index => .ok (children.take index, children.drop (index + 1))
  | none => .error (.error .dataInconsistency)

/-- What `reclaim_interval_before` and `reclaim_interval_after`, and likewise the two
`offset_siblings_*`, differ in: on which side of the chosen chain the room is taken. -/
structure Side where
  remaining : Store → Hash → Result Interval
  siblings : List Hash × List Hash → List Hash
  narrow : IntervalOp
  grow : IntervalOp
  shift : IntervalOp

def Side.before : Side where
  remaining := intervalRemainingBefore
  siblings := fun p => p.1.reverse
  narrow := Interval.increaseStart
  grow := Interval.increaseEnd
  shift := Interval.increase

def Side.after : Side where
  remaining := intervalRemainingAfter
  siblings := fun p => p.2
  narrow := Interval.decreaseEnd
  grow := Interval.decreaseStart
  shift := Interval.decrease

/-- Shifts the siblings one by one until the allocation block, which takes the room. -/
def offsetLoop (fr : Interval.Fractions) (side : Side) (allocationBlock : Hash) (offset : Nat) :
    ReindexOperationContext → List Hash → Result ReindexOperationContext
  | ctx, [] => .ok ctx
  | ctx, sibling :: rest =>
      if sibling = allocationBlock then
        ctx.applyIntervalOpAndPropagate fr allocationBlock offset side.grow
      else do
        offsetLoop fr side allocationBlock offset
          (← ctx.applyIntervalOpAndPropagate fr sibling offset side.shift) rest

def offsetSiblings (fr : Interval.Fractions) (side : Side) (ctx : ReindexOperationContext)
    (allocationBlock current : Hash) (offset : Nat) : Result ReindexOperationContext := do
  let parent ← ctx.store.getParent current
  let children ← ctx.store.getChildren parent
  offsetLoop fr side allocationBlock offset ctx (side.siblings (← splitChildren children current))

def offsetSiblingsBefore (fr : Interval.Fractions) := offsetSiblings fr Side.before

def offsetSiblingsAfter (fr : Interval.Fractions) := offsetSiblings fr Side.after

/-- First loop of `reclaim_interval_*`: walk from the chosen child towards the reindex root
until the slack met so far covers the request, or take the rest from the root itself.
Returns the block where it stopped and the slack to leave along the path. -/
def reclaimDown (fr : Interval.Fractions) (side : Side)
    (allocationBlock reindexRoot : Hash) (requiredAllocation : Nat) :
    Nat → ReindexOperationContext → Hash → Nat → Nat →
      Result (ReindexOperationContext × Hash × Nat)
  | 0, _, _, _, _ => .error .diverge
  | fuel+1, ctx, current, slackSum, pathLen =>
      if current = reindexRoot then do
        let offset ← subU64
          (← addU64 requiredAllocation (← mulU64 ctx.slack pathLen)) slackSum
        let ctx ← ctx.applyIntervalOpAndPropagate fr current offset side.narrow
        let ctx ← offsetSiblings fr side ctx allocationBlock current offset
        return (ctx, current, ctx.slack)
      else do
        let slackHere := (← side.remaining ctx.store current).size
        let slackSum ← addU64 slackSum slackHere
        if requiredAllocation ≤ slackSum then
          let offset ← subU64 slackHere (← subU64 slackSum requiredAllocation)
          let ctx ← ctx.applyIntervalOp current offset side.narrow
          let ctx ← offsetSiblings fr side ctx allocationBlock current offset
          return (ctx, current, 0)
        else
          let next ← getNextChainAncestorUnchecked ctx.store reindexRoot current
          reclaimDown fr side allocationBlock reindexRoot requiredAllocation fuel ctx next
            slackSum (← addU64 pathLen 1)

/-- Second loop: move the room up the path, back to the common ancestor. -/
def reclaimUp (fr : Interval.Fractions) (side : Side)
    (allocationBlock commonAncestor : Hash) (pathSlackAlloc : Nat) :
    Nat → ReindexOperationContext → Hash → Result ReindexOperationContext
  | 0, _, _ => .error .diverge
  | fuel+1, ctx, current => do
      let current ← ctx.store.getParent current
      if current = commonAncestor then return ctx
      else
        let slackHere := (← side.remaining ctx.store current).size
        let offset ← subU64 slackHere pathSlackAlloc
        let ctx ← ctx.applyIntervalOp current offset side.narrow
        let ctx ← offsetSiblings fr side ctx allocationBlock current offset
        reclaimUp fr side allocationBlock commonAncestor pathSlackAlloc fuel ctx current

def reclaimInterval (fr : Interval.Fractions) (side : Side) (ctx : ReindexOperationContext)
    (allocationBlock commonAncestor chosenChild reindexRoot : Hash) (requiredAllocation : Nat) :
    Result ReindexOperationContext := do
  let fuel := ctx.store.count + 1
  let (ctx, current, pathSlackAlloc) ←
    reclaimDown fr side allocationBlock reindexRoot requiredAllocation fuel ctx chosenChild 0 0
  reclaimUp fr side allocationBlock commonAncestor pathSlackAlloc fuel ctx current

def reclaimIntervalBefore (fr : Interval.Fractions) := reclaimInterval fr Side.before

def reclaimIntervalAfter (fr : Interval.Fractions) := reclaimInterval fr Side.after

def reindexIntervalsEarlierThanRoot (fr : Interval.Fractions) (ctx : ReindexOperationContext)
    (allocationBlock reindexRoot commonAncestor : Hash) (requiredAllocation : Nat) :
    Result ReindexOperationContext := do
  let chosenChild ← getNextChainAncestorUnchecked ctx.store reindexRoot commonAncestor
  let blockInterval ← ctx.store.getInterval allocationBlock
  let chosenInterval ← ctx.store.getInterval chosenChild
  if blockInterval.start < chosenInterval.start then
    reclaimIntervalBefore fr ctx allocationBlock commonAncestor chosenChild reindexRoot
      requiredAllocation
  else
    reclaimIntervalAfter fr ctx allocationBlock commonAncestor chosenChild reindexRoot
      requiredAllocation

/-- `Display` of a hash: its first four bytes in hexadecimal. -/
def displayHash (h : Hash) : String :=
  let digits := Nat.toDigits 16 (h.toNat / 2^224)
  String.ofList (List.replicate (8 - digits.length) '0' ++ digits) ++ ".."

def missingParentMessage : String :=
  "missing tree parent during reindexing. Theoretically, this should only ever " ++
    "happen if there are more than 2^64 blocks in the DAG."

def outOfCapacityMessage (reindexRoot : Hash) : String :=
  "unexpected behavior: reindex root " ++ displayHash reindexRoot ++
    " is out of capacity during reindexing. Theoretically, this should only ever " ++
    "happen if there are more than ~2^52 blocks in the DAG."

/-- Climbs from the new child to the first block with room for its whole subtree, or to a
child of a strict ancestor of the reindex root. -/
def reindexLoop (fr : Interval.Fractions) (reindexRoot : Hash) :
    Nat → ReindexOperationContext → Hash → Result ReindexOperationContext
  | 0, _, _ => .error .diverge
  | fuel+1, ctx, current => do
      let currentInterval ← ctx.store.getInterval current
      let ctx ← ctx.countSubtrees current
      let size ← ctx.subtreeSize current
      if size ≤ currentInterval.size then ctx.propagateInterval fr current
      else
        let parent ← ctx.store.getParent current
        if parent.isNone then .error (.error (.dataOverflow missingParentMessage))
        else if current = reindexRoot then
          .error (.error (.dataOverflow (outOfCapacityMessage reindexRoot)))
        else if ← isStrictChainAncestorOf ctx.store parent reindexRoot then
          ctx.reindexIntervalsEarlierThanRoot fr current reindexRoot parent size
        else reindexLoop fr reindexRoot fuel ctx parent

def reindexIntervals (fr : Interval.Fractions) (ctx : ReindexOperationContext)
    (newChild reindexRoot : Hash) : Result ReindexOperationContext :=
  reindexLoop fr reindexRoot (ctx.store.count + 1) ctx newChild

/-- Subtree sizes of the siblings, in order. -/
def countSiblings (ctx : ReindexOperationContext) :
    List Hash → Result (ReindexOperationContext × List Nat)
  | [] => .ok (ctx, [])
  | block :: rest => do
      let ctx ← ctx.countSubtrees block
      let size ← ctx.subtreeSize block
      let (ctx, sizes) ← countSiblings ctx rest
      return (ctx, size :: sizes)

def setAndPropagate (fr : Interval.Fractions) (ctx : ReindexOperationContext) :
    List (Hash × Interval) → Result ReindexOperationContext
  | [] => .ok ctx
  | (c, ci) :: rest => do
      let ctx := { ctx with store := ← ctx.store.setInterval c ci }
      setAndPropagate fr (← ctx.propagateInterval fr c) rest

def tightenIntervalsBefore (fr : Interval.Fractions) (ctx : ReindexOperationContext)
    (parent : Hash) (childrenBefore : List Hash) : Result (ReindexOperationContext × Nat) := do
  let (ctx, sizes) ← ctx.countSiblings childrenBefore
  let sum ← sumU64 sizes
  let interval ← ctx.store.getInterval parent
  let start ← addU64 interval.start ctx.slack
  let intervalBefore ← Interval.new start (← subU64 (← addU64 start sum) 1)
  let intervals ← intervalBefore.splitExact sizes
  return (← ctx.setAndPropagate fr (childrenBefore.zip intervals), sum)

def tightenIntervalsAfter (fr : Interval.Fractions) (ctx : ReindexOperationContext)
    (parent : Hash) (childrenAfter : List Hash) : Result (ReindexOperationContext × Nat) := do
  let (ctx, sizes) ← ctx.countSiblings childrenAfter
  let sum ← sumU64 sizes
  let interval ← ctx.store.getInterval parent
  let stop ← subU64 interval.stop ctx.slack
  let intervalAfter ← Interval.new (← subU64 stop sum) (← subU64 stop 1)
  let intervals ← intervalAfter.splitExact sizes
  return (← ctx.setAndPropagate fr (childrenAfter.zip intervals), sum)

def expandIntervalToChosen (fr : Interval.Fractions) (ctx : ReindexOperationContext)
    (parent child : Hash) (siblingsBeforeSubtreesSum siblingsAfterSubtreesSum : Nat)
    (isFinalReindexRoot : Bool) : Result ReindexOperationContext := do
  let interval ← ctx.store.getInterval parent
  let allocation ← Interval.new
    (← addU64 (← addU64 interval.start siblingsBeforeSubtreesSum) ctx.slack)
    (← subU64 (← subU64 (← subU64 interval.stop siblingsAfterSubtreesSum) ctx.slack) 1)
  let current ← ctx.store.getInterval child
  let ctx ← if isFinalReindexRoot && !allocation.contains current then do
      let narrowed ← Interval.new
        (← addU64 allocation.start ctx.slack) (← subU64 allocation.stop ctx.slack)
      let ctx := { ctx with store := ← ctx.store.setInterval child narrowed }
      ctx.propagateInterval fr child
    else pure ctx
  return { ctx with store := ← ctx.store.setInterval child allocation }

/-- Reindex triggered by moving the reindex root: the siblings of `child` are packed at both
ends of `parent` and `child` takes the room between, less the slacks. -/
def concentrateInterval (fr : Interval.Fractions) (ctx : ReindexOperationContext)
    (parent child : Hash) (isFinalReindexRoot : Bool) : Result ReindexOperationContext := do
  let (siblingsBefore, siblingsAfter) ← splitChildren (← ctx.store.getChildren parent) child
  let (ctx, sumBefore) ← ctx.tightenIntervalsBefore fr parent siblingsBefore
  let (ctx, sumAfter) ← ctx.tightenIntervalsAfter fr parent siblingsAfter
  ctx.expandIntervalToChosen fr parent child sumBefore sumAfter isFinalReindexRoot

end ReindexOperationContext

end TaoDag.Reachability
