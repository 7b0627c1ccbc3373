import Mathlib.Data.List.AList
import Mathlib.Data.List.Sort
import Mathlib.Data.BitVec

namespace TaoDag.Prototype

/-- A block id of the prototype, a `u64`. -/
abbrev BlockId := BitVec 64

inductive DagError where
  | duplicate
  | unknownParent
  | noParents
  deriving DecidableEq

/-- A block with its ancestors and the blues among them and itself: `past` and `blueSet` list the
members of hash sets. -/
structure Node where
  parents : List BlockId
  past : List BlockId
  blueSet : List BlockId
  selectedParent : Option BlockId
  mergesetBlues : List BlockId
  mergesetReds : List BlockId

structure Dag where
  k : Nat
  genesis : BlockId
  nodes : AList fun _ : BlockId => Node

namespace Dag

def new (k : Nat) (genesis : BlockId) : Dag :=
  ⟨k, genesis, AList.singleton genesis ⟨[], [], [genesis], none, [], []⟩⟩

variable (dag : Dag)

def contains (id : BlockId) : Bool := (dag.nodes.lookup id).isSome

/-- `self.nodes[&b].past`, of a block that is there. -/
def pastOf (b : BlockId) : List BlockId := (dag.nodes.lookup b).elim [] (·.past)

def blueSetOf (b : BlockId) : List BlockId := (dag.nodes.lookup b).elim [] (·.blueSet)

def parents (b : BlockId) : List BlockId := (dag.nodes.lookup b).elim [] (·.parents)

def selectedParent (b : BlockId) : Option BlockId :=
  (dag.nodes.lookup b).elim none (·.selectedParent)

def blueScore (b : BlockId) : Nat := (dag.blueSetOf b).length

def isAnticone (x c : BlockId) : Bool :=
  decide (x ≠ c ∧ x ∉ dag.pastOf c ∧ c ∉ dag.pastOf x)

/-- `topo_key`, compared: the smaller past first, ties by id. -/
def topoLe (a b : BlockId) : Prop :=
  (dag.pastOf a).length < (dag.pastOf b).length ∨
    ((dag.pastOf a).length = (dag.pastOf b).length ∧ a.toNat ≤ b.toNat)

instance : DecidableRel dag.topoLe := fun _ _ => inferInstanceAs (Decidable (_ ∨ _))

/-- `(blue_score, Reverse(id))`, compared. -/
def scoreLe (a b : BlockId) : Bool :=
  decide (dag.blueScore a < dag.blueScore b ∨
    (dag.blueScore a = dag.blueScore b ∧ b.toNat ≤ a.toNat))

/-- `max_by_key` of the blue score, ties broken by smaller id. -/
def heaviest : BlockId → List BlockId → BlockId
  | best, [] => best
  | best, b :: rest => heaviest (if dag.scoreLe best b then b else best) rest

/-- `past(id)`: the parents and their pasts. -/
def unionPast : List BlockId → List BlockId
  | [] => []
  | p :: ps => (p :: dag.pastOf p) ∪ unionPast ps

/-- The greedy classification of the mergeset: blues and reds. -/
def classify : List BlockId → List BlockId → List BlockId → List BlockId →
    List BlockId × List BlockId
  | [], _, blues, reds => (blues, reds)
  | c :: rest, accepted, blues, reds =>
      let anti := accepted.filter fun x => dag.isAnticone x c
      if dag.k < anti.length then classify rest accepted blues (reds ++ [c])
      else if anti.all fun x =>
          (accepted.filter fun y => dag.isAnticone y x).length + 1 ≤ dag.k then
        classify rest (accepted ++ [c]) (blues ++ [c]) reds
      else classify rest accepted blues (reds ++ [c])

def addBlock (id : BlockId) (parents : List BlockId) : Except DagError Dag :=
  if dag.contains id then .error .duplicate
  else match parents with
    | [] => .error .noParents
    | p :: ps =>
      if parents.any fun q => !dag.contains q then .error .unknownParent
      else
        let past := dag.unionPast parents
        let sp := dag.heaviest p ps
        let mergeset := (past.filter fun b => b ≠ sp ∧ b ∉ dag.pastOf sp).insertionSort dag.topoLe
        let (blues, reds) := dag.classify mergeset (dag.blueSetOf sp) [] []
        let node : Node := ⟨parents, past, dag.blueSetOf sp ++ blues ++ [id], some sp, blues, reds⟩
        .ok { dag with nodes := dag.nodes.insert id node }

/-- The best tip. -/
def tip : BlockId := dag.heaviest dag.genesis dag.nodes.keys

/-- The selected-parent chain from a block down to genesis. -/
def chainLoop : Nat → Option BlockId → Option (List BlockId)
  | _, none => some []
  | 0, some _ => none
  | fuel+1, some b => (chainLoop fuel (dag.selectedParent b)).map (b :: ·)

/-- What a chain block adds to the order: its blues, its reds and itself. -/
def segment (b : BlockId) : List BlockId :=
  if b = dag.genesis then [b]
  else
    let node := dag.nodes.lookup b
    let blues := node.elim [] (·.mergesetBlues)
    let reds := node.elim [] (·.mergesetReds)
    blues.insertionSort dag.topoLe ++ reds.insertionSort dag.topoLe ++ [b]

/-- The total order of all blocks up to the best tip. -/
def order : Option (List BlockId) := do
  let chain ← dag.chainLoop dag.nodes.entries.length (some dag.tip)
  return chain.reverse.flatMap dag.segment

end Dag

end TaoDag.Prototype
