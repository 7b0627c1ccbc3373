import TaoDag.Ghostdag.Fed

namespace TaoDag.Naive

open Ghostdag (SortableBlock)

inductive DagError where
  | duplicate
  | unknownParent
  | noParents
  deriving DecidableEq

/-- A block of the prototype DAG with its explicit past. `blueSet` holds the blues of its past and
the block itself, and `past` and `blueSet` list the members of hash sets. -/
structure Node where
  past : List Hash
  blueSet : List Hash
  mergesetBlues : List Hash
  mergesetReds : List Hash

abbrev Nodes := BlockHashMap Node

/-- `self.nodes[&b].past`, of a block that is there. -/
def pastOf (nodes : Nodes) (b : Hash) : List Hash := (nodes.lookup b).elim [] (·.past)

def blueSetOf (nodes : Nodes) (b : Hash) : List Hash := (nodes.lookup b).elim [] (·.blueSet)

/-- `Dag::new`: the root alone. -/
def new (genesis : Hash) : Nodes := AList.singleton genesis ⟨[], [genesis], [], []⟩

def isAnticone (nodes : Nodes) (x c : Hash) : Bool :=
  decide (x ≠ c ∧ x ∉ pastOf nodes c ∧ c ∉ pastOf nodes x)

/-- The greedy loop of `Dag::add_block` over the mergeset. -/
def classify (nodes : Nodes) (k : Nat) :
    List Hash → List Hash → List Hash → List Hash → List Hash × List Hash
  | [], _, blues, reds => (blues, reds)
  | c :: rest, accepted, blues, reds =>
      let anti := accepted.filter (isAnticone nodes · c)
      if k < anti.length then classify nodes k rest accepted blues (reds ++ [c])
      else if anti.all fun x => (accepted.filter (isAnticone nodes · x)).length + 1 ≤ k then
        classify nodes k rest (accepted ++ [c]) (blues ++ [c]) reds
      else classify nodes k rest accepted blues (reds ++ [c])

/-- `past(id)`: the parents and their pasts. -/
def unionPast (nodes : Nodes) : List Hash → List Hash
  | [] => []
  | p :: ps => (p :: pastOf nodes p) ∪ unionPast nodes ps

/-- `Dag::add_block`, for a given selected parent `sp` and a given order of the mergeset. -/
def addBlock (k : Nat) (key : Hash → SortableBlock) (nodes : Nodes) (id : Hash)
    (parents : List Hash) (sp : Hash) : Except DagError Nodes :=
  if (nodes.lookup id).isSome then .error .duplicate
  else if parents.isEmpty then .error .noParents
  else if parents.any fun p => (nodes.lookup p).isNone then .error .unknownParent
  else
    let past := unionPast nodes parents
    let mergeset := (past.filter fun b => b ≠ sp ∧ b ∉ pastOf nodes sp).insertionSort
      fun a b => (key a).le (key b)
    let coloured := classify nodes k mergeset (blueSetOf nodes sp) [] []
    .ok (nodes.insert id
      ⟨past, blueSetOf nodes sp ++ coloured.1 ++ [id], coloured.1, coloured.2⟩)

end TaoDag.Naive

namespace TaoDag.Ghostdag.DagEngine

open BlockDag KCluster Naive

variable {e e' : DagEngine} {nodes nodes' : Nodes} {b c x y sp : Hash}
  {accepted blues reds pre rest parents : List Hash} {d : GhostdagData} {S S₀ : Finset Hash}

/-- The engine and the prototype fed with the same blocks; the prototype is given the selected
parent and the order of the engine. -/
inductive Mirrors (fr : Reachability.Interval.Fractions) (k : Nat) (genesis : Hash) :
    DagEngine → Nodes → Prop
  | new {e : DagEngine} (run : DagEngine.new k genesis = .ok e) :
      Mirrors fr k genesis e (Naive.new blockhash.origin)
  | add {e e' : DagEngine} {nodes nodes' : Nodes} {b sp : Hash} {parents : List Hash}
      (before : Mirrors fr k genesis e nodes) (antichain : e.Antichain parents)
      (run : e.addBlock fr b parents = .ok e') (selected : e'.selectedParent b = .ok sp)
      (naive : Naive.addBlock k e.key nodes b parents sp = .ok nodes') :
      Mirrors fr k genesis e' nodes'

/-- The prototype holds the pasts and the blue sets of the engine, and the same colours. -/
structure MirrorInv (e : DagEngine) (nodes : Nodes) : Prop where
  absent : ∀ {y}, y ∉ e.dag.blocks → nodes.lookup y = none
  present : ∀ {y}, y ∈ e.dag.blocks → ∃ node, nodes.lookup y = some node
  past : ∀ {y}, y ∈ e.dag.blocks → ∀ x, x ∈ pastOf nodes y ↔ Past e.dag.parents x y
  past_nodup : ∀ y, (pastOf nodes y).Nodup
  blueSet : ∀ {y}, y ∈ e.dag.blocks →
    ∀ x, x ∈ blueSetOf nodes y ↔ x = y ∨ x ∈ e.blue y ∨ x = blockhash.origin
  blueSet_nodup : ∀ y, (blueSetOf nodes y).Nodup
  colours : ∀ {y d node}, e.gd.lookup y = some d → y ≠ blockhash.origin →
    nodes.lookup y = some node →
    d.mergesetBlues = d.selectedParent :: node.mergesetBlues ∧ d.mergesetReds = node.mergesetReds

theorem MirrorInv.isAnticone_iff (hm : MirrorInv e nodes) (hx : x ∈ e.dag.blocks)
    (hy : y ∈ e.dag.blocks) :
    isAnticone nodes x y = true ↔ Anticone e.dag.parents y x := by
  rw [isAnticone, decide_eq_true_eq, hm.past hx, hm.past hy, Anticone, reach_iff, reach_iff]
  constructor
  · rintro ⟨hne, h, h'⟩
    exact ⟨fun hyx => hyx.elim (fun heq => hne heq.symm) h', fun hxy => hxy.elim hne h⟩
  · rintro ⟨h, h'⟩
    exact ⟨fun heq => h' (Or.inl heq), fun hp => h' (Or.inr hp), fun hp => h (Or.inr hp)⟩

/-- Counting the anticone in the list of accepted blocks, where ORIGIN counts for nothing. -/
theorem MirrorInv.length_filter (hm : MirrorInv e nodes) (inv : e.Inv) (hnodup : accepted.Nodup)
    (hacc : ∀ x, x ∈ accepted ↔ x ∈ S ∨ x = blockhash.origin)
    (hS : ∀ x ∈ S, x ∈ e.dag.blocks) (hy : y ∈ e.dag.blocks) :
    (accepted.filter (isAnticone nodes · y)).length = e.antiCount S y := by
  have hset : (accepted.filter (isAnticone nodes · y)).toFinset =
      anticone (Anticone e.dag.parents) S y := by
    ext x
    rw [List.mem_toFinset, List.mem_filter, hacc, mem_anticone]
    constructor
    · rintro ⟨hx, hanti⟩
      have hxm : x ∈ e.dag.blocks := by
        rcases hx with hx | rfl
        · exact hS x hx
        · exact inv.origin_mem
      have hanti' := (hm.isAnticone_iff hxm hy).mp hanti
      refine ⟨hx.resolve_right fun hor => ?_, hanti'⟩
      exact hanti'.2 (hor ▸ inv.origin_reach hy)
    · rintro ⟨hx, hanti⟩
      exact ⟨Or.inl hx, (hm.isAnticone_iff (hS x hx) hy).mpr hanti⟩
  rw [antiCount, count, ← hset, List.toFinset_card_of_nodup (hnodup.filter _)]

/-- The loop of the prototype colours by the greedy rule. -/
theorem MirrorInv.classify_greedy (hm : MirrorInv e nodes) (inv : e.Inv)
    (hgreedy : Greedy (Anticone e.dag.parents) e.k S₀ pre blues reds)
    (hnodup : accepted.Nodup)
    (hacc : ∀ x, x ∈ accepted ↔ x ∈ S₀ ∪ blues.toFinset ∨ x = blockhash.origin)
    (hS₀ : ∀ x ∈ S₀, x ∈ e.dag.blocks) (hpre : ∀ x ∈ pre, x ∈ e.dag.blocks)
    (hrest : ∀ x ∈ rest, x ∈ e.dag.blocks) (hrest_nodup : rest.Nodup)
    (hfresh : ∀ x ∈ rest, x ∉ accepted) :
    Greedy (Anticone e.dag.parents) e.k S₀ (pre ++ rest)
      (classify nodes e.k rest accepted blues reds).1
      (classify nodes e.k rest accepted blues reds).2 := by
  induction rest generalizing pre accepted blues reds with
  | nil =>
    rw [List.append_nil]
    exact hgreedy
  | cons c rest ih =>
    rw [List.forall_mem_cons] at hrest hfresh
    rw [List.nodup_cons] at hrest_nodup
    have hS : ∀ x ∈ S₀ ∪ blues.toFinset, x ∈ e.dag.blocks := by
      intro x hx
      rcases Finset.mem_union.mp hx with hx | hx
      · exact hS₀ x hx
      · exact hpre x (hgreedy.subset x (List.mem_toFinset.mp hx))
    have hlen : ∀ {y}, y ∈ e.dag.blocks → (accepted.filter (isAnticone nodes · y)).length =
        e.antiCount (S₀ ∪ blues.toFinset) y := fun hy => hm.length_filter inv hnodup hacc hS hy
    have hpre' : ∀ x ∈ pre ++ [c], x ∈ e.dag.blocks := by
      intro x hx
      rcases List.mem_append.mp hx with hx | hx
      · exact hpre x hx
      · rw [List.mem_singleton] at hx
        rw [hx]
        exact hrest.1
    have hred : ¬Admits (Anticone e.dag.parents) e.k (S₀ ∪ blues.toFinset) c →
        Greedy (Anticone e.dag.parents) e.k S₀ (pre ++ c :: rest)
          (classify nodes e.k rest accepted blues (reds ++ [c])).1
          (classify nodes e.k rest accepted blues (reds ++ [c])).2 := by
      intro hnot
      have h := ih (hgreedy.red hnot) hnodup hacc hpre' hrest.2 hrest_nodup.2 hfresh.2
      rwa [List.append_assoc, List.singleton_append] at h
    rw [classify]
    by_cases hmany : e.k < (accepted.filter (isAnticone nodes · c)).length
    · rw [if_pos hmany]
      refine hred fun hadm => ?_
      rw [hlen hrest.1] at hmany
      exact absurd hadm.1 (Nat.not_le.mpr hmany)
    · rw [if_neg hmany]
      have hroom : ((accepted.filter (isAnticone nodes · c)).all fun x =>
          decide ((accepted.filter (isAnticone nodes · x)).length + 1 ≤ e.k)) = true ↔
          ∀ x ∈ S₀ ∪ blues.toFinset, Anticone e.dag.parents c x →
            e.antiCount (S₀ ∪ blues.toFinset) x < e.k := by
        rw [List.all_eq_true]
        constructor
        · intro h x hx hanti
          have hxa : x ∈ accepted.filter (isAnticone nodes · c) := by
            refine List.mem_filter.mpr ⟨(hacc x).mpr (Or.inl hx), ?_⟩
            exact (hm.isAnticone_iff (hS x hx) hrest.1).mpr hanti
          have := of_decide_eq_true (h x hxa)
          rw [hlen (hS x hx)] at this
          omega
        · intro h x hx
          obtain ⟨hxa, hanti⟩ := List.mem_filter.mp hx
          have hxm : x ∈ e.dag.blocks := by
            rcases (hacc x).mp hxa with hx | rfl
            · exact hS x hx
            · exact inv.origin_mem
          have hanti' := (hm.isAnticone_iff hxm hrest.1).mp hanti
          have hxS := ((hacc x).mp hxa).resolve_right fun hor =>
            hanti'.2 (hor ▸ inv.origin_reach hrest.1)
          have := h x hxS hanti'
          rw [← hlen hxm] at this
          exact decide_eq_true (by omega)
      have hle : e.antiCount (S₀ ∪ blues.toFinset) c ≤ e.k := by
        rw [← hlen hrest.1]
        exact Nat.not_lt.mp hmany
      by_cases hall : ((accepted.filter (isAnticone nodes · c)).all fun x =>
          decide ((accepted.filter (isAnticone nodes · x)).length + 1 ≤ e.k)) = true
      · rw [if_pos hall]
        have hnodup' : (accepted ++ [c]).Nodup := by
          rw [List.nodup_append]
          refine ⟨hnodup, List.nodup_singleton c, fun x hx y hy hxy => ?_⟩
          rw [List.mem_singleton] at hy
          rw [hxy, hy] at hx
          exact hfresh.1 hx
        have hacc' : ∀ x, x ∈ accepted ++ [c] ↔
            x ∈ S₀ ∪ (blues ++ [c]).toFinset ∨ x = blockhash.origin := by
          intro x
          rw [List.mem_append, List.mem_singleton, hacc, List.toFinset_append, Finset.mem_union,
            Finset.mem_union, Finset.mem_union]
          simp only [List.mem_toFinset, List.mem_singleton]
          tauto
        have hfresh' : ∀ x ∈ rest, x ∉ accepted ++ [c] := by
          intro x hx hxa
          rcases List.mem_append.mp hxa with hxa | hxa
          · exact hfresh.2 x hx hxa
          · rw [List.mem_singleton] at hxa
            exact hrest_nodup.1 (hxa ▸ hx)
        have h := ih (hgreedy.blue ⟨hle, hroom.mp hall⟩) hnodup' hacc' hpre' hrest.2
          hrest_nodup.2 hfresh'
        rwa [List.append_assoc, List.singleton_append] at h
      · rw [if_neg hall]
        exact hred fun hadm => hall (hroom.mpr hadm.2)

theorem MirrorInv.mem_unionPast (hm : MirrorInv e nodes) (hp : ∀ p ∈ parents, p ∈ e.dag.blocks) :
    x ∈ unionPast nodes parents ↔ ∃ p ∈ parents, Reach e.dag.parents x p := by
  induction parents with
  | nil => simp [unionPast]
  | cons p ps ih =>
    rw [List.forall_mem_cons] at hp
    rw [unionPast, List.mem_union_iff, List.mem_cons, hm.past hp.1, ih hp.2, ← reach_iff]
    simp

theorem unionPast_nodup : (unionPast nodes parents).Nodup := by
  induction parents with
  | nil => exact List.nodup_nil
  | cons p ps ih => exact ih.union _

/-- The mergeset of the prototype, in the order of the engine. -/
def orderedMergeset (e : DagEngine) (nodes : Nodes) (sp : Hash) (parents : List Hash) : List Hash :=
  ((unionPast nodes parents).filter fun b => b ≠ sp ∧ b ∉ pastOf nodes sp).insertionSort
    fun a b => (e.key a).le (e.key b)

theorem MirrorInv.orderedMergeset_perm (hm : MirrorInv e nodes) (hd : IsData e parents d)
    (hanti : e.Antichain parents) :
    (orderedMergeset e nodes d.selectedParent parents).Perm
      d.unorderedMergesetWithoutSelectedParent := by
  refine (List.perm_insertionSort _ _).trans ?_
  refine (List.perm_ext_iff_of_nodup (unionPast_nodup.filter _) hd.mergeset.nodup).mpr fun x => ?_
  rw [List.mem_filter, decide_eq_true_eq, hm.mem_unionPast hd.known, hd.mem_merged hanti,
    hm.past (hd.known _ hd.mem), reach_iff (y := d.selectedParent), not_or]

/-- The prototype colours the new block as the engine does. -/
theorem MirrorInv.classify_eq (hm : MirrorInv e nodes) (inv : e.ColourInv)
    (hd : IsData e parents d) (hanti : e.Antichain parents)
    (hcol : d.selectedParent ≠ blockhash.origin →
      ∃ m, Candidates e d.selectedParent m ∧ Coloring e d.selectedParent m d) :
    ∃ blues, d.mergesetBlues = d.selectedParent :: blues ∧
      (∀ x ∈ blues, x ∉ blueSetOf nodes d.selectedParent) ∧
      classify nodes e.k (orderedMergeset e nodes d.selectedParent parents)
        (blueSetOf nodes d.selectedParent) [] [] = (blues, d.mergesetReds) := by
  obtain ⟨blues, hblues⟩ := hd.blues
  have hmerged : d.unorderedMergesetWithoutSelectedParent = blues ++ d.mergesetReds := by
    rw [GhostdagData.unorderedMergesetWithoutSelectedParent, hblues]
    rfl
  have hperm := hm.orderedMergeset_perm hd hanti
  have hspm := hd.known _ hd.mem
  have hfresh : ∀ x ∈ d.unorderedMergesetWithoutSelectedParent,
      x ∉ blueSetOf nodes d.selectedParent := by
    intro x hx hmem
    have hnot := (hd.mergeset.anticone hanti hd.mem hx).1
    rcases (hm.blueSet hspm x).mp hmem with rfl | hblue | rfl
    · exact hnot .refl
    · exact hnot (inv.blue_reach hspm hblue)
    · exact hnot (inv.origin_reach hspm)
  refine ⟨blues, hblues, fun x hx => hfresh x ?_, ?_⟩
  · rw [hmerged]
    exact List.mem_append_left _ hx
  by_cases hor : d.selectedParent = blockhash.origin
  · have hnil : d.unorderedMergesetWithoutSelectedParent = [] := by
      refine List.eq_nil_iff_forall_not_mem.mpr fun x hx => ?_
      refine hfresh x hx ((hm.blueSet hspm x).mpr ?_)
      obtain ⟨p, hp, hxp⟩ := hd.mergeset.sound x hx
      have halone := hanti.originAlone inv.toInv hd.known (hor ▸ hd.mem) p hp
      exact Or.inr (Or.inr (inv.eq_origin (halone ▸ hxp)))
    rw [hnil] at hperm hmerged
    obtain ⟨rfl, hreds⟩ := List.append_eq_nil_iff.mp hmerged.symm
    rw [hperm.eq_nil, hreds]
    rfl
  · obtain ⟨m, hmc, ⟨blues', hblues', hgreedy, hs⟩, _⟩ := hcol hor
    rw [hblues] at hblues'
    cases hblues'
    have htotal : Std.Total fun a b => (e.key a).le (e.key b) :=
      ⟨fun a b => SortableBlock.le_total _ _⟩
    have htrans : IsTrans Hash fun a b => (e.key a).le (e.key b) :=
      ⟨fun _ _ _ => SortableBlock.le_trans⟩
    have hsorted : (orderedMergeset e nodes d.selectedParent parents).Pairwise
        fun a b => (e.key a).le (e.key b) := List.pairwise_insertionSort _ _
    have hmperm : (orderedMergeset e nodes d.selectedParent parents).Perm m := by
      refine hperm.trans ?_
      rw [hmerged]
      exact hgreedy.perm
    have heq : orderedMergeset e nodes d.selectedParent parents = m := by
      refine hmperm.eq_of_pairwise (fun a b _ _ hab hba => ?_) hsorted hmc.sorted
      exact congrArg SortableBlock.hash (SortableBlock.le_antisymm hab hba)
    rw [heq]
    have hbase : ∀ x, x ∈ blueSetOf nodes d.selectedParent ↔
        x ∈ e.baseBlues d.selectedParent ∪ ([] : List Hash).toFinset ∨ x = blockhash.origin := by
      intro x
      rw [hm.blueSet hspm, List.toFinset_nil, Finset.union_empty, baseBlues, Finset.mem_insert,
        or_assoc]
    have hknown : ∀ x ∈ e.baseBlues d.selectedParent, x ∈ e.dag.blocks :=
      (Finset.forall_mem_insert ..).mpr ⟨hspm, fun x hx => (mem_blue.mp hx).1⟩
    have hfresh' : ∀ x ∈ m, x ∉ blueSetOf nodes d.selectedParent := fun x hx =>
      hfresh x (hperm.mem_iff.mp (heq ▸ hx))
    have hrun : GreedyOn e d.selectedParent ([] ++ m)
        (classify nodes e.k m (blueSetOf nodes d.selectedParent) [] []).1
        (classify nodes e.k m (blueSetOf nodes d.selectedParent) [] []).2 :=
      hm.classify_greedy inv.toInv .nil (hm.blueSet_nodup _) hbase hknown (by simp) hmc.known
        hmc.nodup hfresh'
    obtain ⟨h₁, h₂⟩ := hrun.unique hgreedy
    exact Prod.ext h₁ h₂

/-- One block more: the prototype takes it, and agrees. -/
theorem MirrorInv.step (hm : MirrorInv e nodes) (inv : e.ColourInv) (hd : IsData e parents d)
    (hanti : e.Antichain parents) (ha : Added e e' b parents d) (inv' : e'.ColourInv)
    (hcol : d.selectedParent ≠ blockhash.origin →
      ∃ m, Candidates e d.selectedParent m ∧ Coloring e d.selectedParent m d) :
    ∃ nodes', Naive.addBlock e.k e.key nodes b parents d.selectedParent = .ok nodes' ∧
      MirrorInv e' nodes' := by
  obtain ⟨blues, hblues, hfresh, hclass⟩ := hm.classify_eq inv hd hanti hcol
  have hspm := hd.known _ hd.mem
  have hb := ha.ne_origin inv.toInv
  have hnew := inv'.coloured ha.lookup_self hb
  have hold : ∀ {y}, y ∈ e'.dag.blocks → y ≠ b → y ∈ e.dag.blocks := by
    intro y hy hyb
    rw [ha.blocks inv.toInv] at hy
    exact (Finset.mem_insert.mp hy).resolve_left hyb
  let node : Node := ⟨unionPast nodes parents, blueSetOf nodes d.selectedParent ++ blues ++ [b],
    blues, d.mergesetReds⟩
  have hself : (nodes.insert b node).lookup b = some node := AList.lookup_insert _
  have hother : ∀ {y}, y ≠ b → (nodes.insert b node).lookup y = nodes.lookup y :=
    AList.lookup_insert_ne
  have hpast : pastOf (nodes.insert b node) b = unionPast nodes parents := by
    rw [pastOf, hself]
    rfl
  have hpast' : ∀ {y}, y ≠ b → pastOf (nodes.insert b node) y = pastOf nodes y := fun hy => by
    rw [pastOf, hother hy]
    rfl
  have hblue : blueSetOf (nodes.insert b node) b =
      blueSetOf nodes d.selectedParent ++ blues ++ [b] := by
    rw [blueSetOf, hself]
    rfl
  have hblue' : ∀ {y}, y ≠ b → blueSetOf (nodes.insert b node) y = blueSetOf nodes y :=
    fun hy => by
      rw [blueSetOf, hother hy]
      rfl
  have hnodup : (d.selectedParent :: blues).Nodup := hblues ▸ hnew.nodup
  have hbnot : b ∉ blueSetOf nodes d.selectedParent ++ blues := by
    intro hmem
    rcases List.mem_append.mp hmem with hmem | hmem
    · rcases (hm.blueSet hspm b).mp hmem with h | h | h
      · exact ha.new (h ▸ hspm)
      · exact ha.new (mem_blue.mp h).1
      · exact hb h
    · have hx : b ∈ d.unorderedMergesetWithoutSelectedParent := by
        rw [GhostdagData.unorderedMergesetWithoutSelectedParent, hblues]
        exact List.mem_append_left _ hmem
      obtain ⟨p, hp, hbp⟩ := hd.mergeset.sound b hx
      exact ha.new (inv.index.dag.mem_of_reach hbp (hd.known p hp))
  refine ⟨nodes.insert b node, ?_, ?_, ?_, ?_, fun y => ?_, ?_, fun y => ?_, ?_⟩
  · have habsent : ¬(nodes.lookup b).isSome = true := by simp [hm.absent ha.new]
    have hsome : ¬parents.isEmpty = true := by
      rw [List.isEmpty_iff]
      exact List.ne_nil_of_mem hd.mem
    have hpresent : ¬(parents.any fun p => (nodes.lookup p).isNone) = true := by
      rw [List.any_eq_true]
      rintro ⟨p, hp, hnone⟩
      obtain ⟨n, hn⟩ := hm.present (hd.known p hp)
      rw [hn] at hnone
      cases hnone
    rw [Naive.addBlock, if_neg habsent, if_neg hsome, if_neg hpresent]
    let coloured := classify nodes e.k (orderedMergeset e nodes d.selectedParent parents)
      (blueSetOf nodes d.selectedParent) [] []
    have hcoloured : coloured = (blues, d.mergesetReds) := hclass
    change Except.ok (nodes.insert b ⟨unionPast nodes parents,
      blueSetOf nodes d.selectedParent ++ coloured.1 ++ [b], coloured.1, coloured.2⟩) = _
    rw [hcoloured]
  · intro y hy
    rw [ha.blocks inv.toInv, Finset.mem_insert, not_or] at hy
    rw [hother hy.1]
    exact hm.absent hy.2
  · intro y hy
    by_cases hyb : y = b
    · rw [hyb]
      exact ⟨node, hself⟩
    · rw [hother hyb]
      exact hm.present (hold hy hyb)
  · intro y hy x
    by_cases hyb : y = b
    · rw [hyb, hpast, hm.mem_unionPast hd.known, ha.past_self inv.toInv hd.known]
    · rw [hpast' hyb, hm.past (hold hy hyb), ha.past_iff inv.toInv (hold hy hyb)]
  · by_cases hyb : y = b
    · rw [hyb, hpast]
      exact unionPast_nodup
    · rw [hpast' hyb]
      exact hm.past_nodup y
  · intro y hy x
    by_cases hyb : y = b
    · rw [hyb, hblue, List.mem_append, List.mem_append, List.mem_singleton, hm.blueSet hspm,
        mem_blue_iff hb ha.lookup_self hnew.known, ha.blue_eq inv hspm, hblues, List.mem_cons]
      by_cases hxo : x = blockhash.origin
      · simp [hxo]
      · simp only [hxo, or_false, ne_eq, not_false_eq_true, and_true]
        tauto
    · rw [hblue' hyb, hm.blueSet (hold hy hyb), ha.blue_eq inv (hold hy hyb)]
  · by_cases hyb : y = b
    · rw [hyb, hblue, List.nodup_append]
      refine ⟨?_, List.nodup_singleton b, fun x hx z hz hxz => ?_⟩
      · rw [List.nodup_append]
        refine ⟨hm.blueSet_nodup _, (List.nodup_cons.mp hnodup).2, fun x hx z hz hxz => ?_⟩
        exact hfresh z hz (hxz ▸ hx)
      · rw [List.mem_singleton] at hz
        exact hbnot (hz ▸ hxz ▸ hx)
    · rw [hblue' hyb]
      exact hm.blueSet_nodup y
  · intro y d' n hd' hne hn
    by_cases hyb : y = b
    · subst hyb
      rw [ha.lookup_self] at hd'
      rw [hself] at hn
      cases hd'
      rw [← Option.some.inj hn]
      exact ⟨hblues, rfl⟩
    · rw [ha.lookup_of_ne hyb] at hd'
      rw [hother hyb] at hn
      exact hm.colours hd' hne hn

theorem mirrorInv_new {k : Nat} {genesis : Hash} :
    Returns False (DagEngine.new k genesis) (fun e =>
      MirrorInv e (Naive.new blockhash.origin)) := by
  refine new_colourInv.mono fun e he => ?_
  obtain ⟨inv, _, hdag⟩ := he
  have honly : ∀ {y}, y ∈ e.dag.blocks → y = blockhash.origin := by
    intro y hy
    rw [hdag] at hy
    exact Finset.mem_singleton.mp hy
  have hlook : (Naive.new blockhash.origin).lookup blockhash.origin =
      some ⟨[], [blockhash.origin], [], []⟩ := List.dlookup_cons_eq _ _ _
  have hnone : ∀ {y}, y ≠ blockhash.origin → (Naive.new blockhash.origin).lookup y = none := by
    intro y hy
    rw [AList.lookup_eq_none]
    simpa [Naive.new, AList.mem_keys] using hy
  have hpast : ∀ y, pastOf (Naive.new blockhash.origin) y = [] := by
    intro y
    by_cases hy : y = blockhash.origin
    · rw [pastOf, hy, hlook]
      rfl
    · rw [pastOf, hnone hy]
      rfl
  refine ⟨fun hy => hnone fun h => hy (h ▸ inv.origin_mem), fun hy => ?_, fun hy x => ?_,
    fun y => ?_, fun hy x => ?_, fun y => ?_, fun hd hne _ => ?_⟩
  · rw [honly hy]
    exact ⟨_, hlook⟩
  · rw [hpast, honly hy, BlockDag.past_iff, inv.parents_origin]
    simp
  · rw [hpast]
    exact List.nodup_nil
  · rw [honly hy, blueSetOf, hlook, inv.blue_origin]
    simp
  · by_cases hy : y = blockhash.origin
    · rw [blueSetOf, hy, hlook]
      exact List.nodup_singleton _
    · rw [blueSetOf, hnone hy]
      exact List.nodup_nil
  · exact absurd (honly (mem_blocks.mpr ⟨_, hd⟩)) hne

/-- The colouring of the engine is that of the prototype: whatever blocks the engine has been fed,
the prototype takes the same ones, and has the same blues and reds for each. -/
theorem colouring_eq_naive {fr : Reachability.Interval.Fractions} {k : Nat} {genesis : Hash}
    (h : Fed fr k genesis e) (hk : k < kTypeMax) :
    ∃ nodes, Mirrors fr k genesis e nodes ∧
      ∀ b d, e.gd.lookup b = some d → b ≠ blockhash.origin → ∃ node, nodes.lookup b = some node ∧
        d.mergesetBlues = d.selectedParent :: node.mergesetBlues ∧
        d.mergesetReds = node.mergesetReds := by
  suffices hsim : ∃ nodes, Mirrors fr k genesis e nodes ∧ MirrorInv e nodes by
    obtain ⟨nodes, hmir, hm⟩ := hsim
    refine ⟨nodes, hmir, fun b d hd hb => ?_⟩
    obtain ⟨node, hnode⟩ := hm.present (mem_blocks.mpr ⟨d, hd⟩)
    exact ⟨node, hnode, hm.colours hd hb hnode⟩
  induction h with
  | new run => exact ⟨_, .new run, mirrorInv_new.post run⟩
  | @add e e' b parents before antichain run ih =>
    obtain ⟨nodes, hmir, hm⟩ := ih
    obtain ⟨inv, hek⟩ := before.inv hk
    obtain ⟨d, hd, ha, inv', hcol⟩ :=
      (addBlock_coloured fr inv (hek ▸ hk) antichain).post run
    obtain ⟨nodes', hnaive, hm'⟩ := hm.step inv hd antichain ha inv' hcol
    rw [hek] at hnaive
    have hselected : e'.selectedParent b = .ok d.selectedParent := by
      rw [DagEngine.selectedParent, DagEngine.data, DagEngine.getData, ha.lookup_self]
      rfl
    exact ⟨nodes', .add hmir antichain run hselected hnaive, hm'⟩

theorem colouring_eq_naive_child :
    ∃ e d nodes node, Mirrors (fun _ _ _ => 0) 3 1 e nodes ∧ e.gd.lookup 2 = some d ∧
      nodes.lookup 2 = some node ∧ d.mergesetBlues = [1] ∧ node.mergesetBlues = [] ∧
      d.mergesetReds = node.mergesetReds := by
  obtain ⟨e, d, hfed, hd, hb⟩ := fed_child
  obtain ⟨nodes, hmir, hall⟩ := colouring_eq_naive hfed (by decide)
  obtain ⟨node, hnode, hblues, hreds⟩ := hall 2 d hd (by decide)
  rw [hb, List.cons.injEq] at hblues
  exact ⟨e, d, nodes, node, hmir, hd, hnode, hb, hblues.2.symm, hreds⟩

end TaoDag.Ghostdag.DagEngine
