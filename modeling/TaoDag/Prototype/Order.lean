import TaoDag.Framework.BlockDag
import TaoDag.Prototype.Dag

namespace TaoDag.Prototype.Dag

open BlockDag

variable {dag dag' : Dag} {k : Nat} {genesis b c x y sp : BlockId} {node : Node}
  {ps chain out m accepted blues reds : List BlockId}

/-- The DAGs that successful `add_block` calls build. -/
inductive Built (k : Nat) (genesis : BlockId) : Dag → Prop
  | new : Built k genesis (Dag.new k genesis)
  | add {dag dag' : Dag} {id : BlockId} {parents : List BlockId} (before : Built k genesis dag)
      (run : dag.addBlock id parents = .ok dag') : Built k genesis dag'

/-- A block merges the ancestors that its selected parent lacks, each blue or red. -/
structure Merges (dag : Dag) (node : Node) (sp : BlockId) : Prop where
  selected : node.selectedParent = some sp
  mem : sp ∈ node.parents
  colours : (node.mergesetBlues ++ node.mergesetReds).Perm
    (node.past.filter fun b => b ≠ sp ∧ b ∉ dag.pastOf sp)

/-- The colours of a block and its blue set, by the greedy loop over its ordered mergeset. -/
structure Coloured (dag : Dag) (b : BlockId) (node : Node) (sp : BlockId) : Prop where
  loop : ∃ m, m.Perm (node.past.filter fun x => x ≠ sp ∧ x ∉ dag.pastOf sp) ∧
    dag.classify m (dag.blueSetOf sp) [] [] = (node.mergesetBlues, node.mergesetReds)
  blueSet : node.blueSet = dag.blueSetOf sp ++ node.mergesetBlues ++ [b]

structure Inv (dag : Dag) : Prop where
  genesis : dag.nodes.lookup dag.genesis = some ⟨[], [], [dag.genesis], none, [], []⟩
  isDag : IsDag dag.parents dag.nodes.keys.toFinset
  past : ∀ x b, x ∈ dag.pastOf b ↔ Past dag.parents x b
  nodup : ∀ b, (dag.pastOf b).Nodup
  merges : ∀ b node, dag.nodes.lookup b = some node → b ≠ dag.genesis →
    ∃ sp, Merges dag node sp

theorem mem_keys : b ∈ dag.nodes.keys.toFinset ↔ ∃ node, dag.nodes.lookup b = some node := by
  rw [List.mem_toFinset, ← AList.mem_keys, ← AList.lookup_isSome, Option.isSome_iff_exists]

theorem classify_perm (blues reds : List BlockId) :
    ((dag.classify m accepted blues reds).1 ++ (dag.classify m accepted blues reds).2).Perm
      (blues ++ reds ++ m) := by
  induction m generalizing accepted blues reds with
  | nil => simp [classify]
  | cons c m ih =>
    have hred : (blues ++ (reds ++ [c]) ++ m).Perm (blues ++ reds ++ c :: m) := by simp
    have hblue : (blues ++ [c] ++ reds ++ m).Perm (blues ++ reds ++ c :: m) := by
      have hswap : ([c] ++ reds).Perm (reds ++ [c]) := List.perm_append_comm
      simpa using (hswap.append_right m).append_left blues
    rw [classify]
    split
    · exact (ih blues (reds ++ [c])).trans hred
    · split
      · exact (ih (blues ++ [c]) reds).trans hblue
      · exact (ih blues (reds ++ [c])).trans hred

theorem heaviest_mem (best : BlockId) (l : List BlockId) : dag.heaviest best l ∈ best :: l := by
  induction l generalizing best with
  | nil => exact List.mem_singleton_self best
  | cons b l ih =>
    rw [heaviest]
    split
    · exact List.mem_cons_of_mem best (ih b)
    · rcases List.mem_cons.mp (ih best) with h | h
      · rw [h]
        exact List.mem_cons_self
      · exact List.mem_cons_of_mem best (List.mem_cons_of_mem b h)

theorem unionPast_nodup : (dag.unionPast ps).Nodup := by
  induction ps with
  | nil => exact List.nodup_nil
  | cons p ps ih => exact ih.union _

theorem Inv.mem_unionPast (inv : dag.Inv) :
    x ∈ dag.unionPast ps ↔ ∃ p ∈ ps, Reach dag.parents x p := by
  induction ps with
  | nil => simp [unionPast]
  | cons p ps ih =>
    rw [unionPast, List.mem_union_iff, List.mem_cons, inv.past, ih, ← reach_iff]
    simp

/-- What a successful `add_block` stores. -/
theorem addBlock_spec (run : dag.addBlock b ps = .ok dag') :
    dag.nodes.lookup b = none ∧ (∀ p ∈ ps, ∃ node, dag.nodes.lookup p = some node) ∧
      ∃ node, dag' = { dag with nodes := dag.nodes.insert b node } ∧ node.parents = ps ∧
        node.past = dag.unionPast ps ∧ ∃ sp, Merges dag node sp ∧ Coloured dag b node sp := by
  unfold addBlock at run
  split at run
  · cases run
  case isFalse hnew =>
    have hnone : dag.nodes.lookup b = none := by
      rw [contains, Bool.not_eq_true, Option.isSome_eq_false_iff, Option.isNone_iff_eq_none] at hnew
      exact hnew
    cases ps with
    | nil => cases run
    | cons p ps =>
      simp only at run
      split at run
      · cases run
      case isFalse hknown =>
        have hparents : ∀ q ∈ p :: ps, ∃ node, dag.nodes.lookup q = some node := by
          intro q hq
          by_contra hno
          refine hknown (List.any_eq_true.mpr ⟨q, hq, ?_⟩)
          have hq' : dag.nodes.lookup q = none :=
            Option.eq_none_iff_forall_ne_some.mpr fun node h => hno ⟨node, h⟩
          rw [contains, hq']
          rfl
        cases run
        have hperm := List.perm_insertionSort dag.topoLe ((dag.unionPast (p :: ps)).filter fun b =>
          b ≠ dag.heaviest p ps ∧ b ∉ dag.pastOf (dag.heaviest p ps))
        refine ⟨hnone, hparents, _, rfl, rfl, rfl, dag.heaviest p ps,
          ⟨rfl, heaviest_mem p ps, (classify_perm [] []).trans hperm⟩, ⟨_, hperm, rfl⟩, rfl⟩

theorem inv_new (k : Nat) (genesis : BlockId) : (Dag.new k genesis).Inv := by
  have hself : (Dag.new k genesis).nodes.lookup genesis =
      some ⟨[], [], [genesis], none, [], []⟩ := List.dlookup_cons_eq _ _ _
  have hother : ∀ {b}, b ≠ genesis → (Dag.new k genesis).nodes.lookup b = none := by
    intro b hb
    rw [AList.lookup_eq_none]
    simpa [Dag.new, AList.mem_keys] using hb
  have hparents : ∀ b, (Dag.new k genesis).parents b = [] := by
    intro b
    rw [parents]
    by_cases hb : b = genesis
    · rw [hb, hself]
      rfl
    · rw [hother hb]
      rfl
  have hpast : ∀ b, (Dag.new k genesis).pastOf b = [] := by
    intro b
    rw [pastOf]
    by_cases hb : b = genesis
    · rw [hb, hself]
      rfl
    · rw [hother hb]
      rfl
  have hnone : ∀ x b, ¬Past (Dag.new k genesis).parents x b := by
    intro x b h
    obtain ⟨p, hp, _⟩ := past_iff.mp h
    rw [hparents] at hp
    cases hp
  refine ⟨hself, ⟨fun {x y} hx => ?_, fun {y} _ => hparents y, fun {x} => hnone x x⟩,
    fun x b => ?_, fun b => ?_, fun b node hb hne => ?_⟩
  · rw [hparents] at hx
    cases hx
  · rw [hpast]
    exact ⟨fun hx => absurd hx List.not_mem_nil, fun hx => absurd hx (hnone x b)⟩
  · rw [hpast]
    exact List.nodup_nil
  · rw [hother hne] at hb
    cases hb

theorem parents_insert : Dag.parents { dag with nodes := dag.nodes.insert b node } =
    Function.update dag.parents b node.parents := by
  funext c
  by_cases hc : c = b
  · subst hc
    rw [Function.update_self, parents, AList.lookup_insert]
    rfl
  · rw [Function.update_of_ne hc, parents, AList.lookup_insert_ne hc, parents]

theorem Inv.add (inv : dag.Inv) (run : dag.addBlock b ps = .ok dag') : dag'.Inv := by
  obtain ⟨hnew, hknown, node, rfl, hps, hpast, sp, hmerge, _⟩ := addBlock_spec run
  have hself : (dag.nodes.insert b node).lookup b = some node := AList.lookup_insert _
  have hother : ∀ {c}, c ≠ b → (dag.nodes.insert b node).lookup c = dag.nodes.lookup c :=
    AList.lookup_insert_ne
  have hbnew : b ∉ dag.nodes.keys.toFinset := by
    rw [mem_keys]
    rintro ⟨n, hn⟩
    rw [hnew] at hn
    cases hn
  have hpskeys : ∀ p ∈ ps, p ∈ dag.nodes.keys.toFinset := fun p hp => mem_keys.mpr (hknown p hp)
  have hparents : Dag.parents { dag with nodes := dag.nodes.insert b node } =
      Function.update dag.parents b ps := hps ▸ parents_insert
  have hpastOf : ∀ {c}, c ≠ b →
      pastOf { dag with nodes := dag.nodes.insert b node } c = dag.pastOf c := by
    intro c hc
    rw [pastOf, hother hc, pastOf]
  have hpastb : pastOf { dag with nodes := dag.nodes.insert b node } b = dag.unionPast ps := by
    rw [pastOf, hself, ← hpast]
    rfl
  have hkeys : (dag.nodes.insert b node).keys.toFinset = insert b dag.nodes.keys.toFinset := by
    ext c
    rw [List.mem_toFinset, ← AList.mem_keys, AList.mem_insert, Finset.mem_insert,
      List.mem_toFinset, ← AList.mem_keys]
  have hspne : sp ≠ b := by
    rintro rfl
    exact hbnew (hpskeys sp (hps ▸ hmerge.mem))
  have hmerges : ∀ {n s}, Merges dag n s → s ≠ b →
      Merges { dag with nodes := dag.nodes.insert b node } n s := by
    intro n s hm hs
    refine ⟨hm.selected, hm.mem, ?_⟩
    rw [hpastOf hs]
    exact hm.colours
  have hgne : dag.genesis ≠ b := by
    rintro rfl
    rw [inv.genesis] at hnew
    cases hnew
  refine ⟨(hother hgne).trans inv.genesis, ?_, fun x c => ?_, fun c => ?_, fun c n hc hne => ?_⟩
  · rw [hparents]
    exact hkeys ▸ inv.isDag.update hbnew hpskeys
  · rw [hparents]
    by_cases hc : c = b
    · subst hc
      rw [hpastb, inv.mem_unionPast, inv.isDag.past_update_self hbnew hpskeys]
    · rw [hpastOf hc, inv.past]
      by_cases hmem : c ∈ dag.nodes.keys.toFinset
      · rw [inv.isDag.past_update hbnew hmem]
      · rw [past_iff, past_iff, Function.update_of_ne hc, inv.isDag.outside hmem]
        simp
  · by_cases hc : c = b
    · subst hc
      rw [hpastb]
      exact unionPast_nodup
    · rw [hpastOf hc]
      exact inv.nodup c
  · by_cases hcb : c = b
    · subst hcb
      cases hself.symm.trans hc
      exact ⟨sp, hmerges hmerge hspne⟩
    · obtain ⟨s, hm⟩ := inv.merges c n ((hother hcb).symm.trans hc) hne
      refine ⟨s, hmerges hm ?_⟩
      have hs : s ∈ dag.parents c := by
        rw [parents, (hother hcb).symm.trans hc]
        exact hm.mem
      rintro rfl
      exact hbnew (inv.isDag.closed hs)

theorem Built.inv (h : Built k genesis dag) : dag.Inv ∧ dag.genesis = genesis := by
  induction h with
  | new => exact ⟨inv_new k genesis, rfl⟩
  | add before run ih =>
    obtain ⟨_, _, _, rfl, _⟩ := addBlock_spec run
    exact ⟨ih.1.add run, ih.2⟩

theorem Inv.parents_genesis (inv : dag.Inv) : dag.parents dag.genesis = [] := by
  rw [parents, inv.genesis]
  rfl

theorem Inv.past_genesis (inv : dag.Inv) : ¬Past dag.parents x dag.genesis := by
  intro h
  obtain ⟨p, hp, _⟩ := past_iff.mp h
  rw [inv.parents_genesis] at hp
  cases hp

/-- The past grows from a block to its descendants. -/
theorem Inv.past_lt (inv : dag.Inv) (h : Past dag.parents x y) :
    (dag.pastOf x).length < (dag.pastOf y).length := by
  have hnodup : (x :: dag.pastOf x).Nodup := by
    refine List.nodup_cons.mpr ⟨fun hx => ?_, inv.nodup x⟩
    exact inv.isDag.acyclic ((inv.past x x).mp hx)
  have hsub : x :: dag.pastOf x ⊆ dag.pastOf y := by
    intro z hz
    rw [inv.past]
    rcases List.mem_cons.mp hz with rfl | hz
    · exact h
    · exact ((inv.past z x).mp hz).trans_reach h.reach
  exact (hnodup.subperm hsub).length_le

/-- Parents have the smaller key. -/
theorem Inv.not_topoLe (inv : dag.Inv) (h : x ∈ dag.parents y) :
    x ≠ y ∧ ¬dag.topoLe y x := by
  have hpast : Past dag.parents x y := Relation.TransGen.single h
  have hlt := inv.past_lt hpast
  refine ⟨fun heq => inv.isDag.acyclic (heq ▸ hpast), ?_⟩
  rw [topoLe]
  omega

theorem topoLe_sorted (l : List BlockId) : (l.insertionSort dag.topoLe).Pairwise dag.topoLe := by
  have htotal : Std.Total dag.topoLe := ⟨fun a b => by
    rw [topoLe, topoLe]
    omega⟩
  have htrans : IsTrans BlockId dag.topoLe := ⟨fun a b c hab hbc => by
    rw [topoLe] at hab hbc ⊢
    omega⟩
  exact List.pairwise_insertionSort _ l

/-- What `b` selects, and what it stores. -/
theorem Inv.selected (inv : dag.Inv) (h : dag.selectedParent b = some sp) :
    ∃ node, dag.nodes.lookup b = some node ∧ Merges dag node sp ∧ b ≠ dag.genesis ∧
      sp ∈ dag.parents b := by
  rw [selectedParent] at h
  cases hb : dag.nodes.lookup b with
  | none =>
    rw [hb] at h
    cases h
  | some node =>
    rw [hb] at h
    have hne : b ≠ dag.genesis := by
      rintro rfl
      cases hb.symm.trans inv.genesis
      cases h
    obtain ⟨s, hm⟩ := inv.merges b node hb hne
    cases hm.selected.symm.trans h
    refine ⟨node, rfl, hm, hne, ?_⟩
    rw [parents, hb]
    exact hm.mem

/-- The selected chain that ends at a block, genesis first. -/
inductive ChainTo (dag : Dag) : BlockId → List BlockId → Prop
  | genesis : ChainTo dag dag.genesis [dag.genesis]
  | step {b sp : BlockId} {chain : List BlockId} (selected : dag.selectedParent b = some sp)
      (below : ChainTo dag sp chain) : ChainTo dag b (chain ++ [b])

theorem Inv.chainLoop (inv : dag.Inv) {fuel : Nat} (hb : b ∈ dag.nodes.keys.toFinset)
    (hfuel : (dag.pastOf b).length < fuel) :
    ∃ chain, dag.chainLoop fuel (some b) = some chain.reverse ∧ ChainTo dag b chain := by
  induction fuel generalizing b with
  | zero => exact absurd hfuel (Nat.not_lt_zero _)
  | succ fuel ih =>
    rw [Dag.chainLoop]
    by_cases hgen : b = dag.genesis
    · subst hgen
      have hnone : dag.selectedParent dag.genesis = none := by
        rw [selectedParent, inv.genesis]
        rfl
      refine ⟨[dag.genesis], ?_, .genesis⟩
      rw [hnone, Dag.chainLoop]
      rfl
    · obtain ⟨node, hnode⟩ := mem_keys.mp hb
      obtain ⟨sp, hm⟩ := inv.merges b node hnode hgen
      have hsel : dag.selectedParent b = some sp := by
        rw [selectedParent, hnode]
        exact hm.selected
      obtain ⟨_, _, _, _, hmem⟩ := inv.selected hsel
      have hlt := inv.past_lt (Relation.TransGen.single hmem : Past dag.parents sp b)
      obtain ⟨chain, hrun, hchain⟩ := ih (inv.isDag.closed hmem) (by omega)
      refine ⟨chain ++ [b], ?_, .step hsel hchain⟩
      rw [hsel, hrun, List.reverse_append]
      rfl

/-- The chain of a block: its selected ancestors. -/
theorem ChainTo.mem_iff (h : ChainTo dag b chain) (inv : dag.Inv) :
    c ∈ chain ↔ Relation.ReflTransGen (fun s b => dag.selectedParent b = some s) c b := by
  induction h with
  | genesis =>
    rw [List.mem_singleton]
    constructor
    · rintro rfl
      exact .refl
    · intro h
      rcases h.cases_tail with heq | ⟨s, _, hs⟩
      · exact heq.symm
      · exact absurd rfl (inv.selected hs).choose_spec.2.2.1
  | @step b sp chain selected below ih =>
    rw [List.mem_append, List.mem_singleton, ih]
    constructor
    · rintro (h | rfl)
      · exact h.tail selected
      · exact .refl
    · intro h
      rcases h.cases_tail with heq | ⟨s, hcs, hs⟩
      · exact Or.inr heq.symm
      · cases selected.symm.trans hs
        exact Or.inl hcs

/-- No block is merged blue whose parent is merged red. -/
def KeepsParents (dag : Dag) (b : BlockId) : Prop :=
  ∀ node, dag.nodes.lookup b = some node →
    ∀ x ∈ node.mergesetBlues, ∀ p ∈ dag.parents x, p ∉ node.mergesetReds

/-- A list of a block and its past, each once, genesis first. -/
structure Lists (dag : Dag) (b : BlockId) (out : List BlockId) : Prop where
  mem : ∀ x, x ∈ out ↔ Reach dag.parents x b
  nodup : out.Nodup
  genesis : out.head? = some dag.genesis

theorem Merges.mem_iff (hm : Merges dag node sp) (inv : dag.Inv)
    (hb : dag.nodes.lookup b = some node) :
    x ∈ node.mergesetBlues ∨ x ∈ node.mergesetReds ↔
      Past dag.parents x b ∧ ¬Reach dag.parents x sp := by
  have hpast : node.past = dag.pastOf b := by
    rw [pastOf, hb]
    rfl
  rw [← List.mem_append, hm.colours.mem_iff, List.mem_filter, decide_eq_true_eq, hpast,
    inv.past, inv.past, reach_iff (y := sp), not_or]

theorem Merges.nodup (hm : Merges dag node sp) (inv : dag.Inv)
    (hb : dag.nodes.lookup b = some node) : (node.mergesetBlues ++ node.mergesetReds).Nodup := by
  have hpast : node.past = dag.pastOf b := by
    rw [pastOf, hb]
    rfl
  rw [hm.colours.nodup_iff, hpast]
  exact (inv.nodup b).filter _

theorem segment_eq (hne : b ≠ dag.genesis) (hb : dag.nodes.lookup b = some node) :
    dag.segment b = node.mergesetBlues.insertionSort dag.topoLe ++
      node.mergesetReds.insertionSort dag.topoLe ++ [b] := by
  rw [segment, if_neg hne, hb]
  rfl

/-- One block more of the chain: its segment lists what the past of its selected parent lacks. -/
theorem Lists.step (inv : dag.Inv) (hl : Lists dag sp out) (h : dag.selectedParent b = some sp) :
    Lists dag b (out ++ dag.segment b) := by
  obtain ⟨node, hb, hm, hne, hmem⟩ := inv.selected h
  have hsp : Past dag.parents sp b := Relation.TransGen.single hmem
  have hmerged : ∀ x, x ∈ node.mergesetBlues.insertionSort dag.topoLe ++
      node.mergesetReds.insertionSort dag.topoLe ↔ Past dag.parents x b ∧ ¬Reach dag.parents x sp := by
    intro x
    rw [List.mem_append, List.mem_insertionSort, List.mem_insertionSort, hm.mem_iff inv hb]
  have hnodup : (node.mergesetBlues.insertionSort dag.topoLe ++
      node.mergesetReds.insertionSort dag.topoLe).Nodup := by
    have hperm := (List.perm_insertionSort dag.topoLe node.mergesetBlues).append
      (List.perm_insertionSort dag.topoLe node.mergesetReds)
    exact hperm.nodup_iff.mpr (hm.nodup inv hb)
  rw [segment_eq hne hb]
  generalize node.mergesetBlues.insertionSort dag.topoLe ++
    node.mergesetReds.insertionSort dag.topoLe = m at hmerged hnodup
  refine ⟨fun x => ?_, ?_, ?_⟩
  · rw [List.mem_append, List.mem_append, List.mem_singleton, hl.mem, hmerged, reach_iff (y := b)]
    constructor
    · rintro (hx | hx | hx)
      · exact Or.inr (hx.trans_past hsp)
      · exact Or.inr hx.1
      · exact Or.inl hx
    · rintro (hx | hx)
      · exact Or.inr (Or.inr hx)
      · by_cases hreach : Reach dag.parents x sp
        · exact Or.inl hreach
        · exact Or.inr (Or.inl ⟨hx, hreach⟩)
  · rw [List.nodup_append, List.nodup_append]
    refine ⟨hl.nodup, ⟨hnodup, List.nodup_singleton b, fun x hx y hy hxy => ?_⟩,
      fun x hx y hy hxy => ?_⟩
    · rw [List.mem_singleton.mp hy] at hxy
      rw [hxy] at hx
      exact inv.isDag.acyclic ((hmerged b).mp hx).1
    · rw [← hxy] at hy
      have hreach := (hl.mem x).mp hx
      rcases List.mem_append.mp hy with hy | hy
      · exact ((hmerged x).mp hy).2 hreach
      · rw [List.mem_singleton.mp hy] at hreach
        exact inv.isDag.acyclic (hreach.trans_past hsp)
  · rw [List.head?_append, hl.genesis]
    rfl

/-- The segment is in order exactly when no parent of a blue is among the reds behind it. -/
theorem Lists.ordered_segment (inv : dag.Inv) (hl : Lists dag sp out)
    (h : dag.selectedParent b = some sp) :
    Ordered dag.parents out (dag.segment b) ↔ dag.KeepsParents b := by
  obtain ⟨node, hb, hm, hne, hmem⟩ := inv.selected h
  have hmerged := fun x => hm.mem_iff (x := x) inv hb
  have hdisjoint := (List.nodup_append.mp (hm.nodup inv hb)).2.2
  -- a parent of a merged block comes before the segment, or is merged too
  have hparent : ∀ {x}, x ∈ node.mergesetBlues ∨ x ∈ node.mergesetReds → ∀ p ∈ dag.parents x,
      p ∈ out ∨ p ∈ node.mergesetBlues ∨ p ∈ node.mergesetReds := by
    intro x hx p hp
    by_cases hreach : Reach dag.parents p sp
    · exact Or.inl ((hl.mem p).mpr hreach)
    · have hpast : Past dag.parents p x := Relation.TransGen.single hp
      exact Or.inr ((hmerged p).mpr ⟨hpast.trans_reach ((hmerged x).mp hx).1.reach, hreach⟩)
  rw [segment_eq hne hb, ordered_append, ordered_append, ordered_singleton]
  constructor
  · rintro ⟨⟨hblues, _⟩, _⟩ node' hb' x hx p hp hred
    cases hb.symm.trans hb'
    rcases hblues.mem ((List.mem_insertionSort _).mpr hx) p hp with hout | hblue
    · exact ((hmerged p).mp (Or.inr hred)).2 ((hl.mem p).mp hout)
    · exact hdisjoint p ((List.mem_insertionSort _).mp hblue) p hred rfl
  · intro hkeeps
    refine ⟨⟨ordered_of_sorted (topoLe_sorted _) ?_ fun _ _ _ hp => inv.not_topoLe hp,
      ordered_of_sorted (topoLe_sorted _) ?_ fun _ _ _ hp => inv.not_topoLe hp⟩, ?_⟩
    · intro x hx p hp
      rw [List.mem_insertionSort] at hx ⊢
      rcases hparent (Or.inl hx) p hp with hout | hblue | hred
      · exact Or.inl hout
      · exact Or.inr hblue
      · exact absurd hred (hkeeps node hb x hx p hp)
    · intro x hx p hp
      rw [List.mem_insertionSort] at hx
      rw [List.mem_append, List.mem_insertionSort, List.mem_insertionSort, or_assoc]
      exact hparent (Or.inr hx) p hp
    · intro p hp
      rw [List.mem_append, List.mem_append, List.mem_insertionSort, List.mem_insertionSort]
      by_cases hreach : Reach dag.parents p sp
      · exact Or.inl ((hl.mem p).mpr hreach)
      · exact Or.inr ((hmerged p).mpr ⟨Relation.TransGen.single hp, hreach⟩)

theorem ChainTo.lists (h : ChainTo dag b chain) (inv : dag.Inv) :
    Lists dag b (chain.flatMap dag.segment) ∧
      (Ordered dag.parents [] (chain.flatMap dag.segment) ↔ ∀ c ∈ chain, dag.KeepsParents c) := by
  induction h with
  | genesis =>
    have hseg : [dag.genesis].flatMap dag.segment = [dag.genesis] := by
      rw [List.flatMap_singleton, segment, if_pos rfl]
    rw [hseg]
    refine ⟨⟨fun x => ?_, List.nodup_singleton _, rfl⟩, ?_⟩
    · rw [List.mem_singleton, reach_iff]
      exact ⟨Or.inl, fun h => h.resolve_right inv.past_genesis⟩
    · rw [ordered_singleton, inv.parents_genesis]
      refine ⟨fun _ c hc node hnode x hx => ?_, fun _ p hp => absurd hp List.not_mem_nil⟩
      rw [List.mem_singleton.mp hc] at hnode
      cases hnode.symm.trans inv.genesis
      cases hx
  | @step b sp chain selected below ih =>
    rw [List.flatMap_append, List.flatMap_singleton]
    refine ⟨ih.1.step inv selected, ?_⟩
    rw [ordered_append, List.nil_append, ih.2, ih.1.ordered_segment inv selected,
      List.forall_mem_append]
    simp

theorem Inv.tip_mem (inv : dag.Inv) : dag.tip ∈ dag.nodes.keys.toFinset := by
  rcases List.mem_cons.mp (heaviest_mem dag.genesis dag.nodes.keys) with h | h
  · rw [tip, h]
    exact mem_keys.mpr ⟨_, inv.genesis⟩
  · exact List.mem_toFinset.mpr h

/-- The order lists the past of the tip, and is in order exactly when every block of the selected
chain keeps parents before children. -/
theorem Inv.order (inv : dag.Inv) : ∃ out, dag.order = some out ∧ Lists dag dag.tip out ∧
    (Ordered dag.parents [] out ↔
      ∀ c, Relation.ReflTransGen (fun s b => dag.selectedParent b = some s) c dag.tip →
        dag.KeepsParents c) := by
  have hfuel : (dag.pastOf dag.tip).length < dag.nodes.entries.length := by
    have hnodup : (dag.tip :: dag.pastOf dag.tip).Nodup :=
      List.nodup_cons.mpr ⟨fun h => inv.isDag.acyclic ((inv.past _ _).mp h), inv.nodup _⟩
    have hsub : dag.tip :: dag.pastOf dag.tip ⊆ dag.nodes.keys := by
      intro x hx
      rcases List.mem_cons.mp hx with rfl | hx
      · exact List.mem_toFinset.mp inv.tip_mem
      · exact List.mem_toFinset.mp (inv.isDag.mem_of_past ((inv.past x _).mp hx))
    have hlen := (hnodup.subperm hsub).length_le
    rw [AList.keys, List.keys, List.length_map] at hlen
    exact hlen
  obtain ⟨chain, hrun, hchain⟩ := inv.chainLoop inv.tip_mem hfuel
  obtain ⟨hlists, hordered⟩ := hchain.lists inv
  refine ⟨chain.flatMap dag.segment, ?_, hlists, hordered.trans ?_⟩
  · rw [Dag.order, hrun]
    simp
  · simp only [hchain.mem_iff inv]

/-- `order()` returns the past of the tip and the tip, each once, genesis first, and each block
after its parents. -/
def OrdersTopologically (dag : Dag) : Prop :=
  ∃ out, dag.order = some out ∧ (∀ x, x ∈ out ↔ x = dag.tip ∨ Past dag.parents x dag.tip) ∧
    out.Nodup ∧ out.head? = some dag.genesis ∧ Ordered dag.parents [] out

/-- The order is topological exactly when no block of the selected chain merges a blue whose
parent it merges as red. -/
theorem order_topological_iff (h : Built k genesis dag) :
    dag.OrdersTopologically ↔
      ∀ c, Relation.ReflTransGen (fun s b => dag.selectedParent b = some s) c dag.tip →
        dag.KeepsParents c := by
  obtain ⟨inv, _⟩ := h.inv
  obtain ⟨out, hrun, hlists, hordered⟩ := inv.order
  rw [← hordered]
  constructor
  · rintro ⟨out', hrun', _, _, _, hout⟩
    cases hrun.symm.trans hrun'
    exact hout
  · intro hout
    refine ⟨out, hrun, fun x => ?_, hlists.nodup, hlists.genesis, hout⟩
    rw [hlists.mem, reach_iff]

/-- `add_block` calls, one after the other. -/
def feed (dag : Dag) (blocks : List (BlockId × List BlockId)) : Except DagError Dag :=
  blocks.foldlM (fun dag b => dag.addBlock b.1 b.2) dag

theorem Built.feed (h : Built k genesis dag) {blocks : List (BlockId × List BlockId)}
    (run : dag.feed blocks = .ok dag') : Built k genesis dag' := by
  induction blocks generalizing dag with
  | nil =>
    cases run
    exact h
  | cons b blocks ih =>
    rw [Dag.feed, List.foldlM_cons] at run
    cases hadd : dag.addBlock b.1 b.2 with
    | error e =>
      rw [hadd] at run
      cases run
    | ok dag₁ =>
      rw [hadd] at run
      exact ih (h.add hadd) run

theorem built_of_feed {blocks : List (BlockId × List BlockId)} {P : Dag → Bool}
    (h : ((Dag.new k genesis).feed blocks).toOption.any P = true) :
    ∃ dag, Built k genesis dag ∧ P dag = true := by
  cases hrun : (Dag.new k genesis).feed blocks with
  | error e =>
    rw [hrun] at h
    cases h
  | ok dag =>
    rw [hrun] at h
    exact ⟨dag, Built.new.feed hrun, h⟩

/-- With `k = 1`, the chain 0, 1, 2, 3, 4 and beside it block 5, a child of 0, and block 6, a child
of 3 and 5. Block 7 merges 6 as blue and 5 as red, and the order has 6 before its parent 5. -/
theorem order_not_topological : ∃ dag, Built 1 0 dag ∧
    dag.order = some [0, 1, 2, 3, 4, 6, 5, 7] ∧ dag.parents 6 = [3, 5] ∧
      ¬dag.OrdersTopologically := by
  obtain ⟨dag, hbuilt, hrun⟩ := @built_of_feed 1 0
    [(1, [0]), (2, [1]), (3, [2]), (4, [3]), (5, [0]), (6, [3, 5]), (7, [4, 6])]
    (fun dag => decide (dag.order = some [0, 1, 2, 3, 4, 6, 5, 7] ∧ dag.parents 6 = [3, 5]))
    (by decide +kernel)
  obtain ⟨horder, hparents⟩ := of_decide_eq_true hrun
  refine ⟨dag, hbuilt, horder, hparents, ?_⟩
  rintro ⟨out, hout, _, _, _, hordered⟩
  cases horder.symm.trans hout
  have hsix := (ordered_append (l := [0, 1, 2, 3, 4]) (m := [6, 5, 7])).mp hordered
  have hfive := hsix.2.1 5 (by rw [hparents]; decide)
  revert hfive
  decide

/-- A block that merges a block beside the chain. -/
theorem order_topological_diamond : ∃ dag, Built 1 0 dag ∧ dag.OrdersTopologically := by
  obtain ⟨dag, hbuilt, hrun⟩ := @built_of_feed 1 0 [(1, [0]), (2, [0]), (3, [1, 2])]
    (fun dag => decide (dag.nodes.keys.all fun b =>
      (dag.nodes.lookup b).elim true fun node => node.mergesetReds.isEmpty)) (by decide +kernel)
  refine ⟨dag, hbuilt, (order_topological_iff hbuilt).mpr fun c _ node hnode x _ p _ hred => ?_⟩
  have hall := List.all_eq_true.mp (of_decide_eq_true hrun) c
    (List.mem_toFinset.mp (mem_keys.mpr ⟨node, hnode⟩))
  rw [hnode] at hall
  rw [List.isEmpty_iff.mp hall] at hred
  cases hred

end TaoDag.Prototype.Dag
