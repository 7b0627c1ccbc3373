import TaoDag.Ghostdag.Converge
import TaoDag.Ghostdag.Fed

namespace TaoDag.Ghostdag.DagEngine

open BlockDag

variable {fr : Reachability.Interval.Fractions} {k : Nat} {genesis : Hash} {e e' : DagEngine}
  {b x y cur : Hash} {parents ps : List Hash} {d d' : GhostdagData}

/-- The data of a block with these parents, as far as the order reads it. -/
structure Merged (e : DagEngine) (parents : List Hash) (d : GhostdagData) : Prop where
  mem : d.selectedParent ∈ parents
  known : ∀ p ∈ parents, p ∈ e.dag.blocks
  alone : OriginAlone parents
  mergeset : IsMergeset e d.selectedParent parents d.unorderedMergesetWithoutSelectedParent

/-- A new block changes no mergeset. -/
theorem Merged.old (hm : Merged e parents d) (ha : Added e e' b ps d') (inv : e.Inv) :
    Merged e' parents d := by
  have hreach : ∀ {x p}, p ∈ parents → (Reach e'.dag.parents x p ↔ Reach e.dag.parents x p) :=
    fun hp => ha.reach_iff inv (hm.known _ hp)
  refine ⟨hm.mem, fun p hp => ha.mem_blocks_iff.mpr (Or.inr (hm.known p hp)), hm.alone,
    hm.mergeset.nodup, fun x hx => ?_, fun x hx => ?_, hm.mergeset.start, fun x p hp hx => ?_⟩
  · obtain ⟨p, hp, hxp⟩ := hm.mergeset.sound x hx
    exact ⟨p, hp, (hreach hp).mpr hxp⟩
  · rw [hreach hm.mem]
    exact hm.mergeset.apart x hx
  · rw [hreach hm.mem]
    exact hm.mergeset.complete x p hp ((hreach hp).mp hx)

/-- Every stored block has the mergeset of its parents. -/
def Recorded (e : DagEngine) : Prop :=
  ∀ b d, e.gd.lookup b = some d → b ≠ blockhash.origin → Merged e (e.dag.parents b) d

theorem Recorded.add (hr : Recorded e) (inv : e.Inv) (ha : Added e e' b parents d)
    (hd : IsData e parents d) (halone : OriginAlone parents) : Recorded e' := by
  intro y dy hy hne
  rw [ha.parents_eq inv]
  by_cases hyb : y = b
  · subst hyb
    rw [ha.lookup_self] at hy
    cases hy
    rw [Function.update_self]
    exact Merged.old ⟨hd.mem, hd.known, halone, hd.mergeset⟩ ha inv
  · rw [ha.lookup_of_ne hyb] at hy
    rw [Function.update_of_ne hyb]
    exact (hr y dy hy hne).old ha inv

/-- What the order needs of an engine that `add_block` calls have built. -/
theorem Grown.recorded (h : Grown fr k genesis e) :
    Recorded e ∧ e.dag.parents genesis = [blockhash.origin] := by
  induction h with
  | @genesis e₀ e run add =>
    obtain ⟨inv, hdag, _⟩ := new_ready.post run
    obtain ⟨d, _, hd, ha, _⟩ := inv.step originAlone_self add
    have hnone : Recorded e₀ := by
      intro y dy hy hne
      have hmem : y ∈ e₀.dag.blocks := mem_blocks.mpr ⟨dy, hy⟩
      rw [hdag] at hmem
      exact absurd (Finset.mem_singleton.mp hmem) hne
    refine ⟨hnone.add inv.toInv ha hd originAlone_self, ?_⟩
    rw [ha.parents_eq inv.toInv, Function.update_self]
  | @add e e' b parents before alone run ih =>
    have inv := before.ready_best.1
    obtain ⟨d, _, hd, ha, _⟩ := inv.step alone run
    refine ⟨ih.1.add inv.toInv ha hd alone, ?_⟩
    have hne : genesis ≠ b := by
      rintro rfl
      have hparents : (e.relations.lookup genesis).getD [] = [blockhash.origin] := ih.2
      cases hl : e.relations.lookup genesis with
      | none =>
        rw [hl] at hparents
        cases hparents
      | some ps => exact ha.new (inv.relations.mp ⟨ps, hl⟩).1
    rw [ha.parents_eq inv.toInv, Function.update_of_ne hne]
    exact ih.2

/-- The engines over `genesis` in which ORIGIN has no other child. -/
inductive Rooted (fr : Reachability.Interval.Fractions) (k : Nat) (genesis : Hash) :
    DagEngine → Prop
  | genesis {e₀ e : DagEngine} (run : DagEngine.new k genesis = .ok e₀)
      (add : e₀.addBlock fr genesis [blockhash.origin] = .ok e) : Rooted fr k genesis e
  | add {e e' : DagEngine} {b : Hash} {parents : List Hash} (before : Rooted fr k genesis e)
      (origin : blockhash.origin ∉ parents) (run : e.addBlock fr b parents = .ok e') :
      Rooted fr k genesis e'

theorem Rooted.grown (h : Rooted fr k genesis e) : Grown fr k genesis e := by
  induction h with
  | genesis run add => exact .genesis run add
  | add _ horigin run ih => exact .add ih (fun hor => absurd hor horigin) run

theorem Rooted.origin_not_mem (h : Rooted fr k genesis e) (hb : b ≠ genesis) :
    blockhash.origin ∉ e.dag.parents b := by
  induction h with
  | @genesis e₀ e run add =>
    obtain ⟨inv, hdag, _⟩ := new_ready.post run
    obtain ⟨d, _, _, ha, _⟩ := inv.step originAlone_self add
    rw [ha.parents_eq inv.toInv, Function.update_of_ne hb, hdag]
    exact List.not_mem_nil
  | @add e e' c parents before horigin run ih =>
    have inv := before.grown.ready_best.1
    obtain ⟨d, _, _, ha, _⟩ := inv.step (fun hor => absurd hor horigin) run
    rw [ha.parents_eq inv.toInv]
    by_cases hbc : b = c
    · rw [hbc, Function.update_self]
      exact horigin
    · rw [Function.update_of_ne hbc]
      exact ih

/-- The data of a block is that of its parents, in the engine that it was added to. -/
theorem Rooted.isData (h : Rooted fr k genesis e) (hd : e.gd.lookup b = some d)
    (hne : b ≠ blockhash.origin) :
    ∃ before, IsData before (e.dag.parents b) d ∧ Within before e := by
  obtain ⟨before, ps, inv, hw, hps, hrun⟩ := h.grown.provenance b d hd hne
  have hb : e.dag.parents b = ps := Ready.parents_of_lookup hps
  have halone : OriginAlone ps := by
    by_cases hg : b = genesis
    · rw [← hb, hg, h.grown.recorded.2]
      exact originAlone_self
    · intro hor
      exact absurd (hb ▸ hor) (h.origin_not_mem hg)
  exact ⟨before, hb ▸ (ghostdag_spec inv.toInv fun _ => halone).post hrun, hw⟩

/-- Genesis has no work. Above it, blue work counts the blues merged along the selected chain. -/
theorem Rooted.blueWork (h : Rooted fr k genesis e) (hd : e.gd.lookup b = some d)
    (hne : b ≠ blockhash.origin) :
    (b = genesis → d.blueWork = 0) ∧ (b ≠ genesis →
      d.blueWork = e.work d.selectedParent + d.mergesetBlues.length) := by
  obtain ⟨before, hdata, hw⟩ := h.isData hd hne
  constructor
  · intro hg
    have hmem := hdata.mem
    rw [hg, h.grown.recorded.2] at hmem
    exact (hdata.origin (List.mem_singleton.mp hmem)).1
  · intro hg
    have hsp : d.selectedParent ≠ blockhash.origin := by
      intro heq
      exact h.origin_not_mem hg (heq ▸ hdata.mem)
    obtain ⟨data, hlookup⟩ := mem_blocks.mp (hdata.known _ hdata.mem)
    have hwork : before.work d.selectedParent = e.work d.selectedParent := by
      rw [work, work, hlookup, hw.gd hlookup]
    rw [(hdata.work hsp).1, hwork]

/-- The blues of a block are in the past of its parents. -/
theorem Rooted.blues (h : Rooted fr k genesis e) (hd : e.gd.lookup b = some d)
    (hne : b ≠ blockhash.origin) (hg : b ≠ genesis) (hx : x ∈ d.mergesetBlues) :
    x ≠ blockhash.origin ∧ ∃ p ∈ e.dag.parents b, BlockDag.Reach e.dag.parents x p := by
  have inv := h.grown.ready_best.1
  obtain ⟨before, hdata, _⟩ := h.isData hd hne
  obtain ⟨blues, hblues⟩ := hdata.blues
  have hm := h.grown.recorded.1 b d hd hne
  rw [hblues] at hx
  rcases List.mem_cons.mp hx with rfl | hx
  · refine ⟨fun heq => h.origin_not_mem hg (heq ▸ hm.mem), _, hm.mem, .refl⟩
  · have hmem : x ∈ d.unorderedMergesetWithoutSelectedParent := by
      rw [GhostdagData.unorderedMergesetWithoutSelectedParent, hblues]
      exact List.mem_append_left _ hx
    obtain ⟨p, hp, hreach⟩ := hm.mergeset.sound x hmem
    refine ⟨?_, p, hp, hreach⟩
    rintro rfl
    rcases hm.mergeset.apart _ hmem with hor | hor
    · exact h.origin_not_mem hg hor.1
    · exact hor (inv.origin_reach (hm.known _ hm.mem))

/-- The selected chain that ends at a block, genesis first. -/
inductive ChainTo (e : DagEngine) : Hash → List Hash → Prop
  | genesis : ChainTo e e.genesis [e.genesis]
  | step {b : Hash} {d : GhostdagData} {chain : List Hash} (ne : b ≠ e.genesis)
      (data : e.gd.lookup b = some d) (parent : ChainTo e d.selectedParent chain) :
      ChainTo e b (chain ++ [b])

theorem chainLoop_spec {fuel : Nat} {above : List Hash} :
    Returns False (e.chainLoop fuel cur above) fun r =>
      ∃ chain, ChainTo e cur chain ∧ r = chain ++ above := by
  induction fuel generalizing cur above with
  | zero => exact Returns.error id
  | succ fuel ih =>
    rw [chainLoop]
    by_cases hcur : cur = e.genesis
    · rw [if_pos hcur]
      refine Returns.ok ⟨[e.genesis], ?_, ?_⟩
      · rw [hcur]
        exact .genesis
      · rw [hcur]
        rfl
    · rw [if_neg hcur]
      have hdata : Returns False (e.selectedParent cur) fun sp =>
          ∃ d, e.gd.lookup cur = some d ∧ sp = d.selectedParent :=
        Returns.bind (unwrap_returns getData_spec) fun d hd => Returns.pure ⟨d, hd, rfl⟩
      refine Returns.bind hdata fun sp hsp => ?_
      obtain ⟨d, hd, rfl⟩ := hsp
      refine ih.mono fun r hr => ?_
      obtain ⟨chain, hchain, rfl⟩ := hr
      exact ⟨chain ++ [cur], .step hcur hd hchain, by simp⟩

/-- A list of `b` and its past, genesis first. -/
structure Lists (e : DagEngine) (b : Hash) (order : List Hash) : Prop where
  mem : ∀ x, x ∈ order ↔ Reach e.dag.parents x b ∧ x ≠ blockhash.origin
  head : ∃ rest, order = e.genesis :: rest

/-- No block comes twice, or before one of its parents. -/
structure Linear (e : DagEngine) (order : List Hash) : Prop where
  nodup : order.Nodup
  parents : order.Pairwise fun x y => y ∉ e.dag.parents x

/-- No parent of a block but its selected parent is an ancestor of that one. -/
def Apart (e : DagEngine) (b : Hash) : Prop :=
  ∀ d, e.gd.lookup b = some d → ∀ p ∈ e.dag.parents b, p ≠ d.selectedParent →
    ¬Reach e.dag.parents p d.selectedParent

/-- What a selected chain block adds to the order. -/
theorem orderSegment_spec (hr : Recorded e) (hd : e.gd.lookup b = some d) (hne : b ≠ e.genesis)
    (hor : b ≠ blockhash.origin) :
    Returns False (e.orderSegment b) fun seg => ∃ m, seg = m ++ [b] ∧
      IsMergeset e d.selectedParent (e.dag.parents b) m ∧
      m.Pairwise fun x y => (e.key x).le (e.key y) := by
  rw [orderSegment, if_neg hne]
  have hdata : Returns False (e.data b) fun d' => d' = d :=
    (unwrap_returns getData_spec).mono fun d' hd' => Option.some.inj (hd'.symm.trans hd)
  refine Returns.bind hdata fun d' hd' => ?_
  subst hd'
  refine Returns.bind sortBlocks_spec fun m hm => Returns.pure ⟨m, rfl, ?_, hm.2.1⟩
  exact (hr b d' hd hor).mergeset.perm hm.1

section Segment

variable {order m : List Hash}

/-- The past of a block on the selected chain: that of its selected parent, and its mergeset. -/
theorem Lists.step (hl : Lists e d.selectedParent order) (inv : e.Inv)
    (hm : Merged e (e.dag.parents b) d) (hor : b ≠ blockhash.origin)
    (hb : blockhash.origin ∉ e.dag.parents b)
    (hmerge : IsMergeset e d.selectedParent (e.dag.parents b) m) :
    Lists e b (order ++ (m ++ [b])) := by
  have hmne : ∀ x ∈ m, x ≠ blockhash.origin := by
    rintro x hx rfl
    rcases hmerge.apart _ hx with ⟨hparent, _⟩ | hnot
    · exact hb hparent
    · exact hnot (inv.origin_reach (hm.known _ hm.mem))
  refine ⟨fun x => ?_, ?_⟩
  · rw [List.mem_append, List.mem_append, List.mem_singleton]
    constructor
    · rintro (hx | hx | rfl)
      · obtain ⟨hreach, hne⟩ := (hl.mem x).mp hx
        exact ⟨hreach.trans (reach_of_parent hm.mem), hne⟩
      · obtain ⟨p, hp, hreach⟩ := hmerge.sound x hx
        exact ⟨hreach.trans (reach_of_parent hp), hmne x hx⟩
      · exact ⟨.refl, hor⟩
    · rintro ⟨hreach, hne⟩
      rcases reach_iff.mp hreach with rfl | hpast
      · exact Or.inr (Or.inr rfl)
      · obtain ⟨p, hp, hxp⟩ := past_iff.mp hpast
        rcases hmerge.complete x p hp hxp with hsp | hxm
        · exact Or.inl ((hl.mem x).mpr ⟨hsp, hne⟩)
        · exact Or.inr (Or.inl hxm)
  · obtain ⟨rest, hrest⟩ := hl.head
    exact ⟨rest ++ (m ++ [b]), by rw [hrest, List.cons_append]⟩

/-- When the mergeset is apart from the past of the selected parent, the list stays linear. -/
theorem Linear.step (hlin : Linear e order) (inv : e.Inv) (hm : Merged e (e.dag.parents b) d)
    (hl : Lists e d.selectedParent order)
    (hd : e.gd.lookup b = some d) (hapart : Apart e b)
    (hmerge : IsMergeset e d.selectedParent (e.dag.parents b) m)
    (hsort : m.Pairwise fun x y => (e.key x).le (e.key y)) :
    Linear e (order ++ (m ++ [b])) := by
  have hacyclic : ∀ {x}, ¬Past e.dag.parents x x := inv.index.dag.acyclic
  have hout : ∀ x ∈ m, ¬Reach e.dag.parents x d.selectedParent := by
    intro x hx
    rcases hmerge.apart x hx with ⟨hparent, hne⟩ | hnot
    · exact hapart d hd x hparent hne
    · exact hnot
  have hbelow : ∀ x ∈ order ++ m, Past e.dag.parents x b := by
    intro x hx
    rcases List.mem_append.mp hx with hx | hx
    · exact past_iff.mpr ⟨_, hm.mem, ((hl.mem x).mp hx).1⟩
    · exact past_iff.mpr (hmerge.sound x hx)
  rw [← List.append_assoc]
  constructor
  · rw [List.nodup_append, List.nodup_append]
    refine ⟨⟨hlin.nodup, hmerge.nodup, fun x hx y hy => ?_⟩, by simp, fun x hx y hy => ?_⟩
    · rintro rfl
      exact hout x hy ((hl.mem x).mp hx).1
    · rw [List.mem_singleton.mp hy]
      rintro rfl
      exact hacyclic (hbelow x hx)
  · rw [List.pairwise_append, List.pairwise_append]
    refine ⟨⟨hlin.parents, hsort.imp_of_mem ?_, fun x hx y hy hparent => ?_⟩, by simp,
      fun x hx y hy hparent => ?_⟩
    · intro x y _ hy hle hparent
      have hne : y ≠ blockhash.origin := fun hor =>
        hout y hy (hor ▸ inv.origin_reach (hm.known _ hm.mem))
      have hwork := inv.work hparent hne
      rcases hle with hlt | ⟨heq, _⟩
      · exact Nat.lt_asymm hwork hlt
      · exact Nat.ne_of_gt hwork heq
    · exact hout y hy ((reach_of_parent hparent).trans ((hl.mem x).mp hx).1)
    · rw [List.mem_singleton.mp hy] at hparent
      exact hacyclic ((Relation.TransGen.single hparent).trans (hbelow x hx))

end Segment

/-- The order up to a block of the selected chain: genesis, and for every block above it its sorted
mergeset and then the block. -/
inductive OrderTo (e : DagEngine) : Hash → List Hash → Prop
  | genesis : OrderTo e e.genesis [e.genesis]
  | step {b : Hash} {d : GhostdagData} {front m : List Hash} (ne : b ≠ e.genesis)
      (data : e.gd.lookup b = some d) (parent : OrderTo e d.selectedParent front)
      (mergeset : IsMergeset e d.selectedParent (e.dag.parents b) m)
      (sorted : m.Pairwise fun x y => (e.key x).le (e.key y)) : OrderTo e b (front ++ (m ++ [b]))

/-- There is one mergeset. -/
theorem IsMergeset.unique {sp : Hash} {m m' : List Hash} (h : IsMergeset e sp ps m)
    (h' : IsMergeset e sp ps m') : m.Perm m' := by
  have hsub : ∀ {m m' : List Hash}, IsMergeset e sp ps m → IsMergeset e sp ps m' →
      ∀ x ∈ m, x ∈ m' := by
    intro m m' h h' x hx
    obtain ⟨p, hp, hreach⟩ := h.sound x hx
    rcases h.apart x hx with ⟨hparent, hne⟩ | hnot
    · exact h'.start x hparent hne
    · exact (h'.complete x p hp hreach).resolve_left hnot
  apply (List.perm_ext_iff_of_nodup h.nodup h'.nodup).mpr
  exact fun x => ⟨hsub h h' x, hsub h' h x⟩

/-- There is one order up to a block. -/
theorem OrderTo.unique {order order' : List Hash} (h : OrderTo e b order)
    (h' : OrderTo e b order') : order = order' := by
  induction h generalizing order' with
  | genesis =>
    cases h' with
    | genesis => rfl
    | step ne => exact absurd rfl ne
  | step ne data _ mergeset sorted ih =>
    cases h' with
    | genesis => exact absurd rfl ne
    | step _ data' parent' mergeset' sorted' =>
      cases data.symm.trans data'
      rw [ih parent', List.Perm.eq_of_pairwise (fun x y _ _ hxy hyx => ?_) sorted sorted'
        (mergeset.unique mergeset')]
      exact congrArg SortableBlock.hash (SortableBlock.le_antisymm hxy hyx)

/-- The segments of a selected chain, one after the other. -/
theorem ChainTo.orderTo (h : Rooted fr k genesis e) {chain : List Hash} (hc : ChainTo e cur chain)
    (hcur : cur ≠ blockhash.origin) :
    Returns False (chain.mapM e.orderSegment) fun segs => OrderTo e cur segs.flatten := by
  have hgenesis := h.grown.ready_best.1.genesis
  have hrec := h.grown.recorded.1
  induction hc with
  | genesis =>
    have hseg : e.orderSegment e.genesis = .ok [e.genesis] := by
      rw [orderSegment, if_pos rfl]
      rfl
    have hrun : [e.genesis].mapM e.orderSegment = .ok [[e.genesis]] := by
      rw [List.mapM_cons, hseg]
      rfl
    rw [hrun]
    exact Returns.ok .genesis
  | @step b d chain hne hd hparent ih =>
    have hsp : d.selectedParent ≠ blockhash.origin := fun hor =>
      h.origin_not_mem (hgenesis ▸ hne) (hor ▸ (hrec b d hd hcur).mem)
    rw [List.mapM_append]
    refine Returns.bind (ih hsp) fun segs hsegs => ?_
    have hlast : Returns False ([b].mapM e.orderSegment) fun last => ∃ m, last = [m ++ [b]] ∧
        IsMergeset e d.selectedParent (e.dag.parents b) m ∧
        m.Pairwise fun x y => (e.key x).le (e.key y) := by
      rw [List.mapM_cons]
      refine Returns.bind (orderSegment_spec hrec hd hne hcur) fun seg hseg => ?_
      obtain ⟨m, rfl, hmerge, hsort⟩ := hseg
      exact Returns.pure ⟨m, rfl, hmerge, hsort⟩
    refine Returns.bind hlast fun last hlast => Returns.pure ?_
    obtain ⟨m, rfl, hmerge, hsort⟩ := hlast
    rw [List.flatten_append, List.flatten_singleton]
    exact .step hne hd hsegs hmerge hsort

theorem Rooted.orderTo (h : Rooted fr k genesis e) :
    Returns False e.totalOrder (OrderTo e e.tip) := by
  refine Returns.bind chainLoop_spec fun chain hchain => ?_
  obtain ⟨chain', hc, rfl⟩ := hchain
  rw [List.append_nil]
  exact Returns.bind (hc.orderTo h h.grown.ready_best.2.ne) fun segs hsegs => Returns.pure hsegs

section OrderTo

variable {order : List Hash}

/-- What the blocks above genesis are made of. -/
theorem Rooted.merged (h : Rooted fr k genesis e) (hne : b ≠ e.genesis)
    (hor : b ≠ blockhash.origin) (hd : e.gd.lookup b = some d) :
    Merged e (e.dag.parents b) d ∧ blockhash.origin ∉ e.dag.parents b ∧
      d.selectedParent ≠ blockhash.origin := by
  have hm := h.grown.recorded.1 b d hd hor
  have hb : blockhash.origin ∉ e.dag.parents b :=
    h.origin_not_mem (h.grown.ready_best.1.genesis ▸ hne)
  exact ⟨hm, hb, fun hsp => hb (hsp ▸ hm.mem)⟩

/-- The order up to a block lists its past. -/
theorem OrderTo.lists (ho : OrderTo e b order) (h : Rooted fr k genesis e)
    (hor : b ≠ blockhash.origin) : Lists e b order := by
  have ready := h.grown.ready_best.1
  have inv := ready.toInv
  induction ho with
  | genesis =>
    refine ⟨fun x => ?_, [], rfl⟩
    rw [List.mem_singleton]
    constructor
    · rintro rfl
      exact ⟨.refl, hor⟩
    · rintro ⟨hreach, hne⟩
      rcases reach_iff.mp hreach with heq | hpast
      · exact heq
      · obtain ⟨p, hp, hxp⟩ := past_iff.mp hpast
        have hgen := h.grown.recorded.2
        rw [← ready.genesis] at hgen
        rw [hgen, List.mem_singleton] at hp
        exact absurd (inv.eq_origin (hp ▸ hxp)) hne
  | step hne hd _ hmerge _ ih =>
    obtain ⟨hm, hb, hsp⟩ := h.merged hne hor hd
    exact (ih hsp).step inv hm hor hb hmerge

/-- When every block is apart from its other parents, the order is linear. -/
theorem OrderTo.linear (ho : OrderTo e b order) (h : Rooted fr k genesis e)
    (hor : b ≠ blockhash.origin)
    (hapart : ∀ b ∈ e.dag.blocks, b ≠ genesis → b ≠ blockhash.origin → Apart e b) :
    Linear e order := by
  have ready := h.grown.ready_best.1
  induction ho with
  | genesis => exact ⟨by simp, by simp⟩
  | step hne hd parent hmerge hsort ih =>
    obtain ⟨hm, _, hsp⟩ := h.merged hne hor hd
    have hb := hapart _ (mem_blocks.mpr ⟨_, hd⟩) (ready.genesis ▸ hne) hor
    exact (ih hsp).step ready.toInv hm (parent.lists h hsp) hd hb hmerge hsort

end OrderTo

/-- The total order lists the past of the tip, and is linear when every block has its other
parents apart from the past of its selected parent. -/
theorem Rooted.totalOrder (h : Rooted fr k genesis e) :
    Returns False e.totalOrder fun order => Lists e e.tip order ∧
      ((∀ b ∈ e.dag.blocks, b ≠ genesis → b ≠ blockhash.origin → Apart e b) → Linear e order) := by
  have hne := h.grown.ready_best.2.ne
  exact h.orderTo.mono fun order ho => ⟨ho.lists h hne, ho.linear h hne⟩

end TaoDag.Ghostdag.DagEngine
